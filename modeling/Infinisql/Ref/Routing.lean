import Infinisql.Ref.Commit

/-!
# Which partition holds an index entry

The routines that turn a value into a partition. All of them hash the member
of the value that the field's type names and take the hash modulo the number
of partitions. They differ in what they do to strings first: `getengine` and
the `getEngineid` of a single value trim trailing space, the `getEngineid` of
a table's field and `getPartitionid` do not.

SQL statements stage unique entries where `getengine` says, the calls of
stored procedures where the `getEngineid` of a field says. A search for
equality asks the `getEngineid` of the value, a search for nulls the partition
that the field's number names, and any other search asks all partitions. A
replica files an entry where `getPartitionid` says of the row it was sent.

A `long double` is hashed over its sixteen bytes, and is passed with all of
them.
-/

namespace Infinisql.Ref

/-- The comparison operators of `operatortypes_e` that `sqlPredicate` takes. -/
inductive Operatortype
  | eq
  | ne
  | lt
  | gt
  | lte
  | gte
  | between
  | isnull
  | in
  | like
  | notbetween
  | isnotnull
  | notin
  | notlike
  | regex
  deriving DecidableEq, Repr

/-- The two ways in which rows are written. -/
inductive WritePath
  | statement
  | procedure
  deriving DecidableEq, Repr

namespace Transaction

/-- `getengine`, and the value as it leaves it: the string is trimmed in
place. -/
def getengine (top : Topology) (f : Field) (fieldValue : FieldValue) :
    Int × FieldValue :=
  let val := trimField f fieldValue
  (getEngineid top f val, val)

/-- The overloads of `getEngineid` for a single value. -/
def getEngineidOf (top : Topology) (f : Field) (input : FieldValue) : Int :=
  getEngineid top f (trimField f input)

/-- The partition where the unique entry of a value is staged. -/
def stagingEngineid (top : Topology) (path : WritePath) (f : Field)
    (fieldValue : FieldValue) : Int :=
  match path with
  | .statement => (getengine top f fieldValue).1
  | .procedure => getEngineid top f fieldValue

/-- The partitions that `sqlPredicate` sends a search to. -/
def searchEngineids (top : Topology) (op : Operatortype) (fieldid : Nat)
    (f : Field) (value : FieldValue) : List Int :=
  match op with
  | .eq =>
      if f.type = .nofieldtype then []
      else [getEngineidOf top f value]
  | .isnull => [nullEngineid top fieldid]
  | _ => (List.range top.numpartitions).map fun n => (n : Int)

/-- The partition of the item that commits or removes the entry of a value
that is not null. -/
def itemEngineid (top : Topology) (f : Field) (value : FieldValue) : Int :=
  getEngineid top f (trimField f value)

end Transaction

/-- `getPartitionid`. -/
def getPartitionid (top : Topology) (f : Field) (fieldVal : FieldValue) :
    Int :=
  Transaction.getEngineid top f fieldVal

end Infinisql.Ref
