import Infinisql.Ref.Grammar
import Infinisql.Ref.StagedPredicate

/-!
# Running the queries of a statement

`startQuery` takes the queries from the last to the first, each when the one
before it is done. What a query with subqueries then finds of them is their
`selectResults`, under the number in the operand that stands for the subquery.

Four routines read them. Each is handed a node and reads the number from that
node's operand. `normalizeSetAssignmentOperand` hands over the node of the
subquery; `Ast::evaluate` hands over the operator above it, whose own operand
is empty until it has been evaluated. `operandSeen` and `operandAssigned` are
what an expression then works on.

The number is read with `memcpy`: from an operand without eight bytes behind
the first it is not there to be read, and the routine has no result. Names are
looked up where the source has their ids.
-/

namespace Infinisql.Larx

open Infinisql.Ref (Bytes FieldInput FieldValue Field Fieldtype UuRecord
  operandType operandInteger operandFloat operandNull operandString
  operandParameter operandBoolean integerOperand integerOf resize
  compareFields)
open Infinisql.Asts (Operatortype operandSubquery operandIdentifier)

/-! ## Names and results -/

/-- The tables by their names, each with its fields and their names. -/
abbrev Schema := Bytes → Option (List (Bytes × Field))

/-- `getfieldid`. -/
def getfieldid (fields : List (Bytes × Field)) (name : Bytes) : Option ℕ :=
  fields.findIdx? fun f => decide (f.1 = name)

/-- The fields that a column of a SELECT stands for. -/
def columnids (fields : List (Bytes × Field)) (column : Bytes) :
    Option (List ℕ) :=
  if operandType column = 42 then some (List.range fields.length)
  else if operandType column = operandIdentifier then
    (getfieldid fields (column.drop 1)).map ([·])
  else if operandType column = operandAggregate then
    (getfieldid fields (column.drop 2)).map ([·])
  else none

/-- `fromColumnids`, without the aggregates and the names. -/
def fromColumnids (fields : List (Bytes × Field)) (fromColumns : List Bytes) :
    Option (List ℕ) :=
  (fromColumns.reverse.mapM (columnids fields)).map List.flatten

/-- `selectResults`. -/
abbrev SelectResults := List (UuRecord × List FieldValue)

/-- The results that there are when a query is begun, by the number of their
query. A query that has not been run has none. -/
abbrev Results := ℕ → Option SelectResults

def selectResults (results : Results) (queryinstance : ℕ) : SelectResults :=
  (results queryinstance).getD []

/-- `startQuery`, from one query to the next: the number of each, and the
results when it is begun. What a query finds is given. -/
def startQuery (found : ℕ → SelectResults) :
    ℕ → Results → List (ℕ × Results)
  | 0, _ => []
  | queryindex + 1, results =>
      (queryindex, results) ::
        startQuery found queryindex
          (Function.update results queryindex (some (found queryindex)))

/-! ## The four routines -/

/-- The number that is packed into an operand. -/
def queryinstance (operand : Bytes) : Option ℕ :=
  if operand.length < 9 then none else some (integerOf operand).toNat

/-- The operand that a single value becomes. For a truth value the string is
cut after two bytes, and keeps its first. -/
def scalarOperand (operand : Bytes) (type : Fieldtype) (v : FieldValue) :
    Bytes :=
  match type with
  | .int | .uint => integerOperand (v.value.setWidth 64)
  | .bool =>
      (resize operand 2 operandBoolean).set 1
        (if v.value.boolean then 116 else 102)
  | .float =>
      operandFloat :: v.value.toBytes 8 ++ (resize operand 17 0).drop 9
  | .char => [operandString, UInt8.ofNat v.value.character.toNat]
  | .charx | .varchar => operandString :: v.str
  | .nofieldtype => operand

/-- `subqueryScalar`: the operand of the node, afterwards. The type is that of
the first field of the table. -/
def subqueryScalar (schema : Schema) (queries : List Query)
    (results : Results) (operand : Bytes) : Option Bytes :=
  if operandType operand ≠ operandSubquery then some operand
  else
    match queryinstance operand with
    | none => none
    | some i =>
        match queries[i]? with
        | none => none
        | some q =>
            match selectResults results i with
            | [] => some [operandNull]
            | [(_, [v])] =>
                match schema q.table with
                | some (f :: _) => some (scalarOperand operand f.2.type v)
                | _ => none
            | _ => some operand

/-- The operand that a truth value becomes: the length and the byte to fill it
up with have changed places. -/
def truthOperand (operand : Bytes) (torf : Bool) : Bytes :=
  (resize operand operandBoolean.toNat 2).set 1 (if torf then 116 else 102)

/-- `subqueryExists`. -/
def subqueryExists (queries : List Query) (results : Results)
    (operand : Bytes) : Option Bytes :=
  match queryinstance operand with
  | none => none
  | some i =>
      match queries[i]? with
      | none => none
      | some _ =>
          some (truthOperand operand (decide (selectResults results i ≠ [])))

/-- Two rows agree in the columns. -/
def columnsMatch (types : List Fieldtype) (v w : List FieldValue) : Bool :=
  (List.range types.length).all fun n =>
    compareFields (types.getD n .nofieldtype) (v.getD n {}) (w.getD n {})

/-- The inner loop of `subqueryUnique`, which moves the iterator of the outer
one: whether it finds a match before that iterator is past the end and read
there. `second` is the row its own iterator stays on. -/
def uniqueInner (types : List Fieldtype) (row second : UuRecord ×
    List FieldValue) : SelectResults → Option Bool
  | [] => none
  | it :: rest =>
      if row.1 = second.1 then uniqueInner types row second rest
      else if columnsMatch types row.2 it.2 then some true
      else uniqueInner types row second rest

/-- `subqueryUnique`. The outer loop does not come to a second row. -/
def subqueryUnique (schema : Schema) (queries : List Query)
    (results : Results) (operand : Bytes) : Option Bytes :=
  match queryinstance operand with
  | none => none
  | some i =>
      match queries[i]? with
      | none => none
      | some q =>
          match schema q.table with
          | none => none
          | some fields =>
              match fromColumnids fields q.fromColumns with
              | none => none
              | some ids =>
                  let types := ids.map fun n =>
                    (fields[n]?.map fun f => f.2.type).getD .nofieldtype
                  match selectResults results i with
                  | [] => some (truthOperand operand true)
                  | row :: rest =>
                      (uniqueInner types row row (row :: rest)).map fun _ =>
                        truthOperand operand false

/-- `subqueryIn`: the values that are added to `inValues`. -/
def subqueryIn (queries : List Query) (results : Results) (operand : Bytes) :
    Option (List FieldValue) :=
  match queryinstance operand with
  | none => none
  | some i =>
      match queries[i]? with
      | none => none
      | some _ => (selectResults results i).mapM fun row => row.2[0]?

/-! ## Where they are called -/

/-- Where a subquery stands in a tree: its operand, and the operator above
it. -/
structure Use where
  user : Option Operatortype
  operand : Bytes
  deriving DecidableEq

/-- The subqueries of a tree. -/
def Tree.uses (user : Option Operatortype) : Tree → List Use
  | .null => []
  | .operand val =>
      if operandType val = operandSubquery then [⟨user, val⟩] else []
  | .operator op leftchild rightchild =>
      leftchild.uses (some op) ++ rightchild.uses (some op)

/-- How `Ast::evaluate` resolves the operand of a child: the node's own operand
and the child's, afterwards. -/
def resolveChild (schema : Schema) (queries : List Query) (results : Results)
    (parameters : List Bytes) (this child : Bytes) : Option (Bytes × Bytes) :=
  if operandType child = operandParameter then
    (parameters[(integerOf child).toNat]?).map fun s => (this, s)
  else if operandType child = operandSubquery then
    (subqueryScalar schema queries results this).map fun s => (s, child)
  else some (this, child)

/-- What `Ast::evaluate` takes for the subquery. An EXISTS or a UNIQUE becomes
its own operand; an operand alone is left as it is. -/
def operandSeen (schema : Schema) (queries : List Query) (results : Results)
    (u : Use) : Option Bytes :=
  match u.user with
  | none => some u.operand
  | some .exists =>
      (resolveChild schema queries results [] [] u.operand).bind fun s =>
        subqueryExists queries results s.1
  | some .unique =>
      (resolveChild schema queries results [] [] u.operand).bind fun s =>
        subqueryUnique schema queries results s.1
  | some _ =>
      (resolveChild schema queries results [] [] u.operand).map Prod.snd

/-- What `evaluateAssignment` takes for it: the case of
`normalizeSetAssignmentOperand`. -/
def operandAssigned (schema : Schema) (queries : List Query)
    (results : Results) (u : Use) : Option Bytes :=
  subqueryScalar schema queries results u.operand

/-- The values that an IN or NOT IN of a query with `issubquery` is given. -/
def valuesSeen (queries : List Query) (results : Results) :
    Option (List FieldValue) :=
  subqueryIn queries results []

end Infinisql.Larx
