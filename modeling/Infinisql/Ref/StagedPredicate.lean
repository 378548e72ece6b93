import Infinisql.Ref.Routing
import Infinisql.Ref.Statements

/-!
# Predicates on staged rows

Before a predicate of a WHERE clause is sent to the engines,
`stagedPredicate` looks for rows among those the transaction has staged. It
goes through the staged rows in the order the map has them, decodes each into
one vector of values, and compares the value of the field with the bytes of the
right operand. There is a case for each type of field and each operator, and
where there is none the search is given up.

The vector of values is not cleared between rows. A null leaves the value
there as it was, and so does a row that ends early. A slot always holds the
same field, so the bytes of the union beyond its member stay zero.

What the code reads past the end of an operand is not in the source, and
neither is the value of a `bool` whose byte is not 0 or 1. It has no result
here. An operator of one operand passes its own operand to the left, which is
empty.
-/

namespace Infinisql.Ref

/-! ## Comparing members -/

/-- The `<` of a member. A `char` has a sign, and strings compare as bytes. -/
def Key.lt : Key → Key → Bool
  | .integer a, .integer b => a < b
  | .uinteger a, .uinteger b => a < b
  | .boolean a, .boolean b => !a && b
  | .floating a, .floating b => a < b
  | .character a, .character b => a.slt b
  | .str a, .str b => a < b
  | _, _ => false

/-- `compareFields`. -/
def compareFields (type : Fieldtype) (val1 val2 : FieldValue) : Bool :=
  if val1.isnull && val2.isnull then true
  else if val1.isnull || val2.isnull then false
  else (val1.key type).isSome && val1.key type = val2.key type

/-! ## `unmakerow` into a vector in use -/

/-- A field's value over the one that was there. -/
def FieldValue.overwrite (f : Field) (old v : FieldValue) : FieldValue :=
  match f.type with
  | .charx | .varchar => { old with str := v.str, isnull := false }
  | .nofieldtype => { old with isnull := false }
  | _ => { old with value := v.value, isnull := false }

/-- The loop of `unmakerow` over the values that are there. -/
def unmakefieldsInto (row : Bytes) :
    List Field → List FieldValue → Nat → List FieldValue
  | f :: fields, old :: olds, pos =>
      if row.length ≠ 0 ∧ row.length - 1 ≤ pos then old :: olds
      else if row.getD pos 0 = 0 then
        let (v, pos') := unmakefield f row (pos + 1)
        old.overwrite f v :: unmakefieldsInto row fields olds pos'
      else
        { old with isnull := true } ::
          unmakefieldsInto row fields olds (pos + 1)
  | _, olds, _ => olds

def unmakerowInto (fields : List Field) (row : Bytes)
    (fieldValues : List FieldValue) : List FieldValue :=
  unmakefieldsInto row fields fieldValues 0

namespace Statement

/-! ## Operands -/

/-- The `fieldid` in an operand. -/
def fieldidOf (operand : Bytes) : Option Nat :=
  if operand.length < 9 then none else some (integerOf operand).toNat

/-- A value of the type from `operand[pos]` on. -/
def operandKey (type : Fieldtype) (operand : Bytes) (pos : Nat) : Option Key :=
  let value (n : Nat) : Option FieldInput :=
    if pos + n ≤ operand.length then
      some (.ofBytes (readBytes operand pos n))
    else none
  match type with
  | .int => (value 8).map fun v => .integer v.integer
  | .bool =>
      (value 1).bind fun v =>
        if v = 0#128 then some (.boolean false)
        else if v = 1#128 then some (.boolean true)
        else none
  | .float => (value 16).map fun v => .floating v.floating
  | .char =>
      -- One past the end is the zero that ends the string.
      if pos ≤ operand.length then
        some (.character (FieldInput.ofBytes
          (readBytes operand pos 1)).character)
      else none
  | .charx | .varchar => some (.str (operand.drop pos))
  | .uint | .nofieldtype => none

/-- `rhsval`, and `rhsval2` for the operators that take a range. A float goes
through `toFloat` first, but not those of a range; what that makes of an
integer is shorter than a float. To do so in place again changes nothing. -/
def rightKeys (type : Fieldtype) (op : Operatortype) (rightoperand : Bytes) :
    Option Key × Option Key :=
  if op = .between ∨ op = .notbetween then
    match type with
    | .char =>
        (operandKey type rightoperand 9, operandKey type rightoperand 10)
    | .bool =>
        (operandKey type rightoperand 1, operandKey type rightoperand 2)
    | .float =>
        (operandKey type rightoperand 1, operandKey type rightoperand 17)
    | _ => (operandKey type rightoperand 1, operandKey type rightoperand 9)
  else if type = .float ∧ 17 ≤ rightoperand.length then
    (operandKey type (toFloatOperand rightoperand) 1, none)
  else (operandKey type rightoperand 1, none)

/-! ## The cases -/

/-- There is a case for the operator on a field of the type. -/
def hasCase (type : Fieldtype) (op : Operatortype) : Bool :=
  match type with
  | .int | .bool | .float | .char =>
      op ≠ .like ∧ op ≠ .notlike ∧ op ≠ .regex
  | .charx | .varchar =>
      op = .eq ∨ op = .ne ∨ op = .in ∨ op = .notin ∨ op = .isnull ∨
        op = .isnotnull
  | .uint | .nofieldtype => false

/-- A comparison of the field's value with what the right operand has. Nulls
are not looked for. -/
def comparison (op : Operatortype) (rhsval rhsval2 : Option Key) (lhs : Key) :
    Option Bool :=
  match op with
  | .eq => rhsval.map fun b => lhs = b
  | .ne => rhsval.map fun b => lhs ≠ b
  | .gt => rhsval.map fun b => b.lt lhs
  | .lt => rhsval.map fun b => lhs.lt b
  | .gte => rhsval.map fun b => !lhs.lt b
  | .lte => rhsval.map fun b => !b.lt lhs
  | .between =>
      match rhsval, rhsval2 with
      | some a, some b => some (!lhs.lt a && !b.lt lhs)
      | _, _ => none
  | .notbetween =>
      match rhsval, rhsval2 with
      | some a, some b => some (lhs.lt a || b.lt lhs)
      | _, _ => none
  | _ => none

/-- `results`, an `unordered_map`. -/
abbrev PredicateResults := UuRecord → Option ReturnRow

/-- The loop of `OPERATOR_IN`, over the staged rows of all tables. The loop
over the list has the size of the list as its condition, so it runs past the
end of a list that is not empty. -/
def stagedIn (fields : List Field) (inValues : List FieldValue) :
    List (UuRecord × StagedRow) → List FieldValue → PredicateResults →
      Option PredicateResults
  | [], _, results => some results
  | (_, sRow) :: rest, fieldValues, results =>
      let rRow := stagedRow2ReturnRow sRow
      match inValues with
      | [] =>
          stagedIn fields inValues rest
            (unmakerowInto fields rRow.row fieldValues) results
      | _ :: _ => none

/-- The loop of `OPERATOR_NOTIN`. It ends where a value of the list is found,
and else runs past the end. -/
def stagedNotin (fields : List Field) (f : Field) (fieldid : Nat)
    (inValues : List FieldValue) :
    List (UuRecord × StagedRow) → List FieldValue → PredicateResults →
      Option PredicateResults
  | [], _, results => some results
  | (uur, sRow) :: rest, fieldValues, results =>
      let rRow := stagedRow2ReturnRow sRow
      let fieldValues := unmakerowInto fields rRow.row fieldValues
      let lhs := fieldValues.getD fieldid {}
      if inValues = [] then
        stagedNotin fields f fieldid inValues rest fieldValues
          (Function.update results uur (some rRow))
      else if inValues.any fun v => compareFields f.type lhs v then
        stagedNotin fields f fieldid inValues rest fieldValues results
      else none

/-! ## `stagedPredicate` -/

/-- The loop over the staged rows. -/
def stagedLoop (fields : List Field) (op : Operatortype) (tableid : Int)
    (fieldid : Option Nat) (rightoperand : Bytes) (inValues : List FieldValue)
    (stagedRows : List (UuRecord × StagedRow)) :
    List (UuRecord × StagedRow) → List FieldValue → PredicateResults → Bool →
      Option (Bool × PredicateResults)
  | [], _, results, equalhit => some (equalhit, results)
  | (uur, stagedRow) :: rest, fieldValues, results, equalhit =>
      let next := stagedLoop fields op tableid fieldid rightoperand inValues
        stagedRows rest
      if uur.tableid ≠ tableid then next fieldValues results equalhit
      else
        match fieldid with
        | none => none
        | some n =>
            match fields[n]? with
            | none => none
            | some f =>
                let returnRow := stagedRow2ReturnRow stagedRow
                let fieldValues :=
                  unmakerowInto fields returnRow.row fieldValues
                let lhs := fieldValues.getD n {}
                let put := Function.update results uur (some returnRow)
                if !hasCase f.type op then some (equalhit, results)
                else
                  match op with
                  | .isnull =>
                      next fieldValues (if lhs.isnull then put else results)
                        equalhit
                  | .isnotnull =>
                      next fieldValues (if lhs.isnull then results else put)
                        equalhit
                  | .in =>
                      match stagedIn fields inValues stagedRows
                        (List.replicate fields.length {}) results with
                      | none => none
                      | some results => next fieldValues results equalhit
                  | .notin =>
                      match fieldidOf rightoperand with
                      | none => none
                      | some m =>
                          match fields[m]? with
                          | none => none
                          | some g =>
                              match stagedNotin fields g m inValues
                                stagedRows (List.replicate fields.length {})
                                results with
                              | none => none
                              | some results =>
                                  next fieldValues results equalhit
                  | op =>
                      let (rhsval, rhsval2) :=
                        rightKeys f.type op rightoperand
                      match lhs.key f.type with
                      | none => none
                      | some lhs =>
                          match comparison op rhsval rhsval2 lhs with
                          | none => none
                          | some false => next fieldValues results equalhit
                          | some true =>
                              next fieldValues put
                                (equalhit || (f.type = .int && op = .eq))

/-- The operators that have their operand to the right only. -/
def unary (op : Operatortype) : Bool :=
  op = .in ∨ op = .notin ∨ op = .isnull ∨ op = .isnotnull

def stagedPredicate (fields : List Field) (op : Operatortype) (tableid : Int)
    (leftoperand rightoperand : Bytes) (inValues : List FieldValue)
    (stagedRows : List (UuRecord × StagedRow)) (results : PredicateResults) :
    Option (Bool × PredicateResults) :=
  if !unary op && operandType leftoperand ≠ operandFieldid then
    some (false, results)
  else
    stagedLoop fields op tableid (fieldidOf leftoperand) rightoperand inValues
      stagedRows stagedRows (List.replicate fields.length {}) results false

end Statement

/-- `evaluate`: whether the engines are asked once the staged rows have
been. -/
def Ast.asksEngines (op : Operatortype) (equalhit : Bool) : Bool :=
  match op with
  | .eq => !equalhit
  | _ => true

end Infinisql.Ref
