import Infinisql.Proofs.RowRoundTrip
import Infinisql.Spec.Assignment

/-!
# The rows of an update

Evaluating an assignment rewrites its tree into the value, and the tree is the
same for all rows of the statement. So every row gets the value that came out
for the row that was visited first. An update is right, whatever the order in
which the rows are visited, exactly if each assigned field should get the same
value in every row and that value comes out right for a row that is visited
first.

It comes out right if it is an integer or a string. A null in a field is not
seen; of a float field half is copied; the result of an operator on floats is
overwritten with an integer; and a `BOOL` field is true whatever the literal.
-/

namespace Infinisql.Proofs

open Infinisql.Ref Infinisql.Spec

/-! ## Operands -/

@[simp] theorem operandType_integerOperand (v : BitVec 64) :
    operandType (integerOperand v) = operandInteger := rfl

@[simp] theorem integerOf_integerOperand (v : BitVec 64) :
    integerOf (integerOperand v) = v := by
  rw [integerOf, integerOperand, List.drop_one, List.tail_cons,
    List.take_of_length_le (by rw [length_toBytes]),
    setWidth_ofBytes_toBytes _ (by omega)]
  simp

theorem literal_integerOperand (v : BitVec 64) :
    Value.literal (integerOperand v) = some (.integer v) := by
  rw [Value.literal, operandType_integerOperand, integerOf_integerOperand]
  rfl

theorem literal_string (s : Bytes) :
    Value.literal (operandString :: s) = some (.string s) := rfl

/-- What an operand that is the literal of a value looks like. -/
def IsLiteral (s : Bytes) : Value → Prop
  | .null => operandType s = operandNull
  | .integer v => operandType s = operandInteger ∧ integerOf s = v
  | .float v => operandType s = operandFloat ∧ floatOf s = v
  | .string t => operandType s = operandString ∧ s.drop 1 = t
  | .boolean b =>
      operandType s = operandBoolean ∧ s.getD 1 0 = if b then 116 else 102

theorem isLiteral_of_literal {s : Bytes} {v : Value}
    (h : Value.literal s = some v) : IsLiteral s v := by
  rw [Value.literal] at h
  split at h
  · next hs => exact Option.some.inj h ▸ hs
  · split at h
    · next hs => exact Option.some.inj h ▸ ⟨hs, rfl⟩
    · split at h
      · next hs => exact Option.some.inj h ▸ ⟨hs, rfl⟩
      · split at h
        · next hs => exact Option.some.inj h ▸ ⟨hs, rfl⟩
        · split at h
          · next hs =>
              split at h
              · next hb => exact Option.some.inj h ▸ ⟨hs, hb⟩
              · split at h
                · next hb => exact Option.some.inj h ▸ ⟨hs, hb⟩
                · exact absurd h (by simp)
          · exact absurd h (by simp)

/-- It is neither a field nor a parameter. -/
theorem literal_type {s : Bytes} {v : Value} (h : Value.literal s = some v) :
    operandType s ≠ operandFieldid ∧ operandType s ≠ operandParameter := by
  have h := isLiteral_of_literal h
  cases v with
  | null => rw [show operandType s = operandNull from h]; decide
  | integer v => rw [h.1]; decide
  | float v => rw [h.1]; decide
  | string v => rw [h.1]; decide
  | boolean v => rw [h.1]; decide

/-! ## One expression -/

variable {ld : LongDouble} {fields : List Field}
  {fieldValues : List FieldValue} {parameters : List Bytes}

/-- A literal is left as it is. -/
theorem evaluateAssignment_literal {s : Bytes} {v : Value}
    (h : Value.literal s = some v) :
    (Ast.operand s).evaluateAssignment ld fields fieldValues parameters =
      some (.operand s) := by
  obtain ⟨h1, h2⟩ := literal_type h
  rw [Ast.evaluateAssignment, Ast.normalizeSetAssignmentOperand, if_neg h1,
    if_neg h2]
  rfl

/-- The operand of a field that is an integer or a string. -/
theorem literal_fieldOperand {s : Bytes} {f : Field} {v : FieldValue}
    {val : Value} (h : Value.ofField f v = some val)
    (hval : (∃ a, val = .integer a) ∨ ∃ t, val = .string t) :
    Value.literal (Ast.fieldOperand s f v) = some val := by
  rw [Value.ofField] at h
  split at h
  · obtain rfl := Option.some.inj h
    rcases hval with ⟨a, ha⟩ | ⟨t, ht⟩
    · exact absurd ha (by simp)
    · exact absurd ht (by simp)
  · rw [Ast.fieldOperand]
    cases hf : f.type <;> rw [hf] at h
    case int | uint | bool =>
      obtain rfl := Option.some.inj h
      exact literal_integerOperand _
    case char | charx | varchar =>
      obtain rfl := Option.some.inj h
      exact literal_string _
    case float =>
      obtain rfl := Option.some.inj h
      rcases hval with ⟨a, ha⟩ | ⟨t, ht⟩
      · exact absurd ha (by simp)
      · exact absurd ht (by simp)
    case nofieldtype => exact absurd h (by simp)

/-- An integer or a string comes of integers or of strings. -/
theorem apply_eq_some {op : Assignop} {a b val : Value}
    (h : Value.apply ld op a b = some val)
    (hval : (∃ c, val = .integer c) ∨ ∃ t, val = .string t) :
    (∃ x y c, a = .integer x ∧ b = .integer y ∧ op.integer x y = some c ∧
        val = .integer c) ∨
      ∃ s t, a = .string s ∧ b = .string t ∧ op = .concatenation ∧
        val = .string (s ++ t) := by
  cases a with
  | null =>
      obtain rfl := Option.some.inj (show some Value.null = some val from h)
      simp at hval
  | integer x =>
      cases b with
      | null =>
          obtain rfl := Option.some.inj (show some Value.null = some val from h)
          simp at hval
      | integer y =>
          obtain ⟨c, hc, rfl⟩ := Option.map_eq_some_iff.mp
            (show (op.integer x y).map Value.integer = some val from h)
          exact .inl ⟨x, y, c, rfl, rfl, hc, rfl⟩
      | float y =>
          obtain ⟨c, _, rfl⟩ := Option.map_eq_some_iff.mp
            (show (op.floating ld (.ofInt x.toInt) y).map Value.float =
              some val from h)
          simp at hval
      | string t => exact absurd h (by simp [Value.apply])
      | boolean y => exact absurd h (by simp [Value.apply])
  | float x =>
      cases b with
      | null =>
          obtain rfl := Option.some.inj (show some Value.null = some val from h)
          simp at hval
      | integer y =>
          obtain ⟨c, _, rfl⟩ := Option.map_eq_some_iff.mp
            (show (op.floating ld x (.ofInt y.toInt)).map Value.float =
              some val from h)
          simp at hval
      | float y =>
          obtain ⟨c, _, rfl⟩ := Option.map_eq_some_iff.mp
            (show (op.floating ld x y).map Value.float = some val from h)
          simp at hval
      | string t => exact absurd h (by simp [Value.apply])
      | boolean y => exact absurd h (by simp [Value.apply])
  | string s =>
      cases b with
      | null =>
          obtain rfl := Option.some.inj (show some Value.null = some val from h)
          simp at hval
      | string t =>
          by_cases hop : op = .concatenation
          · rw [Value.apply, if_pos hop] at h
            exact .inr ⟨s, t, rfl, rfl, hop, (Option.some.inj h).symm⟩
          · rw [Value.apply, if_neg hop] at h
            exact absurd h (by simp)
      | integer y => exact absurd h (by simp [Value.apply])
      | float y => exact absurd h (by simp [Value.apply])
      | boolean y => exact absurd h (by simp [Value.apply])
  | boolean x =>
      cases b with
      | null =>
          obtain rfl := Option.some.inj (show some Value.null = some val from h)
          simp at hval
      | integer y => exact absurd h (by simp [Value.apply])
      | float y => exact absurd h (by simp [Value.apply])
      | string t => exact absurd h (by simp [Value.apply])
      | boolean y => exact absurd h (by simp [Value.apply])

theorem arithmetic_integer {op : Assignop} {s : Bytes} {l r : Ast}
    (hl : operandType l.getOperand = operandInteger)
    (hr : operandType r.getOperand = operandInteger) :
    Ast.arithmetic ld op s l r =
      (op.integer (integerOf l.getOperand) (integerOf r.getOperand)).map
        fun val => .operand (integerOperand val) := by
  have hany : ¬ (operandType l.getOperand = operandFloat ∨
      operandType r.getOperand = operandFloat) := by
    rw [hl, hr]
    decide
  rw [Ast.arithmetic, if_neg hany, Ast.calculate, if_pos hl, if_pos hr]

/-- An expression whose value is an integer or a string comes out right: all
below it are integers or strings. -/
theorem evaluateAssignment_right {ast : Ast} :
    ∀ {val : Value},
      eval ld fields fieldValues parameters ast = some val →
      (∃ a, val = .integer a) ∨ (∃ t, val = .string t) →
      ∃ s, ast.evaluateAssignment ld fields fieldValues parameters =
          some (.operand s) ∧ Value.literal s = some val := by
  induction ast with
  | operand s =>
      intro val h hval
      rw [eval] at h
      split at h
      · next hs =>
          split at h
          · next f v hf hv =>
              refine ⟨Ast.fieldOperand s f v, ?_, literal_fieldOperand h hval⟩
              rw [Ast.evaluateAssignment, Ast.normalizeSetAssignmentOperand,
                if_pos hs]
              dsimp only
              rw [hf, hv]
              rfl
          · exact absurd h (by simp)
      · next hs =>
          split at h
          · next hp =>
              obtain ⟨t, ht, hlit⟩ := Option.bind_eq_some_iff.mp h
              refine ⟨t, ?_, hlit⟩
              rw [Ast.evaluateAssignment, Ast.normalizeSetAssignmentOperand,
                if_neg hs, if_pos hp, ht]
              rfl
          · exact ⟨s, evaluateAssignment_literal h, h⟩
  | binary op s leftchild rightchild ihl ihr =>
      intro val h hval
      rw [eval] at h
      split at h
      · next a b hl hr =>
          rw [Ast.evaluateAssignment]
          rcases apply_eq_some h hval with
            ⟨x, y, c, rfl, rfl, hc, rfl⟩ | ⟨t, u, rfl, rfl, rfl, rfl⟩
          · obtain ⟨l, hel, hll⟩ := ihl hl (.inl ⟨x, rfl⟩)
            obtain ⟨r, her, hlr⟩ := ihr hr (.inl ⟨y, rfl⟩)
            obtain ⟨htl, hil⟩ := isLiteral_of_literal hll
            obtain ⟨htr, hir⟩ := isLiteral_of_literal hlr
            have hop : op ≠ .concatenation := by
              rintro rfl
              exact absurd hc (by simp [Assignop.integer])
            rw [hel, her]
            dsimp only
            rw [if_neg hop,
              @arithmetic_integer ld op s (.operand l) (.operand r) htl htr]
            simp only [Ast.getOperand, hil, hir, hc]
            exact ⟨_, rfl, literal_integerOperand c⟩
          · obtain ⟨l, hel, hll⟩ := ihl hl (.inr ⟨t, rfl⟩)
            obtain ⟨r, her, hlr⟩ := ihr hr (.inr ⟨u, rfl⟩)
            obtain ⟨htl, hil⟩ := isLiteral_of_literal hll
            obtain ⟨htr, hir⟩ := isLiteral_of_literal hlr
            rw [hel, her]
            dsimp only
            rw [if_pos rfl, Ast.concatenation]
            simp only [Ast.getOperand, htl, htr, and_self, if_true, hil, hir]
            exact ⟨_, rfl, literal_string _⟩
      · exact absurd h (by simp)
  | negation s rightchild ih =>
      intro val h hval
      rw [eval] at h
      obtain ⟨a, hr, ha⟩ := Option.bind_eq_some_iff.mp h
      rw [Ast.evaluateAssignment]
      cases a with
      | integer x =>
          obtain rfl := Option.some.inj ha
          obtain ⟨r, her, hlr⟩ := ih hr (.inl ⟨x, rfl⟩)
          obtain ⟨htr, hir⟩ := isLiteral_of_literal hlr
          rw [her, Option.map_some, Ast.negate]
          simp only [Ast.getOperand, htr, if_true, hir]
          exact ⟨_, rfl, literal_integerOperand _⟩
      | null =>
          obtain rfl := Option.some.inj ha
          simp at hval
      | float x =>
          obtain rfl := Option.some.inj ha
          simp at hval
      | string t => exact absurd ha (by simp [Value.negate])
      | boolean b => exact absurd ha (by simp [Value.negate])
/-! ## Nulls -/

/-- A tree as the parser leaves it: an operator has no operand, and a field
reference is its letter and eight bytes. -/
def Parsed : Ast → Prop
  | .operand s => operandType s = operandFieldid → s.length = 9
  | .binary _ s leftchild rightchild =>
      s = [] ∧ Parsed leftchild ∧ Parsed rightchild
  | .negation s rightchild => s = [] ∧ Parsed rightchild

/-- The literal `NULL`, or a parameter that is null. -/
def NullLiteral (parameters : List Bytes) : Ast → Prop
  | .operand s =>
      if operandType s = operandParameter then
        ∃ p, parameters[(integerOf s).toNat]? = some p ∧
          operandType p = operandNull
      else operandType s = operandNull
  | _ => False

@[simp] theorem getOperand_setOperand (s : Bytes) (ast : Ast) :
    (ast.setOperand s).getOperand = s := by
  cases ast <;> rfl

theorem fieldOperand_cases (s : Bytes) (f : Field) (v : FieldValue) :
    operandType (Ast.fieldOperand s f v) ∈
        [operandInteger, operandFloat, operandString] ∨
      Ast.fieldOperand s f v = s := by
  rw [Ast.fieldOperand]
  cases f.type with
  | nofieldtype => exact .inr rfl
  | _ => exact .inl (by simp [operandType, integerOperand])

/-- What an arithmetic operator leaves as its operand. -/
theorem calculate_operand {op : Assignop} {s : Bytes} {l r ast : Ast}
    (h : Ast.calculate ld op s l r = some ast) :
    operandType ast.getOperand = operandInteger ∨
      operandType ast.getOperand = operandFloat ∨ ast.getOperand = s := by
  rw [Ast.calculate] at h
  split at h
  · split at h
    · obtain ⟨val, _, rfl⟩ := Option.map_eq_some_iff.mp h
      exact .inl rfl
    · obtain rfl := Option.some.inj h
      exact .inr (.inr rfl)
  · split at h
    · split at h
      · obtain ⟨val, _, rfl⟩ := Option.map_eq_some_iff.mp h
        exact .inr (.inl rfl)
      · obtain rfl := Option.some.inj h
        exact .inr (.inr rfl)
    · obtain rfl := Option.some.inj h
      exact .inr (.inr rfl)

theorem arithmetic_operand {op : Assignop} {s : Bytes} {l r ast : Ast}
    (h : Ast.arithmetic ld op s l r = some ast) :
    operandType ast.getOperand = operandInteger ∨
      operandType ast.getOperand = operandFloat ∨ ast.getOperand = s := by
  rw [Ast.arithmetic] at h
  split at h
  · exact calculate_operand h
  · exact calculate_operand h

/-- What a tree leaves as its operand: a result, the parameter's value, or the
operand it had. -/
theorem getOperand_of_evaluate {ast ast' : Ast}
    (h : ast.evaluateAssignment ld fields fieldValues parameters = some ast') :
    operandType ast'.getOperand ∈
        [operandInteger, operandFloat, operandString] ∨
      (∃ s, ast = .operand s ∧ operandType s = operandParameter ∧
        parameters[(integerOf s).toNat]? = some ast'.getOperand) ∨
      ast'.getOperand = ast.getOperand ∧
        ∀ s, ast = .operand s → operandType s ≠ operandParameter := by
  cases ast with
  | operand s =>
      rw [Ast.evaluateAssignment, Ast.normalizeSetAssignmentOperand] at h
      obtain ⟨t, ht, rfl⟩ := Option.map_eq_some_iff.mp h
      split at ht
      · next hs =>
          dsimp only at ht
          split at ht
          · next f v _ _ =>
              obtain rfl := Option.some.inj ht
              rcases fieldOperand_cases s f v with htype | heq
              · exact .inl htype
              · refine .inr (.inr ⟨heq, fun u hu => ?_⟩)
                obtain rfl := Ast.operand.inj hu
                rw [hs]
                decide
          · exact absurd ht (by simp)
      · split at ht
        · next hp => exact .inr (.inl ⟨s, rfl, hp, ht⟩)
        · next hp =>
            obtain rfl := Option.some.inj ht
            refine .inr (.inr ⟨rfl, fun u hu => ?_⟩)
            obtain rfl := Ast.operand.inj hu
            exact hp
  | binary op s l r =>
      have hop : ∀ u, Ast.binary op s l r = .operand u →
          operandType u ≠ operandParameter := fun u hu => absurd hu (by simp)
      rw [Ast.evaluateAssignment] at h
      split at h
      · split at h
        · obtain rfl := Option.some.inj h
          rw [Ast.concatenation]
          split
          · exact .inl (by simp [Ast.getOperand, operandType])
          · exact .inr (.inr ⟨rfl, hop⟩)
        · rcases arithmetic_operand h with h | h | h
          · exact .inl (by simp [h])
          · exact .inl (by simp [h])
          · exact .inr (.inr ⟨h, hop⟩)
      · exact absurd h (by simp)
  | negation s r =>
      rw [Ast.evaluateAssignment] at h
      obtain ⟨r', _, rfl⟩ := Option.map_eq_some_iff.mp h
      rw [Ast.negate]
      split
      · exact .inl (by simp [Ast.getOperand])
      · split
        · exact .inl (by simp [Ast.getOperand, Ast.floatResult, operandType])
        · exact .inr (.inr ⟨rfl, fun u hu => absurd hu (by simp)⟩)

/-- A result is neither null nor a parameter. -/
theorem ne_of_result {s : Bytes}
    (h : operandType s ∈ [operandInteger, operandFloat, operandString]) :
    operandType s ≠ operandNull ∧ operandType s ≠ operandParameter := by
  simp only [List.mem_cons, List.not_mem_nil, or_false] at h
  rcases h with h | h | h <;> rw [h] <;> decide

/-- Nothing becomes null but the literal. -/
theorem nullLiteral_of_evaluate {ast ast' : Ast} (hparsed : Parsed ast)
    (h : ast.evaluateAssignment ld fields fieldValues parameters = some ast')
    (hnull : operandType ast'.getOperand = operandNull) :
    NullLiteral parameters ast := by
  rcases getOperand_of_evaluate h with hres | ⟨s, rfl, hp, hget⟩ | ⟨heq, hp⟩
  · exact absurd hnull (ne_of_result hres).1
  · rw [NullLiteral, if_pos hp]
    exact ⟨_, hget, hnull⟩
  · rw [heq] at hnull
    cases ast with
    | operand s =>
        rw [NullLiteral, if_neg (hp s rfl)]
        exact hnull
    | binary op s l r =>
        rw [show (Ast.binary op s l r).getOperand = [] from hparsed.1] at hnull
        exact absurd hnull (by decide)
    | negation s r =>
        rw [show (Ast.negation s r).getOperand = [] from hparsed.1] at hnull
        exact absurd hnull (by decide)

/-! ## Floats -/

/-- A machine on which every result is the same, and becomes 0. -/
def constantLongDouble : LongDouble where
  add _ _ := 1#128
  sub _ _ := 1#128
  mul _ _ := 1#128
  div _ _ := 1#128
  toInteger _ := 0#64

theorem floatResult_constant (val : FieldInput) :
    Ast.floatResult constantLongDouble [] val = operandFloat :: zeros 16 := by
  show operandFloat :: FieldInput.toBytes ((0#64).setWidth 128) 8 ++
    (resize [] 17 0).drop 9 = _
  decide

/-- What the children of a float operator come to be: an integer, a float, or
an operator that could not be applied. -/
def Numeric (s : Bytes) : Prop :=
  operandType s = operandInteger ∨ operandType s = operandFloat ∨ s = []

theorem numeric_toFloatOperand {s : Bytes} (h : Numeric s) :
    operandType s = operandInteger ∧
        operandType (toFloatOperand s) = operandInteger ∨
      operandType s ≠ operandInteger ∧
        operandType (toFloatOperand s) = operandFloat := by
  rw [toFloatOperand]
  rcases h with h | h | rfl
  · rw [if_pos h]
    exact .inl ⟨h, rfl⟩
  · rw [h, if_neg (by decide), if_pos rfl]
    exact .inr ⟨by decide, h⟩
  · exact .inr ⟨by decide, by decide⟩

/-- An operator on floats leaves nothing that is not 0. -/
theorem arithmetic_constant {op : Assignop} {l r : Ast}
    (hop : op ≠ .concatenation) (hl : Numeric l.getOperand)
    (hr : Numeric r.getOperand)
    (hne : ¬ (operandType l.getOperand = operandInteger ∧
      operandType r.getOperand = operandInteger)) :
    ∃ ast, Ast.arithmetic constantLongDouble op [] l r = some ast ∧
      (ast.getOperand = operandFloat :: zeros 16 ∨ ast.getOperand = []) := by
  have hfloat : ∀ a b, op.floating constantLongDouble a b = some 1#128 := by
    intro a b
    cases op with
    | concatenation => exact absurd rfl hop
    | _ => rfl
  rw [Ast.arithmetic]
  split
  · rw [Ast.calculate]
    simp only [getOperand_setOperand]
    rcases numeric_toFloatOperand hl with ⟨hl1, hl2⟩ | ⟨hl1, hl2⟩ <;>
      rcases numeric_toFloatOperand hr with ⟨hr1, hr2⟩ | ⟨hr1, hr2⟩
    · exact absurd ⟨hl1, hr1⟩ hne
    · rw [if_pos hl2, if_neg (by rw [hr2]; decide)]
      exact ⟨_, rfl, .inr rfl⟩
    · rw [if_neg (by rw [hl2]; decide), if_pos hl2,
        if_neg (by rw [hr2]; decide)]
      exact ⟨_, rfl, .inr rfl⟩
    · rw [if_neg (by rw [hl2]; decide), if_pos hl2, if_pos hr2, hfloat]
      exact ⟨_, rfl, .inl (floatResult_constant _)⟩
  · next hany =>
      rw [not_or] at hany
      rw [Ast.calculate]
      split
      · next hli =>
          rw [if_neg fun hri => hne ⟨hli, hri⟩]
          exact ⟨_, rfl, .inr rfl⟩
      · rw [if_neg hany.1]
        exact ⟨_, rfl, .inr rfl⟩
/-- A float comes of numbers, at least one of them a float. -/
theorem apply_eq_float {op : Assignop} {a b : Value} {x : FieldInput}
    (h : Value.apply ld op a b = some (.float x)) :
    (∃ y z, op.floating ld y z = some x) ∧
      (((∃ y, a = .integer y) ∧ ∃ z, b = .float z) ∨
        ((∃ y, a = .float y) ∧ ∃ z, b = .integer z) ∨
        ((∃ y, a = .float y) ∧ ∃ z, b = .float z)) := by
  cases a with
  | null => exact absurd h (by simp [Value.apply])
  | integer y =>
      cases b with
      | float z =>
          obtain ⟨c, hc, heq⟩ := Option.map_eq_some_iff.mp
            (show (op.floating ld (.ofInt y.toInt) z).map Value.float =
              some (.float x) from h)
          injection heq with heq
          exact ⟨⟨_, _, heq ▸ hc⟩, .inl ⟨⟨y, rfl⟩, z, rfl⟩⟩
      | integer z =>
          obtain ⟨c, _, heq⟩ := Option.map_eq_some_iff.mp
            (show (op.integer y z).map Value.integer = some (.float x) from h)
          exact absurd heq (by simp)
      | _ => exact absurd h (by simp [Value.apply])
  | float y =>
      cases b with
      | float z =>
          obtain ⟨c, hc, heq⟩ := Option.map_eq_some_iff.mp
            (show (op.floating ld y z).map Value.float =
              some (.float x) from h)
          injection heq with heq
          exact ⟨⟨_, _, heq ▸ hc⟩, .inr (.inr ⟨⟨y, rfl⟩, z, rfl⟩)⟩
      | integer z =>
          obtain ⟨c, hc, heq⟩ := Option.map_eq_some_iff.mp
            (show (op.floating ld y (.ofInt z.toInt)).map Value.float =
              some (.float x) from h)
          injection heq with heq
          exact ⟨⟨_, _, heq ▸ hc⟩, .inr (.inl ⟨⟨y, rfl⟩, z, rfl⟩)⟩
      | _ => exact absurd h (by simp [Value.apply])
  | string y =>
      cases b with
      | string z =>
          by_cases hop : op = .concatenation
          · rw [Value.apply, if_pos hop] at h
            exact absurd h (by simp)
          · rw [Value.apply, if_neg hop] at h
            exact absurd h (by simp)
      | _ => exact absurd h (by simp [Value.apply])
  | boolean y =>
      cases b with
      | _ => exact absurd h (by simp [Value.apply])

/-- An integer comes out as one. -/
theorem numeric_of_integer {ast : Ast} {y : BitVec 64}
    (h : eval ld fields fieldValues parameters ast = some (.integer y)) :
    ∃ ast', ast.evaluateAssignment ld fields fieldValues parameters =
        some ast' ∧ Numeric ast'.getOperand ∧
      operandType ast'.getOperand = operandInteger := by
  obtain ⟨s, hs, hlit⟩ := evaluateAssignment_right h (.inl ⟨y, rfl⟩)
  obtain ⟨htype, _⟩ := isLiteral_of_literal hlit
  exact ⟨_, hs, .inl htype, htype⟩

/-- What an expression whose value is a float comes to on the constant
machine. -/
theorem evaluate_constant {ast : Ast} (hparsed : Parsed ast) :
    ∀ {x : FieldInput}, eval constantLongDouble fields fieldValues parameters
        ast = some (.float x) →
      ∃ ast', ast.evaluateAssignment constantLongDouble fields fieldValues
          parameters = some ast' ∧ Numeric ast'.getOperand ∧
        operandType ast'.getOperand ≠ operandInteger ∧
        ((∀ s, ast ≠ .operand s) →
          x = 1#128 ∧ toFloat ast'.getOperand = 0#128) := by
  have hzero : toFloat (operandFloat :: zeros 16) = 0#128 := by decide
  have hnumeric : ∀ s, s = operandFloat :: zeros 16 ∨ s = [] →
      Numeric s ∧ operandType s ≠ operandInteger ∧ toFloat s = 0#128 := by
    rintro s (rfl | rfl)
    · exact ⟨.inr (.inl rfl), by decide, hzero⟩
    · exact ⟨.inr (.inr rfl), by decide, by decide⟩
  induction ast with
  | operand s =>
      intro x h
      rw [eval] at h
      have hleaf : ∀ t, operandType t = operandFloat →
          Numeric (Ast.operand t).getOperand ∧
          operandType (Ast.operand t).getOperand ≠ operandInteger ∧
          ((∀ u, Ast.operand s ≠ .operand u) →
            x = 1#128 ∧ toFloat (Ast.operand t).getOperand = 0#128) := by
        intro t ht
        refine ⟨.inr (.inl ht), ?_, fun hne => absurd rfl (hne s)⟩
        rw [show operandType (Ast.operand t).getOperand = operandFloat from ht]
        decide
      split at h
      · next hs =>
          split at h
          · next f v hf hv =>
              refine ⟨.operand (Ast.fieldOperand s f v), ?_, hleaf _ ?_⟩
              · rw [Ast.evaluateAssignment, Ast.normalizeSetAssignmentOperand,
                  if_pos hs]
                dsimp only
                rw [hf, hv]
                rfl
              · rw [Value.ofField] at h
                split at h
                · exact absurd h (by simp)
                · rw [Ast.fieldOperand]
                  cases ht : f.type <;> rw [ht] at h
                  case float => rfl
                  all_goals exact absurd h (by simp)
          · exact absurd h (by simp)
      · next hs =>
          split at h
          · next hp =>
              obtain ⟨t, ht, hlit⟩ := Option.bind_eq_some_iff.mp h
              refine ⟨.operand t, ?_, hleaf _ (isLiteral_of_literal hlit).1⟩
              rw [Ast.evaluateAssignment, Ast.normalizeSetAssignmentOperand,
                if_neg hs, if_pos hp, ht]
              rfl
          · exact ⟨.operand s, evaluateAssignment_literal h,
              hleaf _ (isLiteral_of_literal h).1⟩
  | binary op s l r ihl ihr =>
      intro x h
      obtain ⟨rfl, hpl, hpr⟩ := hparsed
      rw [eval] at h
      split at h
      · next a b hl hr =>
          obtain ⟨⟨y, z, hx⟩, hkinds⟩ := apply_eq_float h
          have hop : op ≠ .concatenation := by
            rintro rfl
            exact absurd hx (by simp [Assignop.floating])
          have hone : x = 1#128 := by
            cases op with
            | concatenation => exact absurd rfl hop
            | _ => exact (Option.some.inj hx).symm
          have hchildren : ∃ l' r',
              l.evaluateAssignment constantLongDouble fields fieldValues
                parameters = some l' ∧
              r.evaluateAssignment constantLongDouble fields fieldValues
                parameters = some r' ∧
              Numeric l'.getOperand ∧ Numeric r'.getOperand ∧
              ¬ (operandType l'.getOperand = operandInteger ∧
                operandType r'.getOperand = operandInteger) := by
            rcases hkinds with ⟨⟨_, rfl⟩, _, rfl⟩ | ⟨⟨_, rfl⟩, _, rfl⟩ |
              ⟨⟨_, rfl⟩, _, rfl⟩
            · obtain ⟨l', h1, h2, _⟩ := numeric_of_integer hl
              obtain ⟨r', h3, h4, h5, _⟩ := ihr hpr hr
              exact ⟨l', r', h1, h3, h2, h4, fun h => h5 h.2⟩
            · obtain ⟨l', h1, h2, h5, _⟩ := ihl hpl hl
              obtain ⟨r', h3, h4, _⟩ := numeric_of_integer hr
              exact ⟨l', r', h1, h3, h2, h4, fun h => h5 h.1⟩
            · obtain ⟨l', h1, h2, h5, _⟩ := ihl hpl hl
              obtain ⟨r', h3, h4, _⟩ := ihr hpr hr
              exact ⟨l', r', h1, h3, h2, h4, fun h => h5 h.1⟩
          obtain ⟨l', r', h1, h2, h3, h4, h5⟩ := hchildren
          obtain ⟨ast', h6, h7⟩ := arithmetic_constant hop h3 h4 h5
          obtain ⟨h8, h9, h10⟩ := hnumeric _ h7
          refine ⟨ast', ?_, h8, h9, fun _ => ⟨hone, h10⟩⟩
          rw [Ast.evaluateAssignment, h1, h2]
          dsimp only
          rw [if_neg hop]
          exact h6
      · exact absurd h (by simp)
  | negation s r ih =>
      intro x h
      obtain ⟨rfl, hpr⟩ := hparsed
      rw [eval] at h
      obtain ⟨a, hr, ha⟩ := Option.bind_eq_some_iff.mp h
      cases a with
      | float y =>
          injection ha with ha
          injection ha with ha
          obtain ⟨r', h1, h2, h3, _⟩ := ih hpr hr
          have h4 : (Ast.negate constantLongDouble [] r').getOperand =
              operandFloat :: zeros 16 ∨
              (Ast.negate constantLongDouble [] r').getOperand = [] := by
            rw [Ast.negate, if_neg h3]
            split
            · exact .inl (floatResult_constant _)
            · exact .inr rfl
          obtain ⟨h5, h6, h7⟩ := hnumeric _ h4
          refine ⟨Ast.negate constantLongDouble [] r', ?_, h5, h6,
            fun _ => ⟨ha.symm, h7⟩⟩
          rw [Ast.evaluateAssignment, h1]
          rfl
      | null => exact absurd ha (by simp [Value.negate])
      | integer y => exact absurd ha (by simp [Value.negate])
      | string t => exact absurd ha (by simp [Value.negate])
      | boolean b => exact absurd ha (by simp [Value.negate])
/-- The machine decides what a float is, and nothing else. -/
def Similar (v v' : Value) : Prop :=
  v = v' ∨ ((∃ x, v = .float x) ∧ ∃ y, v' = .float y)

theorem floating_similar {op : Assignop} {ld' : LongDouble}
    {x y x' y' : FieldInput} {v : Value}
    (h : (op.floating ld x y).map Value.float = some v) :
    ∃ v', (op.floating ld' x' y').map Value.float = some v' ∧
      Similar v v' := by
  cases op with
  | concatenation => exact absurd h (by simp [Assignop.floating])
  | _ =>
      obtain rfl := Option.some.inj h
      exact ⟨_, rfl, .inr ⟨⟨_, rfl⟩, _, rfl⟩⟩

theorem apply_similar {op : Assignop} {ld' : LongDouble} {a b a' b' v : Value}
    (h : Value.apply ld op a b = some v) (ha : Similar a a')
    (hb : Similar b b') :
    ∃ v', Value.apply ld' op a' b' = some v' ∧ Similar v v' := by
  rcases ha with rfl | ⟨⟨x, rfl⟩, x', rfl⟩
  · rcases hb with rfl | ⟨⟨y, rfl⟩, y', rfl⟩
    · cases a with
      | null => exact ⟨v, h, .inl rfl⟩
      | integer x =>
          cases b with
          | float y => exact floating_similar h
          | _ => exact ⟨v, h, .inl rfl⟩
      | float x =>
          cases b with
          | integer y => exact floating_similar h
          | float y => exact floating_similar h
          | _ => exact ⟨v, h, .inl rfl⟩
      | string s =>
          cases b with
          | _ => exact ⟨v, h, .inl rfl⟩
      | boolean x =>
          cases b with
          | _ => exact ⟨v, h, .inl rfl⟩
    · cases a with
      | null => exact ⟨v, h, .inl rfl⟩
      | integer x => exact floating_similar h
      | float x => exact floating_similar h
      | _ => exact absurd h (by simp [Value.apply])
  · rcases hb with rfl | ⟨⟨y, rfl⟩, y', rfl⟩
    · cases b with
      | null => exact ⟨v, h, .inl rfl⟩
      | integer y => exact floating_similar h
      | float y => exact floating_similar h
      | _ => exact absurd h (by simp [Value.apply])
    · exact floating_similar h

theorem eval_similar {ld' : LongDouble} {ast : Ast} :
    ∀ {v : Value}, eval ld fields fieldValues parameters ast = some v →
      ∃ v', eval ld' fields fieldValues parameters ast = some v' ∧
        Similar v v' := by
  induction ast with
  | operand s =>
      intro v h
      exact ⟨v, h, .inl rfl⟩
  | binary op s l r ihl ihr =>
      intro v h
      rw [eval] at h
      split at h
      · next a b hl hr =>
          obtain ⟨a', hl', ha⟩ := ihl hl
          obtain ⟨b', hr', hb⟩ := ihr hr
          rw [eval, hl', hr']
          exact apply_similar h ha hb
      · exact absurd h (by simp)
  | negation s r ih =>
      intro v h
      rw [eval] at h
      obtain ⟨a, hr, ha⟩ := Option.bind_eq_some_iff.mp h
      obtain ⟨a', hr', hsim⟩ := ih hr
      rw [eval, hr', Option.bind_some]
      rcases hsim with rfl | ⟨⟨x, rfl⟩, y, rfl⟩
      · cases a with
        | float x =>
            obtain rfl := Option.some.inj ha
            exact ⟨_, rfl, .inr ⟨⟨_, rfl⟩, _, rfl⟩⟩
        | _ => exact ⟨v, ha, .inl rfl⟩
      · obtain rfl := Option.some.inj ha
        exact ⟨_, rfl, .inr ⟨⟨_, rfl⟩, _, rfl⟩⟩

theorem eval_float {ld' : LongDouble} {ast : Ast} {x : FieldInput}
    (h : eval ld fields fieldValues parameters ast = some (.float x)) :
    ∃ y, eval ld' fields fieldValues parameters ast = some (.float y) := by
  obtain ⟨v, hv, hsim⟩ := @eval_similar ld fields fieldValues parameters ld'
    ast _ h
  rcases hsim with rfl | ⟨_, y, rfl⟩
  · exact ⟨x, hv⟩
  · exact ⟨y, hv⟩

/-! ## The value of a field -/

/-- What a row that is visited first has to have for an assigned value to come
out right. -/
def FirstRight (fieldValues : List FieldValue) (parameters : List Bytes)
    (ast : Ast) : Value → Prop
  | .integer _ | .string _ => True
  | .null => NullLiteral parameters ast
  | .boolean b => b = true
  | .float _ =>
      match ast with
      | .operand s => operandType s = operandFieldid →
          ∀ v, fieldValues[(integerOf s).toNat]? = some v →
            v.value.toNat < 2 ^ 64
      | _ => False

theorem integerOf_boolean_ne {s : Bytes} {b : Bool}
    (h : s.getD 1 0 = if b then 116 else 102) : integerOf s ≠ 0#64 := by
  intro hzero
  have hbit : (integerOf s).getLsbD 2 = true := by
    have hdrop : ((s.drop 1).take 8).getD 0 0 = s.getD 1 0 := by
      rw [List.getD_eq_getElem?_getD, List.getElem?_take, if_pos (by omega),
        List.getElem?_drop, List.getD_eq_getElem?_getD]
    rw [integerOf, BitVec.getLsbD_setWidth, getLsbD_ofBytes]
    simp only [Nat.reduceDiv, Nat.reduceMod, hdrop, h]
    cases b <;> decide
  rw [hzero] at hbit
  exact absurd hbit (by decide)

theorem toFloat_integer {s : Bytes} (h : operandType s = operandInteger) :
    toFloat s = .ofInt (integerOf s).toInt := by
  have h : s.getD 0 0 = operandInteger := h
  rw [toFloat, if_pos h]
  rfl

theorem toFloat_float {s : Bytes} (h : operandType s = operandFloat) :
    toFloat s = floatOf s := by
  have h : s.getD 0 0 = operandFloat := h
  rw [toFloat, h, if_neg (by decide), if_pos rfl]
  rfl

/-- The literal of a value gives its field the value, but for `FALSE`. -/
theorem assignedValue_literal {s : Bytes} {f : Field} {v : Value}
    {w : FieldValue} (hlit : Value.literal s = some v)
    (hw : v.toField f = some w) (hv : v ≠ .boolean false) :
    Statement.assignedValue f s = some w := by
  have h := isLiteral_of_literal hlit
  rw [Statement.assignedValue]
  cases v with
  | null =>
      rw [if_pos (show operandType s = operandNull from h)]
      exact hw
  | integer a =>
      rw [h.1, if_neg (by decide)]
      rw [Value.toField] at hw
      cases ht : f.type <;> rw [ht] at hw <;> dsimp only at hw ⊢
      case int | uint | bool => rw [h.2]; exact hw
      case float => rw [toFloat_integer h.1, h.2]; exact hw
      all_goals exact absurd hw (by simp)
  | float a =>
      rw [h.1, if_neg (by decide)]
      rw [Value.toField] at hw
      split at hw
      · next ht =>
          rw [ht]
          dsimp only
          rw [toFloat_float h.1, h.2]
          exact hw
      · exact absurd hw (by simp)
  | string t =>
      rw [h.1, if_neg (by decide)]
      rw [Value.toField] at hw
      cases ht : f.type <;> rw [ht] at hw <;> dsimp only at hw ⊢
      case char | charx | varchar => rw [h.2]; exact hw
      all_goals exact absurd hw (by simp)
  | boolean b =>
      cases b with
      | false => exact absurd rfl hv
      | true =>
          rw [h.1, if_neg (by decide)]
          rw [Value.toField] at hw
          split at hw
          · next ht =>
              rw [ht]
              dsimp only
              rw [if_neg (integerOf_boolean_ne h.2)]
              exact hw
          · exact absurd hw (by simp)
/-- Half of a float is copied. -/
theorem floatOf_fieldOperand {s : Bytes} {f : Field} {v : FieldValue}
    (hs : s.length = 9) (hf : f.type = .float) :
    floatOf (Ast.fieldOperand s f v) =
      (v.value.setWidth 64).setWidth 128 := by
  have hrest : (resize s 17 0).drop 9 = zeros 8 := by
    rw [resize, List.drop_append, List.length_take, hs,
      List.drop_of_length_le (by rw [List.length_take, hs]; omega)]
    rfl
  have hlen : (v.value.toBytes 8 ++ zeros 8).length ≤ 16 := by
    rw [List.length_append, length_toBytes, zeros, List.length_replicate]
  have hbytes : ((Ast.fieldOperand s f v).drop 1).take 16 =
      v.value.toBytes 8 ++ zeros 8 := by
    rw [Ast.fieldOperand, hf]
    dsimp only
    rw [hrest, List.cons_append, List.drop_one, List.tail_cons,
      List.take_of_length_le hlen]
  rw [floatOf, hbytes]
  refine BitVec.eq_of_getLsbD_eq fun i hi => ?_
  rw [getLsbD_ofBytes, BitVec.getLsbD_setWidth, BitVec.getLsbD_setWidth]
  by_cases h64 : i < 64
  · have hcopy := getLsbD_ofBytes_toBytes v.value (show i < 8 * 8 by omega)
    rw [getLsbD_ofBytes] at hcopy
    have hget : (v.value.toBytes 8 ++ zeros 8).getD (i / 8) 0 =
        (v.value.toBytes 8).getD (i / 8) 0 := by
      rw [List.getD_eq_getElem?_getD, List.getD_eq_getElem?_getD,
        List.getElem?_append_left (by rw [length_toBytes]; omega)]
    rw [hget, hcopy]
    simp [h64, hi]
  · have hget : (v.value.toBytes 8 ++ zeros 8).getD (i / 8) 0 = 0 := by
      rw [List.getD_eq_getElem?_getD,
        List.getElem?_append_right (by rw [length_toBytes]; omega),
        length_toBytes, zeros, List.getElem?_replicate]
      split <;> rfl
    rw [hget]
    simp [h64]

theorem setWidth_setWidth_iff (v : FieldInput) :
    (v.setWidth 64).setWidth 128 = v ↔ v.toNat < 2 ^ 64 := by
  rw [← BitVec.toNat_inj, BitVec.toNat_setWidth, BitVec.toNat_setWidth]
  constructor
  · intro h
    rw [← h]
    exact Nat.lt_of_le_of_lt (Nat.mod_le _ _) (Nat.mod_lt _ (by omega))
  · intro h
    rw [Nat.mod_eq_of_lt h, Nat.mod_eq_of_lt v.isLt]

/-- Booleans are literals. -/
theorem eval_boolean {ast : Ast} {b : Bool}
    (h : eval ld fields fieldValues parameters ast = some (.boolean b)) :
    ∃ s, ast.evaluateAssignment ld fields fieldValues parameters =
        some (.operand s) ∧ Value.literal s = some (.boolean b) := by
  cases ast with
  | operand s =>
      rw [eval] at h
      split at h
      · split at h
        · next f v _ _ =>
            rw [Value.ofField] at h
            split at h
            · exact absurd h (by simp)
            · cases ht : f.type <;> rw [ht] at h <;> exact absurd h (by simp)
        · exact absurd h (by simp)
      · next hs =>
          split at h
          · next hp =>
              obtain ⟨t, ht, hlit⟩ := Option.bind_eq_some_iff.mp h
              refine ⟨t, ?_, hlit⟩
              rw [Ast.evaluateAssignment, Ast.normalizeSetAssignmentOperand,
                if_neg hs, if_pos hp, ht]
              rfl
          · exact ⟨s, evaluateAssignment_literal h, h⟩
  | binary op s l r =>
      rw [eval] at h
      split at h
      · next a b' _ _ =>
          cases a with
          | string t =>
              cases b' with
              | string u =>
                  by_cases hop : op = .concatenation
                  · rw [Value.apply, if_pos hop] at h
                    exact absurd h (by simp)
                  · rw [Value.apply, if_neg hop] at h
                    exact absurd h (by simp)
              | _ => exact absurd h (by simp [Value.apply])
          | _ =>
              cases b' with
              | _ => exact absurd h (by simp [Value.apply])
      · exact absurd h (by simp)
  | negation s r =>
      rw [eval] at h
      obtain ⟨a, _, ha⟩ := Option.bind_eq_some_iff.mp h
      cases a with
      | _ => exact absurd ha (by simp [Value.negate])

/-- With its condition, an expression comes out right for a row that is
visited first. -/
theorem evaluate_firstRight {ast : Ast} {v : Value} (hparsed : Parsed ast)
    (h : eval ld fields fieldValues parameters ast = some v)
    (hfirst : FirstRight fieldValues parameters ast v) :
    ∃ s, ast.evaluateAssignment ld fields fieldValues parameters =
        some (.operand s) ∧ Value.literal s = some v := by
  cases v with
  | integer a => exact evaluateAssignment_right h (.inl ⟨a, rfl⟩)
  | string t => exact evaluateAssignment_right h (.inr ⟨t, rfl⟩)
  | boolean b => exact eval_boolean h
  | null =>
      cases ast with
      | operand s =>
          have hlit : ∀ t, operandType t = operandNull →
              Value.literal t = some .null := by
            intro t ht
            rw [Value.literal, if_pos ht]
          rw [FirstRight, NullLiteral] at hfirst
          split at hfirst
          · next hp =>
              obtain ⟨p, hget, hnull⟩ := hfirst
              refine ⟨p, ?_, hlit p hnull⟩
              rw [Ast.evaluateAssignment, Ast.normalizeSetAssignmentOperand,
                if_neg (by rw [hp]; decide), if_pos hp, hget]
              rfl
          · exact ⟨s, evaluateAssignment_literal (hlit s hfirst),
              hlit s hfirst⟩
      | binary op s l r => exact absurd hfirst (by simp [FirstRight, NullLiteral])
      | negation s r => exact absurd hfirst (by simp [FirstRight, NullLiteral])
  | float x =>
      cases ast with
      | operand s =>
          rw [eval] at h
          split at h
          · next hs =>
              split at h
              · next f w hf hw =>
                  have hsmall := hfirst hs w hw
                  rw [Value.ofField] at h
                  split at h
                  · exact absurd h (by simp)
                  · have ht : f.type = .float := by
                      cases ht : f.type with
                      | float => rfl
                      | _ =>
                          rw [ht] at h
                          exact absurd h (by simp)
                    rw [ht] at h
                    injection h with h
                    injection h with h
                    refine ⟨Ast.fieldOperand s f w, ?_, ?_⟩
                    · rw [Ast.evaluateAssignment,
                        Ast.normalizeSetAssignmentOperand, if_pos hs]
                      dsimp only
                      rw [hf, hw]
                      rfl
                    · have htype : operandType (Ast.fieldOperand s f w) =
                          operandFloat := by
                        rw [Ast.fieldOperand, ht]
                        rfl
                      rw [Value.literal, htype, if_neg (by decide),
                        if_neg (by decide), if_pos rfl,
                        floatOf_fieldOperand (hparsed hs) ht,
                        (setWidth_setWidth_iff w.value).mpr hsmall, h]
              · exact absurd h (by simp)
          · next hs =>
              split at h
              · next hp =>
                  obtain ⟨t, ht, hlit⟩ := Option.bind_eq_some_iff.mp h
                  refine ⟨t, ?_, hlit⟩
                  rw [Ast.evaluateAssignment,
                    Ast.normalizeSetAssignmentOperand, if_neg hs, if_pos hp, ht]
                  rfl
              · exact ⟨s, evaluateAssignment_literal h, h⟩
      | binary op s l r => exact absurd hfirst (by simp [FirstRight])
      | negation s r => exact absurd hfirst (by simp [FirstRight])
theorem trimField_of_float {f : Field} (hf : f.type = .float)
    (w : FieldValue) : Transaction.trimField f w = w := by
  rw [Transaction.trimField, hf]

/-- The value that is stored, whether or not a unique field's was trimmed. -/
def Given (f : Field) (w w' : FieldValue) : Prop :=
  w' = w ∨ w' = Transaction.trimField f w

theorem Given.isnull {f : Field} {w w' : FieldValue} (h : Given f w w') :
    w'.isnull = w.isnull := by
  rcases h with rfl | rfl
  · rfl
  · rw [Transaction.trimField]
    split <;> rfl

/-- If the row that is visited first gets the right value on every machine,
its condition holds. -/
theorem firstRight_of_stored {ast : Ast} {f : Field} (hparsed : Parsed ast)
    (h : ∀ ld, ∃ v w ast' w' w'',
      eval ld fields fieldValues parameters ast = some v ∧
      v.toField f = some w ∧
      ast.evaluateAssignment ld fields fieldValues parameters = some ast' ∧
      Statement.assignedValue f ast'.getOperand = some w' ∧
      Given f w' w'' ∧ stored f w'' = stored f w)
    {v : Value} (hv : eval ld fields fieldValues parameters ast = some v) :
    FirstRight fieldValues parameters ast v := by
  obtain ⟨v₁, w, ast', w', w'', h1, hw, h2, h3, h4, h5⟩ := h ld
  obtain rfl := Option.some.inj (hv.symm.trans h1)
  have hnull : w'.isnull = w.isnull := by
    rw [← h4.isnull, ← stored_isnull f w'', h5, stored_isnull]
  cases v with
  | integer a => trivial
  | string t => trivial
  | null =>
      obtain rfl := Option.some.inj hw
      refine nullLiteral_of_evaluate hparsed h2 ?_
      by_contra hne
      rw [Statement.assignedValue, if_neg hne] at h3
      cases ht : f.type <;> rw [ht] at h3
      case nofieldtype => exact absurd h3 (by simp)
      all_goals
        obtain rfl := Option.some.inj h3
        exact absurd hnull (by simp)
  | boolean b =>
      cases b with
      | true => rfl
      | false =>
          obtain ⟨s, hs, hlit⟩ := eval_boolean hv
          obtain rfl := Option.some.inj (h2.symm.trans hs)
          have hlit := isLiteral_of_literal hlit
          rw [Value.toField] at hw
          split at hw
          · next ht =>
              obtain rfl := Option.some.inj hw
              rw [Statement.assignedValue,
                show operandType (Ast.operand s).getOperand = operandBoolean
                  from hlit.1, if_neg (by decide), ht] at h3
              have hone : integerOf (Ast.operand s).getOperand ≠ 0#64 :=
                integerOf_boolean_ne hlit.2
              dsimp only at h3
              rw [if_neg hone] at h3
              obtain rfl := Option.some.inj h3
              have hsame : w'' = { value := 1#128 } := by
                rcases h4 with h4 | h4
                · exact h4
                · rw [h4, Transaction.trimField, ht]
              rw [hsame, stored, stored, ht] at h5
              injection h5 with h5
              exact absurd h5 (by decide)
          · exact absurd hw (by simp)
  | float x =>
      have ht : f.type = .float := by
        rw [Value.toField] at hw
        split at hw
        · next ht => exact ht
        · exact absurd hw (by simp)
      have hinj : ∀ y z : FieldInput,
          stored f { value := y } = stored f { value := z } → y = z := by
        intro y z heq
        rw [stored, stored, ht] at heq
        injection heq with heq
        refine BitVec.eq_of_getLsbD_eq fun i hi => ?_
        rw [← getLsbD_ofBytes_toBytes y (show i < 8 * 16 by omega), heq,
          getLsbD_ofBytes_toBytes z (show i < 8 * 16 by omega)]
      by_cases hleaf : ∀ s, ast ≠ .operand s
      · obtain ⟨v₁, w, ast', w', w'', h1, hw, h2, h3, h4, h5⟩ :=
          h constantLongDouble
        obtain ⟨y, hy⟩ := @eval_float ld fields fieldValues parameters
          constantLongDouble ast x hv
        obtain rfl := Option.some.inj (hy.symm.trans h1)
        obtain ⟨ast₁, h6, hnum, hint, hzero⟩ := evaluate_constant hparsed hy
        obtain rfl := Option.some.inj (h2.symm.trans h6)
        obtain ⟨rfl, hval⟩ := hzero hleaf
        have hne : operandType ast'.getOperand ≠ operandNull := by
          rcases hnum with h | h | h
          · exact absurd h hint
          · rw [h]
            decide
          · rw [h]
            decide
        rw [Statement.assignedValue, if_neg hne, ht] at h3
        dsimp only at h3
        obtain rfl := Option.some.inj h3
        rw [Value.toField, if_pos ht] at hw
        obtain rfl := Option.some.inj hw
        have hsame : w'' = { value := 0#128 } := by
          rcases h4 with h4 | h4
          · rw [h4, hval]
          · rw [h4, trimField_of_float ht, hval]
        rw [hsame] at h5
        exact absurd (hinj _ _ h5) (by decide)
      · push Not at hleaf
        obtain ⟨s, rfl⟩ := hleaf
        intro hs u hu
        rw [eval, if_pos hs] at hv
        split at hv
        · next g z hg hz =>
            obtain rfl := Option.some.inj (hu.symm.trans hz)
            rw [Value.ofField] at hv
            split at hv
            · exact absurd hv (by simp)
            · have hgt : g.type = .float := by
                cases hgt : g.type with
                | float => rfl
                | _ =>
                    rw [hgt] at hv
                    exact absurd hv (by simp)
              rw [hgt] at hv
              injection hv with hv
              injection hv with hv
              rw [Ast.evaluateAssignment, Ast.normalizeSetAssignmentOperand,
                if_pos hs] at h2
              dsimp only at h2
              rw [hg, hz] at h2
              obtain rfl := Option.some.inj h2
              have htype : operandType (Ast.fieldOperand s g u) =
                  operandFloat := by
                rw [Ast.fieldOperand, hgt]
                rfl
              rw [Statement.assignedValue,
                show operandType (Ast.operand (Ast.fieldOperand s g u)).getOperand
                  = operandFloat from htype, if_neg (by decide), ht] at h3
              dsimp only at h3
              obtain rfl := Option.some.inj h3
              rw [Value.toField, if_pos ht] at hw
              obtain rfl := Option.some.inj hw
              have hsame : w'' =
                  { value := (u.value.setWidth 64).setWidth 128 } := by
                have hval : toFloat (Ast.operand
                    (Ast.fieldOperand s g u)).getOperand =
                    (u.value.setWidth 64).setWidth 128 :=
                  (toFloat_float htype).trans
                    (floatOf_fieldOperand (hparsed hs) hgt)
                rcases h4 with h4 | h4
                · rw [h4, hval]
                · rw [h4, trimField_of_float ht, hval]
              rw [hsame] at h5
              refine (setWidth_setWidth_iff u.value).mp ?_
              rw [hinj _ _ h5, hv]
        · exact absurd hv (by simp)

end Infinisql.Proofs
