import Infinisql.Proofs.Evaluators

/-!
# Arithmetic on literals

Both evaluators compute with the machine's `int64_t` and look at no operand
before they do: sums, differences, products and negations wrap, and a division
by zero, or of the least integer by `-1`, is trapped by the processor. Neither
has a way to report such a case, since the only thing it could object to is an
operand that is no number. So `evaluatesExactly_iff` and `assignsExactly_iff`:
an expression is evaluated as it should be if and only if it has an exact
value, with every divisor different from zero and every intermediate result
in range.

`wrapped` is what the machine computes. That it agrees with the exact value is
arithmetic. That the assignment's evaluator computes it is an induction over
the expression, along the recursion of the evaluator; for the search it is what
`follows` says of the expression as a scalar one.
-/

namespace Infinisql.Asts

open Infinisql.Ref Infinisql.Lib

/-! ## What the machine computes -/

/-- None where the processor traps. -/
def Expr.wrapped : Expr → Option (BitVec 64)
  | .literal v => some v
  | .negation right => right.wrapped.map fun b => 0 - b
  | .binary op left right =>
      left.wrapped.bind fun a => right.wrapped.bind fun b =>
        op.assignop.integer a b

theorem fits_eq {z z' : ℤ} (h : fits z = some z') :
    z' = z ∧ -2 ^ 63 ≤ z ∧ z < 2 ^ 63 := by
  unfold fits at h
  split at h
  · next hr =>
      injection h with h
      exact ⟨h.symm, hr⟩
  · cases h

/-- An exact value is in range. -/
theorem exact_range {e : Expr} {z : ℤ} (h : e.exact = some z) :
    -2 ^ 63 ≤ z ∧ z < 2 ^ 63 := by
  cases e with
  | literal v =>
      injection h with h
      have hlo := BitVec.le_toInt v
      have hhi := BitVec.toInt_lt (x := v)
      rw [h] at hlo hhi
      exact ⟨hlo, hhi⟩
  | negation right =>
      obtain ⟨b, _, hb⟩ := Option.bind_eq_some_iff.mp h
      obtain ⟨rfl, hr⟩ := fits_eq hb
      exact hr
  | binary op left right =>
      obtain ⟨a, _, h⟩ := Option.bind_eq_some_iff.mp h
      obtain ⟨b, _, h⟩ := Option.bind_eq_some_iff.mp h
      obtain ⟨c, _, hc⟩ := Option.bind_eq_some_iff.mp h
      obtain ⟨rfl, hr⟩ := fits_eq hc
      exact hr

theorem toInt_ofInt {z : ℤ} (h : -2 ^ 63 ≤ z ∧ z < 2 ^ 63) :
    (BitVec.ofInt 64 z).toInt = z :=
  BitVec.toInt_ofInt_eq_self (by decide) (by simpa using h.1)
    (by simpa using h.2)

/-- Where the quotient is an `int64_t`, the division is not trapped. -/
theorem division_exact {a b : BitVec 64} (hb : b.toInt ≠ 0)
    (hlt : a.toInt.tdiv b.toInt < 2 ^ 63) :
    Assignop.integer a b .division =
      some (BitVec.ofInt 64 (a.toInt.tdiv b.toInt)) := by
  have hzero : b ≠ 0#64 := fun h => hb (by rw [h]; rfl)
  have hmin : ¬ (a = BitVec.intMin 64 ∧ b = BitVec.allOnes 64) := by
    rintro ⟨rfl, rfl⟩
    revert hlt
    decide
  have hcond : ¬ (decide (b = 0#64) || (decide (a = BitVec.intMin 64) &&
      decide (b = BitVec.allOnes 64))) = true := by
    simp only [Bool.or_eq_true, Bool.and_eq_true, decide_eq_true_eq]
    rintro (h | h)
    · exact hzero h
    · exact hmin h
  have hmin' : a ≠ BitVec.intMin 64 ∨ b ≠ -1#64 := by
    by_contra hboth
    push Not at hboth
    exact hmin ⟨hboth.1, hboth.2⟩
  have hquot := BitVec.toInt_sdiv_of_ne_or_ne a b hmin'
  rw [Assignop.integer, if_neg hcond, ← hquot, BitVec.ofInt_toInt]

/-- Where there is an exact value the machine computes it. -/
theorem wrapped_of_exact {e : Expr} : ∀ {z : ℤ}, e.exact = some z →
    e.wrapped = some (BitVec.ofInt 64 z) := by
  induction e with
  | literal v =>
      intro z h
      injection h with h
      rw [Expr.wrapped, ← h, BitVec.ofInt_toInt]
  | negation right ih =>
      intro z h
      obtain ⟨b, hright, hb⟩ := Option.bind_eq_some_iff.mp h
      obtain ⟨rfl, hr⟩ := fits_eq hb
      rw [Expr.wrapped, ih hright, Option.map_some, BitVec.ofInt_neg]
      exact congrArg some (BitVec.zero_sub _)
  | binary op left right ihl ihr =>
      intro z h
      obtain ⟨a, hleft, h⟩ := Option.bind_eq_some_iff.mp h
      obtain ⟨b, hright, h⟩ := Option.bind_eq_some_iff.mp h
      obtain ⟨c, hc, hz⟩ := Option.bind_eq_some_iff.mp h
      obtain ⟨rfl, hr⟩ := fits_eq hz
      rw [Expr.wrapped, ihl hleft, Option.bind_some, ihr hright,
        Option.bind_some]
      cases op with
      | addition =>
          injection hc with hc
          rw [← hc, BitVec.ofInt_add]
          rfl
      | subtraction =>
          injection hc with hc
          rw [← hc, Int.sub_eq_add_neg, BitVec.ofInt_add, BitVec.ofInt_neg,
            ← BitVec.sub_eq_add_neg]
          rfl
      | multiplication =>
          injection hc with hc
          rw [← hc, BitVec.ofInt_mul]
          rfl
      | division =>
          unfold Arith.exact at hc
          dsimp only at hc
          split at hc
          · cases hc
          · next hne =>
              injection hc with hc
              have ha := toInt_ofInt (exact_range hleft)
              have hb := toInt_ofInt (exact_range hright)
              have hdiv := division_exact (a := BitVec.ofInt 64 a)
                (b := BitVec.ofInt 64 b) (by rw [hb]; exact hne)
                (by rw [ha, hb, hc]; exact hr.2)
              rw [ha, hb, hc] at hdiv
              exact hdiv

/-! ## Assignments -/

section Assignments

open Infinisql.Proofs (operandType_integerOperand integerOf_integerOperand)

variable {ld : LongDouble} {fields : List Field} {fieldValues : List FieldValue}
  {parameters : List Bytes}

/-- An integer is no reference to anything else. -/
theorem normalize_integerOperand (v : BitVec 64) :
    Ast.normalizeSetAssignmentOperand fields fieldValues parameters
      (integerOperand v) = some (integerOperand v) := by
  rw [Ast.normalizeSetAssignmentOperand, operandType_integerOperand,
    if_neg (by decide), if_neg (by decide)]

theorem calculate_integers (op : Assignop) (s : Bytes) (a b : BitVec 64) :
    Ast.arithmetic ld op s (.operand (integerOperand a))
      (.operand (integerOperand b)) =
        (op.integer a b).map fun val => .operand (integerOperand val) := by
  have hno : ¬ (operandType (integerOperand a) = operandFloat ∨
      operandType (integerOperand b) = operandFloat) := by
    rw [operandType_integerOperand, operandType_integerOperand]
    decide
  rw [Ast.arithmetic, Ast.getOperand, Ast.getOperand, if_neg hno, Ast.calculate,
    Ast.getOperand, Ast.getOperand]
  rw [if_pos (operandType_integerOperand a),
    if_pos (operandType_integerOperand b), integerOf_integerOperand,
    integerOf_integerOperand]

/-- The assignment's evaluator computes what the machine computes. -/
theorem evaluateAssignment_eq {e : Expr} : ∀ {t : Ast}, e.Assigned t →
    Ast.evaluateAssignment ld fields fieldValues parameters t =
      e.wrapped.map fun v => .operand (integerOperand v) := by
  induction e with
  | literal v =>
      intro t ht
      cases t with
      | operand value =>
          rw [Ast.evaluateAssignment, show value = integerOperand v from ht,
            normalize_integerOperand]
          rfl
      | binary op s l r => exact ht.elim
      | negation s r => exact ht.elim
  | negation right ih =>
      intro t ht
      cases t with
      | operand value => exact ht.elim
      | binary op s l r => exact ht.elim
      | negation s r =>
          rw [Ast.evaluateAssignment, ih ht, Expr.wrapped]
          cases right.wrapped with
          | none => rfl
          | some b =>
              rw [Option.map_some, Option.map_some, Option.map_some,
                Option.map_some, Ast.negate, Ast.getOperand]
              rw [if_pos (operandType_integerOperand b),
                integerOf_integerOperand]
  | binary op left right ihl ihr =>
      intro t ht
      cases t with
      | operand value => exact ht.elim
      | negation s r => exact ht.elim
      | binary op' s l r =>
          obtain ⟨rfl, hl, hr⟩ := ht
          rw [Ast.evaluateAssignment, ihl hl, ihr hr, Expr.wrapped]
          cases left.wrapped with
          | none => rfl
          | some a =>
              cases right.wrapped with
              | none => rfl
              | some b =>
                  rw [Option.map_some, Option.map_some]
                  dsimp only
                  have hop : op.assignop ≠ .concatenation := by
                    cases op <;> decide
                  rw [if_neg hop, calculate_integers]
                  rfl

/-- The tree of an expression. -/
def Expr.toAst : Expr → Ast
  | .literal v => .operand (integerOperand v)
  | .negation right => .negation [] right.toAst
  | .binary op left right => .binary op.assignop [] left.toAst right.toAst

theorem assigned_toAst (e : Expr) : e.Assigned e.toAst := by
  induction e with
  | literal v => rfl
  | negation right ih => exact ih
  | binary op left right ihl ihr => exact ⟨rfl, ihl, ihr⟩

/-- An assignment is evaluated as it should be if and only if its expression
has an exact value. -/
theorem assignsExactly_iff (e : Expr) :
    AssignsExactly e ↔ e.exact.isSome := by
  constructor
  · intro h
    by_contra hno
    have hnone : e.exact = none := Option.not_isSome_iff_eq_none.mp hno
    let ld : LongDouble :=
      ⟨fun a _ => a, fun a _ => a, fun a _ => a, fun a _ => a, fun _ => 0#64⟩
    have hexact := h ld [] [] [] e.toAst (assigned_toAst e)
    rw [hnone] at hexact
    obtain ⟨t', hres, hoperator⟩ := hexact
    rw [evaluateAssignment_eq (assigned_toAst e)] at hres
    obtain ⟨v, _, hv⟩ := Option.map_eq_some_iff.mp hres
    exact hoperator _ hv.symm
  · intro hsome ld fields fieldValues parameters t ht
    obtain ⟨z, hz⟩ := Option.isSome_iff_exists.mp hsome
    rw [hz]
    dsimp only
    rw [evaluateAssignment_eq ht, wrapped_of_exact hz]
    rfl

end Assignments

/-! ## The search -/

/-- The same as an expression over literals of any kind. -/
def Expr.scalar : Expr → Scalar
  | .literal v => .literal (.integer v)
  | .negation right => .negation right.scalar
  | .binary op left right => .binary op.assignop left.scalar right.scalar

theorem operatortype_assignop (op : Arith) :
    Scalar.operatortype op.assignop = op.operatortype := by
  cases op <;> rfl

theorem scalar_linked_iff {e : Expr} : ∀ {t : Tree},
    e.scalar.Linked t ↔ e.Linked t := by
  induction e with
  | literal v =>
      intro t
      cases t <;> exact Iff.rfl
  | negation right ih =>
      intro t
      cases t with
      | unary c op r => exact and_congr Iff.rfl ih
      | _ => exact Iff.rfl
  | binary op left right ihl ihr =>
      intro t
      cases t with
      | binary c op' l r =>
          refine and_congr ?_ (and_congr ihl ihr)
          rw [operatortype_assignop]
      | _ => exact Iff.rfl

/-- Over integers nothing but a trapped division stands in the way. -/
theorem comes_scalar (ld : LongDouble) (e : Expr) :
    e.scalar.comes ld = .ofOption e.wrapped := by
  induction e with
  | literal v => rfl
  | negation right ih =>
      rw [Expr.scalar, Scalar.comes, ih, Expr.wrapped]
      cases right.wrapped <;> rfl
  | binary op left right ihl ihr =>
      rw [Expr.scalar, Scalar.comes, ihl, ihr, Expr.wrapped]
      cases left.wrapped with
      | none => rfl
      | some a =>
          cases right.wrapped with
          | none => rfl
          | some b =>
              have hop : op.assignop ≠ .concatenation := by
                cases op <;> decide
              exact if_neg hop

/-! ## Exactly when it is right -/

section Exactly

variable {s : Surroundings}

theorem reports_succ (fuel : ℕ) : ∀ {h : Heap Node} {a : ℕ} {next : Option ℕ},
    Reports s fuel h a next → Reports s (fuel + 1) h a next := by
  induction fuel with
  | zero => exact fun h => h.elim
  | succ fuel ih =>
      intro h a next hr
      rw [Reports] at hr ⊢
      cases heval : evaluate s h a with
      | none =>
          rw [heval] at hr
          exact hr
      | some p =>
          rw [heval] at hr
          dsimp only at hr ⊢
          rcases hr with hr | hr
          · exact .inl hr
          · cases hnext : p.2.nextAstNode.getD next with
            | none =>
                rw [hnext] at hr
                exact hr.elim
            | some b =>
                rw [hnext] at hr
                exact .inr (ih hr)

theorem reports_add {h : Heap Node} {a : ℕ} {next : Option ℕ} {fuel : ℕ}
    (hr : Reports s fuel h a next) (k : ℕ) :
    Reports s (k + fuel) h a next := by
  induction k with
  | zero => rwa [Nat.zero_add]
  | succ k ih =>
      have hsum : k + 1 + fuel = k + fuel + 1 := by omega
      rw [hsum]
      exact reports_succ _ ih

/-- Nothing is reported, whatever the expression. -/
theorem reports_nothing {e : Expr} {h : Heap Node} {t : Tree}
    (hb : Built h none t) (hlink : e.Linked t) (fuel : ℕ) :
    ¬ Reports s fuel h t.root none := by
  intro hr
  have hfollows := follows (s := s) e.scalar h none t hb
    (scalar_linked_iff.mpr hlink)
  rw [comes_scalar] at hfollows
  cases hw : e.wrapped with
  | none =>
      rw [hw] at hfollows
      obtain ⟨k, h₁, b, hgoes, heval⟩ := hfollows
      have hr' := (hgoes.search none fuel).2.mp (reports_add hr k)
      cases fuel with
      | zero => exact hr'
      | succ fuel =>
          rw [Reports, heval] at hr'
          exact hr'
  | some v =>
      rw [hw] at hfollows
      obtain ⟨k, h₁, h', hgoes, heval, _⟩ := hfollows
      have hr' := (hgoes.search none fuel).2.mp (reports_add hr k)
      cases fuel with
      | zero => exact hr'
      | succ fuel =>
          rw [Reports, heval] at hr'
          simp at hr'

/-- An expression that has an exact value is evaluated to it. -/
theorem searchExpression_exact {e : Expr} {h : Heap Node} {t : Tree} {z : ℤ}
    (hb : Built h none t) (hlink : e.Linked t) (hz : e.exact = some z) :
    ∃ fuel h' n, searchExpression s fuel h t.root = some (.finished h') ∧
      h'.get t.root = some n ∧ n.isoperator = false ∧
      n.operand = integerOperand (BitVec.ofInt 64 z) := by
  have hfollows := follows (s := s) e.scalar h none t hb
    (scalar_linked_iff.mpr hlink)
  rw [comes_scalar, wrapped_of_exact hz] at hfollows
  obtain ⟨fuel, h', n, hsearch, hn, hchildless, hval⟩ := hfollows.searched
  exact ⟨fuel, h', n, hsearch, hn, hchildless.isoperator, hval⟩

/-- An expression is evaluated as it should be, node by node, if and only if it
has an exact value. -/
theorem evaluatesExactly_iff (e : Expr) :
    EvaluatesExactly e ↔ e.exact.isSome := by
  constructor
  · intro hexact
    by_contra hno
    have hnone : e.exact = none := Option.not_isSome_iff_eq_none.mp hno
    obtain ⟨h, hb⟩ := scalar_built e.scalar
    have hlink := scalar_linked_iff.mp (scalar_linked e.scalar 0)
    let surroundings : Surroundings :=
      ⟨[], ⟨fun a _ => a, fun a _ => a, fun a _ => a, fun a _ => a,
        fun _ => 0#64⟩, fun _ _ => none, fun _ _ _ => none⟩
    have hreported := hexact surroundings _ _ hb hlink
    rw [hnone] at hreported
    obtain ⟨fuel, hr⟩ := hreported
    exact reports_nothing hb hlink fuel hr
  · intro hsome s h t hb hlink
    obtain ⟨z, hz⟩ := Option.isSome_iff_exists.mp hsome
    rw [hz]
    exact searchExpression_exact hb hlink hz

/-- Both evaluators are right about an expression exactly if it has an exact
value: no quotient in it is by zero, and no result in it is too large. -/
theorem arithmetic_exact_iff (e : Expr) :
    (EvaluatesExactly e ↔ e.exact.isSome) ∧
      (AssignsExactly e ↔ e.exact.isSome) :=
  ⟨evaluatesExactly_iff e, assignsExactly_iff e⟩

/-- `1 / 0`, and the sum of the greatest integer and one. -/
theorem arithmetic_not_exact :
    ¬ EvaluatesExactly (.binary .division (.literal 1#64) (.literal 0#64)) ∧
    ¬ AssignsExactly (.binary .division (.literal 1#64) (.literal 0#64)) ∧
    ¬ EvaluatesExactly (.binary .addition (.literal (BitVec.intMax 64))
      (.literal 1#64)) ∧
    ¬ AssignsExactly (.binary .addition (.literal (BitVec.intMax 64))
      (.literal 1#64)) := by
  refine ⟨?_, ?_, ?_, ?_⟩
  · rw [evaluatesExactly_iff]
    decide
  · rw [assignsExactly_iff]
    decide
  · rw [evaluatesExactly_iff]
    decide
  · rw [assignsExactly_iff]
    decide

end Exactly

end Infinisql.Asts
