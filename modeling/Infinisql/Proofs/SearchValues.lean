import Infinisql.Proofs.SearchTerms

/-!
# Searches of expressions

The operators on values. Where one cannot be applied, and the call has already
been to another node, `nextAstNode` is still the operator's own, and it is
evaluated for ever: what `toFloat` has done to its operands does not help it.

Of an expression that stands alone, in the list of an IN or in an INSERT, the
search returns with the operand that is `left`, or not at all; and so for each
expression of a list in turn.
-/

namespace Infinisql.Conditions

open Infinisql.Ref (Ast Assignop Bytes Field FieldInput FieldValue LongDouble
  NonLockingIndexEntry floatOf integerOf integerOperand operandFieldid
  operandFloat operandInteger operandParameter operandString operandType
  toFloatOperand)
open Infinisql.Queues (Locktype)
open Infinisql.Asts (Node Operatortype Outcome becomeOperand operandSubquery
  prepare resolveParameter)
open Infinisql.Lib

variable {s : Surroundings} {w : State} {h h' : Heap Node} {n : Node}
  {op : Operatortype} {this a c : ℕ} {parent next : Option ℕ} {v lv rv : Bytes}
  {left right t : Term} {caller : Caller} {l l' : Lists}

/-! ## Operators on values -/

section Values

variable {T : List ℕ}

/-- The children of an operator that can be applied. -/
structure Children (h : Heap Node) (parent : Option ℕ) (this : ℕ)
    (op : Operatortype) (left right : Term) (lv rv : Bytes) (c r : ℕ)
    (ln rn : Node) : Prop where
  cell : h.get this = some (Term.cell parent this op left right)
  leftchild : (Term.cell parent this op left right).leftchild = some c
  rightchild : (Term.cell parent this op left right).rightchild = some r
  leftnode : h.get c = some ln
  rightnode : h.get r = some rn
  leftoperand : ln.operand = lv
  rightoperand : rn.operand = rv
  rightmost : this ≠ r ∧ r ∈ right.addresses
  binary : op.isUnary = false → left.root = some c ∧ this ≠ c ∧ c ≠ r

theorem Ready.children (hready : Ready h parent this op left right lv rv)
    (hnodup : (Term.operator this op left right).addresses.Nodup) :
    ∃ c r ln rn, Children h parent this op left right lv rv c r ln rn := by
  obtain ⟨hcell, hl, ⟨r, hroot, rn, hr, -, hrv, -⟩, -⟩ := hready
  have hnd := List.nodup_cons.mp hnodup
  have hmem := root_mem hroot
  have hne : this ≠ r := by
    rintro rfl
    exact hnd.1 (List.mem_append_right _ hmem)
  by_cases hun : op.isUnary = true
  · refine ⟨this, r, _, rn, hcell, if_pos hun, hroot, hcell, hr, ?_, hrv,
      ⟨hne, hmem⟩, fun hbin => ?_⟩
    · rw [hl.unary hun]
      rfl
    · rw [hun] at hbin
      cases hbin
  · obtain ⟨c, hlroot, ln, hc, -, hlv, -⟩ :=
      hl.binary (Bool.not_eq_true _ ▸ hun)
    have hlmem := root_mem hlroot
    refine ⟨c, r, ln, rn, hcell, (if_neg hun).trans hlroot, hroot, hc, hr, hlv,
      hrv, ⟨hne, hmem⟩, fun _ => ⟨hlroot, ?_, ?_⟩⟩
    · rintro rfl
      exact hnd.1 (List.mem_append_left _ hlmem)
    · rintro rfl
      exact List.disjoint_of_nodup_append hnd.2 hlmem hmem

variable {c r : ℕ} {ln rn : Node}

/-- With two children it becomes an operand. -/
theorem Children.becomeOperand
    (hch : Children h parent this op left right lv rv c r ln rn)
    (hun : op.isUnary = false) (operand : Bytes) :
    IsOperand (becomeOperand h this c r operand) this parent operand ∧
      Same (Term.operator this op left right).addresses h
        (becomeOperand h this c r operand) := by
  obtain ⟨hroot, hc, -⟩ := hch.binary hun
  refine ⟨⟨{ Term.cell parent this op left right with
    operand := operand
    isoperator := false
    leftchild := none
    rightchild := none }, ?_, rfl, rfl, rfl⟩, fun b hb => ?_⟩
  · rw [Asts.becomeOperand, Heap.get_free_of_ne hch.rightmost.1,
      Heap.get_free_of_ne hc, Heap.get_modify_self, hch.cell]
    rfl
  · have hbthis : b ≠ this := fun heq => hb (heq ▸ List.mem_cons_self)
    have hbc : b ≠ c := fun heq => hb (heq ▸ mem_left (root_mem hroot))
    have hbr : b ≠ r := fun heq => hb (heq ▸ mem_right hch.rightmost.2)
    rw [Asts.becomeOperand, Heap.get_free_of_ne hbr, Heap.get_free_of_ne hbc,
      Heap.get_modify_of_ne hbthis]

/-- What an operator on values has done: its value is there, or it is ready
still and will not be applied the next time either, or it has been stopped. -/
def Performed (ld : LongDouble) (h : Heap Node) (parent : Option ℕ) (this : ℕ)
    (op : Operatortype) (left right : Term)
    (result : Option (Heap Node × Outcome)) : Applied → Prop
  | .value v => ∃ h', result = some (h', ⟨true, some parent⟩) ∧
      IsOperand h' this parent v ∧
      Same (Term.operator this op left right).addresses h h'
  | .mismatch => ∃ h' lv rv,
      result = some (h', ⟨decide (op = .concatenation), none⟩) ∧
      Ready h' parent this op left right lv rv ∧
      applied ld op lv rv = .mismatch ∧
      Same (Term.operator this op left right).addresses h h'
  | .trap => result = none

theorem concatenation_performs
    (hready : Ready h parent this .concatenation left right lv rv)
    (hch : Children h parent this .concatenation left right lv rv c r ln rn) :
    Performed s.ld h parent this .concatenation left right
      (Asts.concatenation h this) (applied s.ld .concatenation lv rv) := by
  have heq : Asts.concatenation h this =
      if operandType lv = operandString ∧ operandType rv = operandString then
        some (becomeOperand h this c r
          (operandString :: (lv.drop 1 ++ rv.drop 1)), ⟨true, some parent⟩)
      else some (h, ⟨true, none⟩) := by
    rw [Asts.concatenation, hch.cell]
    dsimp only
    rw [hch.leftchild, hch.rightchild]
    dsimp only
    rw [hch.leftnode, hch.rightnode]
    dsimp only
    rw [hch.leftoperand, hch.rightoperand]
    rfl
  rw [heq]
  by_cases hty : operandType lv = operandString ∧ operandType rv = operandString
  · rw [applied, if_pos hty, if_pos hty]
    obtain ⟨hv, hsame⟩ := hch.becomeOperand rfl
      (operandString :: (lv.drop 1 ++ rv.drop 1))
    exact ⟨_, rfl, hv, hsame⟩
  · have hmis : applied s.ld .concatenation lv rv = .mismatch := if_neg hty
    rw [hmis, if_neg hty]
    exact ⟨h, lv, rv, rfl, hready, hmis, Same.refl _ _⟩

/-- With one child. -/
theorem Children.becomeUnary
    (hch : Children h parent this op left right lv rv c r ln rn)
    (operand : Bytes) :
    IsOperand ((h.modify this fun n =>
        { n with
          operand := operand
          isoperator := false
          rightchild := none }).free r) this parent operand ∧
      Same (Term.operator this op left right).addresses h
        ((h.modify this fun n =>
          { n with
            operand := operand
            isoperator := false
            rightchild := none }).free r) := by
  refine ⟨⟨{ Term.cell parent this op left right with
    operand := operand
    isoperator := false
    rightchild := none }, ?_, rfl, rfl, rfl⟩, fun b hb => ?_⟩
  · rw [Heap.get_free_of_ne hch.rightmost.1, Heap.get_modify_self, hch.cell]
    rfl
  · have hbthis : b ≠ this := fun heq => hb (heq ▸ List.mem_cons_self)
    have hbr : b ≠ r := fun heq => hb (heq ▸ mem_right hch.rightmost.2)
    rw [Heap.get_free_of_ne hbr, Heap.get_modify_of_ne hbthis]

theorem negate_performs
    (hready : Ready h parent this .negation left right lv rv)
    (hch : Children h parent this .negation left right lv rv c r ln rn) :
    Performed s.ld h parent this .negation left right
      (Asts.negate s.ld h this) (applied s.ld .negation lv rv) := by
  rw [Asts.negate, hch.cell]
  dsimp only
  rw [hch.rightchild]
  dsimp only
  rw [hch.rightnode]
  dsimp only
  rw [hch.rightoperand, applied, negated]
  split
  · obtain ⟨hv, hsame⟩ := hch.becomeUnary (integerOperand (0 - integerOf rv))
    exact ⟨_, rfl, hv, hsame⟩
  · next hint =>
      split
      · obtain ⟨hv, hsame⟩ := hch.becomeUnary
          (Ast.floatResult s.ld [] (s.ld.sub 0#128 (floatOf rv)))
        exact ⟨_, rfl, hv, hsame⟩
      · next hfloat =>
          refine ⟨h, lv, rv, rfl, hready, ?_, Same.refl _ _⟩
          rw [applied, negated, if_neg hint, if_neg hfloat]

theorem toFloatOperand_ne_nil (v : Bytes) : toFloatOperand v ≠ [] := by
  unfold toFloatOperand
  split
  · exact List.cons_ne_nil _ _
  · split
    · next hfloat =>
        rintro rfl
        exact absurd hfloat (by decide)
    · exact List.cons_ne_nil _ _

theorem operandType_toFloatOperand (hv : v ≠ []) :
    operandType (toFloatOperand v) = operandType v := by
  unfold toFloatOperand
  split
  · next hint =>
      rw [hint]
      rfl
  · split
    · rfl
    · cases v with
      | nil => exact absurd rfl hv
      | cons b bs => rfl

theorem calculated_eq_mismatch {ld : LongDouble} {aop : Assignop} :
    calculated ld aop lv rv = .mismatch ↔
      ¬ (operandType lv = operandInteger ∧ operandType rv = operandInteger) ∧
        ¬ (operandType lv = operandFloat ∧ operandType rv = operandFloat) := by
  unfold calculated
  split
  · next hint =>
      refine ⟨fun h => ?_, fun h => absurd hint h.1⟩
      split at h <;> cases h
  · next hint =>
      split
      · next hfloat =>
          refine ⟨fun h => ?_, fun h => absurd hfloat h.2⟩
          split at h <;> cases h
      · next hfloat => exact ⟨fun _ => ⟨hint, hfloat⟩, fun _ => rfl⟩

/-- What `toFloat` has been applied to it does not help a second time. -/
theorem arithmetic_floated {ld : LongDouble} {aop : Assignop}
    (hmis : arithmetic ld aop lv rv = .mismatch) :
    arithmetic ld aop (floated lv rv).1 (floated lv rv).2 = .mismatch := by
  unfold arithmetic at hmis ⊢
  by_cases hty : operandType lv = operandFloat ∨ operandType rv = operandFloat
  · have hfl : floated lv rv = (toFloatOperand lv, toFloatOperand rv) :=
      if_pos hty
    rw [hfl] at hmis ⊢
    dsimp only at hmis ⊢
    unfold floated
    split
    · rw [calculated_eq_mismatch] at hmis ⊢
      rwa [operandType_toFloatOperand (toFloatOperand_ne_nil lv),
        operandType_toFloatOperand (toFloatOperand_ne_nil rv)]
    · exact hmis
  · have hfl : floated lv rv = (lv, rv) := if_neg hty
    rw [hfl] at hmis ⊢
    rwa [hfl]

theorem calculate_eq {aop : Assignop} :
    Asts.calculate s.ld aop h this c r (Term.cell parent this op left right)
      lv rv =
      match calculated s.ld aop lv rv with
      | .value v => some (becomeOperand h this c r v, ⟨true, some parent⟩)
      | .mismatch => some (h, .mismatch)
      | .trap => none := by
  unfold Asts.calculate calculated
  by_cases hlint : operandType lv = operandInteger
  · have hnf : ¬ operandType lv = operandFloat := by
      rw [hlint]
      decide
    rw [if_pos hlint]
    by_cases hrint : operandType rv = operandInteger
    · rw [if_pos hrint, if_pos ⟨hlint, hrint⟩]
      cases aop.integer (integerOf lv) (integerOf rv) <;> rfl
    · rw [if_neg hrint, if_neg fun h => hrint h.2, if_neg fun h => hnf h.1]
  · rw [if_neg hlint, if_neg (c := _ ∧ _) fun h => hlint h.1]
    by_cases hlf : operandType lv = operandFloat
    · rw [if_pos hlf]
      by_cases hrf : operandType rv = operandFloat
      · rw [if_pos hrf, if_pos ⟨hlf, hrf⟩]
        cases aop.floating s.ld (floatOf lv) (floatOf rv) <;> rfl
      · rw [if_neg hrf, if_neg fun h => hrf h.2]
    · rw [if_neg hlf, if_neg fun h => hlf h.1]

/-- `toFloat` writes both operands. -/
theorem Children.setOperands (hready : Ready h parent this op left right lv rv)
    (hch : Children h parent this op left right lv rv c r ln rn)
    (hun : op.isUnary = false) {lv' rv' : Bytes}
    (hlv : operandType lv' ≠ operandParameter)
    (hrv : operandType rv' ≠ operandParameter) :
    Ready ((h.modify c (Node.setOperand lv')).modify r (Node.setOperand rv'))
        parent this op left right lv' rv' ∧
      Children ((h.modify c (Node.setOperand lv')).modify r
        (Node.setOperand rv')) parent this op left right lv' rv' c r
        (ln.setOperand lv') (rn.setOperand rv') ∧
      Same (Term.operator this op left right).addresses h
        ((h.modify c (Node.setOperand lv')).modify r
          (Node.setOperand rv')) := by
  obtain ⟨hroot, hc, hcr⟩ := hch.binary hun
  obtain ⟨hr, hrmem⟩ := hch.rightmost
  have hcell : ((h.modify c (Node.setOperand lv')).modify r
      (Node.setOperand rv')).get this =
        some (Term.cell parent this op left right) := by
    rw [Heap.get_modify_of_ne hr, Heap.get_modify_of_ne hc, hch.cell]
  have hleft : ((h.modify c (Node.setOperand lv')).modify r
      (Node.setOperand rv')).get c = some (ln.setOperand lv') := by
    rw [Heap.get_modify_of_ne hcr, Heap.get_modify_self, hch.leftnode]
    rfl
  have hright : ((h.modify c (Node.setOperand lv')).modify r
      (Node.setOperand rv')).get r = some (rn.setOperand rv') := by
    rw [Heap.get_modify_self, Heap.get_modify_of_ne hcr.symm, hch.rightnode]
    rfl
  obtain ⟨c', hroot', ln', hln', hlop, -, hlparent⟩ := hready.left.binary hun
  obtain ⟨r', hrroot, rn', hrn', hrop, -, hrparent⟩ := hready.right
  have hcc : c' = c := Option.some.inj (hroot'.symm.trans hroot)
  have hrr : r' = r := Option.some.inj (hrroot.symm.trans hch.rightchild)
  rw [hcc] at hln'
  rw [hrr] at hrn'
  have hlneq : ln' = ln := Option.some.inj (hln'.symm.trans hch.leftnode)
  have hrneq : rn' = rn := Option.some.inj (hrn'.symm.trans hch.rightnode)
  rw [hlneq] at hlop hlparent
  rw [hrneq] at hrop hrparent
  refine ⟨⟨hcell, ⟨fun _ => ⟨c, hroot, _, hleft, hlop, rfl, hlparent⟩,
    fun h => ?_, hlv⟩, ⟨r, hch.rightchild, _, hright, hrop, rfl, hrparent⟩,
    hrv⟩, ⟨hcell, hch.leftchild, hch.rightchild, hleft, hright, rfl, rfl,
    hch.rightmost, hch.binary⟩, fun b hb => ?_⟩
  · rw [hun] at h
    cases h
  · have hbc : b ≠ c := fun heq => hb (heq ▸ mem_left (root_mem hroot))
    have hbr : b ≠ r := fun heq => hb (heq ▸ mem_right hrmem)
    rw [Heap.get_modify_of_ne hbr, Heap.get_modify_of_ne hbc]

theorem operandType_toFloatOperand_ne
    (hv : operandType v ≠ operandParameter) :
    operandType (toFloatOperand v) ≠ operandParameter := by
  by_cases hnil : v = []
  · rw [hnil]
    decide
  · rwa [operandType_toFloatOperand hnil]

theorem calculate_performs {aop : Assignop}
    (happ : ∀ lv rv, applied s.ld op lv rv = arithmetic s.ld aop lv rv)
    (hun : op.isUnary = false) (hcat : op ≠ .concatenation)
    (hready : Ready h parent this op left right lv rv)
    (hch : Children h parent this op left right lv rv c r ln rn)
    (hmis : calculated s.ld aop lv rv = .mismatch →
      arithmetic s.ld aop lv rv = .mismatch) :
    Performed s.ld h parent this op left right
      (Asts.calculate s.ld aop h this c r
        (Term.cell parent this op left right) lv rv)
      (calculated s.ld aop lv rv) := by
  rw [calculate_eq]
  cases hcalc : calculated s.ld aop lv rv with
  | value v =>
      obtain ⟨hv, hsame⟩ := hch.becomeOperand hun v
      exact ⟨_, rfl, hv, hsame⟩
  | mismatch =>
      refine ⟨h, lv, rv, ?_, hready, (happ lv rv).trans (hmis hcalc),
        Same.refl _ _⟩
      rw [decide_eq_false hcat]
      rfl
  | trap => rfl

theorem Performed.of_same {result : Option (Heap Node × Outcome)}
    {x : Applied} (hp : Performed s.ld h' parent this op left right result x)
    (hsame : Same (Term.operator this op left right).addresses h h') :
    Performed s.ld h parent this op left right result x := by
  cases x with
  | value v =>
      obtain ⟨h₂, hres, hv, hsame'⟩ := hp
      exact ⟨h₂, hres, hv, hsame.trans hsame'⟩
  | mismatch =>
      obtain ⟨h₂, lv, rv, hres, hready, hmis, hsame'⟩ := hp
      exact ⟨h₂, lv, rv, hres, hready, hmis, hsame.trans hsame'⟩
  | trap => exact hp

theorem arithmetic_performs {aop : Assignop}
    (happ : ∀ lv rv, applied s.ld op lv rv = arithmetic s.ld aop lv rv)
    (hun : op.isUnary = false) (hcat : op ≠ .concatenation)
    (hready : Ready h parent this op left right lv rv)
    (hch : Children h parent this op left right lv rv c r ln rn) :
    Performed s.ld h parent this op left right
      (Asts.arithmetic s.ld aop h this) (applied s.ld op lv rv) := by
  have heq : Asts.arithmetic s.ld aop h this =
      if operandType lv = operandFloat ∨ operandType rv = operandFloat then
        Asts.calculate s.ld aop ((h.modify c (Node.setOperand
          (toFloatOperand lv))).modify r (Node.setOperand (toFloatOperand rv)))
          this c r (Term.cell parent this op left right) (toFloatOperand lv)
          (toFloatOperand rv)
      else Asts.calculate s.ld aop h this c r
        (Term.cell parent this op left right) lv rv := by
    rw [Asts.arithmetic, hch.cell]
    dsimp only
    rw [hch.leftchild, hch.rightchild]
    dsimp only
    rw [hch.leftnode, hch.rightnode]
    dsimp only
    rw [hch.leftoperand, hch.rightoperand]
  rw [heq, happ]
  by_cases hty : operandType lv = operandFloat ∨ operandType rv = operandFloat
  · have hfl : floated lv rv = (toFloatOperand lv, toFloatOperand rv) :=
      if_pos hty
    obtain ⟨hready', hch', hsame⟩ := hch.setOperands hready hun
      (operandType_toFloatOperand_ne hready.left.value)
      (operandType_toFloatOperand_ne hready.value)
    rw [if_pos hty, arithmetic, hfl]
    refine (calculate_performs happ hun hcat hready' hch'
      fun hmis => ?_).of_same hsame
    have hfloated : arithmetic s.ld aop (floated lv rv).1 (floated lv rv).2 =
        .mismatch := arithmetic_floated (by rw [arithmetic, hfl, hmis])
    rwa [hfl] at hfloated
  · have hfl : floated lv rv = (lv, rv) := if_neg hty
    rw [if_neg hty, arithmetic, hfl]
    refine calculate_performs happ hun hcat hready hch fun hmis => ?_
    rw [arithmetic, hfl, hmis]

/-- The operators that the engines are not asked for. -/
def onValues : Operatortype → Bool
  | .concatenation | .addition | .subtraction | .multiplication | .division
  | .negation | .betweenand => true
  | _ => false

theorem Children.operands
    (hch : Children h parent this op left right lv rv c r ln rn) :
    operands h (Term.cell parent this op left right) =
      some ⟨c, r, lv, rv⟩ := by
  rw [Conditions.operands, hch.leftchild, hch.rightchild]
  dsimp only
  rw [hch.leftnode, hch.rightnode, ← hch.leftoperand, ← hch.rightoperand]

theorem betweenand_performs
    (hready : Ready w.heap parent this .betweenand left right lv rv)
    (hch : Children w.heap parent this .betweenand left right lv rv c r ln
      rn) :
    ∃ result, execute s .betweenand w this = result.map (fun (h, out) =>
        Call.returned { w with heap := h } out) ∧
      Performed s.ld w.heap parent this .betweenand left right result
        (applied s.ld .betweenand lv rv) := by
  rw [applied]
  cases hbet : betweenand lv rv with
  | none =>
      refine ⟨some (w.heap, .mismatch), ?_, w.heap, lv, rv, rfl, hready, ?_,
        Same.refl _ _⟩
      · rw [execute, hch.cell]
        dsimp only
        rw [hch.operands]
        dsimp only
        rw [hbet]
        rfl
      · rw [applied, hbet]
  | some operand =>
      obtain ⟨hv, hsame⟩ := hch.becomeOperand rfl operand
      refine ⟨some (_, ⟨true, some parent⟩), ?_, _, rfl, hv, hsame⟩
      rw [execute, hch.cell]
      dsimp only
      rw [hch.operands]
      dsimp only
      rw [hbet]
      rfl

theorem execute_arithmetic {result : Option (Heap Node × Outcome)}
    (hch : Children w.heap parent this op left right lv rv c r ln rn)
    (hop : op = .concatenation ∨ op = .addition ∨ op = .subtraction ∨
      op = .multiplication ∨ op = .division ∨ op = .negation)
    (hresult : Asts.execute s.values op w.heap this = result) :
    execute s op w this = result.map fun (h, out) =>
      Call.returned { w with heap := h } out := by
  rw [execute, hch.cell]
  dsimp only
  rw [hch.operands, ← hresult]
  rcases hop with rfl | rfl | rfl | rfl | rfl | rfl <;> rfl

/-- What is done with an operator on values that is ready. -/
theorem execute_values (hop : onValues op = true)
    (hready : Ready w.heap parent this op left right lv rv)
    (hnodup : (Term.operator this op left right).addresses.Nodup) :
    ∃ result, execute s op w this = result.map (fun (h, out) =>
        Call.returned { w with heap := h } out) ∧
      Performed s.ld w.heap parent this op left right result
        (applied s.ld op lv rv) := by
  obtain ⟨c, r, ln, rn, hch⟩ := hready.children hnodup
  cases op with
  | concatenation =>
      exact ⟨_, execute_arithmetic hch (by simp) rfl,
        concatenation_performs hready hch⟩
  | addition =>
      exact ⟨_, execute_arithmetic hch (by simp) rfl,
        arithmetic_performs (fun _ _ => rfl) rfl (by decide) hready hch⟩
  | subtraction =>
      exact ⟨_, execute_arithmetic hch (by simp) rfl,
        arithmetic_performs (fun _ _ => rfl) rfl (by decide) hready hch⟩
  | multiplication =>
      exact ⟨_, execute_arithmetic hch (by simp) rfl,
        arithmetic_performs (fun _ _ => rfl) rfl (by decide) hready hch⟩
  | division =>
      exact ⟨_, execute_arithmetic hch (by simp) rfl,
        arithmetic_performs (fun _ _ => rfl) rfl (by decide) hready hch⟩
  | negation =>
      exact ⟨_, execute_arithmetic hch (by simp) rfl,
        negate_performs hready hch⟩
  | betweenand => exact betweenand_performs hready hch
  | _ => cases hop

/-- The value of an operator is no parameter. -/
theorem applied_value {ld : LongDouble} (hv : applied ld op lv rv = .value v) :
    operandType v ≠ operandParameter := by
  have hcons : ∀ {b : UInt8} {bs : Bytes}, b ≠ operandParameter →
      Applied.value (b :: bs) = .value v →
        operandType v ≠ operandParameter := by
    intro b bs hb heq
    injection heq with heq
    rw [← heq]
    exact hb
  have harith : ∀ aop, arithmetic ld aop lv rv = .value v →
      operandType v ≠ operandParameter := by
    intro aop heq
    unfold arithmetic calculated at heq
    split at heq
    · split at heq
      · exact hcons (by decide) heq
      · cases heq
    · split at heq
      · split at heq
        · exact hcons (by decide) heq
        · cases heq
      · cases heq
  cases op with
  | concatenation =>
      unfold applied at hv
      dsimp only at hv
      split at hv
      · exact hcons (by decide) hv
      · cases hv
  | addition => exact harith _ hv
  | subtraction => exact harith _ hv
  | multiplication => exact harith _ hv
  | division => exact harith _ hv
  | negation =>
      unfold applied negated at hv
      dsimp only at hv
      split at hv
      · exact hcons (by decide) hv
      · split at hv
        · exact hcons (by decide) hv
        · cases hv
  | betweenand =>
      unfold applied betweenand at hv
      dsimp only at hv
      split at hv
      · next hbet =>
          split at hbet
          · cases hbet
          · split at hbet
            · rw [← Option.some.inj hbet] at hv
              exact hcons (by decide) hv
            · split at hbet
              · rw [← Option.some.inj hbet] at hv
                exact hcons (by decide) hv
              · split at hbet
                · rw [← Option.some.inj hbet] at hv
                  exact hcons (by decide) hv
                · cases hbet
      · cases hv
  | _ => cases hv

/-- Where an operator cannot be applied and `nextAstNode` is its own, it is
evaluated again, and so on. -/
theorem strays_mismatch (hop : onValues op = true)
    (hnodup : (Term.operator this op left right).addresses.Nodup)
    (hready : Ready w.heap parent this op left right lv rv)
    (hmis : applied s.ld op lv rv = .mismatch) :
    Strays (step s) Busy (.searching w this (some this) caller) := by
  refine Strays.of_closed (P := fun c => ∃ w lv rv,
    c = .searching w this (some this) caller ∧
      Ready w.heap parent this op left right lv rv ∧
      applied s.ld op lv rv = .mismatch) ⟨w, lv, rv, rfl, hready, hmis⟩ ?_ ?_
  · rintro _ ⟨w, lv, rv, rfl, hready, hmis⟩
    obtain ⟨result, hexec, hperf⟩ := execute_values (s := s) hop hready hnodup
    rw [hmis] at hperf
    obtain ⟨h', lv', rv', rfl, hready', hmis', -⟩ := hperf
    refine ⟨{ w with heap := h' }, lv', rv', ?_, hready', hmis'⟩
    rw [step, evaluate_ready hready, hexec]
    rfl
  · rintro _ ⟨w, lv, rv, rfl, -⟩
    exact .inl trivial

variable {exec : Exec} {R : State → Lists → Prop} {F : List ℕ}

theorem values_apply (hop : onValues op = true)
    (hexec : ∀ this lv rv l,
      exec this op lv rv l = execValue s.ld this op lv rv l) :
    Applies s caller exec R F op := by
  rintro p this left right w₁ w lv rv l ⟨hapart, heval, hready, hR⟩ _
  obtain ⟨result, hresult, hperf⟩ := execute_values (s := s) hop hready
    hapart.nodup
  rw [Reaches, hexec, execValue]
  cases happ : applied s.ld op lv rv with
  | value v =>
      rw [happ] at hperf
      obtain ⟨h', rfl, hv, hsame⟩ := hperf
      refine ⟨fun v' l' hsome => .of_step (.here ?_), fun hnone => ?_⟩
      · injection hsome with hpair
        injection hpair with hval hl
        subst hval hl
        refine ⟨{ w with heap := h' }, ?_, hv, applied_value happ,
          hapart.kept w l h' hR hsame,
          hsame.mono fun b hb => List.mem_append_left _ hb⟩
        rw [step, heval, hresult]
        rfl
      · cases hnone
  | mismatch =>
      rw [happ] at hperf
      obtain ⟨h', lv', rv', rfl, hready', hmis', -⟩ := hperf
      refine ⟨fun v' l' hsome => (by cases hsome), fun _ _ => .of_step ?_⟩
      rw [step, heval, hresult]
      exact strays_mismatch (w := { w with heap := h' }) hop hapart.nodup
        hready' hmis'
  | trap =>
      rw [happ] at hperf
      refine ⟨fun v' l' hsome => (by cases hsome), fun _ _ =>
        strays_trapped ?_⟩
      rw [heval, hresult, hperf]
      rfl

end Values

/-! ## The search of an expression -/

section Expressions

theorem Term.IsExpression.uses : ∀ {t : Term}, t.IsExpression → t.Arity →
    t.Uses fun op => onValues op = true := by
  intro t
  induction t with
  | missing => exact fun hexpr _ => hexpr.elim
  | operand b v => exact fun _ _ => trivial
  | operator this op left right ihl ihr =>
      rintro ⟨hop, hright⟩ ⟨hun, hleft', hright'⟩
      rcases hop with rfl | ⟨hop, hleft⟩
      · rw [hun rfl]
        exact ⟨rfl, trivial, ihr hright hright'⟩
      · refine ⟨?_, ihl hleft hleft', ihr hright hright'⟩
        rcases hop with rfl | rfl | rfl | rfl | rfl <;> rfl

/-- Nothing but cells has changed. -/
def CellsOf (w : State) (w' : State) (_ : Lists) : Prop :=
  ∃ h, w' = { w with heap := h }

theorem CellsOf.kept (T : List ℕ) : Kept (CellsOf w) T := by
  rintro w' l h ⟨h', rfl⟩ _
  exact ⟨h, rfl⟩

/-- The search of an expression has returned. -/
def Evaluated (w : State) (caller : Caller) (t : Term) (a : ℕ) (v : Bytes)
    (c : Config) : Prop :=
  ∃ h n, c = finish { w with heap := h } caller ∧ h.get a = some n ∧
    n.operand = v ∧ Same t.addresses w.heap h

/-- The operator at the root of an expression. -/
theorem expression_root {w₁ w₂ : State} {lv rv : Bytes}
    (hat : AtOperator s (CellsOf w) [] w₁ w₂ none this op left right lv rv l)
    (hsame : Same (Term.operator this op left right).addresses w.heap w₂.heap)
    (hop : onValues op = true)
    (hcaller : ∀ w b, leave w b caller = finish w caller)
    (hnext : next = if left.isOperator ∨ right.isOperator then some this
      else none) :
    (∀ v, (applied s.ld op lv rv).left
        (left.isOperator = true ∨ right.isOperator = true) = some v →
      Attains (step s) (Off s) (.searching w₁ this next caller)
        (Evaluated w caller (.operator this op left right) this v)) ∧
    ((applied s.ld op lv rv).left
        (left.isOperator = true ∨ right.isOperator = true) = none →
      Strays (step s) Busy (.searching w₁ this next caller)) := by
  obtain ⟨result, hresult, hperf⟩ := execute_values (s := s) hop hat.ready
    hat.apart.nodup
  obtain ⟨h₂, hw₂⟩ := hat.lists
  cases happ : applied s.ld op lv rv with
  | value v =>
      rw [happ] at hperf
      obtain ⟨h', rfl, ⟨n, hn, -, hnv, -⟩, hsame'⟩ := hperf
      refine ⟨fun v' hv' => .of_step (.here ?_), fun hnone => (by cases hnone)⟩
      refine ⟨h', n, ?_, hn, hnv.trans (Option.some.inj hv'),
        hsame.trans hsame'⟩
      rw [step, hat.evaluate, hresult, hw₂]
      rfl
  | mismatch =>
      rw [happ] at hperf
      obtain ⟨h', lv', rv', rfl, hready', hmis', hsame'⟩ := hperf
      rw [Applied.left, hnext]
      by_cases hchild : left.isOperator = true ∨ right.isOperator = true
      · rw [if_pos hchild, if_pos hchild]
        refine ⟨fun v' hv' => (by cases hv'), fun _ => .of_step ?_⟩
        rw [step, hat.evaluate, hresult]
        exact strays_mismatch (w := { w₂ with heap := h' }) hop hat.apart.nodup
          hready' hmis'
      · rw [if_neg hchild, if_neg hchild]
        refine ⟨fun v' hv' => .of_step (.here ?_),
          fun hnone => (by cases hnone)⟩
        refine ⟨h', _, ?_, hready'.cell, Option.some.inj hv',
          hsame.trans hsame'⟩
        rw [step, hat.evaluate, hresult, hw₂]
        change (if decide (op = .concatenation) = true then
          finish { w with heap := h' } caller
          else leave { w with heap := h' } this caller) = _
        rw [hcaller, ite_self]
  | trap =>
      rw [happ] at hperf
      refine ⟨fun v' hv' => (by cases hv'), fun _ => strays_trapped ?_⟩
      rw [hat.evaluate, hresult, hperf]
      rfl

theorem expression_leaf (hv : IsOperand w.heap a none v) :
    (∀ v', supplied s.parameters v = some v' →
      Attains (step s) (Off s) (.searching w a none caller)
        (Evaluated w caller (.operand a v) a v')) ∧
    (supplied s.parameters v = none →
      Strays (step s) Busy (.searching w a none caller)) := by
  have hleaf := evaluate_leaf (s := s) hv
  cases hsup : supplied s.parameters v with
  | none =>
      rw [hsup] at hleaf
      exact ⟨fun v' hv' => (by cases hv'), fun _ => strays_trapped hleaf⟩
  | some v₁ =>
      rw [hsup] at hleaf
      obtain ⟨h', heval, ⟨n, hn, -, hnv, -⟩, hsame⟩ := hleaf
      refine ⟨fun v' hv' => .of_step (.here ⟨h', n, ?_, hn,
        hnv.trans (Option.some.inj hv'), hsame⟩), fun hnone => (by cases hnone)⟩
      rw [step, heval]
      rfl

variable (caller) in
/-- A search that has nothing to wait for returns with the operand that is
`left`, or not at all. -/
theorem expression_turn (hlaid : Laid w.heap none t) (hexpr : t.IsExpression)
    (hnodup : t.addresses.Nodup) (ha : t.root = some a)
    (hcaller : ∀ w b, leave w b caller = finish w caller) :
    (∀ v, t.left s = some v →
      Attains (step s) (Off s) (.searching w a none caller)
        (Evaluated w caller t a v)) ∧
    (t.left s = none → Calm s →
      Strays (step s) Busy (.searching w a none caller)) := by
  cases t with
  | missing => exact hexpr.elim
  | operand b v =>
      injection ha with ha
      subst ha
      obtain ⟨hgood, hbad⟩ := expression_leaf (s := s) hlaid.operand
      exact ⟨hgood, fun hnone _ => hbad hnone⟩
  | operator this op left right =>
      injection ha with ha
      subst ha
      obtain ⟨hop, hul, hur⟩ := hexpr.uses hlaid.arity
      have hnd := List.nodup_append.mp (List.nodup_cons.mp hnodup).2
      have hF : ∀ T : List ℕ, ∀ b ∈ T, b ∉ ([] : List ℕ) := fun _ _ _ =>
        List.not_mem_nil
      have happlies : ∀ op, onValues op = true →
          Applies s caller (execValue s.ld) (CellsOf w) [] op :=
        fun op hop => values_apply hop fun _ _ _ _ => rfl
      have hapart : Apart (CellsOf w) [] this op left right :=
        ⟨hnodup, hF _, CellsOf.kept _⟩
      obtain ⟨hgood, hbad⟩ := operands_turn none (l := ⟨[], []⟩) hapart hlaid
        ⟨w.heap, rfl⟩ (walk happlies left hul hnd.1 (hF _) (CellsOf.kept _))
        (walk happlies right hur hnd.2.1 (hF _) (CellsOf.kept _))
      rw [Term.left]
      cases hboth : both s.parameters (execValue s.ld) op left right
          ⟨[], []⟩ with
      | none => exact ⟨fun v hv => (by cases hv), fun _ => hbad hboth⟩
      | some q =>
          obtain ⟨lv, rv, l'⟩ := q
          have hroot : ∀ d, AtExec s caller (CellsOf w) [] w
              (.operator this op left right) none
              (afterBoth left right this none) this op left right lv rv l' d →
              (∀ v, (applied s.ld op lv rv).left
                  (left.isOperator = true ∨ right.isOperator = true) = some v →
                Attains (step s) (Off s) d
                  (Evaluated w caller (.operator this op left right) this v)) ∧
              ((applied s.ld op lv rv).left
                  (left.isOperator = true ∨ right.isOperator = true) = none →
                Strays (step s) Busy d) := by
            rintro _ ⟨w₁, w₂, rfl, heval, hready, hR, hsame⟩
            rw [List.append_nil] at hsame
            exact expression_root ⟨hapart, heval, hready, hR⟩ hsame hop hcaller
              afterBoth_none
          refine ⟨fun v hv => (hgood lv rv l' hboth).trans fun d hd =>
            (hroot d hd).1 v hv, fun hnone hcalm => ?_⟩
          exact (hgood lv rv l' hboth).strays (fun d hd => hd.2 hcalm)
            fun d hd => (hroot d hd).2 hnone

end Expressions

/-! ## The list of an IN -/

section Items

variable {f : Field} {r : ℕ} {i : Term} {items : List Term}

/-- The IN that a list is for, and its field. -/
structure InField (s : Surroundings) (h : Heap Node) (this r : ℕ) (f : Field) :
    Prop where
  node : ∃ n, h.get this = some n ∧ n.rightchild = some r
  field : ∃ rn, h.get r = some rn ∧
    s.fields[(integerOf rn.operand).toNat]? = some f

theorem InField.of_same (hf : InField s h this r f) {foot : List ℕ}
    (hs : Same foot h h') (hthis : this ∉ foot) (hr : r ∉ foot) :
    InField s h' this r f := by
  obtain ⟨⟨n, hn, hnr⟩, rn, hrn, hfield⟩ := hf
  exact ⟨⟨n, (hs this hthis).trans hn, hnr⟩, rn, (hs r hr).trans hrn, hfield⟩

theorem pushValue_eq (hf : InField s w.heap this r f) {es : List ℕ}
    (hes : w.expressionlist = a :: es) (hn : w.heap.get a = some n) :
    pushValue s w this = (inValue f n.operand).map fun fieldValue =>
      { w with
        heap := w.heap.free a
        expressionlist := es
        inValues := w.inValues ++ [fieldValue] } := by
  obtain ⟨⟨m, hm, hmr⟩, rn, hrn, hfield⟩ := hf
  rw [pushValue, hes]
  dsimp only
  rw [hm, hn]
  dsimp only
  rw [hmr, Option.bind_some, hrn]
  dsimp only
  rw [hfield]

/-- The value of an expression in a list. -/
def itemValue (s : Surroundings) (f : Field) (i : Term) : Option FieldValue :=
  (i.left s).bind (inValue f)

theorem itemValues_cons : itemValues s f (i :: items) =
    (itemValue s f i).bind fun fieldValue =>
      (itemValues s f items).map fun values => fieldValue :: values := by
  rw [itemValues, List.mapM_cons]
  change (itemValue s f i).bind _ = _
  refine Option.bind_congr fun fieldValue _ => ?_
  change (itemValues s f items).bind _ = _
  cases itemValues s f items <;> rfl

/-- What is asked of a list. -/
structure Listed (w : State) (items : List Term) : Prop where
  expressionlist : w.expressionlist.map some = items.map Term.root
  terms : ∀ i ∈ items, Laid w.heap none i ∧ i.IsExpression
  nodup : (items.flatMap Term.addresses).Nodup

/-- The values of the list have been noted. -/
def Resolved (w : State) (this : ℕ) (items : List Term)
    (values : List FieldValue) (c : Config) : Prop :=
  ∃ h, c = .resolving { w with
      heap := h
      expressionlist := []
      inValues := w.inValues ++ values } this ∧
    Same (items.flatMap Term.addresses) w.heap h

/-- The next expression of the list. -/
theorem item_turn {es : List ℕ} (hf : InField s w.heap this r f)
    (hlaid : Laid w.heap none i) (hexpr : i.IsExpression)
    (hnodup : i.addresses.Nodup) (ha : i.root = some a)
    (hlist : w.expressionlist = a :: es)
    (hapart : ∀ b ∈ i.addresses, b ≠ this ∧ b ≠ r) :
    (∀ fieldValue, itemValue s f i = some fieldValue →
      Attains (step s) (Off s) (.resolving w this) fun c =>
        ∃ h, c = .resolving { w with
            heap := h
            expressionlist := es
            inValues := w.inValues ++ [fieldValue] } this ∧
          Same i.addresses w.heap h) ∧
    (itemValue s f i = none → Calm s →
      Strays (step s) Busy (.resolving w this)) := by
  have hdown : step s (.resolving w this) =
      .searching w a none (.inlist this) := by
    rw [step, hlist]
  obtain ⟨hgood, hbad⟩ := expression_turn (s := s) (.inlist this) hlaid hexpr
    hnodup ha fun _ _ => rfl
  have hpush : ∀ {h : Heap Node} {n : Node}, h.get a = some n →
      Same i.addresses w.heap h →
      pushValue s { w with heap := h } this =
        (inValue f n.operand).map fun fieldValue => { w with
          heap := h.free a
          expressionlist := es
          inValues := w.inValues ++ [fieldValue] } := by
    intro h n hn hsame
    refine pushValue_eq (w := { w with heap := h }) (hf.of_same hsame
      (fun hin => ?_) fun hin => ?_) hlist hn
    · exact (hapart this hin).1 rfl
    · exact (hapart r hin).2 rfl
  rw [itemValue]
  cases hleft : i.left s with
  | none =>
      refine ⟨fun v hv => (by cases hv), fun _ hcalm => .of_step ?_⟩
      rw [hdown]
      exact hbad hleft hcalm
  | some v =>
      rw [Option.bind_some]
      refine ⟨fun fieldValue hvalue => .of_step ?_, fun hnone hcalm =>
        .of_step ?_⟩
      · rw [hdown]
        refine (hgood v hleft).trans ?_
        rintro _ ⟨h, n, rfl, hn, rfl, hsame⟩
        refine .of_step (.here ⟨h.free a, ?_, hsame.trans fun b hb =>
          Heap.get_free_of_ne fun heq => hb (heq ▸ root_mem ha)⟩)
        rw [finish, step, hpush hn hsame, hvalue]
        rfl
      · rw [hdown]
        refine (hgood v hleft).strays (fun d hd => hd.2 hcalm) ?_
        rintro _ ⟨h, n, rfl, hn, rfl, hsame⟩
        refine .of_step ?_
        rw [finish, step, hpush hn hsame, hnone]
        exact strays_stopped _

/-- Behind its first expression a list is one still. -/
theorem Listed.tail {es : List ℕ} (hlist : Listed w (i :: items))
    (hes : es.map some = items.map Term.root)
    (hsame : Same i.addresses w.heap h) (values : List FieldValue) :
    Listed { w with
      heap := h
      expressionlist := es
      inValues := values } items := by
  obtain ⟨-, hterms, hnodup⟩ := hlist
  rw [List.flatMap_cons] at hnodup
  obtain ⟨-, hnodup, hdisj⟩ := List.nodup_append'.mp hnodup
  refine ⟨hes, fun j hj => ?_, hnodup⟩
  obtain ⟨hlaid, hexpr⟩ := hterms j (List.mem_cons_of_mem _ hj)
  refine ⟨hlaid.of_same hsame fun b hb hbi => hdisj hbi ?_, hexpr⟩
  exact List.mem_flatMap.mpr ⟨j, hj, hb⟩

/-- By induction on the list. -/
theorem list_turn : ∀ (items : List Term) (w : State), Listed w items →
    InField s w.heap this r f →
    (∀ b ∈ items.flatMap Term.addresses, b ≠ this ∧ b ≠ r) →
    (∀ values, itemValues s f items = some values →
      Attains (step s) (Off s) (.resolving w this)
        (Resolved w this items values)) ∧
    (itemValues s f items = none → Calm s →
      Strays (step s) Busy (.resolving w this)) := by
  intro items
  induction items with
  | nil =>
      intro w hlist hf hapart
      refine ⟨fun values hvalues => .here ⟨w.heap, ?_, Same.refl _ _⟩,
        fun hnone => (by cases hnone)⟩
      have hnil : w.expressionlist = [] := List.map_eq_nil_iff.mp
        hlist.expressionlist
      have hval : values = [] := (Option.some.inj hvalues).symm
      obtain ⟨h, es, vs⟩ := w
      dsimp only at hnil
      rw [hnil, hval, List.append_nil]
  | cons i items ih =>
      intro w hlist hf hapart
      have hes := hlist.expressionlist
      obtain ⟨hlaid, hexpr⟩ := hlist.terms i List.mem_cons_self
      have hnodup := hlist.nodup
      rw [List.flatMap_cons] at hnodup hapart
      obtain ⟨a, es, hcons, ha, hes⟩ : ∃ a es, w.expressionlist = a :: es ∧
          i.root = some a ∧ es.map some = items.map Term.root := by
        cases hw : w.expressionlist with
        | nil =>
            rw [hw] at hes
            cases hes
        | cons a es =>
            rw [hw, List.map_cons, List.map_cons] at hes
            injection hes with hroot hrest
            exact ⟨a, es, rfl, hroot.symm, hrest⟩
      have hfirst := fun b hb => hapart b (List.mem_append_left _ hb)
      obtain ⟨hgood, hbad⟩ := item_turn hf hlaid hexpr
        (List.nodup_append.mp hnodup).1 ha hcons hfirst
      have hrest : ∀ h fieldValue, Same i.addresses w.heap h → _ :=
        fun h fieldValue hsame => ih { w with
            heap := h
            expressionlist := es
            inValues := w.inValues ++ [fieldValue] }
          (hlist.tail hes hsame _) (hf.of_same hsame
            (fun hin => (hfirst this hin).1 rfl)
            fun hin => (hfirst r hin).2 rfl)
          fun b hb => hapart b (List.mem_append_right _ hb)
      rw [itemValues_cons]
      cases hvalue : itemValue s f i with
      | none => exact ⟨fun values hvalues => (by cases hvalues),
          fun _ => hbad hvalue⟩
      | some fieldValue =>
          rw [Option.bind_some]
          refine ⟨fun values hvalues => ?_, fun hnone hcalm => ?_⟩
          · obtain ⟨rest, hvals, rfl⟩ := Option.map_eq_some_iff.mp hvalues
            refine (hgood fieldValue hvalue).trans ?_
            rintro _ ⟨h, rfl, hsame⟩
            refine ((hrest h fieldValue hsame).1 rest hvals).mono ?_
            rintro _ ⟨h', rfl, hsame'⟩
            refine ⟨h', ?_, (hsame.mono fun b hb =>
              List.mem_append_left _ hb).trans (hsame'.mono fun b hb =>
              List.mem_append_right _ hb)⟩
            rw [List.append_assoc]
            rfl
          · refine (hgood fieldValue hvalue).strays (fun d hd => hd.2 hcalm) ?_
            rintro _ ⟨h, rfl, hsame⟩
            exact (hrest h fieldValue hsame).2 (Option.map_eq_none_iff.mp hnone)
              hcalm

end Items

end Infinisql.Conditions
