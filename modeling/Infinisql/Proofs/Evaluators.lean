import Infinisql.Proofs.ExpressionTrees
import Infinisql.Proofs.UpdateValues
import Infinisql.Spec.Evaluators

/-!
# The two evaluators compute the same

`comes` is what an expression comes to: a value, or a stop, because an operator
is given operands that it does not take or because the processor traps a
division. Both evaluators compute it. For the recursion that is an induction
over the expression, and for the search it is one along its way from node to
node: into an operator on the left, back to its parent, into one on the right,
back again, and then the operator itself, which becomes an operand and names
its parent as the next node.

Where an operator does not take its operands the recursion goes on with what is
there, and the search does not: it is at the same node the next time, since the
call has named no other, and for ever, unless that node is the root.
`evaluatorsAgree_iff` says that the two agree exactly where each operator takes
its operands and each quotient is an integer of 64 bits.
-/

namespace Infinisql.Asts

open Infinisql.Ref Infinisql.Lib
open Infinisql.Proofs (integerOf_integerOperand length_toBytes
  setWidth_ofBytes_toBytes)

/-! ## What an expression comes to -/

/-- What an operator, or an expression, comes to. -/
inductive Result
  | value (v : Literal)
  | mismatch
  | trap

def Result.bind (r : Result) (f : Literal → Result) : Result :=
  match r with
  | value v => f v
  | mismatch => mismatch
  | trap => trap

/-- An operation that the processor may trap. -/
def Result.ofOption : Option (BitVec 64) → Result
  | some v => value (.integer v)
  | none => trap

/-- An operator with two operands. Of a float the whole part is stored, as an
integer. -/
def apply (ld : LongDouble) (op : Assignop) : Literal → Literal → Result
  | .integer a, .integer b =>
      if op = .concatenation then .mismatch else .ofOption (op.integer a b)
  | .float a, .float b =>
      match op.floating ld a b with
      | some v => .value (.float ((ld.toInteger v).setWidth 128))
      | none => .mismatch
  | .string a, .string b =>
      if op = .concatenation then .value (.string (a ++ b)) else .mismatch
  | _, _ => .mismatch

def negative (ld : LongDouble) : Literal → Result
  | .integer b => .value (.integer (0 - b))
  | .float b =>
      .value (.float ((ld.toInteger (ld.sub 0#128 b)).setWidth 128))
  | .string _ => .mismatch

def Scalar.comes (ld : LongDouble) : Scalar → Result
  | literal l => .value l
  | negation right => (right.comes ld).bind (negative ld)
  | binary op left right =>
      (left.comes ld).bind fun a => (right.comes ld).bind fun b =>
        apply ld op a b

/-! ## Operands of literals -/

def Kind.tag : Kind → UInt8
  | integer => operandInteger
  | float => operandFloat
  | string => operandString

theorem Kind.tag_injective {a b : Kind} (h : a.tag = b.tag) : a = b := by
  revert h
  cases a <;> cases b <;> decide

/-- A literal stands for itself. -/
theorem Kind.tag_ne (k : Kind) : k.tag ≠ operandParameter ∧
    k.tag ≠ operandSubquery ∧ k.tag ≠ operandFieldid := by
  cases k <;> decide

@[simp] theorem operandType_operand (l : Literal) :
    operandType l.operand = l.kind.tag := by
  cases l <;> rfl

theorem operandType_eq_iff {l : Literal} (k : Kind) :
    operandType l.operand = k.tag ↔ l.kind = k := by
  rw [operandType_operand]
  exact ⟨Kind.tag_injective, fun h => by rw [h]⟩

theorem operandType_integer (v : BitVec 64) :
    operandType (Literal.integer v).operand = operandInteger := rfl

theorem operandType_float (v : FieldInput) :
    operandType (Literal.float v).operand = operandFloat ∧
      operandType (Literal.float v).operand ≠ operandInteger :=
  ⟨rfl, by change operandFloat ≠ operandInteger; decide⟩

theorem floatOf_operand (v : FieldInput) :
    floatOf (Literal.float v).operand = v := by
  have hall := @setWidth_ofBytes_toBytes v 16 128 (by omega)
  rw [BitVec.setWidth_eq, BitVec.setWidth_eq] at hall
  rw [floatOf, Literal.operand, List.drop_one, List.tail_cons,
    List.take_of_length_le (by rw [length_toBytes]), hall]

/-- The eight bytes of an integer, and eight zeros, are a float's sixteen. -/
theorem toBytes_setWidth (v : BitVec 64) :
    FieldInput.toBytes (v.setWidth 128) 16 =
      FieldInput.toBytes (v.setWidth 128) 8 ++ List.replicate 8 0 := by
  refine List.ext_getElem ?_ fun i hi _ => ?_
  · rw [length_toBytes, List.length_append, length_toBytes,
      List.length_replicate]
  · rw [length_toBytes] at hi
    by_cases hlow : i < 8
    · rw [List.getElem_append_left (by rw [length_toBytes]; exact hlow)]
      simp only [FieldInput.toBytes, List.getElem_map, List.getElem_range]
    · rw [List.getElem_append_right (by rw [length_toBytes]; omega),
        List.getElem_replicate]
      have hzero : (v.setWidth 128).extractLsb' (8 * i) 8 = 0#8 := by
        refine BitVec.eq_of_getLsbD_eq fun j hj => ?_
        rw [BitVec.getLsbD_extractLsb', BitVec.getLsbD_setWidth,
          BitVec.getLsbD_of_ge v _ (by omega)]
        simp
      simp only [FieldInput.toBytes, List.getElem_map, List.getElem_range,
        hzero]
      rfl

theorem floatResult_nil (ld : LongDouble) (val : FieldInput) :
    Ast.floatResult ld [] val =
      (Literal.float ((ld.toInteger val).setWidth 128)).operand := by
  rw [Ast.floatResult, Literal.operand, toBytes_setWidth]
  rfl

/-- What `toFloat` makes of a literal: only a string is written over. -/
def Literal.floated : Literal → Literal
  | string s => string ((floatOf (operandString :: s)).toBytes 16)
  | l => l

@[simp] theorem kind_floated (l : Literal) : l.floated.kind = l.kind := by
  cases l <;> rfl

theorem toFloatOperand_operand (l : Literal) :
    toFloatOperand l.operand = l.floated.operand := by
  cases l with
  | integer v =>
      rw [toFloatOperand]
      rw [if_pos (operandType_integer v), Literal.operand,
        integerOf_integerOperand]
      rfl
  | float v => rfl
  | string s => rfl

theorem floated_of_kind {l : Literal} (h : l.kind ≠ .string) :
    l.floated = l := by
  cases l with
  | integer v => rfl
  | float v => rfl
  | string s => exact absurd rfl h

/-! ## The recursion -/

section Assignments

variable {ld : LongDouble} {fields : List Field} {fieldValues : List FieldValue}
  {parameters : List Bytes}

/-- A literal is no reference to anything else. -/
theorem normalize_operand (l : Literal) :
    Ast.normalizeSetAssignmentOperand fields fieldValues parameters l.operand =
      some l.operand := by
  rw [Ast.normalizeSetAssignmentOperand, operandType_operand,
    if_neg l.kind.tag_ne.2.2, if_neg l.kind.tag_ne.1]

/-- The result of an operator, where there is one. -/
def Result.toAst : Result → Option Ast
  | value v => some (.operand v.operand)
  | mismatch => none
  | trap => none

theorem concatenation_apply {a b : Literal}
    (h : apply ld .concatenation a b ≠ .mismatch) :
    some (Ast.concatenation [] (.operand a.operand) (.operand b.operand)) =
      (apply ld .concatenation a b).toAst := by
  cases a with
  | integer a => cases b <;> exact absurd rfl h
  | float a => cases b <;> exact absurd rfl h
  | string a =>
      cases b with
      | integer b => exact absurd rfl h
      | float b => exact absurd rfl h
      | string b => rfl

theorem arithmetic_apply {op : Assignop} {a b : Literal}
    (hop : op ≠ .concatenation) (h : apply ld op a b ≠ .mismatch) :
    Ast.arithmetic ld op [] (.operand a.operand) (.operand b.operand) =
      (apply ld op a b).toAst := by
  have hkinds : a.kind = b.kind ∧ a.kind ≠ .string := by
    cases a with
    | integer a =>
        cases b with
        | integer b => exact ⟨rfl, by simp [Literal.kind]⟩
        | float b => exact absurd rfl h
        | string b => exact absurd rfl h
    | float a =>
        cases b with
        | integer b => exact absurd rfl h
        | float b => exact ⟨rfl, by simp [Literal.kind]⟩
        | string b => exact absurd rfl h
    | string a =>
        cases b with
        | integer b => exact absurd rfl h
        | float b => exact absurd rfl h
        | string b => exact absurd (if_neg hop) h
  obtain ⟨heq, hne⟩ := hkinds
  have hfloated : Ast.arithmetic ld op [] (.operand a.operand)
      (.operand b.operand) = Ast.calculate ld op [] (.operand a.operand)
        (.operand b.operand) := by
    rw [Ast.arithmetic, Ast.getOperand, Ast.getOperand, Ast.setOperand,
      Ast.setOperand, toFloatOperand_operand, toFloatOperand_operand,
      floated_of_kind hne, floated_of_kind (heq ▸ hne), ite_self]
  rw [hfloated]
  cases a with
  | integer a =>
      cases b with
      | integer b =>
          change (op.integer (integerOf (integerOperand a))
            (integerOf (integerOperand b))).map _ = _
          rw [integerOf_integerOperand, integerOf_integerOperand, apply,
            if_neg hop]
          cases op.integer a b <;> rfl
      | float b => cases heq
      | string b => cases heq
  | float a =>
      cases b with
      | integer b => cases heq
      | float b =>
          change (op.floating ld (floatOf (Literal.float a).operand)
            (floatOf (Literal.float b).operand)).map _ = _
          rw [floatOf_operand, floatOf_operand, apply]
          cases hval : op.floating ld a b with
          | none =>
              rw [apply, hval] at h
              exact absurd rfl h
          | some v =>
              rw [Option.map_some, floatResult_nil]
              rfl
      | string b => cases heq
  | string a => exact absurd rfl hne

theorem negate_negative {a : Literal} (h : negative ld a ≠ .mismatch) :
    some (Ast.negate ld [] (.operand a.operand)) =
      (negative ld a).toAst := by
  cases a with
  | integer a =>
      rw [Ast.negate, Ast.getOperand]
      rw [if_pos (operandType_integer a), Literal.operand,
        integerOf_integerOperand]
      rfl
  | float a =>
      rw [Ast.negate, Ast.getOperand]
      rw [if_neg (operandType_float a).2, if_pos (operandType_float a).1,
        floatOf_operand, floatResult_nil]
      rfl
  | string a => exact absurd rfl h

/-- The recursion computes what the expression comes to. -/
theorem evaluateAssignment_comes {e : Scalar} : ∀ {ast : Ast},
    e.Assigned ast → e.comes ld ≠ .mismatch →
      ast.evaluateAssignment ld fields fieldValues parameters =
        (e.comes ld).toAst := by
  induction e with
  | literal l =>
      intro ast ha _
      cases ast with
      | operand value =>
          rw [Ast.evaluateAssignment, show value = l.operand from ha,
            normalize_operand]
          rfl
      | binary op s l r => exact ha.elim
      | negation s r => exact ha.elim
  | negation right ih =>
      intro ast ha hne
      cases ast with
      | operand value => exact ha.elim
      | binary op s l r => exact ha.elim
      | negation s r =>
          obtain ⟨rfl, hr⟩ := ha
          rw [Ast.evaluateAssignment]
          rw [Scalar.comes] at hne ⊢
          cases hright : right.comes ld with
          | value v =>
              rw [hright] at hne
              rw [ih hr (by rw [hright]; simp), hright]
              exact negate_negative hne
          | mismatch =>
              rw [hright] at hne
              exact absurd rfl hne
          | trap =>
              rw [ih hr (by rw [hright]; simp), hright]
              rfl
  | binary op left right ihl ihr =>
      intro ast ha hne
      cases ast with
      | operand value => exact ha.elim
      | negation s r => exact ha.elim
      | binary op' s l r =>
          obtain ⟨rfl, rfl, hl, hr⟩ := ha
          rw [Ast.evaluateAssignment]
          rw [Scalar.comes] at hne ⊢
          cases hleft : left.comes ld with
          | mismatch =>
              rw [hleft] at hne
              exact absurd rfl hne
          | trap =>
              rw [ihl hl (by rw [hleft]; simp), hleft]
              rfl
          | value a =>
              rw [hleft] at hne
              rw [ihl hl (by rw [hleft]; simp), hleft]
              cases hright : right.comes ld with
              | mismatch =>
                  rw [hright] at hne
                  exact absurd rfl hne
              | trap =>
                  rw [ihr hr (by rw [hright]; simp), hright]
                  rfl
              | value b =>
                  rw [hright] at hne
                  rw [ihr hr (by rw [hright]; simp), hright]
                  change (if op' = .concatenation then some (Ast.concatenation []
                    (.operand a.operand) (.operand b.operand)) else
                      Ast.arithmetic ld op' [] (.operand a.operand)
                        (.operand b.operand)) = (apply ld op' a b).toAst
                  split
                  · next hop =>
                      subst hop
                      exact concatenation_apply hne
                  · next hop => exact arithmetic_apply hop hne

end Assignments

/-! ## The search -/

section Search

variable {s : Surroundings} {h h' : Heap Node} {parent : Option ℕ}
  {a b c l r : ℕ} {op : Operatortype} {n : Node} {u v w : Literal}

/-- The cell is an operand with that value, and has no children. -/
def IsValue (h : Heap Node) (c : ℕ) (v : Literal) : Prop :=
  ∃ n, h.get c = some n ∧ Childless c n ∧ n.operand = v.operand

theorem resolveParameter_operand (v : Literal) (ps : List Bytes) :
    resolveParameter ps h a v.operand = some h := by
  rw [resolveParameter, operandType_operand, if_neg v.kind.tag_ne.1]

theorem prepare_value (hc : IsValue h c v) :
    prepare s h a (some c) = some (h, none) := by
  obtain ⟨n, hn, hop, hval⟩ := hc
  rw [prepare, hn]
  dsimp only
  rw [if_neg (by rw [hop.isoperator]; simp), hval, operandType_operand,
    if_neg v.kind.tag_ne.2.1, resolveParameter_operand]
  rfl

theorem prepare_operator (hn : h.get c = some n) (hop : n.isoperator = true) :
    prepare s h a (some c) = some (h, some c) := by
  rw [prepare, hn]
  dsimp only
  rw [if_pos hop]

/-- The operator, with its left operand evaluated, if it has one. -/
structure LeftDone (h : Heap Node) (a : ℕ) (op : Operatortype) (n : Node) :
    Prop where
  cell : h.get a = some n
  isoperator : n.isoperator = true
  operatortype : n.operatortype = some op
  left : op.isUnary = true ∨ ∃ l v, n.leftchild = some l ∧ IsValue h l v

theorem LeftDone.look (hd : LeftDone h a op n) :
    (if op.isUnary then some (h, none) else prepare s h a n.leftchild) =
      some (h, none) := by
  split
  · rfl
  · next hno =>
      rcases hd.left with hun | ⟨l, v, hl, hv⟩
      · exact absurd hun hno
      · rw [hl]
        exact prepare_value hv

/-- An operator on the left is to be evaluated first. -/
theorem evaluate_left (hn : h.get a = some n) (hop : n.isoperator = true)
    (htype : n.operatortype = some op) (hbin : op.isUnary = false)
    (hl : n.leftchild = some l) {ln : Node} (hln : h.get l = some ln)
    (hlop : ln.isoperator = true) :
    evaluate s h a = some (h, ⟨false, some (some l)⟩) := by
  rw [evaluate, hn]
  dsimp only
  rw [if_neg (by rw [hop]; simp), htype]
  dsimp only
  rw [if_neg (by rw [hbin]; simp), hl, prepare_operator hln hlop]

/-- Then one on the right. -/
theorem evaluate_right (hd : LeftDone h a op n) (hr : n.rightchild = some r)
    {rn : Node} (hrn : h.get r = some rn) (hrop : rn.isoperator = true) :
    evaluate s h a = some (h, ⟨false, some (some r)⟩) := by
  rw [evaluate, hd.cell]
  dsimp only
  rw [if_neg (by rw [hd.isoperator]; simp), hd.operatortype]
  dsimp only
  rw [hd.look, hr]
  dsimp only
  rw [prepare_operator hrn hrop]

/-- And then the operator itself. -/
theorem evaluate_execute (hd : LeftDone h a op n) (hr : n.rightchild = some r)
    (hv : IsValue h r v) : evaluate s h a = execute s op h a := by
  rw [evaluate, hd.cell]
  dsimp only
  rw [if_neg (by rw [hd.isoperator]; simp), hd.operatortype]
  dsimp only
  rw [hd.look, hr]
  dsimp only
  rw [prepare_value hv]

theorem evaluate_value (hn : h.get a = some n) (hop : n.isoperator = false)
    (hval : n.operand = v.operand) :
    evaluate s h a = some (h, ⟨true, some n.parent⟩) := by
  rw [evaluate, hn]
  dsimp only
  rw [if_pos hop, hval, resolveParameter_operand]
  rfl

/-! ## From node to node -/

/-- Some calls of `evaluate` after which the search is at another node; each
names the next one. -/
inductive Goes (s : Surroundings) : ℕ → Heap Node → ℕ → Heap Node → ℕ → Prop
  | here (h : Heap Node) (a : ℕ) : Goes s 0 h a h a
  | step {k a c b : ℕ} {h h₁ h' : Heap Node} {result : Bool} :
      evaluate s h a = some (h₁, ⟨result, some (some c)⟩) →
      Goes s k h₁ c h' b → Goes s (k + 1) h a h' b

theorem Goes.trans {k m : ℕ} {h₁ : Heap Node} (hg : Goes s k h a h₁ c)
    (hg' : Goes s m h₁ c h' b) : Goes s (k + m) h a h' b := by
  induction hg with
  | here h a => rwa [Nat.zero_add]
  | step heval _ ih =>
      rw [Nat.add_right_comm]
      exact .step heval (ih hg')

theorem Goes.eq_of_zero (hg : Goes s 0 h a h' b) : b = a := by
  cases hg with
  | here h a => rfl

/-- The search goes where the calls lead, with the node there for the next one,
and nothing is reported on the way. -/
theorem Goes.search {k : ℕ} (hg : Goes s k h a h' b) :
    ∀ (next : Option ℕ) (fuel : ℕ),
      searchLoop s (k + fuel) h a next =
        searchLoop s fuel h' b (if k = 0 then next else some b) ∧
      (Reports s (k + fuel) h a next ↔
        Reports s fuel h' b (if k = 0 then next else some b)) := by
  induction hg with
  | here h a =>
      intro next fuel
      rw [Nat.zero_add, if_pos rfl]
      exact ⟨rfl, Iff.rfl⟩
  | step heval hg ih =>
      rename_i k a c b h h₁ h' result
      intro next fuel
      obtain ⟨hsearch, hreports⟩ := ih (some c) fuel
      have hnext : (if k = 0 then some c else some b) = some b := by
        split
        · next hk =>
            subst hk
            rw [hg.eq_of_zero]
        · rfl
      rw [hnext] at hsearch hreports
      have hsum : k + 1 + fuel = k + fuel + 1 := by omega
      rw [hsum, if_neg (Nat.succ_ne_zero k)]
      constructor
      · rw [searchLoop, heval]
        exact hsearch
      · rw [Reports, heval]
        dsimp only [Option.getD_some]
        rw [hreports]
        simp

/-- More fuel does not change what the search returns. -/
theorem searchLoop_add {fuel : ℕ} : ∀ {h : Heap Node} {a : ℕ} {next : Option ℕ}
    {x : Searched}, searchLoop s fuel h a next = some x → ∀ k,
      searchLoop s (k + fuel) h a next = some x := by
  induction fuel with
  | zero =>
      intro h a next x hx
      cases hx
  | succ fuel ih =>
      intro h a next x hx k
      rw [← Nat.add_assoc, searchLoop]
      rw [searchLoop] at hx
      cases heval : evaluate s h a with
      | none =>
          rw [heval] at hx
          exact hx
      | some p =>
          rw [heval] at hx
          dsimp only at hx ⊢
          cases hnext : p.2.nextAstNode.getD next with
          | none =>
              rw [hnext] at hx
              exact hx
          | some b =>
              rw [hnext] at hx
              exact ih hx k

/-- A subtree that comes to a value, in the place of its root. -/
def ComesTo (s : Surroundings) (h : Heap Node) (parent : Option ℕ) (t : Tree)
    (v : Literal) : Prop :=
  ∃ k h₁ h', Goes s k h t.root h₁ t.root ∧
    evaluate s h₁ t.root = some (h', ⟨true, some parent⟩) ∧
    IsValue h' t.root v ∧ ∀ b, b ∉ t.addresses → h'.get b = h.get b

/-- A search from a node that the processor stops. -/
def Traps (s : Surroundings) (h : Heap Node) (a : ℕ) : Prop :=
  ∃ k h₁ b, Goes s k h a h₁ b ∧ evaluate s h₁ b = none

/-- However often it is evaluated, the node stays an operator, and no other is
named. -/
def Jammed (s : Surroundings) (h : Heap Node) (b : ℕ) : Prop :=
  ∃ P : Heap Node → Prop, P h ∧ ∀ h, P h → ∃ h' result n,
    evaluate s h b = some (h', ⟨result, none⟩) ∧ P h' ∧
      h'.get b = some n ∧ n.isoperator = true

/-- A search that gets no further than an operator. -/
def Jams (s : Surroundings) (h : Heap Node) (a : ℕ) : Prop :=
  ∃ k h₁ b, Goes s k h a h₁ b ∧ Jammed s h₁ b

theorem Goes.traps {k : ℕ} (hg : Goes s k h a h' c) (ht : Traps s h' c) :
    Traps s h a := by
  obtain ⟨m, h₁, b, hg', heval⟩ := ht
  exact ⟨k + m, h₁, b, hg.trans hg', heval⟩

theorem Goes.jams {k : ℕ} (hg : Goes s k h a h' c) (ht : Jams s h' c) :
    Jams s h a := by
  obtain ⟨m, h₁, b, hg', hjam⟩ := ht
  exact ⟨k + m, h₁, b, hg.trans hg', hjam⟩

/-- What the search of a tree makes of what the expression comes to. -/
def Follows (s : Surroundings) (h : Heap Node) (parent : Option ℕ) (t : Tree) :
    Result → Prop
  | .value v => ComesTo s h parent t v
  | .mismatch => Jams s h t.root
  | .trap => Traps s h t.root

/-- The same, back at the parent. -/
def Returns (s : Surroundings) (h : Heap Node) (a : ℕ) (t : Tree) :
    Result → Prop
  | .value v => ∃ k h', Goes s k h a h' a ∧ IsValue h' t.root v ∧
      ∀ b, b ∉ t.addresses → h'.get b = h.get b
  | .mismatch => Jams s h a
  | .trap => Traps s h a

/-- A child and its parent, when the search is at the parent: with the child
evaluated it is there again. -/
theorem child_evaluated {e : Scalar} {t : Tree} (hb : Built h (some a) t)
    (hlink : e.Linked t) (ih : Follows s h (some a) t (e.comes s.ld))
    (hfirst : ∀ n, h.get t.root = some n → n.isoperator = true →
      evaluate s h a = some (h, ⟨false, some (some t.root)⟩)) :
    Returns s h a t (e.comes s.ld) := by
  have hoperator : ∀ n, h.get t.root = some n → n.isoperator = true →
      Returns s h a t (e.comes s.ld) := by
    intro n hn hop
    have hdown : Goes s 1 h a h t.root := .step (hfirst n hn hop) (.here h _)
    cases hcomes : e.comes s.ld with
    | value v =>
        rw [hcomes] at ih
        obtain ⟨k, h₁, h', hgoes, heval, hvalue, hframe⟩ := ih
        refine ⟨1 + (k + 1), h', hdown.trans (hgoes.trans ?_), hvalue, hframe⟩
        exact .step heval (.here h' a)
    | mismatch =>
        rw [hcomes] at ih
        exact hdown.jams ih
    | trap =>
        rw [hcomes] at ih
        exact hdown.traps ih
  cases t with
  | operand c value =>
      cases e with
      | literal v =>
          refine ⟨0, h, .here h a, ?_, fun _ _ => rfl⟩
          exact ⟨_, hb.operand, ⟨rfl, .inl rfl, rfl⟩, hlink⟩
      | negation right => exact hlink.elim
      | binary op left right => exact hlink.elim
  | unary c op right => exact hoperator _ hb.unary.2.2.2 rfl
  | binary c op left right => exact hoperator _ hb.binary.2.2.2.2.2.2 rfl

/-! ## The operators -/

theorem ofOption_ne_mismatch (x : Option (BitVec 64)) :
    Result.ofOption x ≠ .mismatch := by
  cases x <;> exact fun h => (by cases h)

/-- Whether an operator takes its operands is seen by what kind they are of. -/
theorem apply_eq_mismatch {ld : LongDouble} {aop : Assignop} :
    apply ld aop u v = .mismatch ↔ u.kind.apply v.kind aop = none := by
  cases u with
  | integer x =>
      cases v with
      | integer y =>
          cases aop with
          | concatenation => exact ⟨fun _ => rfl, fun _ => rfl⟩
          | _ =>
              refine ⟨fun h => ?_, fun h => (by cases h)⟩
              rw [apply, if_neg (by decide)] at h
              exact absurd h (ofOption_ne_mismatch _)
      | _ => cases aop <;> exact ⟨fun _ => rfl, fun _ => rfl⟩
  | float x =>
      cases v with
      | float y =>
          cases aop with
          | concatenation => exact ⟨fun _ => rfl, fun _ => rfl⟩
          | _ => exact ⟨fun h => (by cases h), fun h => (by cases h)⟩
      | _ => cases aop <;> exact ⟨fun _ => rfl, fun _ => rfl⟩
  | string x =>
      cases v with
      | string y =>
          cases aop with
          | concatenation =>
              exact ⟨fun h => (by cases h), fun h => (by cases h)⟩
          | _ => exact ⟨fun _ => rfl, fun _ => rfl⟩
      | _ => cases aop <;> exact ⟨fun _ => rfl, fun _ => rfl⟩

/-- What an operator with two operands does: its value is there, or it has been
given operands that it does not take and will not take them the next time
either, or it is trapped. -/
def Performs (ld : LongDouble) (aop : Assignop) (h : Heap Node) (a l r : ℕ)
    (parent : Option ℕ) (result : Option (Heap Node × Outcome)) :
    Result → Prop
  | .value w => ∃ h', result = some (h', ⟨true, some parent⟩) ∧
      IsValue h' a w ∧ ∀ b, b ≠ a → b ≠ l → b ≠ r → h'.get b = h.get b
  | .mismatch => ∃ h' b u v, result = some (h', ⟨b, none⟩) ∧ IsValue h' l u ∧
      IsValue h' r v ∧ apply ld aop u v = .mismatch ∧
      ∀ b, b ≠ l → b ≠ r → h'.get b = h.get b
  | .trap => result = none

/-- The operator in its new form, with everything else but its children as it
was. -/
theorem becomeOperand_value (w : Literal) (hn : h.get a = some n)
    (hal : a ≠ l) (har : a ≠ r) :
    IsValue (becomeOperand h a l r w.operand) a w ∧
      ∀ b, b ≠ a → b ≠ l → b ≠ r →
        (becomeOperand h a l r w.operand).get b = h.get b := by
  constructor
  · refine ⟨{ n with
      operand := w.operand
      isoperator := false
      leftchild := none
      rightchild := none }, ?_, ⟨rfl, .inl rfl, rfl⟩, rfl⟩
    rw [becomeOperand, Heap.get_free_of_ne har, Heap.get_free_of_ne hal,
      Heap.get_modify_self, hn]
    rfl
  · intro b hba hbl hbr
    rw [becomeOperand, Heap.get_free_of_ne hbr, Heap.get_free_of_ne hbl,
      Heap.get_modify_of_ne hba]

/-- An operator with two children, both evaluated. -/
structure BothDone (h : Heap Node) (a l r : ℕ) (n : Node) (u v : Literal) :
    Prop where
  cell : h.get a = some n
  leftchild : n.leftchild = some l
  rightchild : n.rightchild = some r
  operand : n.operand = []
  left : IsValue h l u
  right : IsValue h r v
  apart : a ≠ l ∧ a ≠ r ∧ l ≠ r

theorem BothDone.performs_value {ld : LongDouble} {aop : Assignop}
    (hd : BothDone h a l r n u v) (w : Literal) :
    Performs ld aop h a l r n.parent
      (some (becomeOperand h a l r w.operand, ⟨true, some n.parent⟩))
      (.value w) := by
  obtain ⟨hvalue, hframe⟩ :=
    becomeOperand_value w hd.cell hd.apart.1 hd.apart.2.1
  exact ⟨_, rfl, hvalue, hframe⟩

theorem BothDone.performs_mismatch {ld : LongDouble} {aop : Assignop}
    (hd : BothDone h a l r n u v) (result : Bool)
    (hmis : apply ld aop u v = .mismatch) :
    Performs ld aop h a l r n.parent (some (h, ⟨result, none⟩))
      (apply ld aop u v) := by
  rw [hmis]
  exact ⟨h, result, u, v, rfl, hd.left, hd.right, hmis, fun _ _ _ => rfl⟩

theorem concatenation_performs (hd : BothDone h a l r n u v) :
    Performs s.ld .concatenation h a l r n.parent (concatenation h a)
      (apply s.ld .concatenation u v) := by
  obtain ⟨ln, hln, -, hlval⟩ := hd.left
  obtain ⟨rn, hrn, -, hrval⟩ := hd.right
  have heq : concatenation h a =
      if u.kind = .string ∧ v.kind = .string then
        some (becomeOperand h a l r (operandString ::
          (u.operand.drop 1 ++ v.operand.drop 1)), ⟨true, some n.parent⟩)
      else some (h, ⟨true, none⟩) := by
    rw [concatenation, hd.cell]
    dsimp only
    rw [hd.leftchild, hd.rightchild]
    dsimp only
    rw [hln, hrn]
    dsimp only
    rw [hlval, hrval]
    simp only [show operandString = Kind.string.tag from rfl,
      operandType_eq_iff]
  rw [heq]
  by_cases hkinds : u.kind = .string ∧ v.kind = .string
  · rw [if_pos hkinds]
    cases u with
    | string x =>
        cases v with
        | string y => exact hd.performs_value (.string (x ++ y))
        | _ => cases hkinds.2
    | _ => cases hkinds.1
  · rw [if_neg hkinds]
    exact hd.performs_mismatch true (apply_eq_mismatch.mpr (if_neg hkinds))

/-- The `switch` on the left operand's type. -/
theorem calculate_performs {aop : Assignop} (hop : aop ≠ .concatenation)
    (hd : BothDone h a l r n u v) :
    Performs s.ld aop h a l r n.parent
      (calculate s.ld aop h a l r n u.operand v.operand)
      (apply s.ld aop u v) := by
  have hdiff : ∀ {x y : Kind}, x ≠ y ∨ x = .string → x.apply y aop = none := by
    intro x y hne
    cases aop with
    | concatenation => exact absurd rfl hop
    | _ => exact if_neg fun h => hne.elim (fun hne => hne h.1) h.2
  cases u with
  | integer x =>
      cases v with
      | integer y =>
          have hval : calculate s.ld aop h a l r n (Literal.integer x).operand
              (Literal.integer y).operand = (aop.integer x y).map fun val =>
                (becomeOperand h a l r (integerOperand val),
                  ⟨true, some n.parent⟩) := by
            rw [calculate, if_pos (operandType_integer x),
              if_pos (operandType_integer y), Literal.operand, Literal.operand,
              integerOf_integerOperand, integerOf_integerOperand]
          rw [hval, apply, if_neg hop]
          cases aop.integer x y with
          | none => rfl
          | some val => exact hd.performs_value (.integer val)
      | float y =>
          exact hd.performs_mismatch false (apply_eq_mismatch.mpr (hdiff
            (.inl (show Kind.integer ≠ .float by decide))))
      | string y =>
          exact hd.performs_mismatch false (apply_eq_mismatch.mpr (hdiff
            (.inl (show Kind.integer ≠ .string by decide))))
  | float x =>
      cases v with
      | integer y =>
          exact hd.performs_mismatch false (apply_eq_mismatch.mpr (hdiff
            (.inl (show Kind.float ≠ .integer by decide))))
      | float y =>
          have hval : calculate s.ld aop h a l r n (Literal.float x).operand
              (Literal.float y).operand = (aop.floating s.ld x y).map fun val =>
                (becomeOperand h a l r (Ast.floatResult s.ld n.operand val),
                  ⟨true, some n.parent⟩) := by
            rw [calculate, if_neg (operandType_float x).2,
              if_pos (operandType_float x).1, if_pos (operandType_float y).1,
              floatOf_operand, floatOf_operand]
          rw [hval, apply]
          cases hfloat : aop.floating s.ld x y with
          | none =>
              cases aop with
              | concatenation => exact absurd rfl hop
              | _ => cases hfloat
          | some val =>
              rw [Option.map_some, hd.operand, floatResult_nil]
              exact hd.performs_value _
      | string y =>
          exact hd.performs_mismatch false (apply_eq_mismatch.mpr (hdiff
            (.inl (show Kind.float ≠ .string by decide))))
  | string x =>
      exact hd.performs_mismatch false (apply_eq_mismatch.mpr
        (hdiff (.inr rfl)))

/-- `toFloat` writes both operands. -/
theorem BothDone.floated (hd : BothDone h a l r n u v) :
    BothDone ((h.modify l (Node.setOperand u.floated.operand)).modify r
        (Node.setOperand v.floated.operand)) a l r n u.floated v.floated ∧
      ∀ b, b ≠ l → b ≠ r → ((h.modify l
        (Node.setOperand u.floated.operand)).modify r
          (Node.setOperand v.floated.operand)).get b = h.get b := by
  obtain ⟨ln, hln, hlc, -⟩ := hd.left
  obtain ⟨rn, hrn, hrc, -⟩ := hd.right
  obtain ⟨hal, har, hlr⟩ := hd.apart
  refine ⟨⟨?_, hd.leftchild, hd.rightchild, hd.operand,
    ⟨ln.setOperand u.floated.operand, ?_, ⟨hlc.1, hlc.2, hlc.3⟩, rfl⟩,
    ⟨rn.setOperand v.floated.operand, ?_, ⟨hrc.1, hrc.2, hrc.3⟩, rfl⟩,
    hd.apart⟩, fun b hbl hbr => ?_⟩
  · rw [Heap.get_modify_of_ne har, Heap.get_modify_of_ne hal]
    exact hd.cell
  · rw [Heap.get_modify_of_ne hlr, Heap.get_modify_self, hln]
    rfl
  · rw [Heap.get_modify_self, Heap.get_modify_of_ne hlr.symm, hrn]
    rfl
  · rw [Heap.get_modify_of_ne hbr, Heap.get_modify_of_ne hbl]

/-- What `toFloat` does to literals makes no difference to an operator. -/
theorem apply_floated {ld : LongDouble} {aop : Assignop}
    (hop : aop ≠ .concatenation) :
    apply ld aop u.floated v.floated = apply ld aop u v := by
  by_cases hmis : apply ld aop u v = .mismatch
  · rw [hmis]
    rw [apply_eq_mismatch] at hmis ⊢
    rwa [kind_floated, kind_floated]
  · cases u with
    | string x =>
        cases v with
        | string y => exact absurd (if_neg hop) hmis
        | _ => exact absurd rfl hmis
    | integer x =>
        cases v with
        | string y => exact absurd rfl hmis
        | _ => rfl
    | float x =>
        cases v with
        | string y => exact absurd rfl hmis
        | _ => rfl

theorem arithmetic_performs {aop : Assignop} (hop : aop ≠ .concatenation)
    (hd : BothDone h a l r n u v) :
    Performs s.ld aop h a l r n.parent (arithmetic s.ld aop h a)
      (apply s.ld aop u v) := by
  obtain ⟨ln, hln, -, hlval⟩ := hd.left
  obtain ⟨rn, hrn, -, hrval⟩ := hd.right
  have heq : arithmetic s.ld aop h a =
      if u.kind = .float ∨ v.kind = .float then
        calculate s.ld aop ((h.modify l (Node.setOperand
          u.floated.operand)).modify r (Node.setOperand v.floated.operand))
          a l r n u.floated.operand v.floated.operand
      else calculate s.ld aop h a l r n u.operand v.operand := by
    rw [arithmetic, hd.cell]
    dsimp only
    rw [hd.leftchild, hd.rightchild]
    dsimp only
    rw [hln, hrn]
    dsimp only
    rw [hlval, hrval, toFloatOperand_operand, toFloatOperand_operand]
    simp only [show operandFloat = Kind.float.tag from rfl, operandType_eq_iff]
  rw [heq]
  split
  · obtain ⟨hd', hframe⟩ := hd.floated
    have hperf := calculate_performs (s := s) hop hd'
    rw [apply_floated hop] at hperf
    cases happly : apply s.ld aop u v with
    | value w =>
        rw [happly] at hperf
        obtain ⟨h', hres, hvalue, hframe'⟩ := hperf
        exact ⟨h', hres, hvalue, fun b hba hbl hbr =>
          (hframe' b hba hbl hbr).trans (hframe b hbl hbr)⟩
    | mismatch =>
        rw [happly] at hperf
        obtain ⟨h', result, u', v', hres, hu, hv, hmis, hframe'⟩ := hperf
        exact ⟨h', result, u', v', hres, hu, hv, hmis, fun b hbl hbr =>
          (hframe' b hbl hbr).trans (hframe b hbl hbr)⟩
    | trap =>
        rw [happly] at hperf
        exact hperf
  · exact calculate_performs hop hd

/-- An operator with two operands, both evaluated. -/
theorem execute_performs (aop : Assignop) (hd : BothDone h a l r n u v) :
    Performs s.ld aop h a l r n.parent
      (execute s (Scalar.operatortype aop) h a) (apply s.ld aop u v) := by
  cases aop with
  | concatenation => exact concatenation_performs hd
  | addition => exact arithmetic_performs (by decide) hd
  | subtraction => exact arithmetic_performs (by decide) hd
  | multiplication => exact arithmetic_performs (by decide) hd
  | division => exact arithmetic_performs (by decide) hd

/-- A negation, its operand evaluated. -/
theorem negate_performs (hn : h.get a = some n) (hr : n.rightchild = some r)
    (hl : n.leftchild = some a) (hempty : n.operand = []) (har : a ≠ r)
    (hv : IsValue h r v) :
    match negative s.ld v with
    | .value w => ∃ h', negate s.ld h a = some (h', ⟨true, some n.parent⟩) ∧
        IsValue h' a w ∧ ∀ b, b ≠ a → b ≠ r → h'.get b = h.get b
    | _ => negate s.ld h a = some (h, .mismatch) := by
  obtain ⟨rn, hrn, -, hval⟩ := hv
  have hbecome : ∀ w : Literal, IsValue ((h.modify a fun n =>
      { n with
        operand := w.operand
        isoperator := false
        rightchild := none }).free r) a w ∧
      ∀ b, b ≠ a → b ≠ r → ((h.modify a fun n =>
        { n with
          operand := w.operand
          isoperator := false
          rightchild := none }).free r).get b = h.get b := by
    intro w
    refine ⟨⟨{ n with
      operand := w.operand
      isoperator := false
      rightchild := none }, ?_, ⟨rfl, .inr hl, rfl⟩, rfl⟩, fun b hba hbr => ?_⟩
    · rw [Heap.get_free_of_ne har, Heap.get_modify_self, hn]
      rfl
    · rw [Heap.get_free_of_ne hbr, Heap.get_modify_of_ne hba]
  have heq : negate s.ld h a =
      if operandType v.operand = operandInteger then
        some ((h.modify a fun n =>
          { n with
            operand := integerOperand (0 - integerOf v.operand)
            isoperator := false
            rightchild := none }).free r, ⟨true, some n.parent⟩)
      else if operandType v.operand = operandFloat then
        some ((h.modify a fun n =>
          { n with
            operand := Ast.floatResult s.ld [] (s.ld.sub 0#128
              (floatOf v.operand))
            isoperator := false
            rightchild := none }).free r, ⟨true, some n.parent⟩)
      else some (h, .mismatch) := by
    rw [negate, hn]
    dsimp only
    rw [hr]
    dsimp only
    rw [hrn]
    dsimp only
    rw [hval, hempty]
  rw [heq]
  cases v with
  | integer x =>
      rw [if_pos (operandType_integer x), Literal.operand,
        integerOf_integerOperand]
      exact ⟨_, rfl, hbecome (.integer (0 - x))⟩
  | float x =>
      rw [if_neg (operandType_float x).2, if_pos (operandType_float x).1,
        floatOf_operand, floatResult_nil]
      exact ⟨_, rfl, hbecome _⟩
  | string x => rfl

/-! ## The search computes what the expression comes to -/

theorem operatortype_isUnary (aop : Assignop) :
    (Scalar.operatortype aop).isUnary = false := by
  cases aop <;> rfl

/-- A negation, its operand evaluated first. -/
theorem follows_negation {right : Scalar} {t : Tree}
    (hb : Built h parent (.unary a .negation t)) (hlink : right.Linked t)
    (ih : Follows s h (some a) t (right.comes s.ld)) :
    Follows s h parent (.unary a .negation t)
      ((Scalar.negation right).comes s.ld) := by
  obtain ⟨_, hnot, hr, hcell⟩ := hb.unary
  have hret := child_evaluated hr hlink ih fun n hn hop =>
    evaluate_right (show LeftDone h a .negation _ from
      ⟨hcell, rfl, rfl, .inl rfl⟩) rfl hn hop
  rw [Scalar.comes]
  cases hcomes : right.comes s.ld with
  | mismatch =>
      rw [hcomes] at hret
      exact hret
  | trap =>
      rw [hcomes] at hret
      exact hret
  | value v =>
      rw [hcomes] at hret
      obtain ⟨k, h₁, hgoes, hvalue, hframe⟩ := hret
      have hcell₁ := (hframe a hnot).trans hcell
      have har : a ≠ t.root := fun heq => hnot (heq ▸ root_mem t)
      have heval : evaluate s h₁ a = negate s.ld h₁ a :=
        evaluate_execute (show LeftDone h₁ a .negation _ from
          ⟨hcell₁, rfl, rfl, .inl rfl⟩) rfl hvalue
      have hperf := negate_performs (s := s) hcell₁ rfl rfl rfl har hvalue
      change Follows s h parent (.unary a .negation t) (negative s.ld v)
      cases hneg : negative s.ld v with
      | value w =>
          rw [hneg] at hperf
          obtain ⟨h', hres, hvalue', hframe'⟩ := hperf
          refine ⟨k, h₁, h', hgoes, heval.trans hres, hvalue', fun b hb => ?_⟩
          rw [Tree.addresses, List.mem_cons, not_or] at hb
          rw [hframe' b hb.1 fun heq => hb.2 (heq ▸ root_mem t),
            hframe b hb.2]
      | mismatch =>
          rw [hneg] at hperf
          refine ⟨k, h₁, a, hgoes, (· = h₁), rfl, ?_⟩
          rintro _ rfl
          exact ⟨_, false, _, heval.trans hperf, rfl, hcell₁, rfl⟩
      | trap =>
          cases v <;> cases hneg

/-- An operator that does not take its operands is evaluated again and again. -/
theorem jammed_binary {aop : Assignop} (hd : BothDone h a l r n u v)
    (hop : n.isoperator = true)
    (htype : n.operatortype = some (Scalar.operatortype aop))
    (hmis : apply s.ld aop u v = .mismatch) : Jammed s h a := by
  refine ⟨fun h => ∃ u v, BothDone h a l r n u v ∧
    apply s.ld aop u v = .mismatch, ⟨u, v, hd, hmis⟩, ?_⟩
  rintro h ⟨u, v, hd, hmis⟩
  have heval : evaluate s h a = execute s (Scalar.operatortype aop) h a :=
    evaluate_execute ⟨hd.cell, hop, htype, .inr ⟨l, u, hd.leftchild, hd.left⟩⟩
      hd.rightchild hd.right
  have hperf := execute_performs (s := s) aop hd
  rw [hmis] at hperf
  obtain ⟨h', result, u', v', hres, hu, hv, hmis', hframe⟩ := hperf
  have hcell : h'.get a = some n :=
    (hframe a hd.apart.1 hd.apart.2.1).trans hd.cell
  exact ⟨h', result, n, heval.trans hres, ⟨u', v', ⟨hcell, hd.leftchild,
    hd.rightchild, hd.operand, hu, hv, hd.apart⟩, hmis'⟩, hcell, hop⟩

/-- A binary operator, the left operand evaluated first and then the right
one. -/
theorem follows_binary {aop : Assignop} {left right : Scalar} {tl tr : Tree}
    (hb : Built h parent (.binary a (Scalar.operatortype aop) tl tr))
    (hll : left.Linked tl) (hlr : right.Linked tr)
    (ihl : ∀ h, Built h (some a) tl →
      Follows s h (some a) tl (left.comes s.ld))
    (ihr : ∀ h, Built h (some a) tr →
      Follows s h (some a) tr (right.comes s.ld)) :
    Follows s h parent (.binary a (Scalar.operatortype aop) tl tr)
      ((Scalar.binary aop left right).comes s.ld) := by
  obtain ⟨_, hnotl, hnotr, hdisj, hl, hr, hcell⟩ := hb.binary
  have hbin := operatortype_isUnary aop
  have hretl := child_evaluated hl hll (ihl h hl) fun n hn hop =>
    evaluate_left hcell rfl rfl hbin rfl hn hop
  rw [Scalar.comes]
  cases hcl : left.comes s.ld with
  | mismatch =>
      rw [hcl] at hretl
      exact hretl
  | trap =>
      rw [hcl] at hretl
      exact hretl
  | value u =>
      rw [hcl] at hretl
      obtain ⟨k, h₁, hgoes, hu, hframe⟩ := hretl
      have hcell₁ := (hframe a hnotl).trans hcell
      have hr₁ : Built h₁ (some a) tr :=
        hr.of_agree fun b hb => hframe b fun hmem => hdisj b hmem hb
      have hretr := child_evaluated hr₁ hlr (ihr h₁ hr₁) fun n hn hop =>
        evaluate_right (show LeftDone h₁ a (Scalar.operatortype aop) _ from
          ⟨hcell₁, rfl, rfl, .inr ⟨_, u, rfl, hu⟩⟩) rfl hn hop
      change Follows s h parent (.binary a (Scalar.operatortype aop) tl tr)
        ((right.comes s.ld).bind fun b => apply s.ld aop u b)
      cases hcr : right.comes s.ld with
      | mismatch =>
          rw [hcr] at hretr
          exact hgoes.jams hretr
      | trap =>
          rw [hcr] at hretr
          exact hgoes.traps hretr
      | value v =>
          rw [hcr] at hretr
          obtain ⟨m, h₂, hgoes₂, hv, hframe₂⟩ := hretr
          have hcell₂ := (hframe₂ a hnotr).trans hcell₁
          have hu₂ : IsValue h₂ tl.root u := by
            obtain ⟨ln, hln, hrest⟩ := hu
            refine ⟨ln, ?_, hrest⟩
            rw [hframe₂ tl.root fun hmem => hdisj _ (root_mem tl) hmem]
            exact hln
          have hal : a ≠ tl.root := fun heq => hnotl (heq ▸ root_mem tl)
          have har : a ≠ tr.root := fun heq => hnotr (heq ▸ root_mem tr)
          have hlr : tl.root ≠ tr.root := fun heq =>
            hdisj _ (root_mem tl) (heq ▸ root_mem tr)
          have hd := BothDone.mk hcell₂ rfl rfl rfl hu₂ hv ⟨hal, har, hlr⟩
          have heval : evaluate s h₂ a =
              execute s (Scalar.operatortype aop) h₂ a :=
            evaluate_execute ⟨hcell₂, rfl, rfl, .inr ⟨_, u, rfl, hu₂⟩⟩ rfl hv
          have hall := hgoes.trans hgoes₂
          have hperf := execute_performs (s := s) aop hd
          change Follows s h parent
            (.binary a (Scalar.operatortype aop) tl tr) (apply s.ld aop u v)
          cases happly : apply s.ld aop u v with
          | value w =>
              rw [happly] at hperf
              obtain ⟨h', hres, hvalue, hframe'⟩ := hperf
              refine ⟨k + m, h₂, h', hall, heval.trans hres, hvalue,
                fun b hb => ?_⟩
              rw [Tree.addresses, List.mem_cons, List.mem_append, not_or,
                not_or] at hb
              rw [hframe' b hb.1 (fun heq => hb.2.1 (heq ▸ root_mem tl))
                (fun heq => hb.2.2 (heq ▸ root_mem tr)), hframe₂ b hb.2.2,
                hframe b hb.2.1]
          | mismatch =>
              exact ⟨k + m, h₂, a, hall, jammed_binary hd rfl rfl happly⟩
          | trap =>
              rw [happly] at hperf
              exact ⟨k + m, h₂, a, hall, heval.trans hperf⟩

/-- Node by node, the search computes what the expression comes to. -/
theorem follows (e : Scalar) : ∀ (h : Heap Node) (parent : Option ℕ)
    (t : Tree), Built h parent t → e.Linked t →
    Follows s h parent t (e.comes s.ld) := by
  induction e with
  | literal v =>
      intro h parent t hb hlink
      cases t with
      | operand c value =>
          exact ⟨0, h, h, .here h c, evaluate_value hb.operand rfl hlink,
            ⟨_, hb.operand, ⟨rfl, .inl rfl, rfl⟩, hlink⟩, fun _ _ => rfl⟩
      | unary c op r => exact hlink.elim
      | binary c op l r => exact hlink.elim
  | negation right ih =>
      intro h parent t hb hlink
      cases t with
      | operand c value => exact hlink.elim
      | unary c op r =>
          obtain ⟨rfl, hr⟩ := hlink
          exact follows_negation hb hr (ih h (some c) r hb.unary.2.2.1 hr)
      | binary c op l r => exact hlink.elim
  | binary aop left right ihl ihr =>
      intro h parent t hb hlink
      cases t with
      | operand c value => exact hlink.elim
      | unary c op r => exact hlink.elim
      | binary c op l r =>
          obtain ⟨rfl, hl, hr⟩ := hlink
          exact follows_binary hb hl hr (fun h hb => ihl h _ l hb hl)
            fun h hb => ihr h _ r hb hr

/-- The search returns with the value at the root. -/
theorem ComesTo.searched {t : Tree} (hc : ComesTo s h none t v) :
    SearchedTo s h t.root v.operand := by
  obtain ⟨k, h₁, h', hgoes, heval, ⟨n, hn, hchildless, hval⟩, -⟩ := hc
  refine ⟨k + 1, h', n, ?_, hn, hchildless, hval⟩
  rw [searchExpression, (hgoes.search none 1).1, searchLoop, heval]
  rfl

theorem Traps.not_searched (ht : Traps s h a) (operand : Bytes) :
    ¬ SearchedTo s h a operand := by
  rintro ⟨fuel, h', n, hsearch, -⟩
  obtain ⟨k, h₁, b, hgoes, heval⟩ := ht
  have hall := searchLoop_add hsearch (k + 1)
  rw [show k + 1 + fuel = k + (fuel + 1) by omega,
    (hgoes.search none (fuel + 1)).1, searchLoop, heval] at hall
  cases hall

/-- At an operator that is named again and again there is no end. -/
theorem Jammed.endless (hj : Jammed s h b) : ∀ fuel,
    searchLoop s fuel h b (some b) = none := by
  obtain ⟨P, hP, hstep⟩ := hj
  intro fuel
  induction fuel generalizing h with
  | zero => rfl
  | succ fuel ih =>
      obtain ⟨h', result, n, heval, hP', -⟩ := hstep h hP
      rw [searchLoop, heval]
      exact ih hP'

theorem Jams.not_searched (ht : Jams s h a) (operand : Bytes) :
    ¬ SearchedTo s h a operand := by
  rintro ⟨fuel, h', n, hsearch, hn, hchildless, -⟩
  obtain ⟨k, h₁, b, hgoes, hjam⟩ := ht
  have hall := searchLoop_add hsearch (k + 1)
  rw [show k + 1 + fuel = k + (fuel + 1) by omega,
    (hgoes.search none (fuel + 1)).1] at hall
  split at hall
  · next hk =>
      subst hk
      obtain rfl := hgoes.eq_of_zero
      obtain ⟨P, hP, hstep⟩ := hjam
      obtain ⟨h₂, result, m, heval, -, hm, hop⟩ := hstep h₁ hP
      rw [searchLoop, heval] at hall
      have hheap : h₂ = h' := by
        cases result <;> injection hall with hall <;> injection hall
      rw [hheap, hn] at hm
      rw [← Option.some.inj hm, hchildless.isoperator] at hop
      cases hop
  · rw [hjam.endless] at hall
    cases hall

end Search

/-! ## Exactly when they agree -/

section Agreement

variable {ld : LongDouble} {a b v : Literal} {e : Scalar}

/-- The integer that a literal is. -/
def Literal.number : Literal → Option (BitVec 64)
  | integer v => some v
  | _ => none

theorem quotient_iff {x y : BitVec 64} :
    (Assignop.integer x y .division).isSome ↔ Scalar.Quotient x y := by
  rw [Assignop.integer, Scalar.Quotient]
  by_cases hcond : (decide (y = 0#64) || (decide (x = BitVec.intMin 64) &&
      decide (y = BitVec.allOnes 64))) = true
  · rw [if_pos hcond]
    simp only [Bool.or_eq_true, Bool.and_eq_true, decide_eq_true_eq] at hcond
    exact ⟨fun h => (by cases h), fun h => absurd hcond (not_or.mpr h)⟩
  · rw [if_neg hcond]
    simp only [Bool.or_eq_true, Bool.and_eq_true, decide_eq_true_eq] at hcond
    exact ⟨fun _ => not_or.mp hcond, fun _ => rfl⟩

/-- What the operators say of the kinds, and of the integers. -/
theorem apply_value {op : Assignop} (h : apply ld op a b = .value v) :
    a.kind.apply b.kind op = some v.kind ∧
      v.number = (a.number.bind fun x => b.number.bind fun y =>
        op.integer x y) ∧
      (op = .division → ∀ x y, a.number = some x → b.number = some y →
        Scalar.Quotient x y) := by
  cases a with
  | integer x =>
      cases b with
      | integer y =>
          rw [apply] at h
          split at h
          · cases h
          · next hop =>
              cases hval : op.integer x y with
              | none =>
                  rw [hval] at h
                  cases h
              | some z =>
                  rw [hval] at h
                  injection h with h
                  subst h
                  refine ⟨?_, hval.symm, fun hdiv x' y' hx hy => ?_⟩
                  · cases op with
                    | concatenation => exact absurd rfl hop
                    | _ => rfl
                  · obtain rfl := Option.some.inj hx
                    obtain rfl := Option.some.inj hy
                    subst hdiv
                    exact quotient_iff.mp (by rw [hval]; rfl)
      | float y => cases h
      | string y => cases h
  | float x =>
      cases b with
      | float y =>
          rw [apply] at h
          split at h
          · next val hval =>
              injection h with h
              subst h
              refine ⟨?_, rfl, fun _ x' y' hx => (by cases hx)⟩
              cases op with
              | concatenation => cases hval
              | _ => rfl
          · cases h
      | integer y => cases h
      | string y => cases h
  | string x =>
      cases b with
      | string y =>
          rw [apply] at h
          split at h
          · next hop =>
              subst hop
              injection h with h
              subst h
              exact ⟨rfl, rfl, fun _ x' y' hx => (by cases hx)⟩
          · cases h
      | integer y => cases h
      | float y => cases h

/-- Only a division of integers is trapped. -/
theorem apply_trap {op : Assignop} (h : apply ld op a b = .trap) :
    op = .division ∧ ∃ x y, a.number = some x ∧ b.number = some y ∧
      ¬ Scalar.Quotient x y := by
  cases a with
  | integer x =>
      cases b with
      | integer y =>
          rw [apply] at h
          split at h
          · cases h
          · next hop =>
              cases hval : op.integer x y with
              | some z =>
                  rw [hval] at h
                  cases h
              | none =>
                  cases op with
                  | division =>
                      refine ⟨rfl, x, y, rfl, rfl, fun hq => ?_⟩
                      have hsome := quotient_iff.mpr hq
                      rw [hval] at hsome
                      cases hsome
                  | concatenation => exact absurd rfl hop
                  | _ => cases hval
      | float y => cases h
      | string y => cases h
  | float x =>
      cases b with
      | float y =>
          rw [apply] at h
          split at h <;> cases h
      | integer y => cases h
      | string y => cases h
  | string x =>
      cases b with
      | string y =>
          rw [apply] at h
          split at h <;> cases h
      | integer y => cases h
      | float y => cases h

theorem negative_value (h : negative ld b = .value v) :
    b.kind.negate = some v.kind ∧ v.number = b.number.map fun y => 0 - y := by
  cases b with
  | integer y =>
      injection h with h
      subst h
      exact ⟨rfl, rfl⟩
  | float y =>
      injection h with h
      subst h
      exact ⟨rfl, rfl⟩
  | string y => cases h

/-- What an expression comes to, told by what it is. -/
def Tells (e : Scalar) : Result → Prop
  | .value v => e.kind = some v.kind ∧ e.Divides ∧ e.wrapped = v.number
  | .mismatch => e.kind = none
  | .trap => ¬ e.Divides

variable (ld) in
theorem comes_tells (e : Scalar) : Tells e (e.comes ld) := by
  induction e with
  | literal l => cases l <;> exact ⟨rfl, trivial, rfl⟩
  | negation right ih =>
      rw [Scalar.comes]
      cases hright : right.comes ld with
      | mismatch =>
          rw [hright] at ih
          change right.kind.bind Kind.negate = none
          rw [show right.kind = none from ih]
          rfl
      | trap =>
          rw [hright] at ih
          exact ih
      | value b =>
          rw [hright] at ih
          obtain ⟨hkind, hdiv, hwrap⟩ := ih
          change Tells _ (negative ld b)
          cases hneg : negative ld b with
          | value v =>
              obtain ⟨hk, hn⟩ := negative_value hneg
              refine ⟨?_, hdiv, ?_⟩
              · rw [Scalar.kind, hkind]
                exact hk
              · rw [Scalar.wrapped, hwrap, hn]
          | mismatch =>
              change right.kind.bind Kind.negate = none
              rw [hkind]
              cases b with
              | string s => rfl
              | _ => cases hneg
          | trap => cases b <;> cases hneg
  | binary op left right ihl ihr =>
      rw [Scalar.comes]
      cases hleft : left.comes ld with
      | mismatch =>
          rw [hleft] at ihl
          change (left.kind.bind fun a => right.kind.bind fun b =>
            a.apply b op) = none
          rw [show left.kind = none from ihl]
          rfl
      | trap =>
          rw [hleft] at ihl
          exact fun hdiv => ihl hdiv.1
      | value a =>
          rw [hleft] at ihl
          obtain ⟨hkl, hdl, hwl⟩ := ihl
          change Tells _ ((right.comes ld).bind fun b => apply ld op a b)
          cases hright : right.comes ld with
          | mismatch =>
              rw [hright] at ihr
              change (left.kind.bind fun a => right.kind.bind fun b =>
                a.apply b op) = none
              rw [show right.kind = none from ihr, hkl]
              rfl
          | trap =>
              rw [hright] at ihr
              exact fun hdiv => ihr hdiv.2.1
          | value b =>
              rw [hright] at ihr
              obtain ⟨hkr, hdr, hwr⟩ := ihr
              change Tells _ (apply ld op a b)
              cases happly : apply ld op a b with
              | value v =>
                  obtain ⟨hk, hn, hq⟩ := apply_value happly
                  refine ⟨?_, ⟨hdl, hdr, fun hop x y hx hy => ?_⟩, ?_⟩
                  · rw [Scalar.kind, hkl, hkr]
                    exact hk
                  · exact hq hop x y (hwl ▸ hx) (hwr ▸ hy)
                  · rw [Scalar.wrapped, hwl, hwr, hn]
              | mismatch =>
                  rw [apply_eq_mismatch] at happly
                  change (left.kind.bind fun a => right.kind.bind fun b =>
                    a.apply b op) = none
                  rw [hkl, hkr]
                  exact happly
              | trap =>
                  obtain ⟨hop, x, y, hx, hy, hq⟩ := apply_trap happly
                  exact fun hdiv => hq (hdiv.2.2 hop x y (hwl.trans hx)
                    (hwr.trans hy))

variable (ld) in
/-- Where each operator takes its operands and each quotient is an integer of
64 bits, there is a value, and nowhere else. -/
theorem comes_value_iff : (∃ v, e.comes ld = .value v) ↔
    e.kind.isSome = true ∧ e.Divides := by
  have htells := comes_tells ld e
  cases hcomes : e.comes ld with
  | value v =>
      rw [hcomes] at htells
      refine ⟨fun _ => ⟨?_, htells.2.1⟩, fun _ => ⟨v, rfl⟩⟩
      rw [htells.1]
      rfl
  | mismatch =>
      rw [hcomes] at htells
      refine ⟨fun ⟨v, hv⟩ => (by cases hv), fun hboth => ?_⟩
      rw [show e.kind = none from htells] at hboth
      cases hboth.1
  | trap =>
      rw [hcomes] at htells
      exact ⟨fun ⟨v, hv⟩ => (by cases hv), fun hboth => absurd hboth.2 htells⟩

/-! ## Laid out in a heap -/

def Scalar.size : Scalar → ℕ
  | literal _ => 1
  | negation right => right.size + 1
  | binary _ left right => left.size + right.size + 1

/-- The tree of an expression, its cells numbered from an address on. -/
def Scalar.toTree : Scalar → ℕ → Tree
  | literal l, k => .operand k l.operand
  | negation right, k => .unary k .negation (right.toTree (k + 1))
  | binary op left right, k => .binary k (Scalar.operatortype op)
      (left.toTree (k + 1)) (right.toTree (k + 1 + left.size))

def Scalar.toAst : Scalar → Ast
  | literal l => .operand l.operand
  | negation right => .negation [] right.toAst
  | binary op left right => .binary op [] left.toAst right.toAst

theorem scalar_assigned (e : Scalar) : e.Assigned e.toAst := by
  induction e with
  | literal l => rfl
  | negation right ih => exact ⟨rfl, ih⟩
  | binary op left right ihl ihr => exact ⟨rfl, rfl, ihl, ihr⟩

theorem scalar_addresses (e : Scalar) : ∀ k, (e.toTree k).addresses.Nodup ∧
    ∀ a ∈ (e.toTree k).addresses, k ≤ a ∧ a < k + e.size := by
  induction e with
  | literal l =>
      intro k
      refine ⟨List.nodup_singleton k, fun a ha => ?_⟩
      rw [List.mem_singleton.mp ha, Scalar.size]
      omega
  | negation right ih =>
      intro k
      obtain ⟨hnd, hin⟩ := ih (k + 1)
      refine ⟨List.nodup_cons.mpr ⟨fun hmem => ?_, hnd⟩, fun a ha => ?_⟩
      · have hlow := (hin k hmem).1
        omega
      · rw [Scalar.size]
        rcases List.mem_cons.mp ha with rfl | ha
        · omega
        · have hrange := hin a ha
          omega
  | binary op left right ihl ihr =>
      intro k
      obtain ⟨hndl, hinl⟩ := ihl (k + 1)
      obtain ⟨hndr, hinr⟩ := ihr (k + 1 + left.size)
      refine ⟨List.nodup_cons.mpr ⟨fun hmem => ?_,
        List.nodup_append.mpr ⟨hndl, hndr, fun a ha b hb => ?_⟩⟩,
        fun a ha => ?_⟩
      · rcases List.mem_append.mp hmem with hmem | hmem
        · have hlow := (hinl k hmem).1
          omega
        · have hlow := (hinr k hmem).1
          omega
      · have hhigh := (hinl a ha).2
        have hlow := (hinr b hb).1
        omega
      · rw [Scalar.size]
        rcases List.mem_cons.mp ha with rfl | ha
        · omega
        · rcases List.mem_append.mp ha with ha | ha
          · have hrange := hinl a ha
            omega
          · have hrange := hinr a ha
            omega

theorem scalar_arity (e : Scalar) : ∀ k, (e.toTree k).Arity := by
  induction e with
  | literal l => exact fun _ => trivial
  | negation right ih => exact fun k => ⟨rfl, ih (k + 1)⟩
  | binary op left right ihl ihr =>
      exact fun k => ⟨operatortype_isUnary op, ihl _, ihr _⟩

theorem scalar_linked (e : Scalar) : ∀ k, e.Linked (e.toTree k) := by
  induction e with
  | literal l => exact fun _ => rfl
  | negation right ih => exact fun k => ⟨rfl, ih (k + 1)⟩
  | binary op left right ihl ihr => exact fun k => ⟨rfl, ihl _, ihr _⟩

theorem scalar_built (e : Scalar) : ∃ h, Built h none (e.toTree 0) :=
  ⟨_, exists_built none (scalar_arity e 0) (scalar_addresses e 0).1⟩

/-! ## The two evaluators -/

/-- Laid out, the expression is searched to an end only if it has a value. -/
theorem holds_of_agree (hagree : EvaluatorsAgree e) :
    e.kind.isSome = true ∧ e.Divides := by
  let ld : LongDouble :=
    ⟨fun a _ => a, fun a _ => a, fun a _ => a, fun a _ => a, fun _ => 0#64⟩
  let s : Surroundings := ⟨[], ld, fun _ _ => none, fun _ _ _ => none⟩
  obtain ⟨h, hb⟩ := scalar_built e
  obtain ⟨operand, hsearched, -⟩ := hagree s h _ [] [] [] _ hb
    (scalar_linked e 0) (scalar_assigned e)
  have hfollows := follows (s := s) e h none _ hb (scalar_linked e 0)
  rw [← comes_value_iff ld]
  cases hcomes : e.comes ld with
  | value v => exact ⟨v, rfl⟩
  | mismatch =>
      rw [show e.comes s.ld = .mismatch from hcomes] at hfollows
      exact absurd hsearched (hfollows.not_searched operand)
  | trap =>
      rw [show e.comes s.ld = .trap from hcomes] at hfollows
      exact absurd hsearched (hfollows.not_searched operand)

/-- The two evaluators agree on an expression if and only if each operator in
it takes its operands and each quotient of integers is one of 64 bits. -/
theorem evaluatorsAgree_iff (e : Scalar) :
    EvaluatorsAgree e ↔ e.kind.isSome = true ∧ e.Divides := by
  refine ⟨holds_of_agree, fun hcond => ?_⟩
  intro s h t fields fieldValues parameters ast hb hlink hassigned
  obtain ⟨v, hv⟩ := (comes_value_iff s.ld).mpr hcond
  have hfollows := follows (s := s) e h none t hb hlink
  rw [hv] at hfollows
  refine ⟨v.operand, hfollows.searched, ?_⟩
  rw [evaluateAssignment_comes hassigned (by rw [hv]; simp), hv]
  rfl

/-- The least integer divided by -1: each operator takes its operands, and none
divides by zero. -/
def leastByMinusOne : Scalar :=
  .binary .division
    (.binary .subtraction (.literal (.integer (-9223372036854775807#64)))
      (.literal (.integer 1#64)))
    (.literal (.integer (-1#64)))

theorem leastByMinusOne_not_agrees :
    leastByMinusOne.kind = some .integer ∧ leastByMinusOne.NonzeroDivisors ∧
      ¬ EvaluatorsAgree leastByMinusOne := by
  refine ⟨rfl, ⟨⟨trivial, trivial, fun h => (by cases h)⟩, trivial,
    fun _ => by decide⟩, fun hagree => ?_⟩
  have hdiv := (holds_of_agree hagree).2
  exact (hdiv.2.2 rfl (BitVec.intMin 64) (BitVec.allOnes 64) (by decide)
    (by decide)).2 ⟨rfl, rfl⟩

end Agreement

end Infinisql.Asts
