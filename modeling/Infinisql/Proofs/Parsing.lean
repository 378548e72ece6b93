import Infinisql.Spec.Subqueries

/-!
# Taking expressions off the stack

The loop of `consumeExpression` against what the grammar pushes. An expression
whose subqueries are read as they should be is taken off exactly, and is the
next child of the current node: `exact_of_clean`. So a SELECT without
subqueries of its own is read exactly, and becomes a query with its table and
columns: `reads_of_flat`.

Search conditions are not followed node by node. A truth value tested with
IS NULL is pushed as an operator that lacks its left operand, and takes what
comes next on the stack for it; what counts is that no condition leaves
anything of itself. For that `slots` counts the children that are still
missing, and `Passes k` says of a piece of the stack that it is taken off where
at least `k` are, and fills no more than `k`.
-/

namespace Infinisql.Larx

open Infinisql.Ref (Bytes FieldInput operandType)
open Infinisql.Asts (Operatortype operandSubquery operandIdentifier)

variable {fuel k : ℕ} {l : Larxer} {stack : Stack} {qs : List Query}
  {q : Query} {cur : ℕ} {n n' : Open} {ps ps' : List Open} {t : Tree}
  {op : Operatortype}

/-! ## Operands -/

theorem operandType_val (o : Operand) :
    operandType o.val ≠ operandSubquery := by
  cases o <;> simp [Operand.val, operandType] <;> decide

theorem operandType_marker (i : ℕ) :
    operandType (marker i) = operandSubquery := rfl

theorem subqueryOperand_eq (i : ℕ) :
    subqueryOperand [operandSubquery] i = marker i := by
  show operandSubquery :: (int64Bytes (BitVec.ofInt 64 i) ++ []) = _
  rw [List.append_nil, BitVec.ofInt_natCast]
  rfl

/-- The tree of an expression whose first subquery from the right has that
number. -/
def Expression.tree (i : ℕ) : Expression → Tree
  | .operand o => .operand o.val
  | .subquery _ => .operand (marker i)
  | .binary op left right =>
      .operator op.operatortype (left.tree (i + right.subqueries.length))
        (right.tree i)
  | .negation right => .operator .negation .null (right.tree i)

theorem Expression.tree_ne (e : Expression) (i : ℕ) : e.tree i ≠ .null := by
  cases e <;> simp [Expression.tree]

theorem Binary.isUnary (op : Binary) : op.operatortype.isUnary = false := by
  cases op <;> rfl

/-! ## Nothing is taken away by a push -/

theorem le_pushIf (b : Bool) (item : StackMember) (stack : Stack) :
    stack.length ≤ (pushIf b item stack).length := by
  unfold pushIf
  split <;> simp

theorem length_identifiers (names : List Bytes) : ∀ stack : Stack,
    stack.length ≤ (names.foldl pushIdentifier stack).length := by
  induction names with
  | nil => exact fun stack => Nat.le_refl _
  | cons name names ih =>
      intro stack
      exact Nat.le_trans (Nat.le_succ _) (ih (pushIdentifier stack name))

theorem length_sorts (sorts : List (Bytes × Bool)) : ∀ stack : Stack,
    stack.length ≤ (sorts.foldl pushSort stack).length := by
  induction sorts with
  | nil => exact fun stack => Nat.le_refl _
  | cons sort sorts ih =>
      intro stack
      exact Nat.le_trans (Nat.le_add_right _ 3) (ih (pushSort stack sort))

theorem length_columns (columns : List Operand) : ∀ stack : Stack,
    stack.length ≤ (columns.foldl (fun stack o =>
      StackMember.typeOperand o.val :: stack) stack).length := by
  induction columns with
  | nil => exact fun stack => Nat.le_refl _
  | cons o columns ih =>
      intro stack
      exact Nat.le_trans (Nat.le_succ _) (ih (.typeOperand o.val :: stack))

theorem le_pushGroupby (names : List Bytes) (stack : Stack) :
    stack.length ≤ (pushGroupby stack names).length := by
  cases names with
  | nil => exact Nat.le_refl _
  | cons name names =>
      exact Nat.le_trans (length_identifiers (name :: names) stack)
        (Nat.le_succ _)

theorem le_pushOrderby (sorts : List (Bytes × Bool)) (stack : Stack) :
    stack.length ≤ (pushOrderby stack sorts).length := by
  cases sorts with
  | nil => exact Nat.le_refl _
  | cons sort sorts =>
      exact Nat.le_trans (length_sorts (sort :: sorts) stack) (Nat.le_succ _)

theorem le_pushColumns (columns : Columns) (stack : Stack) :
    stack.length ≤ (columns.push stack).length := by
  cases columns with
  | asterisk => exact Nat.le_add_right _ 2
  | list columns =>
      exact Nat.le_trans (length_columns columns stack) (Nat.le_succ _)

theorem le_pushQuantifier (quantifier : Option Quantifier) (stack : Stack) :
    stack.length ≤ (Quantifier.push stack quantifier).length := by
  rcases quantifier with _ | _ | _
  · exact Nat.le_refl _
  · exact Nat.le_succ _
  · exact Nat.le_succ _

mutual

theorem Expression.le_push : ∀ (e : Expression) (stack : Stack),
    stack.length ≤ (e.push stack).length
  | .operand _, _ => Nat.le_succ _
  | .subquery s, stack => Nat.le_succ_of_le (s.le_push stack)
  | .binary _ left right, stack =>
      Nat.le_succ_of_le (Nat.le_trans (left.le_push stack)
        (right.le_push (left.push stack)))
  | .negation right, stack => Nat.le_succ_of_le (right.le_push stack)

theorem ExpressionList.le_push : ∀ (list : ExpressionList) (stack : Stack),
    stack.length ≤ (list.push stack).length
  | .one e, stack => Nat.le_succ_of_le (e.le_push stack)
  | .snoc list e, stack =>
      Nat.le_succ_of_le (Nat.le_trans (list.le_push stack)
        (e.le_push (list.push stack)))

theorem Condition.le_push : ∀ (c : Condition) (stack : Stack),
    stack.length ≤ (c.push stack).length
  | .comparison _ left right, stack => by
      have h₁ := left.le_push stack
      have h₂ := right.le_push (.typeExpression :: left.push stack)
      simp only [Condition.push, List.length_cons] at h₂ ⊢
      omega
  | .between _ e lower upper, stack => by
      have h₁ := e.le_push stack
      have h₂ := lower.le_push (.typeExpression :: e.push stack)
      have h₃ := upper.le_push
        (.typeExpression :: lower.push (.typeExpression :: e.push stack))
      simp only [Condition.push, List.length_cons] at h₂ h₃ ⊢
      omega
  | .isnull _ e, stack => by
      have h := e.le_push stack
      simp only [Condition.push, List.length_cons]
      omega
  | .inList _ e list, stack => by
      have h₁ := e.le_push stack
      have h₂ := list.le_push (.typeInbegin :: .typeExpression :: e.push stack)
      simp only [Condition.push, List.length_cons] at h₂ ⊢
      omega
  | .inSubquery _ e s, stack => by
      have h₁ := e.le_push stack
      have h₂ := s.le_push (.typeInbegin :: .typeExpression :: e.push stack)
      simp only [Condition.push, List.length_cons] at h₂ ⊢
      omega
  | .like _ e _, stack => by
      have h := e.le_push stack
      simp only [Condition.push, List.length_cons]
      omega
  | .exists s, stack =>
      Nat.le_succ_of_le (Nat.le_succ_of_le (s.le_push stack))
  | .unique s, stack =>
      Nat.le_succ_of_le (Nat.le_succ_of_le (s.le_push stack))
  | .truthtest c _, stack => Nat.le_succ_of_le (c.le_push stack)
  | .not c, stack => Nat.le_succ_of_le (c.le_push stack)
  | .and left right, stack =>
      Nat.le_succ_of_le (Nat.le_trans (left.le_push stack)
        (right.le_push (left.push stack)))
  | .or left right, stack =>
      Nat.le_succ_of_le (Nat.le_trans (left.le_push stack)
        (right.le_push (left.push stack)))

theorem Clause.le_push : ∀ (clause : Clause) (type : StackMember)
    (stack : Stack), stack.length ≤ (clause.push type stack).length
  | .absent, _, _ => Nat.le_refl _
  | .present c, _, stack =>
      Nat.le_succ_of_le (Nat.le_succ_of_le (c.le_push stack))

theorem Select.le_push : ∀ (s : Select) (stack : Stack),
    stack.length ≤ (s.push stack).length
  | .mk quantifier columns table where_clause groupby having_clause forupdate
      nolock orderby, stack => by
      rw [Select.push, List.length_cons]
      refine Nat.le_succ_of_le ?_
      refine Nat.le_trans ?_ (le_pushOrderby orderby _)
      refine Nat.le_trans ?_ (le_pushIf nolock _ _)
      refine Nat.le_trans ?_ (le_pushIf forupdate _ _)
      refine Nat.le_trans ?_ (having_clause.le_push _ _)
      refine Nat.le_trans ?_ (le_pushGroupby groupby _)
      refine Nat.le_trans ?_ (where_clause.le_push _ _)
      refine Nat.le_trans ?_ (Nat.le_add_right _ 2)
      refine Nat.le_trans ?_ (le_pushColumns columns _)
      exact le_pushQuantifier quantifier stack

end

/-! ## Rounds of the loop -/

theorem climb_room (hn : n.full = false) : climb n ps = .inr (n, ps) := by
  cases ps <;> simp [climb, hn]

theorem climb_full {p : Open} (hn : n.full = true) :
    climb n (p :: ps) = climb (p.put n.tree) ps := by
  simp [climb, hn]

theorem climb_root (hn : n.full = true) : climb n [] = .inl n.tree := by
  simp [climb, hn]

/-- Of the node and its parents only where they lead to matters. -/
theorem loop_congr (h : climb n ps = climb n' ps') :
    expressionLoop fuel l n ps = expressionLoop fuel l n' ps' := by
  cases fuel with
  | zero => rfl
  | succ fuel => rw [expressionLoop, expressionLoop, h]

theorem loop_full {p : Open} (hn : n.full = true) :
    expressionLoop fuel l n (p :: ps) =
      expressionLoop fuel l (p.put n.tree) ps := by
  cases fuel with
  | zero => rfl
  | succ fuel => rw [expressionLoop, expressionLoop, climb_full hn]

theorem loop_operator (hn : n.full = false) :
    expressionLoop (fuel + 1) ⟨.typeOperator op :: stack, qs, cur⟩ n ps =
      expressionLoop fuel ⟨stack, qs, cur⟩ (Open.new op) (n :: ps) := by
  rw [expressionLoop, climb_room hn]

theorem loop_operand {v : Bytes} (hn : n.full = false)
    (hv : operandType v ≠ operandSubquery) :
    expressionLoop (fuel + 1) ⟨.typeOperand v :: stack, qs, cur⟩ n ps =
      expressionLoop fuel ⟨stack, qs, cur⟩ (n.put (.operand v)) ps := by
  rw [expressionLoop, climb_room hn]
  exact if_neg hv

theorem loop_expressionItem (hn : n.full = false) :
    expressionLoop (fuel + 1) ⟨.typeExpression :: stack, qs, cur⟩ n ps =
      expressionLoop fuel ⟨stack, qs, cur⟩ n ps := by
  rw [expressionLoop, climb_room hn]

theorem loop_inbegin (hn : n.full = false) :
    expressionLoop (fuel + 1) ⟨.typeInbegin :: stack, qs, cur⟩ n ps =
      expressionLoop fuel ⟨stack, qs, cur⟩ n ps := by
  rw [expressionLoop, climb_room hn]

theorem put_of_new : (Open.new op).put t = ⟨op, .null, t⟩ := by
  simp [Open.put, Open.new]

theorem put_left {r : Tree} (hr : r ≠ .null) :
    (⟨op, .null, r⟩ : Open).put t = ⟨op, t, r⟩ := by
  simp [Open.put, hr]

theorem new_room : (Open.new op).full = false := by
  simp [Open.full, Open.new]

/-! ## Expressions -/

/-- What the query of a subquery has to be. -/
structure Compiled (s : Select) (q : Query) : Prop where
  type : q.type = .select
  table : q.table = s.table
  fromColumns : q.fromColumns = s.columns.vals
  searchCondition : q.searchCondition.uses none = []
  expressionlist : ∀ t ∈ q.inobject.expressionlist, t.uses none = []
  issubquery : q.inobject.issubquery = false
  insertColumns : q.insertColumns = []
  assignments : q.assignments = []

/-- A subquery becomes a query of its own. What is left of it is the item of a
quantifier. -/
def Reads (s : Select) : Prop :=
  ∀ fuel stack qs cur, (s.push stack).length < fuel → ∃ q, Compiled s q ∧
    consumeSubquery (expressionFrom (expressionLoop fuel)) fuel
      ⟨s.push stack, qs, cur⟩ = some ((qs.length : ℤ),
        ⟨Quantifier.push stack s.quantifier, qs ++ [q], cur⟩)

/-- The subqueries of an expression are read, and leave nothing. -/
def Expression.Clean (e : Expression) : Prop :=
  ∀ s ∈ e.subqueries, Reads s ∧ s.quantifier = none

variable (qs cur ps) in
theorem loop_subquery {s : Select} (hn : n.full = false) (hs : Reads s)
    (hfuel : (Expression.push stack (.subquery s)).length < fuel + 1) :
    ∃ q, Compiled s q ∧
      expressionLoop (fuel + 1) ⟨Expression.push stack (.subquery s), qs, cur⟩
        n ps = expressionLoop fuel
          ⟨Quantifier.push stack s.quantifier, qs ++ [q], cur⟩
          (n.put (.operand (marker qs.length))) ps := by
  rw [Expression.push] at hfuel ⊢
  obtain ⟨q, hq, hread⟩ := hs fuel stack qs cur (by simpa using hfuel)
  refine ⟨q, hq, ?_⟩
  rw [expressionLoop, climb_room hn]
  show (consumeSubquery (expressionFrom (expressionLoop fuel)) fuel
    ⟨s.push stack, qs, cur⟩).bind _ = _
  rw [hread, Option.bind_some]
  show expressionLoop fuel _ (n.put (.operand (subqueryOperand
    [operandSubquery] _))) ps = _
  rw [subqueryOperand_eq]

/-- An expression is taken off, and is the next child. -/
def Expression.Exact (e : Expression) : Prop :=
  ∀ fuel stack qs cur n ps, (e.push stack).length < fuel → n.full = false →
    ∃ fuel' new, stack.length < fuel' ∧
      List.Forall₂ Compiled e.subqueries new ∧
      expressionLoop fuel ⟨e.push stack, qs, cur⟩ n ps =
        expressionLoop fuel' ⟨stack, qs ++ new, cur⟩
          (n.put (e.tree qs.length)) ps

variable (qs cur ps) in
/-- The operands of a binary operator fill its node. -/
theorem loop_binary {left right : Expression} (op : Binary)
    (hleft : left.Exact) (hright : right.Exact)
    (hfuel : (right.push (left.push stack)).length < fuel) :
    ∃ fuel' new, stack.length < fuel' ∧
      List.Forall₂ Compiled (right.subqueries ++ left.subqueries) new ∧
      expressionLoop fuel ⟨right.push (left.push stack), qs, cur⟩
        (Open.new op.operatortype) ps =
          expressionLoop fuel' ⟨stack, qs ++ new, cur⟩
            ⟨op.operatortype,
              left.tree (qs.length + right.subqueries.length),
              right.tree qs.length⟩ ps := by
  obtain ⟨fuel₁, new₁, hf₁, hnew₁, h₁⟩ := hright fuel _ qs cur
    (Open.new op.operatortype) ps hfuel new_room
  have hroom : (⟨op.operatortype, .null, right.tree qs.length⟩ :
      Open).full = false := by
    simp [Open.full, Binary.isUnary]
  obtain ⟨fuel₂, new₂, hf₂, hnew₂, h₂⟩ := hleft fuel₁ stack (qs ++ new₁)
    cur _ ps hf₁ hroom
  refine ⟨fuel₂, new₁ ++ new₂, hf₂, List.rel_append hnew₁ hnew₂, ?_⟩
  rw [h₁, put_of_new, h₂, put_left (right.tree_ne _), List.append_assoc,
    List.length_append, hnew₁.length_eq]

variable (qs cur ps) in
theorem loop_negation {right : Expression} (hright : right.Exact)
    (hfuel : (right.push stack).length < fuel) :
    ∃ fuel' new, stack.length < fuel' ∧
      List.Forall₂ Compiled right.subqueries new ∧
      expressionLoop fuel ⟨right.push stack, qs, cur⟩ (Open.new .negation)
        ps = expressionLoop fuel' ⟨stack, qs ++ new, cur⟩
          ⟨.negation, .null, right.tree qs.length⟩ ps := by
  obtain ⟨fuel', new, hf, hnew, h⟩ := hright fuel stack qs cur
    (Open.new .negation) ps hfuel new_room
  exact ⟨fuel', new, hf, hnew, by rw [h, put_of_new]⟩

theorem full_binary {op : Binary} {left right : Expression} {i j : ℕ} :
    (⟨op.operatortype, left.tree i, right.tree j⟩ : Open).full = true := by
  simp [Open.full, right.tree_ne, left.tree_ne]

theorem full_negation {right : Expression} {i : ℕ} :
    (⟨.negation, .null, right.tree i⟩ : Open).full = true := by
  simp [Open.full, right.tree_ne, Operatortype.isUnary]

theorem exact_of_clean : ∀ {e : Expression}, e.Clean → e.Exact
  | .operand o, _, fuel, stack, qs, cur, n, ps, hfuel, hn => by
      rw [Expression.push] at hfuel ⊢
      obtain ⟨fuel, rfl⟩ := Nat.exists_eq_succ_of_ne_zero
        (Nat.ne_zero_of_lt hfuel)
      refine ⟨fuel, [], by simpa using hfuel, .nil, ?_⟩
      rw [List.append_nil, Expression.tree]
      exact loop_operand hn (operandType_val o)
  | .subquery s, hc, fuel, stack, qs, cur, n, ps, hfuel, hn => by
      obtain ⟨fuel, rfl⟩ := Nat.exists_eq_succ_of_ne_zero
        (Nat.ne_zero_of_lt hfuel)
      obtain ⟨hs, hq⟩ := hc s (List.mem_singleton_self s)
      obtain ⟨q, hcomp, heq⟩ := loop_subquery qs cur ps hn hs hfuel
      rw [hq] at heq
      refine ⟨fuel, [q], ?_, .cons hcomp .nil, heq⟩
      have hle := s.le_push stack
      simp only [Expression.push, List.length_cons] at hfuel
      omega
  | .binary op left right, hc, fuel, stack, qs, cur, n, ps, hfuel, hn => by
      rw [Expression.push] at hfuel ⊢
      obtain ⟨fuel, rfl⟩ := Nat.exists_eq_succ_of_ne_zero
        (Nat.ne_zero_of_lt hfuel)
      have hright := exact_of_clean (e := right)
        fun s hs => hc s (List.mem_append_left _ hs)
      have hleft := exact_of_clean (e := left)
        fun s hs => hc s (List.mem_append_right _ hs)
      obtain ⟨fuel', new, hf, hnew, h⟩ := loop_binary qs cur
        (n :: ps) op hleft hright (by simpa using hfuel)
      refine ⟨fuel', new, hf, hnew, ?_⟩
      rw [loop_operator hn, h, loop_full full_binary]
      rfl
  | .negation right, hc, fuel, stack, qs, cur, n, ps, hfuel, hn => by
      rw [Expression.push] at hfuel ⊢
      obtain ⟨fuel, rfl⟩ := Nat.exists_eq_succ_of_ne_zero
        (Nat.ne_zero_of_lt hfuel)
      obtain ⟨fuel', new, hf, hnew, h⟩ := loop_negation qs cur
        (n :: ps) (exact_of_clean (e := right) hc)
        (by simpa using hfuel)
      refine ⟨fuel', new, hf, hnew, ?_⟩
      rw [loop_operator hn, h, loop_full full_negation]
      rfl

variable (qs cur) in
/-- An expression on its own is taken off too, if it is not a subquery. -/
theorem consume_expression {e : Expression} (hc : e.Clean)
    (he : e.isSubquery = false) (hfuel : (e.push stack).length < fuel) :
    ∃ new, List.Forall₂ Compiled e.subqueries new ∧
      expressionFrom (expressionLoop fuel) ⟨e.push stack, qs, cur⟩ =
        some (e.tree qs.length, ⟨stack, qs ++ new, cur⟩) := by
  cases e with
  | operand o =>
      refine ⟨[], .nil, ?_⟩
      rw [List.append_nil]
      rfl
  | subquery s => cases he
  | binary op left right =>
      have hright := exact_of_clean (e := right)
        fun s hs => hc s (List.mem_append_left _ hs)
      have hleft := exact_of_clean (e := left)
        fun s hs => hc s (List.mem_append_right _ hs)
      obtain ⟨fuel', new, hf, hnew, h⟩ := loop_binary qs cur [] op hleft hright
        (Nat.lt_of_succ_lt hfuel)
      refine ⟨new, hnew, h.trans ?_⟩
      obtain ⟨fuel', rfl⟩ := Nat.exists_eq_succ_of_ne_zero
        (Nat.ne_zero_of_lt hf)
      rw [expressionLoop, climb_root full_binary]
      rfl
  | negation right =>
      obtain ⟨fuel', new, hf, hnew, h⟩ := loop_negation qs cur []
        (exact_of_clean (e := right) hc)
        (Nat.lt_of_succ_lt hfuel)
      refine ⟨new, hnew, h.trans ?_⟩
      obtain ⟨fuel', rfl⟩ := Nat.exists_eq_succ_of_ne_zero
        (Nat.ne_zero_of_lt hf)
      rw [expressionLoop, climb_root full_negation]
      rfl

/-! ## Trees without subqueries -/

/-- No operand is a subquery's. -/
def Tree.Quiet : Tree → Prop
  | .null => True
  | .operand v => operandType v ≠ operandSubquery
  | .operator _ leftchild rightchild => leftchild.Quiet ∧ rightchild.Quiet

theorem Tree.Quiet.uses {t : Tree} (h : t.Quiet) :
    ∀ user, t.uses user = [] := by
  induction t with
  | null => exact fun _ => rfl
  | operand v => exact fun _ => if_neg h
  | operator op l r ihl ihr =>
      intro user
      rw [Tree.uses, ihl h.1, ihr h.2]
      rfl

theorem Expression.tree_quiet : ∀ (e : Expression) (i : ℕ),
    e.subqueries = [] → (e.tree i).Quiet
  | .operand o, _, _ => operandType_val o
  | .subquery _, _, h => by cases h
  | .binary _ left right, _, h => by
      obtain ⟨hr, hl⟩ := List.append_eq_nil_iff.mp h
      exact ⟨left.tree_quiet _ hl, right.tree_quiet _ hr⟩
  | .negation right, _, h => ⟨trivial, right.tree_quiet _ h⟩

def Open.Quiet (n : Open) : Prop := n.leftchild.Quiet ∧ n.rightchild.Quiet

/-- The node and its parents. -/
def QuietPath (n : Open) (ps : List Open) : Prop :=
  n.Quiet ∧ ∀ p ∈ ps, p.Quiet

theorem Open.Quiet.put (hn : n.Quiet) (ht : t.Quiet) : (n.put t).Quiet := by
  unfold Open.put
  split
  · exact ⟨hn.1, ht⟩
  · exact ⟨ht, hn.2⟩

theorem Open.quiet_new (op : Operatortype) : (Open.new op).Quiet :=
  ⟨trivial, trivial⟩

theorem QuietPath.climbs {p : Open} (h : QuietPath n (p :: ps)) :
    QuietPath (p.put n.tree) ps :=
  ⟨(h.2 p List.mem_cons_self).put h.1,
    fun r hr => h.2 r (List.mem_cons_of_mem _ hr)⟩

theorem QuietPath.root : ∀ {ps : List Open} {n : Open}, QuietPath n ps →
    (rootnode n ps).Quiet
  | [], _, h => h.1
  | _ :: _, _, h => h.climbs.root

/-! ## Children that are missing -/

def Open.missing (n : Open) : ℕ :=
  (if n.rightchild = .null then 1 else 0) +
    if n.operatortype.isUnary || n.leftchild ≠ .null then 0 else 1

/-- Of a parent it counts what it lacks besides the child below. -/
def slots (n : Open) (ps : List Open) : ℕ :=
  n.missing + (ps.map fun p => (p.put (.operand [])).missing).sum

theorem missing_eq_zero : n.missing = 0 ↔ n.full = true := by
  unfold Open.missing Open.full
  by_cases hr : n.rightchild = .null <;>
    by_cases hu : n.operatortype.isUnary <;> by_cases hl : n.leftchild = .null <;>
    simp [hr, hu, hl]

theorem missing_put {t r : Tree} (ht : t ≠ .null) (hr : r ≠ .null) :
    (n.put t).missing = (n.put r).missing := by
  unfold Open.put
  split <;> simp [Open.missing, ht, hr]

/-- A child fills one. -/
theorem missing_of_put (hn : n.full = false) (ht : t ≠ .null) :
    n.missing = (n.put t).missing + 1 := by
  unfold Open.full at hn
  unfold Open.put Open.missing
  by_cases hr : n.rightchild = .null
  · simp only [hr, if_true, if_neg ht]
    omega
  · have hl : (n.operatortype.isUnary || decide (n.leftchild ≠ .null)) =
        false := by simpa [hr] using hn
    simp only [hr, if_false, hl]
    simp [ht]

theorem slots_put (hn : n.full = false) (ht : t ≠ .null) :
    slots n ps = slots (n.put t) ps + 1 := by
  rw [slots, slots, missing_of_put hn ht]
  omega

variable (ps op) in
theorem slots_operator (hn : n.full = false) :
    slots (Open.new op) (n :: ps) + 1 =
      slots n ps + (Open.new op).missing := by
  rw [slots, slots, List.map_cons, List.sum_cons,
    missing_of_put hn (t := .operand []) (by simp)]
  omega

theorem slots_full {p : Open} (hn : n.full = true) :
    slots n (p :: ps) = slots (p.put n.tree) ps := by
  rw [slots, slots, List.map_cons, List.sum_cons, missing_eq_zero.mpr hn,
    missing_put (t := n.tree) (r := .operand []) (by simp [Open.tree])
      (by simp)]
  omega

/-- Where a child is missing the loop goes on, from a node that has room. -/
theorem room_of_slots : ∀ {ps : List Open} {n : Open}, 0 < slots n ps →
    QuietPath n ps → ∃ n' ps', n'.full = false ∧ slots n' ps' = slots n ps ∧
      QuietPath n' ps' ∧ ∀ fuel l, expressionLoop fuel l n ps =
        expressionLoop fuel l n' ps' := by
  intro ps
  induction ps with
  | nil =>
      intro n hs hq
      refine ⟨n, [], ?_, rfl, hq, fun _ _ => rfl⟩
      by_contra hfull
      have hz := missing_eq_zero.mpr (by simpa using hfull)
      simp [slots, hz] at hs
  | cons p ps ih =>
      intro n hs hq
      by_cases hfull : n.full = true
      · rw [slots_full hfull] at hs ⊢
        obtain ⟨n', ps', hn, hslots, hquiet, heq⟩ := ih hs hq.climbs
        exact ⟨n', ps', hn, hslots, hquiet,
          fun fuel l => (loop_full hfull).trans (heq fuel l)⟩
      · exact ⟨n, p :: ps, by simpa using hfull, rfl, hq, fun _ _ => rfl⟩

/-! ## Pieces of a condition -/

def Inobject.Quiet (io : Inobject) : Prop :=
  io.issubquery = false ∧ ∀ t ∈ io.expressionlist, t.Quiet

/-- While the query at the end of the list is the current one, the piece is
taken off where `k` children are missing, and fills no more than `k`. Of the
query only the IN list is changed. -/
def Passes (k : ℕ) (push : Stack → Stack) : Prop :=
  ∀ fuel stack qs q n ps, (push stack).length < fuel → QuietPath n ps →
    k ≤ slots n ps → q.inobject.Quiet →
    ∃ fuel' io n' ps', stack.length < fuel' ∧ io.Quiet ∧
      QuietPath n' ps' ∧ slots n ps ≤ slots n' ps' + k ∧
      expressionLoop fuel ⟨push stack, qs ++ [q], qs.length⟩ n ps =
        expressionLoop fuel'
          ⟨stack, qs ++ [{ q with inobject := io }], qs.length⟩ n' ps'

theorem modify_last (f : Query → Query) :
    (⟨stack, qs ++ [q], qs.length⟩ : Larxer).modify f =
      ⟨stack, qs ++ [f q], qs.length⟩ := by
  rw [Larxer.modify]
  congr 1
  induction qs with
  | nil => rfl
  | cons p qs ih => simpa using ih

theorem passes_mono {k' : ℕ} {push : Stack → Stack} (h : Passes k push)
    (hk : k ≤ k') : Passes k' push := by
  intro fuel stack qs q n ps hfuel hq hs hio
  obtain ⟨fuel', io, n', ps', hf, hio', hq', hs', heq⟩ :=
    h fuel stack qs q n ps hfuel hq (Nat.le_trans hk hs) hio
  exact ⟨fuel', io, n', ps', hf, hio', hq', by omega, heq⟩

theorem passes_append {k' : ℕ} {push push' : Stack → Stack}
    (h : Passes k push) (h' : Passes k' push') :
    Passes (k + k') fun stack => push (push' stack) := by
  intro fuel stack qs q n ps hfuel hq hs hio
  obtain ⟨fuel₁, io₁, n₁, ps₁, hf₁, hio₁, hq₁, hs₁, heq₁⟩ :=
    h fuel (push' stack) qs q n ps hfuel hq (by omega) hio
  obtain ⟨fuel₂, io₂, n₂, ps₂, hf₂, hio₂, hq₂, hs₂, heq₂⟩ :=
    h' fuel₁ stack qs { q with inobject := io₁ } n₁ ps₁ hf₁ hq₁ (by omega)
      hio₁
  exact ⟨fuel₂, io₂, n₂, ps₂, hf₂, hio₂, hq₂, by omega, heq₁.trans heq₂⟩

theorem passes_operand {v : Bytes} (hv : operandType v ≠ operandSubquery) :
    Passes 1 fun stack => .typeOperand v :: stack := by
  intro fuel stack qs q n ps hfuel hq hs hio
  obtain ⟨n', ps', hn, hslots, hq', hloop⟩ := room_of_slots hs hq
  obtain ⟨fuel, rfl⟩ := Nat.exists_eq_succ_of_ne_zero (Nat.ne_zero_of_lt hfuel)
  refine ⟨fuel, q.inobject, n'.put (.operand v), ps', by simpa using hfuel, hio,
    ⟨hq'.1.put hv, hq'.2⟩, ?_, ?_⟩
  · rw [← hslots, slots_put hn (t := .operand v) (by simp)]
  · rw [hloop, loop_operand hn hv]

variable (op) in
theorem passes_operator {push : Stack → Stack}
    (h : Passes (Open.new op).missing push) :
    Passes 1 fun stack => .typeOperator op :: push stack := by
  intro fuel stack qs q n ps hfuel hq hs hio
  obtain ⟨n', ps', hn, hslots, hq', hloop⟩ := room_of_slots hs hq
  obtain ⟨fuel, rfl⟩ := Nat.exists_eq_succ_of_ne_zero (Nat.ne_zero_of_lt hfuel)
  have hop := slots_operator ps' op hn
  obtain ⟨fuel', io, n'', ps'', hf, hio', hq'', hs', heq⟩ :=
    h fuel stack qs q (Open.new op) (n' :: ps') (by simpa using hfuel)
      ⟨Open.quiet_new op, fun p hp => by
        rcases List.mem_cons.mp hp with rfl | hp
        · exact hq'.1
        · exact hq'.2 p hp⟩ (by omega) hio
  exact ⟨fuel', io, n'', ps'', hf, hio', hq'', by omega,
    (hloop _ _).trans ((loop_operator hn).trans heq)⟩

theorem passes_expressionItem {push : Stack → Stack}
    (h : Passes (k + 1) push) :
    Passes (k + 1) fun stack => .typeExpression :: push stack := by
  intro fuel stack qs q n ps hfuel hq hs hio
  obtain ⟨n', ps', hn, hslots, hq', hloop⟩ := room_of_slots
    (Nat.lt_of_lt_of_le (Nat.succ_pos k) hs) hq
  obtain ⟨fuel, rfl⟩ := Nat.exists_eq_succ_of_ne_zero (Nat.ne_zero_of_lt hfuel)
  obtain ⟨fuel', io, n'', ps'', hf, hio', hq'', hs', heq⟩ :=
    h fuel stack qs q n' ps' (by simpa using hfuel) hq' (by omega) hio
  exact ⟨fuel', io, n'', ps'', hf, hio', hq'', by omega,
    (hloop _ _).trans ((loop_expressionItem hn).trans heq)⟩

theorem passes_inbegin {push : Stack → Stack} (h : Passes (k + 1) push) :
    Passes (k + 1) fun stack => .typeInbegin :: push stack := by
  intro fuel stack qs q n ps hfuel hq hs hio
  obtain ⟨n', ps', hn, hslots, hq', hloop⟩ := room_of_slots
    (Nat.lt_of_lt_of_le (Nat.succ_pos k) hs) hq
  obtain ⟨fuel, rfl⟩ := Nat.exists_eq_succ_of_ne_zero (Nat.ne_zero_of_lt hfuel)
  obtain ⟨fuel', io, n'', ps'', hf, hio', hq'', hs', heq⟩ :=
    h fuel stack qs q n' ps' (by simpa using hfuel) hq' (by omega) hio
  exact ⟨fuel', io, n'', ps'', hf, hio', hq'', by omega,
    (hloop _ _).trans ((loop_inbegin hn).trans heq)⟩

theorem clean_of_nil {e : Expression} (h : e.subqueries = []) : e.Clean := by
  intro s hs
  rw [h] at hs
  cases hs

theorem isSubquery_of_nil {e : Expression} (h : e.subqueries = []) :
    e.isSubquery = false := by
  cases e with
  | subquery s => cases h
  | _ => rfl

theorem passes_expression {e : Expression} (he : e.subqueries = []) :
    Passes 1 fun stack => e.push stack := by
  intro fuel stack qs q n ps hfuel hq hs hio
  obtain ⟨n', ps', hn, hslots, hq', hloop⟩ := room_of_slots hs hq
  obtain ⟨fuel', new, hf, hnew, heq⟩ := exact_of_clean (clean_of_nil he) fuel
    stack (qs ++ [q]) qs.length n' ps' hfuel hn
  rw [he] at hnew
  cases hnew
  refine ⟨fuel', q.inobject, _, ps', hf, hio, ⟨hq'.1.put
    (e.tree_quiet (qs ++ [q]).length he), hq'.2⟩, ?_, ?_⟩
  · rw [← hslots, slots_put hn (e.tree_ne _)]
  · rw [hloop, heq, List.append_nil]

/-- The usual piece. -/
theorem passes_item {e : Expression} (he : e.subqueries = []) :
    Passes 1 fun stack => .typeExpression :: e.push stack :=
  passes_expressionItem (passes_expression he)

variable (fuel qs) in
/-- One expression of an IN list. -/
theorem inobjectLoop_item {e : Expression} {fuel₀ : ℕ}
    (he : e.subqueries = []) (hfuel : (e.push stack).length < fuel₀)
    (hio : q.inobject.Quiet) :
    ∃ io : Inobject, io.Quiet ∧
      inobjectLoop (expressionFrom (expressionLoop fuel₀)) (fuel + 1)
        ⟨.typeExpression :: e.push stack, qs ++ [q], qs.length⟩ =
          inobjectLoop (expressionFrom (expressionLoop fuel₀)) fuel
            ⟨stack, qs ++ [{ q with inobject := io }], qs.length⟩ := by
  obtain ⟨new, hnew, heq⟩ := consume_expression (qs ++ [q])
    qs.length (clean_of_nil he) (isSubquery_of_nil he) hfuel
  rw [he] at hnew
  cases hnew
  rw [List.append_nil] at heq
  refine ⟨{ q.inobject with expressionlist :=
    q.inobject.expressionlist ++ [e.tree (qs ++ [q]).length] }, ⟨hio.1, ?_⟩, ?_⟩
  · intro t ht
    rcases List.mem_append.mp ht with ht | ht
    · exact hio.2 t ht
    · rw [List.mem_singleton.mp ht]
      exact e.tree_quiet _ he
  · rw [inobjectLoop]
    dsimp only
    rw [heq, Option.bind_some]
    dsimp only
    rw [modify_last]

variable (qs) in
/-- The expressions of an IN list, up to the item below them. -/
theorem inobjectLoop_list {fuel₀ : ℕ} :
    ∀ {list : ExpressionList} {fuel : ℕ} {stack : Stack} {q : Query},
    list.subqueries = [] → (list.push stack).length < fuel →
    (list.push stack).length < fuel₀ → q.inobject.Quiet →
    ∃ fuel' io, stack.length < fuel' ∧ io.Quiet ∧
      inobjectLoop (expressionFrom (expressionLoop fuel₀)) fuel
        ⟨list.push stack, qs ++ [q], qs.length⟩ =
          inobjectLoop (expressionFrom (expressionLoop fuel₀)) fuel'
            ⟨stack, qs ++ [{ q with inobject := io }], qs.length⟩
  | .one e, fuel, stack, q, hl, hfuel, hfuel₀, hio => by
      rw [ExpressionList.push] at hfuel hfuel₀ ⊢
      obtain ⟨fuel, rfl⟩ := Nat.exists_eq_succ_of_ne_zero
        (Nat.ne_zero_of_lt hfuel)
      obtain ⟨io, hio', heq⟩ := inobjectLoop_item fuel qs hl
        (Nat.lt_of_succ_lt hfuel₀) hio
      have hle := e.le_push stack
      rw [List.length_cons] at hfuel
      exact ⟨fuel, io, by omega, hio', heq⟩
  | .snoc list e, fuel, stack, q, hl, hfuel, hfuel₀, hio => by
      obtain ⟨he, hl⟩ := List.append_eq_nil_iff.mp hl
      rw [ExpressionList.push] at hfuel hfuel₀ ⊢
      obtain ⟨fuel, rfl⟩ := Nat.exists_eq_succ_of_ne_zero
        (Nat.ne_zero_of_lt hfuel)
      obtain ⟨io, hio', heq⟩ := inobjectLoop_item fuel qs he
        (Nat.lt_of_succ_lt hfuel₀) hio
      have hle := e.le_push (list.push stack)
      rw [List.length_cons] at hfuel hfuel₀
      have h₁ : (list.push stack).length < fuel := by omega
      have h₂ : (list.push stack).length < fuel₀ := by omega
      obtain ⟨fuel', io', hf, hio'', heq'⟩ := inobjectLoop_list
        (q := { q with inobject := io }) hl h₁ h₂ hio'
      exact ⟨fuel', io', hf, hio'', heq.trans heq'⟩

theorem push_list : ∀ (list : ExpressionList) (stack : Stack),
    ∃ rest, list.push stack = .typeExpression :: rest
  | .one _, _ => ⟨_, rfl⟩
  | .snoc _ _, _ => ⟨_, rfl⟩

variable (qs) in
/-- An IN list ends where its beginning was pushed. -/
theorem consumeInobject_list {list : ExpressionList}
    (hl : list.subqueries = [])
    (hfuel : (list.push (.typeInbegin :: stack)).length < fuel)
    (hio : q.inobject.Quiet) :
    ∃ io : Inobject, io.Quiet ∧
      consumeInobject (expressionFrom (expressionLoop fuel)) fuel
        ⟨list.push (.typeInbegin :: stack), qs ++ [q], qs.length⟩ =
          some ⟨.typeInbegin :: stack,
            qs ++ [{ q with inobject := io }], qs.length⟩ := by
  obtain ⟨fuel', io, hf, hio', heq⟩ := inobjectLoop_list qs
    (q := { q with inobject.issubquery := false }) hl hfuel hfuel
    ⟨rfl, hio.2⟩
  refine ⟨io, hio', ?_⟩
  obtain ⟨fuel', rfl⟩ := Nat.exists_eq_succ_of_ne_zero (Nat.ne_zero_of_lt hf)
  obtain ⟨rest, hrest⟩ := push_list list (.typeInbegin :: stack)
  rw [hrest] at heq ⊢
  unfold consumeInobject
  dsimp only
  rw [modify_last, heq, inobjectLoop]

theorem passes_inobject {list : ExpressionList} {push : Stack → Stack}
    (hl : list.subqueries = []) (h : Passes (k + 1) push) :
    Passes (k + 1) fun stack =>
      .typeInobject :: list.push (.typeInbegin :: push stack) := by
  intro fuel stack qs q n ps hfuel hq hs hio
  obtain ⟨n', ps', hn, hslots, hq', hloop⟩ := room_of_slots
    (Nat.lt_of_lt_of_le (Nat.succ_pos k) hs) hq
  obtain ⟨fuel, rfl⟩ := Nat.exists_eq_succ_of_ne_zero (Nat.ne_zero_of_lt hfuel)
  obtain ⟨io₁, hio₁, hcons⟩ := consumeInobject_list qs hl
    (Nat.lt_of_succ_lt_succ hfuel) hio
  have hle := list.le_push (.typeInbegin :: push stack)
  rw [List.length_cons] at hfuel
  have hlen : (StackMember.typeInbegin :: push stack).length < fuel := by
    omega
  obtain ⟨fuel', io, n'', ps'', hf, hio', hq'', hs', heq⟩ :=
    passes_inbegin h fuel stack qs { q with inobject := io₁ } n' ps' hlen
      hq' (by omega) hio₁
  refine ⟨fuel', io, n'', ps'', hf, hio', hq'', by omega, ?_⟩
  rw [hloop, expressionLoop, climb_room hn]
  dsimp only
  rw [hcons]
  exact heq

/-! ## Conditions -/

theorem missing_new : (Open.new op).missing = if op.isUnary then 1 else 2 := by
  unfold Open.missing Open.new
  by_cases hu : op.isUnary <;> simp [hu]

/-- A condition is an operator over what is taken off for its children. -/
def Condition.Rooted (c : Condition) : Prop :=
  ∃ op push, (∀ stack, c.push stack = .typeOperator op :: push stack) ∧
    Passes (Open.new op).missing push

theorem passes_condition {c : Condition} (h : c.Rooted) :
    Passes 1 fun stack => c.push stack := by
  obtain ⟨op, push, hpush, hpass⟩ := h
  simp only [hpush]
  exact passes_operator _ hpass

theorem condition_root : ∀ {c : Condition}, c.subqueries = [] → c.Rooted
  | .comparison op left right, h => by
      obtain ⟨hr, hl⟩ := List.append_eq_nil_iff.mp h
      have hpass := passes_append (passes_item hr) (passes_item hl)
      exact ⟨_, _, fun _ => rfl, passes_mono hpass (by cases op <;> decide)⟩
  | .between negated e lower upper, h => by
      obtain ⟨hu, h⟩ := List.append_eq_nil_iff.mp h
      obtain ⟨hl, he⟩ := List.append_eq_nil_iff.mp h
      have hbounds := passes_append (passes_item hu) (passes_item hl)
      have hand := passes_operator .betweenand hbounds
      have hpass := passes_append hand (passes_item he)
      exact ⟨_, _, fun _ => rfl,
        passes_mono hpass (by cases negated <;> decide)⟩
  | .isnull negated e, h => by
      exact ⟨_, _, fun _ => rfl,
        passes_mono (passes_item h) (by cases negated <;> decide)⟩
  | .inList negated e list, h => by
      obtain ⟨hl, he⟩ := List.append_eq_nil_iff.mp h
      have hpass := passes_inobject hl (passes_item he)
      exact ⟨_, _, fun _ => rfl,
        passes_mono hpass (by cases negated <;> decide)⟩
  | .inSubquery _ _ _, h => by cases h
  | .like negated e pattern, h => by
      have hpattern := passes_operand
        (operandType_val (Operand.string pattern))
      have hpass := passes_append hpattern (passes_item h)
      exact ⟨_, _, fun _ => rfl,
        passes_mono hpass (by cases negated <;> decide)⟩
  | .exists _, h => by cases h
  | .unique _, h => by cases h
  | .truthtest c value, h => by
      have hpass := passes_condition (condition_root (c := c) h)
      exact ⟨_, _, fun _ => rfl,
        passes_mono hpass (by cases value <;> decide)⟩
  | .not c, h => by
      have hpass := passes_condition (condition_root (c := c) h)
      exact ⟨_, _, fun _ => rfl, passes_mono hpass (by decide)⟩
  | .and left right, h => by
      obtain ⟨hr, hl⟩ := List.append_eq_nil_iff.mp h
      have hpass := passes_append
        (passes_condition (condition_root (c := right) hr))
        (passes_condition (condition_root (c := left) hl))
      exact ⟨_, _, fun _ => rfl, passes_mono hpass (by decide)⟩
  | .or left right, h => by
      obtain ⟨hr, hl⟩ := List.append_eq_nil_iff.mp h
      have hpass := passes_append
        (passes_condition (condition_root (c := right) hr))
        (passes_condition (condition_root (c := left) hl))
      exact ⟨_, _, fun _ => rfl, passes_mono hpass (by decide)⟩

/-! ## Where an expression ends -/

/-- The items that `consumeExpression` leaves on the stack. -/
def StackMember.ends : StackMember → Bool
  | .typeOperator _ | .typeOperand _ | .typeExpression | .typeInobject
  | .typeInbegin => false
  | _ => true

theorem QuietPath.climb_inl : ∀ {ps : List Open} {n : Open},
    QuietPath n ps → climb n ps = .inl t → t.Quiet
  | [], n, hq, h => by
      unfold climb at h
      split at h
      · injection h with h
        exact h ▸ hq.1
      · cases h
  | p :: ps, n, hq, h => by
      unfold climb at h
      split at h
      · exact QuietPath.climb_inl hq.climbs h
      · cases h

theorem QuietPath.climb_inr : ∀ {ps : List Open} {n : Open},
    QuietPath n ps → climb n ps = .inr (n', ps') → QuietPath n' ps'
  | [], n, hq, h => by
      unfold climb at h
      split at h
      · cases h
      · injection h with h
        injection h with h₁ h₂
        subst h₁ h₂
        exact hq
  | p :: ps, n, hq, h => by
      unfold climb at h
      split at h
      · exact QuietPath.climb_inr hq.climbs h
      · injection h with h
        injection h with h₁ h₂
        subst h₁ h₂
        exact hq

variable (stack qs cur n ps) in
/-- There, whatever it lacks, an expression is given back. -/
theorem loop_ends {item : StackMember} (hfuel : 0 < fuel)
    (hitem : item.ends = true) :
    ∃ t, (QuietPath n ps → t.Quiet) ∧
      expressionLoop fuel ⟨item :: stack, qs, cur⟩ n ps =
        some (t, ⟨item :: stack, qs, cur⟩) := by
  obtain ⟨fuel, rfl⟩ := Nat.exists_eq_succ_of_ne_zero (Nat.ne_of_gt hfuel)
  rw [expressionLoop]
  split
  · next root h => exact ⟨root, fun hq => hq.climb_inl h, rfl⟩
  · next n' ps' h =>
      refine ⟨rootnode n' ps', fun hq => (hq.climb_inr h).root, ?_⟩
      cases item with
      | typeOperator _ => cases hitem
      | typeOperand _ => cases hitem
      | typeExpression => cases hitem
      | typeInobject => cases hitem
      | typeInbegin => cases hitem
      | _ => rfl

variable (qs cur) in
/-- At the bottom of the stack too. -/
theorem loop_bottom (hfuel : 0 < fuel) (hq : QuietPath n ps) :
    ∃ t : Tree, t.Quiet ∧ expressionLoop fuel ⟨[], qs, cur⟩ n ps =
      some (t, ⟨[], qs, cur⟩) := by
  obtain ⟨fuel, rfl⟩ := Nat.exists_eq_succ_of_ne_zero (Nat.ne_of_gt hfuel)
  rw [expressionLoop]
  split
  · next root h => exact ⟨root, hq.climb_inl h, rfl⟩
  · exact ⟨.null, trivial, rfl⟩

variable (fuel qs cur) in
/-- Above the name of a table, which may be taken for an operand. -/
theorem loop_name {v : Bytes} (hfuel : 1 < fuel) (hq : QuietPath n ps)
    (hv : operandType v ≠ operandSubquery) :
    ∃ t stack, Tree.Quiet t ∧ (stack = [] ∨ stack = [.typeOperand v]) ∧
      expressionLoop fuel ⟨[.typeOperand v], qs, cur⟩ n ps =
        some (t, ⟨stack, qs, cur⟩) := by
  obtain ⟨fuel, rfl⟩ := Nat.exists_eq_succ_of_ne_zero
    (Nat.ne_zero_of_lt hfuel)
  rw [expressionLoop]
  split
  · next root h => exact ⟨root, _, hq.climb_inl h, .inr rfl, rfl⟩
  · next n' ps' h =>
      have hq' := hq.climb_inr h
      obtain ⟨t, ht, heq⟩ := loop_bottom qs cur
        (Nat.lt_of_succ_lt_succ hfuel)
        (⟨hq'.1.put hv, hq'.2⟩ : QuietPath (n'.put (.operand v)) ps')
      refine ⟨t, [], ht, .inl rfl, ?_⟩
      dsimp only
      rw [if_neg hv]
      exact heq

/-! ## Search conditions -/

variable (qs) in
/-- A search condition up to the stack below it, at which the loop stands in
the end. -/
theorem consume_condition {c : Condition} (hc : c.subqueries = [])
    (hfuel : (c.push stack).length < fuel) (hio : q.inobject.Quiet) :
    ∃ fuel' io n ps, stack.length < fuel' ∧ io.Quiet ∧ QuietPath n ps ∧
      expressionFrom (expressionLoop fuel)
        ⟨c.push stack, qs ++ [q], qs.length⟩ = expressionLoop fuel'
          ⟨stack, qs ++ [{ q with inobject := io }], qs.length⟩ n ps := by
  obtain ⟨op, push, hpush, hpass⟩ := condition_root hc
  rw [hpush] at hfuel ⊢
  obtain ⟨fuel', io, n, ps, hf, hio', hq, _, heq⟩ := hpass fuel stack qs q
    (Open.new op) [] (Nat.lt_of_succ_lt hfuel)
    ⟨Open.quiet_new op, fun p hp => by cases hp⟩ (Nat.le_refl _) hio
  exact ⟨fuel', io, n, ps, hf, hio', hq, heq⟩

variable (fuel stack qs) in
/-- A clause above an item that ends it. -/
theorem consumeCondition_ends {c : Condition} (note : Query → Query)
    {item : StackMember} (hc : c.subqueries = [])
    (hfuel : (c.push (item :: stack)).length < fuel)
    (hitem : item.ends = true) (hio : (note q).inobject.Quiet) :
    ∃ io t, io.Quiet ∧ Tree.Quiet t ∧
      consumeCondition note (expressionFrom (expressionLoop fuel))
        ⟨.typeSearchCondition :: c.push (item :: stack), qs ++ [q],
          qs.length⟩ = some ⟨item :: stack, qs ++ [{ note q with
            inobject := io, searchCondition := t }], qs.length⟩ := by
  obtain ⟨fuel', io, n, ps, hf, hio', hq, heq⟩ := consume_condition qs
    (q := note q) hc hfuel hio
  obtain ⟨t, ht, hend⟩ := loop_ends stack
    (qs ++ [{ note q with inobject := io }]) qs.length n ps
    (Nat.zero_lt_of_lt hf) hitem
  refine ⟨io, t, hio', ht hq, ?_⟩
  unfold consumeCondition
  rw [modify_last]
  dsimp only
  rw [heq, hend, Option.map_some]
  dsimp only
  rw [modify_last]

/-! ## SELECT -/

/-- A query before its columns have been read. -/
structure Draft (q : Query) : Prop where
  type : q.type = .select
  table : q.table = []
  fromColumns : q.fromColumns = []
  searchCondition : q.searchCondition.Quiet
  inobject : q.inobject.Quiet
  insertColumns : q.insertColumns = []
  assignments : q.assignments = []

/-- From one stack to the other the loop of `consumeSelect` stays at a
draft. -/
structure SelectPasses (fuel₀ columns : ℕ) (qs : List Query)
    (stack stack' : Stack) : Prop where
  le : stack'.length ≤ stack.length
  loop : stack.length < fuel₀ → ∀ fuel q, stack.length < fuel → Draft q →
    ∃ fuel' q', stack'.length < fuel' ∧ Draft q' ∧
      selectLoop (expressionFrom (expressionLoop fuel₀)) columns fuel
        ⟨stack, qs ++ [q], qs.length⟩ =
      selectLoop (expressionFrom (expressionLoop fuel₀)) columns fuel'
        ⟨stack', qs ++ [q'], qs.length⟩

namespace SelectPasses

variable {fuel₀ columns : ℕ} {s₁ s₂ s₃ : Stack} {item : StackMember}

theorem refl : SelectPasses fuel₀ columns qs s₁ s₁ :=
  ⟨Nat.le_refl _, fun _ fuel q hfuel hq => ⟨fuel, q, hfuel, hq, rfl⟩⟩

theorem trans (h₁ : SelectPasses fuel₀ columns qs s₁ s₂)
    (h₂ : SelectPasses fuel₀ columns qs s₂ s₃) :
    SelectPasses fuel₀ columns qs s₁ s₃ := by
  refine ⟨Nat.le_trans h₂.le h₁.le, fun hlen fuel q hfuel hq => ?_⟩
  obtain ⟨fuel₁, q₁, hf₁, hq₁, heq₁⟩ := h₁.loop hlen fuel q hfuel hq
  obtain ⟨fuel₂, q₂, hf₂, hq₂, heq₂⟩ :=
    h₂.loop (Nat.lt_of_le_of_lt h₁.le hlen) fuel₁ q₁ hf₁ hq₁
  exact ⟨fuel₂, q₂, hf₂, hq₂, heq₁.trans heq₂⟩

/-- An item that only notes something. -/
theorem note {f : Query → Query} (hf : ∀ q, Draft q → Draft (f q))
    (h : ∀ fuel q, selectLoop (expressionFrom (expressionLoop fuel₀)) columns
      (fuel + 1) ⟨item :: s₁, qs ++ [q], qs.length⟩ =
        selectLoop (expressionFrom (expressionLoop fuel₀)) columns fuel
          ⟨s₁, qs ++ [f q], qs.length⟩) :
    SelectPasses fuel₀ columns qs (item :: s₁) s₁ := by
  refine ⟨Nat.le_succ _, fun _ fuel q hfuel hq => ?_⟩
  obtain ⟨fuel, rfl⟩ := Nat.exists_eq_succ_of_ne_zero
    (Nat.ne_zero_of_lt hfuel)
  exact ⟨fuel, f q, Nat.lt_of_succ_lt_succ hfuel, hf q hq, h fuel q⟩

theorem forupdate (b : Bool) : SelectPasses fuel₀ columns qs
    (pushIf b .typeForupdate s₁) s₁ := by
  cases b with
  | false => exact refl
  | true =>
      refine note (f := fun q => { q with isforupdate := true })
        (fun q hq => ⟨hq.1, hq.2, hq.3, hq.4, hq.5, hq.6, hq.7⟩) ?_
      intro fuel q
      rw [selectLoop]
      dsimp only
      rw [modify_last]

theorem nolock (b : Bool) : SelectPasses fuel₀ columns qs
    (pushIf b .typeNolock s₁) s₁ := by
  cases b with
  | false => exact refl
  | true =>
      refine note (f := fun q => { q with hasnolock := true })
        (fun q hq => ⟨hq.1, hq.2, hq.3, hq.4, hq.5, hq.6, hq.7⟩) ?_
      intro fuel q
      rw [selectLoop]
      dsimp only
      rw [modify_last]

end SelectPasses

/-- A clause without subqueries, whose type leads to `consumeCondition`. -/
theorem SelectPasses.clause {fuel₀ columns : ℕ} {type item : StackMember}
    (note : Query → Query) {clause : Clause} (hc : clause.subqueries = [])
    (hitem : item.ends = true) (hnote : ∀ q, Draft q → Draft (note q))
    (h : ∀ fuel l, selectLoop (expressionFrom (expressionLoop fuel₀)) columns
      (fuel + 1) { l with parsedStack := type :: l.parsedStack } =
        (consumeCondition note (expressionFrom (expressionLoop fuel₀))
          l).bind (selectLoop (expressionFrom (expressionLoop fuel₀)) columns
            fuel)) :
    SelectPasses fuel₀ columns qs (clause.push type (item :: stack))
      (item :: stack) := by
  cases clause with
  | absent => exact refl
  | present c =>
      refine ⟨Clause.le_push (.present c) type (item :: stack),
        fun hlen fuel q hfuel hq => ?_⟩
      have hle := c.le_push (item :: stack)
      rw [Clause.push] at hlen hfuel ⊢
      obtain ⟨fuel, rfl⟩ := Nat.exists_eq_succ_of_ne_zero
        (Nat.ne_zero_of_lt hfuel)
      have hdraft := hnote q hq
      simp only [List.length_cons] at hle hlen hfuel ⊢
      obtain ⟨io, t, hio, ht, heq⟩ := consumeCondition_ends fuel₀
        stack qs note hc (by omega) hitem hdraft.inobject
      refine ⟨fuel, { note q with inobject := io, searchCondition := t },
        by omega,
        ⟨hdraft.1, hdraft.2, hdraft.3, ht, hio, hdraft.6, hdraft.7⟩,
        (h fuel ⟨_, _, _⟩).trans ?_⟩
      rw [heq, Option.bind_some]

theorem SelectPasses.where_clause {fuel₀ columns : ℕ} {item : StackMember}
    {clause : Clause} (hc : clause.subqueries = [])
    (hitem : item.ends = true) :
    SelectPasses fuel₀ columns qs (clause.push .typeWhere (item :: stack))
      (item :: stack) :=
  SelectPasses.clause (fun q => { q with haswhere := true }) hc hitem
    (fun q hq => ⟨hq.1, hq.2, hq.3, hq.4, hq.5, hq.6, hq.7⟩)
    fun fuel l => by rw [selectLoop]; rfl

theorem SelectPasses.having_clause {fuel₀ columns : ℕ} {item : StackMember}
    {clause : Clause} (hc : clause.subqueries = [])
    (hitem : item.ends = true) :
    SelectPasses fuel₀ columns qs (clause.push .typeHaving (item :: stack))
      (item :: stack) :=
  SelectPasses.clause (fun q => { q with hashaving := true }) hc hitem
    (fun q hq => ⟨hq.1, hq.2, hq.3, hq.4, hq.5, hq.6, hq.7⟩)
    fun fuel l => by rw [selectLoop]; rfl

/-- The names of a GROUP BY, down to what is no operand. -/
theorem groupbyLoop_names (names : List Bytes) {item : StackMember}
    (hitem : item.ends = true) :
    groupbyLoop (names.foldl pushIdentifier (item :: stack)) =
      (names.reverse, item :: stack) := by
  induction names using List.reverseRecOn with
  | nil =>
      cases item with
      | typeOperand v => cases hitem
      | _ => rfl
  | append_singleton names name ih =>
      rw [List.foldl_append, List.foldl_cons, List.foldl_nil, pushIdentifier,
        groupbyLoop]
      have hname : operandType (Operand.identifier name).val =
        operandIdentifier := rfl
      rw [if_pos hname, ih, List.reverse_append]
      rfl

theorem SelectPasses.groupby {fuel₀ columns : ℕ} {item : StackMember}
    (names : List Bytes) (hitem : item.ends = true) :
    SelectPasses fuel₀ columns qs (pushGroupby (item :: stack) names)
      (item :: stack) := by
  cases names with
  | nil => exact refl
  | cons name names =>
      refine ⟨le_pushGroupby _ _, fun _ fuel q hfuel hq => ?_⟩
      have hle := length_identifiers (name :: names) (item :: stack)
      rw [pushGroupby] at hfuel ⊢
      · rw [List.length_cons] at hfuel
        obtain ⟨fuel, rfl⟩ := Nat.exists_eq_succ_of_ne_zero
          (Nat.ne_zero_of_lt hfuel)
        refine ⟨fuel, { q with
          hasgroupby := true
          groupByList := q.groupByList ++ (name :: names).reverse }, by omega,
          ⟨hq.1, hq.2, hq.3, hq.4, hq.5, hq.6, hq.7⟩, ?_⟩
        rw [selectLoop]
        dsimp only
        rw [consumeGroupby, groupbyLoop_names _ hitem]
        dsimp only
        rw [modify_last]
      all_goals exact List.cons_ne_nil _ _

variable (stack) in
/-- The sort specifications of an ORDER BY, down to another item. -/
theorem orderbyLoop_sorts (sorts : List (Bytes × Bool)) {item : StackMember}
    (hitem : item ≠ .typeSortspecification) :
    ∃ items, orderbyLoop (sorts.foldl pushSort (item :: stack)) =
      some (items, item :: stack) := by
  induction sorts using List.reverseRecOn with
  | nil =>
      refine ⟨[], ?_⟩
      cases item with
      | typeSortspecification => exact absurd rfl hitem
      | _ => rfl
  | append_singleton sorts sort ih =>
      obtain ⟨items, heq⟩ := ih
      refine ⟨(decide (StackMember.typeOperand
        (Operand.identifier sort.1).val = .typeAsc),
        (if sort.2 then StackMember.typeAsc else .typeDesc).val) :: items, ?_⟩
      rw [List.foldl_append, List.foldl_cons, List.foldl_nil, pushSort,
        pushIdentifier, orderbyLoop, heq]
      rfl

theorem SelectPasses.orderby {fuel₀ columns : ℕ} {item : StackMember}
    (sorts : List (Bytes × Bool)) (hitem : item ≠ .typeSortspecification) :
    SelectPasses fuel₀ columns qs (pushOrderby (item :: stack) sorts)
      (item :: stack) := by
  cases sorts with
  | nil => exact refl
  | cons sort sorts =>
      refine ⟨le_pushOrderby _ _, fun _ fuel q hfuel hq => ?_⟩
      have hle := length_sorts (sort :: sorts) (item :: stack)
      obtain ⟨items, heq⟩ := orderbyLoop_sorts stack
        (sort :: sorts) hitem
      rw [pushOrderby] at hfuel ⊢
      · rw [List.length_cons] at hfuel
        obtain ⟨fuel, rfl⟩ := Nat.exists_eq_succ_of_ne_zero
          (Nat.ne_zero_of_lt hfuel)
        refine ⟨fuel, { q with
          hasorderby := true
          orderbylist := q.orderbylist ++ items }, by omega,
          ⟨hq.1, hq.2, hq.3, hq.4, hq.5, hq.6, hq.7⟩, ?_⟩
        rw [selectLoop]
        dsimp only
        rw [consumeOrderby, heq, Option.map_some, Option.bind_some]
        dsimp only
        rw [modify_last]
      all_goals exact List.cons_ne_nil _ _

theorem columnsLoop_list (columns : List Operand) :
    columnsLoop columns.length (columns.foldl
      (fun stack o => StackMember.typeOperand o.val :: stack) stack) =
        (columns.reverse.map Operand.val, stack) := by
  induction columns using List.reverseRecOn with
  | nil => cases stack <;> rfl
  | append_singleton columns o ih =>
      rw [List.foldl_append, List.length_append, List.foldl_cons,
        List.foldl_nil, List.length_singleton, columnsLoop, ih,
        List.reverse_append]
      rfl

variable (fuel stack qs) in
/-- What follows FROM is the end. -/
theorem selectLoop_from (fuel₀ : ℕ) (columns : Columns) (table : Bytes)
    (hq : Draft q) :
    ∃ q' : Query, q'.type = .select ∧ q'.table = table ∧
      q'.fromColumns = columns.vals ∧ q'.searchCondition.Quiet ∧
      q'.inobject.Quiet ∧ q'.insertColumns = [] ∧ q'.assignments = [] ∧
      selectLoop (expressionFrom (expressionLoop fuel₀)) columns.count
        (fuel + 2) ⟨.typeFrom :: pushIdentifier (columns.push stack) table,
          qs ++ [q], qs.length⟩ = some ⟨stack, qs ++ [q'], qs.length⟩ := by
  obtain ⟨htype, htable, hcols, hsc, hio, hins, hass⟩ := hq
  refine ⟨{ q with
    table := table
    fromColumns := q.fromColumns ++ columns.vals
    locktype := .readLock }, htype, rfl, ?_, hsc, hio, hins, hass, ?_⟩
  · simp only [hcols, List.nil_append]
  · rw [selectLoop, pushIdentifier]
    dsimp only
    rw [consumeFrom]
    dsimp only
    rw [modify_last]
    cases columns with
    | asterisk =>
        rw [selectLoop, Columns.push]
        dsimp only
        rw [endSelect, consumeColumns]
        show some ((Larxer.modify _ _).modify _) = _
        rw [modify_last, modify_last]
        rfl
    | list columns =>
        rw [selectLoop, Columns.push]
        dsimp only
        rw [endSelect, consumeColumns, Columns.count, columnsLoop_list]
        dsimp only
        rw [modify_last, modify_last]
        rfl

/-- A stack whose top ends all that is above it. -/
def Headed (stack : Stack) : Prop :=
  ∃ item rest, stack = item :: rest ∧ item.ends = true ∧
    item ≠ .typeSortspecification

theorem Headed.pushIf {item : StackMember} (b : Bool) (h : Headed stack)
    (hitem : item.ends = true) (hsort : item ≠ .typeSortspecification) :
    Headed (pushIf b item stack) := by
  cases b with
  | false => exact h
  | true => exact ⟨item, stack, rfl, hitem, hsort⟩

theorem Headed.pushClause {type : StackMember} (clause : Clause)
    (h : Headed stack) (hitem : type.ends = true)
    (hsort : type ≠ .typeSortspecification) :
    Headed (clause.push type stack) := by
  cases clause with
  | absent => exact h
  | present c => exact ⟨type, _, rfl, hitem, hsort⟩

theorem Headed.pushGroupby (names : List Bytes) (h : Headed stack) :
    Headed (pushGroupby stack names) := by
  cases names with
  | nil => exact h
  | cons name names => exact ⟨.typeGroupby, _, rfl, rfl, by decide⟩

/-- The clauses of a SELECT, down to FROM. -/
theorem SelectPasses.clauses {fuel₀ columns : ℕ} {where_clause having_clause :
    Clause} (hw : where_clause.subqueries = [])
    (hh : having_clause.subqueries = []) (groupby : List Bytes)
    (forupdate nolock : Bool) (orderby : List (Bytes × Bool)) :
    SelectPasses fuel₀ columns qs
      (pushOrderby
        (pushIf nolock .typeNolock
          (pushIf forupdate .typeForupdate
            (having_clause.push .typeHaving
              (pushGroupby
                (where_clause.push .typeWhere (.typeFrom :: stack))
                groupby)))) orderby)
      (.typeFrom :: stack) := by
  have h₁ : Headed (.typeFrom :: stack) := ⟨_, _, rfl, rfl, by decide⟩
  have h₂ : Headed (where_clause.push .typeWhere (.typeFrom :: stack)) :=
    h₁.pushClause where_clause rfl (by decide)
  have h₃ := h₂.pushGroupby groupby
  have h₄ : Headed (having_clause.push .typeHaving _) :=
    h₃.pushClause having_clause rfl (by decide)
  have h₅ : Headed (pushIf nolock .typeNolock
      (pushIf forupdate .typeForupdate _)) :=
    (h₄.pushIf forupdate rfl (by decide)).pushIf nolock rfl (by decide)
  obtain ⟨item₂, rest₂, hst₂, hends₂, _⟩ := h₂
  obtain ⟨item₃, rest₃, hst₃, hends₃, _⟩ := h₃
  obtain ⟨item₅, rest₅, hst₅, _, hsort₅⟩ := h₅
  have horderby : SelectPasses fuel₀ columns qs
      (pushOrderby (item₅ :: rest₅) orderby) _ := .orderby orderby hsort₅
  have hgroupby : SelectPasses fuel₀ columns qs
      (pushGroupby (item₂ :: rest₂) groupby) _ := .groupby groupby hends₂
  have hhaving : SelectPasses fuel₀ columns qs
      (having_clause.push .typeHaving (item₃ :: rest₃)) _ :=
    .having_clause hh hends₃
  rw [← hst₅] at horderby
  rw [← hst₂] at hgroupby
  rw [← hst₃] at hhaving
  exact horderby.trans ((SelectPasses.nolock _).trans
    ((SelectPasses.forupdate _).trans (hhaving.trans (hgroupby.trans
      (.where_clause hw rfl)))))

theorem draft_new : Draft { type := .select } :=
  ⟨rfl, rfl, rfl, trivial, ⟨rfl, fun t ht => by cases ht⟩, rfl, rfl⟩

variable (stack qs) in
/-- A SELECT without subqueries becomes its query, whatever is below it. -/
theorem consumeSelect_push {s : Select} (hw : s.whereClause.subqueries = [])
    (hh : s.havingClause.subqueries = [])
    (hfuel : (s.push stack).length < fuel + 1) :
    ∃ q rest, Compiled s q ∧ 0 < rest.length ∧
      s.push stack = .typeSelect s.columns.count :: rest ∧
      consumeSelect (expressionFrom (expressionLoop fuel)) fuel
        s.columns.count ⟨rest, qs ++ [({} : Query)], qs.length⟩ =
          some ⟨Quantifier.push stack s.quantifier, qs ++ [q], qs.length⟩ := by
  cases s with
  | mk quantifier columns table where_clause groupby having_clause forupdate
      nolock orderby =>
      rw [Select.push] at hfuel ⊢
      rw [List.length_cons] at hfuel
      have hlt := Nat.lt_of_succ_lt_succ hfuel
      have hpass : SelectPasses fuel columns.count qs _ (.typeFrom ::
          pushIdentifier (columns.push (Quantifier.push stack quantifier))
            table) :=
        .clauses hw hh groupby forupdate nolock orderby
      obtain ⟨fuel', q, hf, hdraft, heq⟩ := hpass.loop hlt fuel _ hlt draft_new
      obtain ⟨fuel'', rfl⟩ : ∃ f, fuel' = f + 2 :=
        ⟨fuel' - 2, by
          simp only [List.length_cons, pushIdentifier] at hf
          omega⟩
      obtain ⟨q', htype, htable, hcols, hsc, hio, hins, hass, hend⟩ :=
        selectLoop_from fuel'' (Quantifier.push stack quantifier) qs fuel
          columns table hdraft
      refine ⟨q', _, ⟨htype, htable, hcols, hsc.uses none,
        fun t ht => (hio.2 t ht).uses none, hio.1, hins, hass⟩,
        Nat.lt_of_lt_of_le (Nat.succ_pos _) hpass.le, rfl, ?_⟩
      rw [consumeSelect, modify_last]
      exact heq.trans hend

theorem reads_of_flat {s : Select} (hw : s.whereClause.subqueries = [])
    (hh : s.havingClause.subqueries = []) : Reads s := by
  intro fuel stack qs cur hfuel
  obtain ⟨q, rest, hq, _, hpush, heq⟩ := consumeSelect_push stack qs
    hw hh (Nat.lt_succ_of_lt hfuel)
  refine ⟨q, hq, ?_⟩
  rw [hpush, consumeSubquery]
  dsimp only
  rw [heq, Option.map_some]

end Infinisql.Larx
