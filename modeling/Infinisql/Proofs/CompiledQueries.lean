import Infinisql.Proofs.Parsing

/-!
# The queries of a statement

`eatstack` on the stacks of whole statements. A statement whose subqueries are
all operands in assignments, below an operator and without subqueries of their
own, is compiled to one query for itself and one for each of them, in the order
in which they are met from the right: `queries_update`. The others have
subqueries nowhere.

A subquery with DISTINCT or ALL leaves an item on the stack. In an assignment
that item is taken for the name of the field, which has no second character,
and that is the end of the program: `queries_quantifier`.
-/

namespace Infinisql.Larx

open Infinisql.Ref (Bytes FieldInput operandType)
open Infinisql.Asts (Operatortype operandSubquery operandIdentifier)

variable {fuel fuel₀ : ℕ} {stack : Stack} {qs rest : List Query} {q : Query}
  {cur : ℕ} {n : Open} {ps : List Open} {op : Operatortype}

/-! ## SELECT -/

theorem queries_select {s : Select} (hw : s.whereClause.subqueries = [])
    (hh : s.havingClause.subqueries = []) :
    ∃ q, Compiled s q ∧ (Stmt.select s).queries = some [q] := by
  obtain ⟨q, rest, hq, hrest, hpush, heq⟩ := consumeSelect_push [] []
    hw hh (Nat.lt_succ_self _)
  refine ⟨q, hq, ?_⟩
  rw [Stmt.queries, Stmt.parsedStack, eatstack]
  rw [hpush] at heq ⊢
  obtain ⟨fuel, hfuel⟩ := Nat.exists_eq_succ_of_ne_zero
    (Nat.ne_zero_of_lt hrest)
  rw [eatLoop, List.length_cons, hfuel]
  rw [List.length_cons, hfuel] at heq
  show Option.map _ ((consumeSelect (expressionFrom (expressionLoop _)) _ _
    ⟨rest, [{}], 0⟩).bind _) = _
  rw [show (⟨rest, [{}], 0⟩ : Larxer) = ⟨rest, [] ++ [({} : Query)],
    ([] : List Query).length⟩ from rfl, heq, Option.bind_some]
  rcases s.quantifier with _ | _ | _ <;> rfl

theorem modify_first (f : Query → Query) :
    (⟨stack, q :: rest, 0⟩ : Larxer).modify f = ⟨stack, f q :: rest, 0⟩ := rfl

/-! ## INSERT -/

variable (fuel) in
/-- One value. -/
theorem insertLoop_value {e : Expression} (he : e.subqueries = [])
    (hfuel : (e.push stack).length < fuel₀) :
    ∃ t : Tree, t.Quiet ∧
      insertLoop (consumeExpression fuel₀) (fuel + 1)
        ⟨.typeExpression :: e.push stack, [q], 0⟩ =
      insertLoop (consumeExpression fuel₀) fuel
        ⟨stack, [{ q with insertColumns := q.insertColumns ++ [t] }], 0⟩ := by
  obtain ⟨new, hnew, heq⟩ := consume_expression [q] 0
    (clean_of_nil he) (isSubquery_of_nil he) hfuel
  rw [he] at hnew
  cases hnew
  rw [List.append_nil] at heq
  refine ⟨e.tree 1, e.tree_quiet 1 he, ?_⟩
  rw [insertLoop]
  dsimp only
  rw [consumeExpression, heq]
  rfl

/-- The values, down to the name of the table. -/
theorem insertLoop_values : ∀ {list : ExpressionList} {fuel : ℕ} {q : Query},
    list.subqueries = [] → (list.push stack).length < fuel →
    (list.push stack).length < fuel₀ → (∀ t ∈ q.insertColumns, t.Quiet) →
    ∃ fuel' columns, stack.length < fuel' ∧ (∀ t ∈ columns, Tree.Quiet t) ∧
      insertLoop (consumeExpression fuel₀) fuel ⟨list.push stack, [q], 0⟩ =
        insertLoop (consumeExpression fuel₀) fuel'
          ⟨stack, [{ q with insertColumns := columns }], 0⟩
  | .one e, fuel, q, hl, hfuel, hfuel₀, hq => by
      rw [ExpressionList.push] at hfuel hfuel₀ ⊢
      obtain ⟨fuel, rfl⟩ := Nat.exists_eq_succ_of_ne_zero
        (Nat.ne_zero_of_lt hfuel)
      obtain ⟨t, ht, heq⟩ := insertLoop_value fuel (q := q) hl
        (Nat.lt_of_succ_lt hfuel₀)
      have hle := e.le_push stack
      rw [List.length_cons] at hfuel
      refine ⟨fuel, _, by omega, fun t' ht' => ?_, heq⟩
      rcases List.mem_append.mp ht' with ht' | ht'
      · exact hq t' ht'
      · exact List.mem_singleton.mp ht' ▸ ht
  | .snoc list e, fuel, q, hl, hfuel, hfuel₀, hq => by
      obtain ⟨he, hl⟩ := List.append_eq_nil_iff.mp hl
      rw [ExpressionList.push] at hfuel hfuel₀ ⊢
      obtain ⟨fuel, rfl⟩ := Nat.exists_eq_succ_of_ne_zero
        (Nat.ne_zero_of_lt hfuel)
      obtain ⟨t, ht, heq⟩ := insertLoop_value fuel (q := q) he
        (Nat.lt_of_succ_lt hfuel₀)
      have hle := e.le_push (list.push stack)
      rw [List.length_cons] at hfuel hfuel₀
      have h₁ : (list.push stack).length < fuel := by omega
      have h₂ : (list.push stack).length < fuel₀ := by omega
      obtain ⟨fuel', columns, hf, hcols, heq'⟩ := insertLoop_values
        (q := { q with insertColumns := q.insertColumns ++ [t] }) hl h₁ h₂
        fun t' ht' => by
          rcases List.mem_append.mp ht' with ht' | ht'
          · exact hq t' ht'
          · exact List.mem_singleton.mp ht' ▸ ht
      exact ⟨fuel', columns, hf, hcols, heq.trans heq'⟩

/-- A query of a statement without subqueries, or with subqueries in its
assignments only. -/
structure Sober (q : Query) : Prop where
  searchCondition : q.searchCondition.Quiet
  inobject : q.inobject.Quiet
  insertColumns : ∀ t ∈ q.insertColumns, t.Quiet

theorem quiet_noInobject : ({} : Inobject).Quiet :=
  ⟨rfl, fun t ht => by cases ht⟩

theorem queries_insert (table : Bytes) {values : ExpressionList}
    (h : values.subqueries = []) :
    ∃ q, Sober q ∧ q.assignments = [] ∧
      (Stmt.insert table values).queries = some [q] := by
  have hlen := Nat.lt_succ_self (values.push (pushIdentifier [] table)).length
  obtain ⟨fuel, columns, hf, hcols, heq⟩ := insertLoop_values
    (q := { type := .insert, locktype := .writeLock }) h hlen hlen
    fun t ht => by cases ht
  obtain ⟨fuel, rfl⟩ : ∃ f, fuel = f + 2 :=
    ⟨fuel - 2, by simp only [pushIdentifier, List.length_cons] at hf; omega⟩
  refine ⟨{ type := .insert, locktype := .writeLock, table := table
            insertColumns := columns },
    ⟨trivial, quiet_noInobject, hcols⟩, rfl, ?_⟩
  rw [Stmt.queries, Stmt.parsedStack, eatstack, eatLoop]
  show Option.map _ ((insertLoop (consumeExpression _) _ ⟨_, [_], 0⟩).bind _) =
    _
  erw [heq]
  rfl

/-! ## DELETE -/

/-- A condition over the name of a table. -/
theorem consumeWhere_name {c : Condition} {v : Bytes}
    (hc : c.subqueries = []) (hfuel : (c.push [.typeOperand v]).length < fuel)
    (hv : operandType v ≠ operandSubquery) (hio : q.inobject.Quiet) :
    ∃ io t stack, io.Quiet ∧ Tree.Quiet t ∧
      (stack = [] ∨ stack = [.typeOperand v]) ∧
      consumeWhere (consumeExpression fuel)
        ⟨.typeSearchCondition :: c.push [.typeOperand v], [q], 0⟩ =
          some ⟨stack, [{ q with
            haswhere := true, inobject := io, searchCondition := t }], 0⟩ := by
  obtain ⟨fuel', io, n, ps, hf, hio', hq, heq⟩ := consume_condition []
    (q := { q with haswhere := true }) hc hfuel hio
  obtain ⟨t, stack, ht, hstack, hend⟩ := loop_name fuel'
    ([] ++ [{ q with haswhere := true, inobject := io }])
    (([] : List Query).length) hf hq hv
  refine ⟨io, t, stack, hio', ht, hstack, ?_⟩
  have hexpr := heq.trans hend
  unfold consumeWhere consumeCondition
  rw [modify_first]
  dsimp only
  rw [consumeExpression]
  erw [hexpr]
  rfl

theorem eatLoop_delete :
    eatLoop (fuel + 1) ⟨.typeDelete :: stack, q :: rest, 0⟩ =
      (deleteLoop (consumeExpression fuel) fuel ⟨stack,
        { q with type := .delete, locktype := .writeLock } :: rest, 0⟩).bind
          (eatLoop fuel) := rfl

theorem deleteLoop_where {expression : Consume} :
    deleteLoop expression (fuel + 1) ⟨.typeWhere :: stack, qs, cur⟩ =
      (consumeWhere expression ⟨stack, qs, cur⟩).bind
        (deleteLoop expression fuel) := rfl

theorem queries_delete (table : Bytes) {where_clause : Clause}
    (h : where_clause.subqueries = []) :
    ∃ q, Sober q ∧ q.assignments = [] ∧
      (Stmt.delete table where_clause).queries = some [q] := by
  cases where_clause with
  | absent =>
      exact ⟨{ type := .delete, locktype := .writeLock, table := table },
        ⟨trivial, quiet_noInobject, fun t ht => by cases ht⟩, rfl, rfl⟩
  | present c =>
      have hlen : (c.push (pushIdentifier [] table)).length <
          (c.push (pushIdentifier [] table)).length + 3 := by omega
      obtain ⟨io, t, stack, hio, ht, hstack, heq⟩ := consumeWhere_name
        (q := { type := .delete, locktype := .writeLock }) h hlen
        (operandType_val (.identifier table)) quiet_noInobject
      rw [Stmt.queries, Stmt.parsedStack, Clause.push, eatstack,
        eatLoop_delete, List.length_cons, List.length_cons, List.length_cons,
        deleteLoop_where]
      change consumeWhere _ ⟨.typeSearchCondition ::
        c.push (pushIdentifier [] table), _, _⟩ = _ at heq
      rw [heq, Option.bind_some]
      rcases hstack with rfl | rfl
      · exact ⟨_, ⟨ht, hio, fun t ht => by cases ht⟩, rfl, rfl⟩
      · exact ⟨{ type := .delete, locktype := .writeLock, table := table
                 haswhere := true, inobject := io, searchCondition := t },
          ⟨ht, hio, fun t ht => by cases ht⟩, rfl, rfl⟩

/-! ## Assignments -/

/-- The assignments from the last to the first, with the trees they are
given. -/
def assignedTrees : ℕ → List (Bytes × Expression) → List (Bytes × Tree)
  | _, [] => []
  | i, a :: rest =>
      (a.1, a.2.tree i) :: assignedTrees (i + a.2.subqueries.length) rest

theorem insertAssignment_new {name : Bytes} {t : Tree} :
    ∀ {assignments : List (Bytes × Tree)},
    name ∉ assignments.map Prod.fst →
    insertAssignment name t assignments = assignments ++ [(name, t)]
  | [], _ => rfl
  | (m, u) :: rest, h => by
      rw [List.map_cons, List.mem_cons, not_or] at h
      rw [insertAssignment, if_neg (Ne.symm h.1), insertAssignment_new h.2]
      rfl

variable (stack rest) in
/-- An assignment whose expression is taken off. -/
theorem consumeAssignment_push {name : Bytes} {e : Expression}
    (hc : e.Clean) (he : e.isSubquery = false)
    (hfuel : (e.push (pushIdentifier stack name)).length < fuel) :
    ∃ new, List.Forall₂ Compiled e.subqueries new ∧
      consumeAssignment (consumeExpression fuel)
        ⟨.typeExpression :: e.push (pushIdentifier stack name), q :: rest,
          0⟩ = some ⟨stack, { q with
            assignments := insertAssignment name (e.tree (rest.length + 1))
              q.assignments } :: (rest ++ new), 0⟩ := by
  obtain ⟨new, hnew, heq⟩ := consume_expression (q :: rest) 0
    hc he hfuel
  refine ⟨new, hnew, ?_⟩
  unfold consumeAssignment
  dsimp only
  rw [consumeExpression, heq, Option.bind_some]
  rfl

theorem updateLoop_assignment {expression : Consume} :
    updateLoop expression (fuel + 1) ⟨.typeAssignment :: stack, qs, cur⟩ =
      (consumeAssignment expression ⟨stack, qs, cur⟩).bind
        (updateLoop expression fuel) := rfl

theorem updateLoop_where {expression : Consume} :
    updateLoop expression (fuel + 1) ⟨.typeWhere :: stack, qs, cur⟩ =
      (consumeWhere expression ⟨stack, qs, cur⟩).bind
        (updateLoop expression fuel) := rfl

/-- The stack of assignments, the last on top. -/
theorem push_assignments (assignments : List (Bytes × Expression))
    (a : Bytes × Expression) :
    (assignments ++ [a]).foldl pushAssignment stack =
      .typeAssignment :: .typeExpression :: a.2.push
        (pushIdentifier (assignments.foldl pushAssignment stack) a.1) := by
  rw [List.foldl_append]
  rfl

theorem assignedSubqueries_append (assignments : List (Bytes × Expression))
    (a : Bytes × Expression) :
    assignedSubqueries (assignments ++ [a]) =
      a.2.subqueries ++ assignedSubqueries assignments := by
  rw [assignedSubqueries, List.reverse_append]
  rfl

/-- Each subquery of the assignments is read and leaves nothing, and none is
all of its expression. -/
def Assignable (assignments : List (Bytes × Expression)) : Prop :=
  ∀ a ∈ assignments, a.2.Clean ∧ a.2.isSubquery = false

/-- The assignments, down to the name of the table. -/
theorem updateLoop_assignments {table : Bytes}
    (assignments : List (Bytes × Expression)) :
    ∀ (fuel : ℕ) (q : Query) (rest : List Query), Assignable assignments →
    ((q.assignments.map Prod.fst) ++
      (assignments.map Prod.fst).reverse).Nodup →
    (assignments.foldl pushAssignment (pushIdentifier [] table)).length <
      fuel →
    (assignments.foldl pushAssignment (pushIdentifier [] table)).length <
      fuel₀ →
    ∃ new, List.Forall₂ Compiled (assignedSubqueries assignments) new ∧
      updateLoop (consumeExpression fuel₀) fuel
        ⟨assignments.foldl pushAssignment (pushIdentifier [] table),
          q :: rest, 0⟩ =
        some ⟨[], { q with
          table := table
          assignments := q.assignments ++
            assignedTrees (rest.length + 1) assignments.reverse } ::
              (rest ++ new), 0⟩ := by
  induction assignments using List.reverseRecOn with
  | nil =>
      intro fuel q rest _ _ hfuel _
      obtain ⟨fuel, rfl⟩ := Nat.exists_eq_succ_of_ne_zero
        (Nat.ne_zero_of_lt hfuel)
      refine ⟨[], .nil, ?_⟩
      simp only [List.reverse_nil, assignedTrees, List.append_nil]
      rfl
  | append_singleton assignments a ih =>
      intro fuel q rest ha hnd hfuel hfuel₀
      rw [push_assignments] at hfuel hfuel₀ ⊢
      obtain ⟨fuel, rfl⟩ := Nat.exists_eq_succ_of_ne_zero
        (Nat.ne_zero_of_lt hfuel)
      obtain ⟨hc, he⟩ := ha a (by simp)
      have hle := a.2.le_push (pushIdentifier
        (assignments.foldl pushAssignment (pushIdentifier [] table)) a.1)
      simp only [List.length_cons, pushIdentifier] at hle hfuel hfuel₀
      have hlen : (a.2.push (pushIdentifier (assignments.foldl pushAssignment
          (pushIdentifier [] table)) a.1)).length < fuel₀ := by
        simp only [pushIdentifier]
        omega
      obtain ⟨new₁, hnew₁, heq₁⟩ := consumeAssignment_push
        (assignments.foldl pushAssignment (pushIdentifier [] table)) rest
        (q := q) hc he hlen
      rw [List.map_append, List.reverse_append, List.map_cons, List.map_nil,
        List.reverse_singleton, List.singleton_append] at hnd
      have hfresh : a.1 ∉ q.assignments.map Prod.fst := by
        intro hmem
        exact (List.nodup_append.mp hnd).2.2 _ hmem _ List.mem_cons_self rfl
      obtain ⟨new₂, hnew₂, heq₂⟩ := ih fuel { q with
          assignments := q.assignments ++ [(a.1, a.2.tree (rest.length + 1))] }
        (rest ++ new₁) (fun b hb => ha b (List.mem_append_left _ hb))
        (by simpa using hnd) (by simp only [pushIdentifier]; omega)
        (by simp only [pushIdentifier]; omega)
      refine ⟨new₁ ++ new₂, ?_, ?_⟩
      · rw [assignedSubqueries_append]
        exact List.rel_append hnew₁ hnew₂
      · rw [updateLoop_assignment, heq₁, Option.bind_some,
          insertAssignment_new hfresh, heq₂, List.reverse_append]
        simp only [List.length_append, hnew₁.length_eq.symm,
          List.append_assoc, List.reverse_singleton, List.singleton_append,
          assignedTrees, Nat.add_right_comm, Nat.add_assoc]

/-! ## UPDATE -/

theorem eatLoop_update :
    eatLoop (fuel + 1) ⟨.typeUpdate :: stack, q :: rest, 0⟩ =
      (updateLoop (consumeExpression fuel) fuel ⟨stack,
        { q with type := .update, locktype := .writeLock } :: rest, 0⟩).bind
          (eatLoop fuel) := rfl

/-- The query that an UPDATE is before its assignments. -/
structure Begun (q : Query) : Prop where
  sober : Sober q
  assignments : q.assignments = []

/-- The search condition of an UPDATE, over an assignment. -/
theorem updateLoop_clause {clause : Clause} {item : StackMember}
    (hc : clause.subqueries = []) (hitem : item.ends = true)
    (hfuel : (clause.push .typeWhere (item :: stack)).length < fuel)
    (hfuel₀ : (clause.push .typeWhere (item :: stack)).length < fuel₀)
    (hq : Begun q) :
    ∃ fuel' q', (item :: stack).length < fuel' ∧ Begun q' ∧
      updateLoop (consumeExpression fuel₀) fuel
        ⟨clause.push .typeWhere (item :: stack), [q], 0⟩ =
      updateLoop (consumeExpression fuel₀) fuel' ⟨item :: stack, [q'], 0⟩ := by
  cases clause with
  | absent => exact ⟨fuel, q, hfuel, hq, rfl⟩
  | present c =>
      have hle := c.le_push (item :: stack)
      rw [Clause.push] at hfuel hfuel₀ ⊢
      obtain ⟨fuel, rfl⟩ := Nat.exists_eq_succ_of_ne_zero
        (Nat.ne_zero_of_lt hfuel)
      simp only [List.length_cons] at hle hfuel hfuel₀ ⊢
      obtain ⟨io, t, hio, ht, heq⟩ := consumeCondition_ends fuel₀
        stack [] (fun q => { q with haswhere := true }) (q := q) hc (by omega)
        hitem hq.sober.inobject
      refine ⟨fuel, { q with
        haswhere := true, inobject := io, searchCondition := t }, by omega,
        ⟨⟨ht, hio, hq.sober.insertColumns⟩, hq.assignments⟩, ?_⟩
      rw [updateLoop_where]
      change consumeWhere (consumeExpression fuel₀) ⟨_, [q], 0⟩ = _ at heq
      rw [heq]
      rfl

theorem begun_new :
    Begun { type := .update, locktype := .writeLock } :=
  ⟨⟨trivial, quiet_noInobject, fun t ht => by cases ht⟩, rfl⟩

/-- Down to the assignments, if there are any. -/
theorem eatstack_update (table : Bytes) {clause : Clause}
    {assignments : List (Bytes × Expression)} (hne : assignments ≠ [])
    (hc : clause.subqueries = []) :
    ∃ fuel fuel₀ q, (assignments.foldl pushAssignment
        (pushIdentifier [] table)).length < fuel ∧
      (assignments.foldl pushAssignment (pushIdentifier [] table)).length <
        fuel₀ ∧ Begun q ∧
      (Stmt.update table assignments hne clause).queries =
        ((updateLoop (consumeExpression fuel₀) fuel
          ⟨assignments.foldl pushAssignment (pushIdentifier [] table), [q],
            0⟩).bind (eatLoop fuel₀)).map Larxer.queries := by
  obtain ⟨as, a, rfl⟩ : ∃ as a, assignments = as ++ [a] :=
    ⟨_, _, (List.dropLast_append_getLast hne).symm⟩
  rw [push_assignments]
  have hle := clause.le_push .typeWhere (.typeAssignment :: .typeExpression ::
    a.2.push (pushIdentifier (as.foldl pushAssignment
      (pushIdentifier [] table)) a.1))
  have hlen := Nat.lt_succ_self (clause.push .typeWhere (.typeAssignment ::
    .typeExpression :: a.2.push (pushIdentifier (as.foldl pushAssignment
      (pushIdentifier [] table)) a.1))).length
  obtain ⟨fuel, q, hf, hq, heq⟩ := updateLoop_clause hc rfl hlen hlen begun_new
  refine ⟨fuel, _, q, hf, Nat.lt_succ_of_le hle, hq, ?_⟩
  rw [← heq, Stmt.queries, Stmt.parsedStack, push_assignments, eatstack,
    eatLoop_update, List.length_cons]

/-- The query of the statement, and one for each subquery. -/
theorem queries_update (table : Bytes) {clause : Clause}
    {assignments : List (Bytes × Expression)} (hne : assignments ≠ [])
    (hc : clause.subqueries = []) (ha : Assignable assignments)
    (hnd : (assignments.map Prod.fst).Nodup) :
    ∃ q new, List.Forall₂ Compiled (assignedSubqueries assignments) new ∧
      Sober q ∧ q.assignments = assignedTrees 1 assignments.reverse ∧
      (Stmt.update table assignments hne clause).queries = some (q :: new) := by
  obtain ⟨fuel, fuel₀, q, hf, hf₀, hq, heq⟩ := eatstack_update
    table hne hc
  obtain ⟨new, hnew, hloop⟩ := updateLoop_assignments assignments
    fuel q [] ha (by simpa [hq.assignments] using hnd) hf hf₀
  obtain ⟨fuel₀, rfl⟩ := Nat.exists_eq_succ_of_ne_zero
    (Nat.ne_zero_of_lt hf₀)
  refine ⟨{ q with
      table := table
      assignments := q.assignments ++ assignedTrees 1 assignments.reverse },
    new, hnew, ⟨hq.sober.1, hq.sober.2, hq.sober.3⟩, ?_, ?_⟩
  · simp only [hq.assignments, List.nil_append]
  · rw [heq, hloop]
    rfl

/-! ## Quantifiers -/

/-- An expression has been taken off, and an item without a value is on the
stack. -/
def Spoilt (taken : Option (Tree × Larxer)) : Prop :=
  ∃ t item stack qs cur, taken = some (t, ⟨item :: stack, qs, cur⟩) ∧
    item.val = []

/-- One of the subqueries leaves the item of a quantifier. -/
def Expression.Quantified (e : Expression) : Prop :=
  ∃ s ∈ e.subqueries, s.quantifier ≠ none

theorem clean_of_not {e : Expression} (hr : ∀ s ∈ e.subqueries, Reads s)
    (hq : ¬ e.Quantified) : e.Clean := by
  intro s hs
  refine ⟨hr s hs, ?_⟩
  by_contra h
  exact hq ⟨s, hs, h⟩

variable (stack) in
theorem push_quantifier {quantifier : Option Quantifier}
    (h : quantifier ≠ none) : ∃ item : StackMember,
    Quantifier.push stack quantifier = item :: stack ∧ item.ends = true ∧
      item.val = [] := by
  rcases quantifier with _ | _ | _
  · exact absurd rfl h
  · exact ⟨_, rfl, rfl, rfl⟩
  · exact ⟨_, rfl, rfl, rfl⟩

/-- The item ends the expressions around the subquery. -/
def Expression.Spoils (e : Expression) : Prop :=
  ∀ fuel stack qs cur n ps, (e.push stack).length < fuel → n.full = false →
    Spoilt (expressionLoop fuel ⟨e.push stack, qs, cur⟩ n ps)

variable (ps) in
theorem spoilt_binary {left right : Expression} {op : Binary}
    (hr : ∀ s ∈ right.subqueries ++ left.subqueries, Reads s)
    (hq : (Expression.binary op left right).Quantified)
    (hright : right.Quantified → right.Spoils)
    (hleft : left.Quantified → left.Spoils)
    (hfuel : (right.push (left.push stack)).length < fuel) :
    Spoilt (expressionLoop fuel ⟨right.push (left.push stack), qs, cur⟩
      (Open.new op.operatortype) ps) := by
  by_cases hqr : right.Quantified
  · exact hright hqr fuel _ qs cur _ ps hfuel new_room
  · have hql : left.Quantified := by
      obtain ⟨s, hs, hne⟩ := hq
      rcases List.mem_append.mp hs with hs | hs
      · exact absurd ⟨s, hs, hne⟩ hqr
      · exact ⟨s, hs, hne⟩
    have hexact := exact_of_clean (clean_of_not
      (fun s hs => hr s (List.mem_append_left _ hs)) hqr)
    obtain ⟨fuel', new, hf, _, heq⟩ := hexact fuel (left.push stack) qs cur
      (Open.new op.operatortype) ps hfuel new_room
    rw [heq, put_of_new]
    exact hleft hql fuel' stack (qs ++ new) cur _ ps hf
      (by simp [Open.full, Binary.isUnary])

theorem spoils_of_quantified : ∀ {e : Expression},
    (∀ s ∈ e.subqueries, Reads s) → e.Quantified → e.Spoils
  | .operand _, _, hq, _, _, _, _, _, _, _, _ => by
      obtain ⟨s, hs, _⟩ := hq
      cases hs
  | .subquery s, hr, hq, fuel, stack, qs, cur, n, ps, hfuel, hn => by
      obtain ⟨fuel, rfl⟩ := Nat.exists_eq_succ_of_ne_zero
        (Nat.ne_zero_of_lt hfuel)
      have hquant : s.quantifier ≠ none := by
        obtain ⟨s', hs', hne⟩ := hq
        exact List.mem_singleton.mp hs' ▸ hne
      obtain ⟨q, _, heq⟩ := loop_subquery qs cur ps
        hn (hr s (List.mem_singleton_self s)) hfuel
      obtain ⟨item, hpush, hends, hval⟩ := push_quantifier stack
        hquant
      have hpos : 0 < fuel := by
        rw [Expression.push, List.length_cons] at hfuel
        omega
      obtain ⟨t, _, hend⟩ := loop_ends stack (qs ++ [q]) cur
        (n.put (.operand (marker qs.length))) ps
        hpos hends
      exact ⟨t, item, stack, qs ++ [q], cur, by rw [heq, hpush, hend], hval⟩
  | .binary op left right, hr, hq, fuel, stack, qs, cur, n, ps, hfuel, hn => by
      rw [Expression.push] at hfuel ⊢
      obtain ⟨fuel, rfl⟩ := Nat.exists_eq_succ_of_ne_zero
        (Nat.ne_zero_of_lt hfuel)
      rw [loop_operator hn]
      exact spoilt_binary _ hr hq
        (spoils_of_quantified fun s hs => hr s (List.mem_append_left _ hs))
        (spoils_of_quantified fun s hs => hr s (List.mem_append_right _ hs))
        (by simpa using hfuel)
  | .negation right, hr, hq, fuel, stack, qs, cur, n, ps, hfuel, hn => by
      rw [Expression.push] at hfuel ⊢
      obtain ⟨fuel, rfl⟩ := Nat.exists_eq_succ_of_ne_zero
        (Nat.ne_zero_of_lt hfuel)
      rw [loop_operator hn]
      exact spoils_of_quantified (e := right) hr hq fuel stack qs cur _ _
        (by simpa using hfuel) new_room

variable (qs cur) in
theorem consume_spoilt {e : Expression} (hr : ∀ s ∈ e.subqueries, Reads s)
    (hq : e.Quantified) (he : e.isSubquery = false)
    (hfuel : (e.push stack).length < fuel) :
    Spoilt (expressionFrom (expressionLoop fuel) ⟨e.push stack, qs, cur⟩) := by
  cases e with
  | operand o =>
      obtain ⟨s, hs, _⟩ := hq
      cases hs
  | subquery s => cases he
  | binary op left right =>
      exact spoilt_binary [] hr hq
        (spoils_of_quantified fun s hs => hr s (List.mem_append_left _ hs))
        (spoils_of_quantified fun s hs => hr s (List.mem_append_right _ hs))
        (Nat.lt_of_succ_lt hfuel)
  | negation right =>
      exact spoils_of_quantified (e := right) hr hq fuel stack qs cur _ []
        (Nat.lt_of_succ_lt hfuel) new_room

theorem consumeAssignment_spoilt {name : Bytes} {e : Expression}
    (hr : ∀ s ∈ e.subqueries, Reads s) (hq : e.Quantified)
    (he : e.isSubquery = false)
    (hfuel : (e.push (pushIdentifier stack name)).length < fuel) :
    consumeAssignment (consumeExpression fuel)
      ⟨.typeExpression :: e.push (pushIdentifier stack name), qs, cur⟩ =
        none := by
  obtain ⟨t, item, stack', qs', cur', heq, hval⟩ := consume_spoilt qs cur hr
    hq he hfuel
  unfold consumeAssignment
  dsimp only
  rw [consumeExpression, heq, Option.bind_some]
  dsimp only
  rw [if_pos hval]

/-- One quantifier is enough, wherever it is. -/
theorem updateLoop_quantifier {table : Bytes}
    (assignments : List (Bytes × Expression)) :
    ∀ {fuel : ℕ} {q : Query} {rest : List Query},
    (∀ a ∈ assignments, (∀ s ∈ a.2.subqueries, Reads s) ∧
      a.2.isSubquery = false) →
    (∃ s ∈ assignedSubqueries assignments, s.quantifier ≠ none) →
    (assignments.foldl pushAssignment (pushIdentifier [] table)).length <
      fuel →
    (assignments.foldl pushAssignment (pushIdentifier [] table)).length <
      fuel₀ →
    updateLoop (consumeExpression fuel₀) fuel
      ⟨assignments.foldl pushAssignment (pushIdentifier [] table), q :: rest,
        0⟩ = none := by
  induction assignments using List.reverseRecOn with
  | nil =>
      intro fuel q rest _ hq
      obtain ⟨s, hs, _⟩ := hq
      cases hs
  | append_singleton assignments a ih =>
      intro fuel q rest ha hq hfuel hfuel₀
      rw [push_assignments] at hfuel hfuel₀ ⊢
      obtain ⟨fuel, rfl⟩ := Nat.exists_eq_succ_of_ne_zero
        (Nat.ne_zero_of_lt hfuel)
      obtain ⟨hr, he⟩ := ha a (by simp)
      have hle := a.2.le_push (pushIdentifier
        (assignments.foldl pushAssignment (pushIdentifier [] table)) a.1)
      simp only [List.length_cons, pushIdentifier] at hle hfuel hfuel₀
      have hlen : (a.2.push (pushIdentifier (assignments.foldl pushAssignment
          (pushIdentifier [] table)) a.1)).length < fuel₀ := by
        simp only [pushIdentifier]
        omega
      rw [updateLoop_assignment]
      by_cases hqa : a.2.Quantified
      · rw [consumeAssignment_spoilt hr hqa he hlen]
        rfl
      · obtain ⟨new, _, heq⟩ := consumeAssignment_push _ rest (q := q)
          (clean_of_not hr hqa) he hlen
        rw [heq, Option.bind_some]
        refine ih (fun b hb => ha b (List.mem_append_left _ hb)) ?_
          (by simp only [pushIdentifier]; omega)
          (by simp only [pushIdentifier]; omega)
        obtain ⟨s, hs, hne⟩ := hq
        rw [assignedSubqueries_append] at hs
        rcases List.mem_append.mp hs with hs | hs
        · exact absurd ⟨s, hs, hne⟩ hqa
        · exact ⟨s, hs, hne⟩

theorem queries_quantifier {table : Bytes} {clause : Clause}
    {assignments : List (Bytes × Expression)} {hne : assignments ≠ []}
    (hc : clause.subqueries = [])
    (ha : ∀ a ∈ assignments, (∀ s ∈ a.2.subqueries, Reads s) ∧
      a.2.isSubquery = false)
    (hq : ∃ s ∈ assignedSubqueries assignments, s.quantifier ≠ none) :
    (Stmt.update table assignments hne clause).queries = none := by
  obtain ⟨fuel, fuel₀, q, hf, hf₀, _, heq⟩ := eatstack_update
    table hne hc
  rw [heq, updateLoop_quantifier assignments ha hq hf hf₀]
  rfl

end Infinisql.Larx
