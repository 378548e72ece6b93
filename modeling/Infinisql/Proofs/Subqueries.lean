import Infinisql.Proofs.CompiledQueries
import Infinisql.Proofs.SaneQueries
import Infinisql.Proofs.SubqueryResults

/-!
# What subqueries feed

A search looks for the results of a subquery at the wrong node. `evaluate`
hands the operator over, whose operand is empty, so that the comparison or the
sum works on the number of the query, and EXISTS and UNIQUE read eight bytes
that are not there. The list of an IN is never a subquery's, since the item by
which the walk would know it is not pushed by any rule. And an assignment that
is nothing but a subquery is compiled to an operand without a number. So the
statements that feed their users, `feedsItsUsers_iff`, are those that have
subqueries only below the operators of their assignments; and there the value
must read the same in the type of the table's first field, which is the one
that is taken.
-/

namespace Infinisql.Larx

open Infinisql.Ref (Bytes Field)
open Infinisql.Asts (Operatortype operandSubquery)

variable {schema : Schema} {found : ℕ → SelectResults} {results : Results}
  {queries new : List Query} {q : Query} {t : Tree} {i : ℕ}
  {user : Option Operatortype}

/-! ## A subquery that stands in a tree is used -/

theorem Expression.subqueries_nil : ∀ {e : Expression} {t : Tree}
    {user : Option Operatortype}, e.Stands queries t → t.uses user = [] →
    e.subqueries = []
  | .operand _, _, _, _, _ => rfl
  | .subquery s, _, _, ⟨i, ht, _⟩, h => by
      subst ht
      rw [Tree.uses, if_pos (operandType_marker i)] at h
      cases h
  | .binary op left right, _, _, ⟨l, r, ht, hl, hr⟩, h => by
      subst ht
      obtain ⟨h₁, h₂⟩ := List.append_eq_nil_iff.mp h
      rw [Expression.subqueries, subqueries_nil hr h₂, subqueries_nil hl h₁]
      rfl
  | .negation right, _, _, ⟨l, r, ht, hr⟩, h => by
      subst ht
      exact subqueries_nil (e := right) hr (List.append_eq_nil_iff.mp h).2

theorem ExpressionList.subqueries_nil {ts : List Tree}
    (hts : ∀ t ∈ ts, t.uses none = []) : ∀ {list : ExpressionList},
    list.Stands queries ts → list.subqueries = []
  | .one e, ⟨t, ht, he⟩ => Expression.subqueries_nil he (hts t ht)
  | .snoc list e, ⟨hl, t, ht, he⟩ => by
      rw [ExpressionList.subqueries, Expression.subqueries_nil he (hts t ht),
        subqueries_nil hts hl]
      rfl

/-- The list of an IN is looked for in the query. -/
theorem Condition.subqueries_nil (hio : q.inobject.issubquery = false)
    (hlist : ∀ t ∈ q.inobject.expressionlist, t.uses none = []) :
    ∀ {c : Condition} {t : Tree} {user : Option Operatortype},
    c.Stands queries q t → t.uses user = [] → c.subqueries = []
  | .comparison op left right, _, _, ⟨l, r, ht, hl, hr⟩, h => by
      subst ht
      obtain ⟨h₁, h₂⟩ := List.append_eq_nil_iff.mp h
      rw [Condition.subqueries, Expression.subqueries_nil hr h₂,
        Expression.subqueries_nil hl h₁]
      rfl
  | .between _ e lower upper, _, _, ⟨l, m, r, ht, he, hm, hr⟩, h => by
      subst ht
      obtain ⟨h₁, h₂⟩ := List.append_eq_nil_iff.mp h
      obtain ⟨h₂, h₃⟩ := List.append_eq_nil_iff.mp h₂
      rw [Condition.subqueries, Expression.subqueries_nil hr h₃,
        Expression.subqueries_nil hm h₂, Expression.subqueries_nil he h₁]
      rfl
  | .isnull _ e, _, _, ⟨l, r, ht, he⟩, h => by
      subst ht
      exact Expression.subqueries_nil (e := e) he
        (List.append_eq_nil_iff.mp h).2
  | .inList _ e list, _, _, ⟨l, r, ht, he, hl⟩, h => by
      subst ht
      rw [Condition.subqueries, ExpressionList.subqueries_nil hlist hl,
        Expression.subqueries_nil he (List.append_eq_nil_iff.mp h).2]
      rfl
  | .inSubquery _ e s, _, _, ⟨_, _, _, _, _, hsub, _⟩, _ => by
      rw [hio] at hsub
      cases hsub
  | .like _ e _, _, _, ⟨l, r, ht, he⟩, h => by
      subst ht
      exact Expression.subqueries_nil (e := e) he
        (List.append_eq_nil_iff.mp h).1
  | .exists s, _, _, ⟨l, i, ht, _⟩, h => by
      subst ht
      have h := (List.append_eq_nil_iff.mp h).2
      rw [Tree.uses, if_pos (operandType_marker i)] at h
      cases h
  | .unique s, _, _, ⟨l, i, ht, _⟩, h => by
      subst ht
      have h := (List.append_eq_nil_iff.mp h).2
      rw [Tree.uses, if_pos (operandType_marker i)] at h
      cases h
  | .truthtest c value, _, _, ⟨l, r, ht, hc⟩, h => by
      subst ht
      exact subqueries_nil hio hlist (c := c) hc
        (List.append_eq_nil_iff.mp h).2
  | .not c, _, _, ⟨l, r, ht, hc⟩, h => by
      subst ht
      exact subqueries_nil hio hlist (c := c) hc
        (List.append_eq_nil_iff.mp h).2
  | .and left right, _, _, ⟨l, r, ht, hl, hr⟩, h => by
      subst ht
      obtain ⟨h₁, h₂⟩ := List.append_eq_nil_iff.mp h
      rw [Condition.subqueries, subqueries_nil hio hlist hr h₂,
        subqueries_nil hio hlist hl h₁]
      rfl
  | .or left right, _, _, ⟨l, r, ht, hl, hr⟩, h => by
      subst ht
      obtain ⟨h₁, h₂⟩ := List.append_eq_nil_iff.mp h
      rw [Condition.subqueries, subqueries_nil hio hlist hr h₂,
        subqueries_nil hio hlist hl h₁]
      rfl

theorem Clause.subqueries_nil {clause : Clause} (hsane : q.Sane)
    (hfed : QueryFed schema queries found results q)
    (h : clause.Stands queries q) : clause.subqueries = [] := by
  cases clause with
  | absent => rfl
  | present c =>
      by_contra hne
      exact hne (Condition.subqueries_nil hsane.issubquery
        (fun t ht => searches_iff.mp (hfed.expressionlist t ht)) (h hne)
        (searches_iff.mp hfed.searchCondition))

theorem Expression.stands_subquery {s : Select} : ∀ {e : Expression} {t : Tree},
    e.Stands queries t → s ∈ e.subqueries → ∃ i, s.Stands queries i
  | .operand _, _, _, h => by cases h
  | .subquery s', _, ⟨i, _, hs⟩, h => ⟨i, List.mem_singleton.mp h ▸ hs⟩
  | .binary _ left right, _, ⟨_, _, _, hl, hr⟩, h => by
      rcases List.mem_append.mp h with h | h
      · exact stands_subquery hr h
      · exact stands_subquery hl h
  | .negation right, _, ⟨_, _, _, hr⟩, h =>
      stands_subquery (e := right) hr h

/-! ## Where the subqueries of a statement that feeds its users are -/

/-- Every query is begun, when those with higher numbers have been run. -/
theorem begun (h : i < queries.length) :
    (i, fun j => if i < j ∧ j < queries.length then some (found j) else none) ∈
      startQuery found queries.length fun _ => none :=
  mem_startQuery.mpr ⟨h, rfl⟩

/-- What `FeedsItsUsers` says of the queries. -/
structure Feeding (schema : Schema) (found : ℕ → SelectResults) (st : Stmt)
    (queries : List Query) (q : Query) : Prop where
  compiled : st.queries = some queries
  first : queries[0]? = some q
  stands : st.Stands queries q
  fed : ∀ begun ∈ startQuery found queries.length (fun _ => none), ∀ q,
    queries[begun.1]? = some q → QueryFed schema queries found begun.2 q

namespace Feeding

variable {st : Stmt}

theorem fed_at (h : Feeding schema found st queries q) {p : Query}
    (hp : queries[i]? = some p) : QueryFed schema queries found
      (fun j => if i < j ∧ j < queries.length then some (found j) else none)
      p :=
  h.fed _ (begun (List.getElem?_eq_some_iff.mp hp).1) p hp

theorem sane (h : Feeding schema found st queries q) {p : Query}
    (hp : queries[i]? = some p) : p.Sane :=
  sane_queries h.compiled p (List.mem_of_getElem? hp)

theorem clause (h : Feeding schema found st queries q) {p : Query}
    {clause : Clause} (hp : queries[i]? = some p)
    (hs : clause.Stands queries p) : clause.subqueries = [] :=
  Clause.subqueries_nil (h.sane hp) (h.fed_at hp) hs

/-- A query for a SELECT has no subqueries. -/
theorem select (h : Feeding schema found st queries q) {s : Select}
    (hs : s.Stands queries i) : s.whereClause.subqueries = [] ∧
      s.havingClause.subqueries = [] := by
  obtain ⟨_, _, _, _, _, _, _, _, _⟩ := s
  obtain ⟨p, hp, _, _, _, hw, hh⟩ := hs
  exact ⟨h.clause hp hw, h.clause hp hh⟩

theorem insert {table : Bytes} {values : ExpressionList}
    (h : Feeding schema found (.insert table values) queries q) :
    values.subqueries = [] := by
  by_contra hne
  exact hne (ExpressionList.subqueries_nil
    (fun t ht => searches_iff.mp ((h.fed_at h.first).insertColumns t ht))
    (h.stands hne))

section

variable {table : Bytes} {assignments : List (Bytes × Expression)}
  {hne : assignments ≠ []} {where_clause : Clause}

/-- An assignment that is a subquery has no number. -/
theorem isSubquery
    (h : Feeding schema found (.update table assignments hne where_clause)
      queries q) : ∀ a ∈ assignments, a.2.isSubquery = false := by
  rintro ⟨name, e⟩ ha
  obtain ⟨t, ht, hs⟩ := h.stands.1 _ ha
  cases e with
  | subquery s =>
      obtain ⟨i, rfl, _⟩ := hs
      have hshort := (h.sane h.first).assignments _ ht _ rfl
        (operandType_marker i)
      rw [length_marker] at hshort
      omega
  | _ => rfl

theorem flat
    (h : Feeding schema found (.update table assignments hne where_clause)
      queries q) : ∀ s ∈ assignedSubqueries assignments, s.Flat := by
  have hclauses : ∀ s ∈ assignedSubqueries assignments,
      s.whereClause.subqueries = [] ∧ s.havingClause.subqueries = [] := by
    intro s hs
    obtain ⟨a, ha, hs⟩ := List.mem_flatMap.mp hs
    obtain ⟨t, _, hstands⟩ := h.stands.1 a (List.mem_reverse.mp ha)
    obtain ⟨i, hi⟩ := Expression.stands_subquery hstands hs
    exact h.select hi
  intro s hs
  refine ⟨?_, hclauses s hs⟩
  by_contra hquant
  have hnone : (Stmt.update table assignments hne where_clause).queries =
      none := queries_quantifier (h.clause h.first h.stands.2)
    (fun a ha => ⟨fun s hs =>
      have hmem : s ∈ assignedSubqueries assignments :=
        List.mem_flatMap.mpr ⟨a, List.mem_reverse.mpr ha, hs⟩
      reads_of_flat (hclauses s hmem).1 (hclauses s hmem).2,
      h.isSubquery a ha⟩) ⟨s, hs, hquant⟩
  rw [h.compiled] at hnone
  cases hnone

end

end Feeding

/-! ## The subqueries of an assignment -/

theorem Clause.stands_of_nil {clause : Clause} (h : clause.subqueries = []) :
    clause.Stands queries q := by
  cases clause with
  | absent => trivial
  | present c => exact fun hne => absurd h hne

theorem Compiled.stands {s : Select} (h : Compiled s q) (hs : s.Flat)
    (hq : queries[i]? = some q) : s.Stands queries i := by
  obtain ⟨_, _, _, _, _, _, _, _, _⟩ := s
  exact ⟨q, hq, h.type, h.table, h.fromColumns, Clause.stands_of_nil hs.2.1,
    Clause.stands_of_nil hs.2.2⟩

theorem Compiled.fed {s : Select} (h : Compiled s q) :
    QueryFed schema queries found results q where
  searchCondition := searches_iff.mpr h.searchCondition
  expressionlist t ht := searches_iff.mpr (h.expressionlist t ht)
  insertColumns t ht := by
    rw [h.insertColumns] at ht
    cases ht
  assignments a ha := by
    rw [h.assignments] at ha
    cases ha
  inobject hio := by
    rw [h.issubquery] at hio
    cases hio

/-- A query with no subqueries but those that are assigned. -/
theorem Sober.fed (h : Sober q)
    (ha : ∀ a ∈ q.assignments, ∀ u ∈ a.2.uses none,
      Fed schema queries found results u
        (operandAssigned schema queries results u)) :
    QueryFed schema queries found results q where
  searchCondition := searches_iff.mpr (h.searchCondition.uses none)
  expressionlist t ht := searches_iff.mpr ((h.inobject.2 t ht).uses none)
  insertColumns t ht := searches_iff.mpr ((h.insertColumns t ht).uses none)
  assignments := ha
  inobject hio := by
    rw [h.inobject.1] at hio
    cases hio

/-- A user that takes a single value. -/
def Arithmetical (user : Option Operatortype) : Prop :=
  user ≠ some .exists ∧ user ≠ some .unique

theorem arithmetical_binary (op : Binary) :
    Arithmetical (some op.operatortype) := by
  cases op <;> exact ⟨by decide, by decide⟩

theorem arithmetical_none : Arithmetical none := ⟨by decide, by decide⟩

theorem Expression.stands_tree : ∀ {e : Expression} {i : ℕ},
    (∀ (k : ℕ) (s : Select), e.subqueries[k]? = some s →
      s.Stands queries (i + k)) →
    e.Stands queries (e.tree i)
  | .operand _, _, _ => trivial
  | .subquery s, i, h => ⟨i, rfl, h 0 s rfl⟩
  | .binary op left right, i, h => by
      refine ⟨_, _, rfl, stands_tree fun k s hs => ?_,
        stands_tree fun k s hs => h k s ?_⟩
      · rw [Nat.add_assoc]
        refine h _ s ?_
        rw [Expression.subqueries, List.getElem?_append_right (by omega),
          Nat.add_sub_cancel_left]
        exact hs
      · rw [Expression.subqueries, List.getElem?_append_left
          (List.getElem?_eq_some_iff.mp hs).1]
        exact hs
  | .negation right, i, h => ⟨_, _, rfl, stands_tree (e := right) h⟩

/-- What the tree uses are the subqueries, under their numbers. -/
theorem Expression.mem_uses_tree {u : Use} : ∀ {e : Expression} {i : ℕ}
    {user : Option Operatortype}, Arithmetical user →
    u ∈ (e.tree i).uses user → Arithmetical u.user ∧
      ∃ k s, e.subqueries[k]? = some s ∧ u.operand = marker (i + k)
  | .operand o, _, _, _, h => by
      rw [Expression.tree, Tree.uses, if_neg (operandType_val o)] at h
      cases h
  | .subquery s, i, user, huser, h => by
      rw [Expression.tree, Tree.uses, if_pos (operandType_marker i)] at h
      obtain rfl := List.mem_singleton.mp h
      exact ⟨huser, 0, s, rfl, rfl⟩
  | .binary op left right, i, _, _, h => by
      rcases List.mem_append.mp h with h | h
      · obtain ⟨hu, k, s, hs, hop⟩ := mem_uses_tree (arithmetical_binary op) h
        refine ⟨hu, right.subqueries.length + k, s, ?_, ?_⟩
        · rw [Expression.subqueries, List.getElem?_append_right (by omega),
            Nat.add_sub_cancel_left]
          exact hs
        · rw [hop, Nat.add_assoc]
      · obtain ⟨hu, k, s, hs, hop⟩ := mem_uses_tree (arithmetical_binary op) h
        refine ⟨hu, k, s, ?_, hop⟩
        rw [Expression.subqueries, List.getElem?_append_left
          (List.getElem?_eq_some_iff.mp hs).1]
        exact hs
  | .negation right, i, _, _, h => by
      rcases List.mem_append.mp h with h | h
      · cases h
      · exact mem_uses_tree (e := right) ⟨by decide, by decide⟩ h

theorem Expression.uses_tree {s : Select} : ∀ {e : Expression} {k : ℕ}
    (i : ℕ) (user : Option Operatortype), e.subqueries[k]? = some s →
    ∃ u ∈ (e.tree i).uses user, u.operand = marker (i + k)
  | .operand _, _, _, _, h => by cases h
  | .subquery s', k, i, user, h => by
      obtain ⟨hk, _⟩ := List.getElem?_eq_some_iff.mp h
      obtain rfl : k = 0 := Nat.lt_one_iff.mp hk
      rw [Expression.tree, Tree.uses, if_pos (operandType_marker i)]
      exact ⟨_, List.mem_singleton_self _, rfl⟩
  | .binary op left right, k, i, _, h => by
      rw [Expression.subqueries] at h
      by_cases hk : k < right.subqueries.length
      · rw [List.getElem?_append_left hk] at h
        obtain ⟨u, hu, hop⟩ := uses_tree i (some op.operatortype) h
        exact ⟨u, List.mem_append_right _ hu, hop⟩
      · rw [List.getElem?_append_right (Nat.le_of_not_lt hk)] at h
        obtain ⟨u, hu, hop⟩ := uses_tree (i + right.subqueries.length)
          (some op.operatortype) h
        refine ⟨u, List.mem_append_left _ hu, ?_⟩
        rw [hop, Nat.add_assoc, Nat.add_sub_cancel' (Nat.le_of_not_lt hk)]
  | .negation right, k, i, _, h => by
      obtain ⟨u, hu, hop⟩ := uses_tree (e := right) i (some .negation) h
      exact ⟨u, List.mem_append_right _ hu, hop⟩

/-! ## The assignments, one after the other -/

section

variable {s : Select} {assignments : List (Bytes × Expression)}

/-- The subqueries of `e` are those of the list from there on. -/
def Within (e : Expression) (all : List Select) (offset : ℕ) : Prop :=
  ∀ (k : ℕ) (s : Select), e.subqueries[k]? = some s →
    all[offset + k]? = some s

theorem Within.head (e : Expression) (all : List Select) :
    Within e (e.subqueries ++ all) 0 := by
  intro k s hs
  rw [Nat.zero_add, List.getElem?_append_left
    (List.getElem?_eq_some_iff.mp hs).1]
  exact hs

theorem Within.tail {e : Expression} {all : List Select} {offset : ℕ}
    (h : Within e all offset) (init : List Select) :
    Within e (init ++ all) (init.length + offset) := by
  intro k s hs
  rw [List.getElem?_append_right (by omega),
    show init.length + offset + k - init.length = offset + k by omega]
  exact h k s hs

/-- Each assignment has its tree. -/
theorem assignedTree_of_mem {a : Bytes × Expression} :
    ∀ {as : List (Bytes × Expression)} {i : ℕ}, a ∈ as →
    ∃ offset, (a.1, a.2.tree (i + offset)) ∈ assignedTrees i as ∧
      Within a.2 (as.flatMap fun a => a.2.subqueries) offset
  | b :: as, i, h => by
      rcases List.mem_cons.mp h with rfl | h
      · exact ⟨0, List.mem_cons_self, Within.head _ _⟩
      · obtain ⟨offset, hmem, hall⟩ := assignedTree_of_mem
          (i := i + b.2.subqueries.length) h
        rw [Nat.add_assoc] at hmem
        exact ⟨_, List.mem_cons_of_mem _ hmem, hall.tail _⟩

/-- And each tree is an assignment's. -/
theorem mem_of_assignedTree {b : Bytes × Tree} :
    ∀ {as : List (Bytes × Expression)} {i : ℕ}, b ∈ assignedTrees i as →
    ∃ a ∈ as, ∃ offset, b.2 = a.2.tree (i + offset) ∧
      Within a.2 (as.flatMap fun a => a.2.subqueries) offset
  | a :: as, i, h => by
      rcases List.mem_cons.mp h with rfl | h
      · exact ⟨a, List.mem_cons_self, 0, rfl, Within.head _ _⟩
      · obtain ⟨c, hc, offset, heq, hall⟩ := mem_of_assignedTree h
        rw [Nat.add_assoc] at heq
        exact ⟨c, List.mem_cons_of_mem _ hc, _, heq, hall.tail _⟩

/-- Every subquery is used under its number. -/
theorem uses_assignedTrees : ∀ {as : List (Bytes × Expression)} {i k : ℕ},
    (as.flatMap fun a => a.2.subqueries)[k]? = some s →
    ∃ b ∈ assignedTrees i as, ∃ u ∈ b.2.uses none, u.operand = marker (i + k)
  | a :: as, i, k, h => by
      rw [List.flatMap_cons] at h
      by_cases hk : k < a.2.subqueries.length
      · rw [List.getElem?_append_left hk] at h
        obtain ⟨u, hu, hop⟩ := Expression.uses_tree i none h
        exact ⟨_, List.mem_cons_self, u, hu, hop⟩
      · rw [List.getElem?_append_right (Nat.le_of_not_lt hk)] at h
        obtain ⟨b, hb, u, hu, hop⟩ := uses_assignedTrees
          (i := i + a.2.subqueries.length) h
        refine ⟨b, List.mem_cons_of_mem _ hb, u, hu, ?_⟩
        rw [hop, Nat.add_assoc, Nat.add_sub_cancel' (Nat.le_of_not_lt hk)]

theorem getElem?_of_forall₂ {α β : Type} {R : α → β → Prop} {a : α} :
    ∀ {as : List α} {bs : List β} {k : ℕ}, List.Forall₂ R as bs →
    as[k]? = some a → ∃ b, bs[k]? = some b ∧ R a b
  | _, _, 0, .cons h _, ha => ⟨_, rfl, Option.some.inj ha ▸ h⟩
  | _, _, k + 1, .cons _ h, ha => getElem?_of_forall₂ (k := k) h ha

/-! ## UPDATE -/

theorem feeds_update_iff {table : Bytes} {hne : assignments ≠ []}
    {clause : Clause} (hc : clause.subqueries = [])
    (ha : ∀ a ∈ assignments, a.2.isSubquery = false)
    (hflat : ∀ s ∈ assignedSubqueries assignments, s.Flat)
    (hv : (Stmt.update table assignments hne clause).Valid schema) :
    FeedsItsUsers schema found (.update table assignments hne clause) ↔
      ∀ i s, (assignedSubqueries assignments)[i]? = some s →
        Readable schema s (found (i + 1)) := by
  obtain ⟨hnd, htables, hcount⟩ := hv
  have hassignable : Assignable assignments := fun a hmem =>
    ⟨fun s hs =>
      have hf := hflat s (List.mem_flatMap.mpr
        ⟨a, List.mem_reverse.mpr hmem, hs⟩)
      ⟨reads_of_flat hf.2.1 hf.2.2, hf.1⟩, ha a hmem⟩
  obtain ⟨q, new, hnew, hsober, hassign, hq⟩ := queries_update table hne hc
    hassignable hnd
  have hlen : (q :: new).length ≤ 2 ^ 64 := by
    rw [List.length_cons, ← hnew.length_eq]
    omega
  -- the query of a subquery, and what it is to feed its user
  have hget : ∀ k s, (assignedSubqueries assignments)[k]? = some s →
      ∃ p, (q :: new)[k + 1]? = some p ∧ Compiled s p := by
    intro k s hs
    obtain ⟨p, hp, hcomp⟩ := getElem?_of_forall₂ hnew hs
    exact ⟨p, hp, hcomp⟩
  have hiff : ∀ k s u, (assignedSubqueries assignments)[k]? = some s →
      u.operand = marker (1 + k) → Arithmetical u.user →
      (Fed schema (q :: new) found (fun j => if 0 < j ∧ j < (q :: new).length
          then some (found j) else none) u (operandAssigned schema (q :: new)
            (fun j => if 0 < j ∧ j < (q :: new).length then some (found j)
              else none) u) ↔
        Readable schema s (found (k + 1))) := by
    intro k s u hs hop hu
    obtain ⟨p, hp, hcomp⟩ := hget k s hs
    obtain ⟨f, rest, hschema⟩ := htables s (List.mem_of_getElem? hs)
    rw [Nat.add_comm] at hop
    exact fed_assigned_iff hlen hp hcomp.table hcomp.fromColumns
      (if_pos ⟨Nat.succ_pos k, (List.getElem?_eq_some_iff.mp hp).1⟩) hschema
      hop hu.1 hu.2
  constructor
  · rintro ⟨queries, q', hqueries, hfirst, hstands, hfed⟩ k s hs
    cases hq.symm.trans hqueries
    cases hfirst
    obtain ⟨b, hb, u, hu, hop⟩ := uses_assignedTrees (i := 1) hs
    obtain ⟨a, _, offset, htree, _⟩ := mem_of_assignedTree hb
    have harith := (Expression.mem_uses_tree 
      arithmetical_none (htree ▸ hu)).1
    exact (hiff k s u hs hop harith).mp
      ((hfed _ (begun (Nat.succ_pos _)) q rfl).assignments b (hassign ▸ hb) u
        hu)
  · intro hread
    refine ⟨q :: new, q, hq, rfl, ⟨fun a hmem => ?_,
      Clause.stands_of_nil hc⟩, ?_⟩
    · obtain ⟨offset, htree, hall⟩ := assignedTree_of_mem (i := 1)
        (List.mem_reverse.mpr hmem)
      refine ⟨_, hassign ▸ htree, Expression.stands_tree fun k s hs => ?_⟩
      have hs := hall k s hs
      obtain ⟨p, hp, hcomp⟩ := hget _ s hs
      refine hcomp.stands (hflat s (List.mem_of_getElem? hs)) ?_
      rw [show 1 + offset + k = offset + k + 1 by omega]
      exact hp
    · rintro ⟨j, results⟩ hbegun p hp
      have hresults : results = fun k =>
          if j < k ∧ k < (q :: new).length then some (found k) else none :=
        (mem_startQuery.mp hbegun).2
      subst hresults
      cases j with
      | zero =>
          cases hp
          refine hsober.fed fun b hb u hu => ?_
          obtain ⟨a, _, offset, htree, hall⟩ :=
            mem_of_assignedTree (hassign ▸ hb)
          obtain ⟨harith, k, s, hs, hop⟩ := Expression.mem_uses_tree
            arithmetical_none (htree ▸ hu)
          have hs := hall k s hs
          rw [Nat.add_assoc] at hop
          exact (hiff _ s u hs hop harith).mpr (hread _ s hs)
      | succ j =>
          obtain ⟨s, _, hcomp⟩ := getElem?_of_forall₂ hnew.flip hp
          exact hcomp.fed

end

/-! ## SELECT, INSERT and DELETE -/

/-- A statement of one query. -/
theorem feeds_of_one {st : Stmt} (hq : st.queries = some [q])
    (hs : st.Stands [q] q)
    (hfed : ∀ results, QueryFed schema [q] found results q) :
    FeedsItsUsers schema found st := by
  refine ⟨[q], q, hq, rfl, hs, ?_⟩
  rintro ⟨j, results⟩ hb p hp
  obtain rfl : j = 0 := Nat.lt_one_iff.mp (mem_startQuery.mp hb).1
  cases hp
  exact hfed results

theorem Sober.fed_of_nil (h : Sober q) (ha : q.assignments = []) :
    QueryFed schema queries found results q :=
  h.fed fun a hmem => by
    rw [ha] at hmem
    cases hmem

theorem feeds_select {s : Select} (hw : s.whereClause.subqueries = [])
    (hh : s.havingClause.subqueries = []) :
    FeedsItsUsers schema found (.select s) := by
  obtain ⟨q, hcomp, hq⟩ := queries_select hw hh
  refine feeds_of_one hq ?_ fun _ => hcomp.fed
  obtain ⟨_, _, _, _, _, _, _, _, _⟩ := s
  exact ⟨q, rfl, hcomp.type, hcomp.table, hcomp.fromColumns,
    Clause.stands_of_nil hw, Clause.stands_of_nil hh⟩

theorem feeds_insert {table : Bytes} {values : ExpressionList}
    (h : values.subqueries = []) :
    FeedsItsUsers schema found (.insert table values) := by
  obtain ⟨q, hsober, ha, hq⟩ := queries_insert table h
  exact feeds_of_one hq (fun hne => absurd h hne) fun _ =>
    hsober.fed_of_nil ha

theorem feeds_delete {table : Bytes} {clause : Clause}
    (h : clause.subqueries = []) :
    FeedsItsUsers schema found (.delete table clause) := by
  obtain ⟨q, hsober, ha, hq⟩ := queries_delete table h
  exact feeds_of_one hq (Clause.stands_of_nil h) fun _ => hsober.fed_of_nil ha

/-! ## All statements -/

section

/-- `SELECT x FROM u`. -/
def selectX : Select :=
  .mk none (.list [.identifier [120]]) [117] .absent [] .absent false false []

/-- The table `u`, with its field `x`. -/
def schemaU : Schema := fun name =>
  if name = [117] then some [([120], ⟨.int, 8, .none⟩)] else none

/-- `UPDATE t SET a = 1 + (SELECT x FROM u)`. -/
def addX : Stmt :=
  .update [116] [([97], .binary .addition (.operand (.integer 1))
    (.subquery selectX))] (List.cons_ne_nil _ _) .absent

/-- `SELECT a FROM t WHERE a = (SELECT x FROM u)`. -/
def whereX : Stmt :=
  .select (.mk none (.list [.identifier [97]]) [116]
    (.present (.comparison .eq (.operand (.identifier [97]))
      (.subquery selectX))) [] .absent false false [])

/-- One row, with 42. -/
def foundX (_ : ℕ) : SelectResults := [(⟨1, 1, 1⟩, [{ value := 42 }])]

end

end Infinisql.Larx
