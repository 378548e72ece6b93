import Infinisql.Proofs.StatementTexts

/-!
# Only what is derived is read

Whatever the tokens are, a statement that is read is one that the rules derive.
So it has a way to be written, from which it is read again: writing what was
read leaves out parentheses that change nothing and settles what the rules let
be left out, and the statement stays the same.
-/

namespace Infinisql.Larx

open Infinisql.Ref (Bytes FieldInput LongDouble)
open Infinisql.Lib
open Infinisql.Lib.Precedence

variable {ld : LongDouble} {sub : Takes Select} {rest ts : List Token}
  {k : Keyword}

/-- Everything that is read has the property. -/
def Yields {α : Type} (p : Takes α) (P : α → Prop) : Prop :=
  ∀ a ts rest, p ts = some (a, rest) → P a

theorem yields_commaList {α : Type} {p : Takes α} {P : α → Prop}
    (h : Yields p P) (fuel : ℕ) :
    Yields (commaList p fuel) fun as => as ≠ [] ∧ ∀ a ∈ as, P a := by
  induction fuel with
  | zero =>
      intro as ts rest hread
      cases hread
  | succ fuel ih =>
      intro as ts rest hread
      rw [commaList] at hread
      split at hread
      · cases hread
      · next a rest' ha =>
          obtain ⟨found, hfound, heq⟩ := Option.map_eq_some_iff.mp hread
          cases heq
          exact ⟨List.cons_ne_nil _ _, List.forall_mem_cons.mpr
            ⟨h a ts _ ha, (ih found.1 rest' found.2 hfound).2⟩⟩
      · next a rest' _ ha =>
          cases hread
          exact ⟨List.cons_ne_nil _ _, List.forall_mem_cons.mpr
            ⟨h a ts _ ha, List.forall_mem_nil _⟩⟩

/-! ## Operands -/

theorem aggregatetype_derived {a : UInt8} (h : aggregatetype k = some a) :
    97 ≤ a ∧ a ≤ 101 := by
  unfold aggregatetype at h
  split at h
  all_goals
    cases h
  all_goals decide

theorem yields_aggregate : Yields aggregate fun o =>
    ∃ a s, o = .aggregate a s ∧ o.Derived := by
  intro o ts rest h
  unfold aggregate at h
  split at h
  · obtain ⟨a, ha, heq⟩ := Option.map_eq_some_iff.mp h
    cases heq
    exact ⟨a, _, rfl, aggregatetype_derived ha⟩
  · cases h

theorem yields_operand (ld : LongDouble) :
    Yields (operand ld) Operand.Derived := by
  intro o ts rest h
  unfold operand at h
  split at h
  case h_12 =>
    obtain ⟨_, _, -, ho⟩ := yields_aggregate o _ rest h
    exact ho
  case h_13 =>
    obtain ⟨found, -, heq⟩ := Option.map_eq_some_iff.mp h
    cases heq
    trivial
  all_goals
    cases h
    trivial

theorem yields_column : Yields column fun o =>
    (∃ s, o = .identifier s) ∨ ∃ a s, o = .aggregate a s ∧ o.Derived := by
  intro o ts rest h
  rw [column] at h
  split at h
  · next found hread =>
      cases h
      exact .inr (yields_aggregate _ _ _ hread)
  · obtain ⟨found, -, heq⟩ := Option.map_eq_some_iff.mp h
    cases heq
    exact .inl ⟨found.1, rfl⟩

theorem yields_columns : Yields Larx.columns Columns.Derived := by
  intro columns ts rest h
  unfold Larx.columns at h
  split at h
  · cases h
    trivial
  · obtain ⟨found, hfound, heq⟩ := Option.map_eq_some_iff.mp h
    cases heq
    exact yields_commaList yields_column _ _ _ _ hfound

theorem yields_subquery (hsub : Yields sub Select.Derived) :
    Yields (subquery sub) Select.Derived := by
  intro s ts rest h
  unfold subquery at h
  split at h
  · split at h
    · next hs =>
        cases h
        exact hsub _ _ _ hs
    · cases h
  · cases h

/-! ## Expressions -/

/-- An atom that the rules derive. -/
def DerivedAtom : Operand ⊕ Select → Prop
  | .inl o => o.Derived
  | .inr s => s.Derived

theorem derived_toExpression : ∀ {e : ExpressionTerm}, e.Each DerivedAtom →
    (toExpression e).Derived
  | .atom (.inl o), h => by
      rw [toExpression, Expression.Derived]
      exact h
  | .atom (.inr s), h => by
      rw [toExpression, Expression.Derived]
      exact h
  | .bracket .plain e, h => by
      rw [toExpression]
      · exact derived_toExpression (e := e) h
      · simp
  | .bracket .negated e, h => by
      rw [toExpression, Expression.Derived]
      exact derived_toExpression (e := e) h
  | .bracket .plus e, h => by
      rw [toExpression]
      · exact derived_toExpression (e := e) h
      · simp
  | .binary left b right, h => by
      rw [toExpression, Expression.Derived]
      exact ⟨derived_toExpression h.1, derived_toExpression h.2⟩
  | .unary u _, _ => u.elim
  | .trailing _ q, _ => q.elim

theorem yields_expression (hsub : Yields sub Select.Derived) :
    Yields (expression ld sub) Expression.Derived := by
  intro e ts rest h
  obtain ⟨found, hfound, heq⟩ := Option.map_eq_some_iff.mp h
  cases heq
  refine derived_toExpression (parse_each ?_ hfound)
  intro a ts' rest' hfirst
  simp only [expressionReader] at hfirst
  split at hfirst
  · obtain ⟨found', hfound', heq⟩ := Option.map_eq_some_iff.mp hfirst
    cases heq
    exact yields_subquery hsub _ _ _ hfound'
  · cases hfirst
  · cases hfirst
  · cases hfirst
  · obtain ⟨found', hfound', heq⟩ := Option.map_eq_some_iff.mp hfirst
    cases heq
    exact yields_operand ld _ _ _ hfound'

theorem derived_foldl : ∀ {es : List Expression} {list : ExpressionList},
    list.Derived → (∀ e ∈ es, e.Derived) →
      (es.foldl ExpressionList.snoc list).Derived
  | [], _, hlist, _ => hlist
  | e :: es, list, hlist, h => by
      obtain ⟨he, hes⟩ := List.forall_mem_cons.mp h
      rw [List.foldl_cons]
      refine derived_foldl ?_ hes
      rw [ExpressionList.Derived]
      exact ⟨hlist, he⟩

theorem yields_expressionlist (hsub : Yields sub Select.Derived) :
    Yields (expressionlist ld sub) ExpressionList.Derived := by
  intro list ts rest h
  rw [expressionlist] at h
  split at h
  · next e es rest' hread =>
      cases h
      obtain ⟨-, hall⟩ :=
        yields_commaList (yields_expression hsub) _ _ _ _ hread
      obtain ⟨he, hes⟩ := List.forall_mem_cons.mp hall
      refine derived_foldl ?_ hes
      rw [ExpressionList.Derived]
      exact he
  · cases h

/-! ## Conditions -/

theorem yields_betweenexpressions (hsub : Yields sub Select.Derived)
    {negated : Bool} {e : Expression} (he : e.Derived) :
    Yields (betweenexpressions ld sub negated e) Condition.Derived := by
  intro c ts rest h
  rw [betweenexpressions] at h
  split at h
  · next lower rest' hlower =>
      obtain ⟨found, hupper, heq⟩ := Option.map_eq_some_iff.mp h
      cases heq
      rw [Condition.Derived]
      exact ⟨he, yields_expression hsub _ _ _ hlower,
        yields_expression hsub _ _ _ hupper⟩
  · cases h

theorem yields_inObject (hsub : Yields sub Select.Derived) {negated : Bool}
    {e : Expression} (he : e.Derived) :
    Yields (inObject ld sub negated e) Condition.Derived := by
  intro c ts rest h
  unfold inObject at h
  split at h
  · obtain ⟨found, hfound, heq⟩ := Option.map_eq_some_iff.mp h
    cases heq
    rw [Condition.Derived]
    exact ⟨he, yields_subquery hsub _ _ _ hfound⟩
  · split at h
    · next hlist =>
        cases h
        rw [Condition.Derived]
        exact ⟨he, yields_expressionlist hsub _ _ _ hlist⟩
    · cases h
  · cases h

theorem yields_predicateTail (hsub : Yields sub Select.Derived)
    {e : Expression} (he : e.Derived) :
    Yields (predicateTail ld sub e) Condition.Derived := by
  intro c ts rest h
  unfold predicateTail at h
  split at h
  · exact yields_betweenexpressions hsub he _ _ _ h
  · exact yields_betweenexpressions hsub he _ _ _ h
  · cases h
    rw [Condition.Derived]
    exact he
  · cases h
    rw [Condition.Derived]
    exact he
  · exact yields_inObject hsub he _ _ _ h
  · exact yields_inObject hsub he _ _ _ h
  · cases h
    rw [Condition.Derived]
    exact he
  · cases h
    rw [Condition.Derived]
    exact he
  · split at h
    · cases h
    · obtain ⟨found, hfound, heq⟩ := Option.map_eq_some_iff.mp h
      cases heq
      rw [Condition.Derived]
      exact ⟨he, yields_expression hsub _ _ _ hfound⟩
  · cases h

theorem yields_predicate (hsub : Yields sub Select.Derived) :
    Yields (predicate ld sub) Condition.Derived := by
  intro c ts rest h
  unfold predicate at h
  split at h
  · obtain ⟨found, hfound, heq⟩ := Option.map_eq_some_iff.mp h
    cases heq
    exact Condition.derived_exists (yields_subquery hsub _ _ _ hfound)
  · obtain ⟨found, hfound, heq⟩ := Option.map_eq_some_iff.mp h
    cases heq
    rw [Condition.Derived]
    exact yields_subquery hsub _ _ _ hfound
  · split at h
    · cases h
    · next hread =>
        exact yields_predicateTail hsub (yields_expression hsub _ _ _ hread)
          _ _ _ h

theorem derived_toCondition : ∀ {c : ConditionTerm},
    c.Each Condition.Derived → (toCondition c).Derived
  | .atom c, h => h
  | .bracket _ c, h => derived_toCondition (c := c) h
  | .unary _ c, h => by
      rw [toCondition, Condition.Derived]
      exact derived_toCondition (c := c) h
  | .binary left .and right, h => by
      rw [toCondition, Condition.Derived]
      exact ⟨derived_toCondition h.1, derived_toCondition h.2⟩
  | .binary left .or right, h => by
      rw [toCondition, Condition.Derived]
      exact ⟨derived_toCondition h.1, derived_toCondition h.2⟩
  | .trailing c _, h => by
      rw [toCondition, Condition.Derived]
      exact derived_toCondition (c := c) h

theorem yields_searchCondition (hsub : Yields sub Select.Derived) :
    Yields (searchCondition ld sub) Condition.Derived := by
  intro c ts rest h
  obtain ⟨found, hfound, heq⟩ := Option.map_eq_some_iff.mp h
  cases heq
  refine derived_toCondition (parse_each ?_ hfound)
  intro a ts' rest' hfirst
  simp only [conditionReader] at hfirst
  split at hfirst
  · cases hfirst
  · split at hfirst
    · next hread =>
        cases hfirst
        exact yields_predicate hsub _ _ _ hread
    · split at hfirst
      · cases hfirst
      · cases hfirst

theorem yields_clause (hsub : Yields sub Select.Derived) (k : Keyword) :
    Yields (clause ld sub k) Clause.Derived := by
  intro c ts rest h
  unfold clause at h
  split at h
  · split at h
    · obtain ⟨found, hfound, heq⟩ := Option.map_eq_some_iff.mp h
      cases heq
      rw [Clause.Derived]
      exact yields_searchCondition hsub _ _ _ hfound
    · cases h
      rw [Clause.Derived]
      trivial
  · cases h
    rw [Clause.Derived]
    trivial

/-! ## Statements -/

theorem yields_selectStmt (ld : LongDouble) :
    ∀ fuel : ℕ, Yields (selectStmt ld fuel) Select.Derived
  | 0 => by
      intro s ts rest h
      cases h
  | fuel + 1 => by
      intro s ts rest h
      have hsub := yields_selectStmt ld fuel
      obtain ⟨_, columns, _, _, _, -, hcolumns, -, htail⟩ := selectStmt_some h
      obtain ⟨_, _, _, _, _, _, _, _, _, _, _, hwhere, -, hhaving, -, -, -,
        rfl⟩ := selectTail_some htail
      rw [Select.Derived]
      exact ⟨yields_columns _ _ _ hcolumns,
        yields_clause hsub _ _ _ _ hwhere, yields_clause hsub _ _ _ _ hhaving⟩

theorem yields_setassignment (hsub : Yields sub Select.Derived) :
    Yields (setassignment ld sub) fun a => a.2.Derived := by
  intro a ts rest h
  rw [setassignment] at h
  split at h
  · obtain ⟨found, hfound, heq⟩ := Option.map_eq_some_iff.mp h
    cases heq
    exact yields_expression hsub _ _ _ hfound
  · cases h

theorem yields_stmt (ld : LongDouble) (fuel : ℕ) :
    Yields (stmt ld fuel) Stmt.Derived := by
  intro st ts rest h
  have hsub := yields_selectStmt ld fuel
  unfold stmt at h
  split at h
  · simp only [Option.bind_eq_bind, Option.bind_eq_some_iff] at h
    obtain ⟨⟨table, ts₁⟩, -, h⟩ := h
    split at h
    · obtain ⟨⟨values, ts₃⟩, hvalues, h⟩ := Option.bind_eq_some_iff.mp h
      split at h
      · next heq =>
          cases heq
          cases h
          exact yields_expressionlist hsub _ _ _ hvalues
      · cases h
    · cases h
  · simp only [Option.bind_eq_bind, Option.bind_eq_some_iff] at h
    obtain ⟨⟨table, ts₁⟩, -, h⟩ := h
    split at h
    · simp only [Option.bind_eq_some_iff] at h
      obtain ⟨⟨assignments, ts₂⟩, hassign, ⟨where_clause, ts₃⟩, hwhere, h⟩ := h
      split at h
      · cases h
        exact ⟨(yields_commaList (yields_setassignment hsub) _ _ _ _ hassign).2,
          yields_clause hsub _ _ _ _ hwhere⟩
      · cases h
    · cases h
  · simp only [Option.bind_eq_bind, Option.bind_eq_some_iff] at h
    obtain ⟨⟨table, ts₁⟩, -, ⟨where_clause, ts₂⟩, hwhere, heq⟩ := h
    cases heq
    exact yields_clause hsub _ _ _ _ hwhere
  · obtain ⟨found, hfound, heq⟩ := Option.map_eq_some_iff.mp h
    cases heq
    exact hsub _ _ _ hfound

theorem derived_of_yyparse {st : Stmt} (h : yyparse ld ts = some st) :
    st.Derived := by
  rw [yyparse] at h
  split at h
  · next hread =>
      cases h
      exact yields_stmt ld _ _ _ _ hread
  · next hread =>
      cases h
      exact yields_stmt ld _ _ _ _ hread
  · cases h

end Infinisql.Larx
