import Infinisql.Proofs.Parser

/-!
# Statements are read as they are written

Expressions and conditions are read if what is between their operators is.
Where this is a query, it is shorter than the text around it, and so the
induction, in `selectStmt_tokens`, is on the length of the text, which is also
what bounds how deep the reader goes.

A clause that is not there is told from one that is by a keyword. `Heads` says
which keywords can come next.
-/

namespace Infinisql.Larx

open Infinisql.Ref (Bytes FieldInput LongDouble)
open Infinisql.Lib
open Infinisql.Lib.Precedence

variable {ld : LongDouble} {sub : Takes Select} {rest ts : List Token}
  {ks : List Keyword} {k : Keyword} {n : ℕ}

/-! ## What is between the operators -/

/-- Queries of at most this length are read. -/
def Covers (sub : Takes Select) (n : ℕ) : Prop :=
  ∀ s : Select, s.Derived → s.tokens.length ≤ n → Queried sub s

theorem length_parens (needed : Bool) (ts : List Token) :
    ts.length ≤ (parens needed ts).length := by
  cases needed with
  | false => exact Nat.le_refl _
  | true =>
      simp only [parens, ↓reduceIte, List.length_cons, List.length_append]
      omega

theorem each_wrap {P : Operand ⊕ Select → Prop} {needed : Bool}
    {e : ExpressionTerm} (h : e.Each P) : (wrap needed e).Each P := by
  cases needed <;> exact h

theorem each_term (hsub : Covers sub n) : ∀ e : Expression, e.Derived →
    e.tokens.length ≤ n → e.term.Each (GoodAtom sub)
  | .operand o, he, _ => by
      rw [Expression.Derived] at he
      exact he
  | .subquery s, he, hn => by
      rw [Expression.Derived] at he
      rw [Expression.tokens] at hn
      simp only [List.length_cons, List.length_append] at hn
      exact hsub s he (by omega)
  | .binary op left right, he, hn => by
      rw [Expression.Derived] at he
      rw [Expression.tokens] at hn
      simp only [List.length_cons, List.length_append] at hn
      have hleft := length_parens (left.level < op.level) left.tokens
      have hright := length_parens (right.level ≤ op.level) right.tokens
      exact ⟨each_wrap (each_term hsub left he.1 (by omega)),
        each_wrap (each_term hsub right he.2 (by omega))⟩
  | .negation right, he, hn => by
      rw [Expression.Derived] at he
      rw [Expression.tokens] at hn
      simp only [List.length_cons, List.length_append] at hn
      exact each_term hsub right he (by omega)

theorem each_toList (hsub : Covers sub n) : ∀ list : ExpressionList,
    list.Derived → list.tokens.length ≤ n →
      ∀ e ∈ list.toList, e.term.Each (GoodAtom sub)
  | .one e, hlist, hn => by
      rw [ExpressionList.Derived] at hlist
      rw [ExpressionList.tokens] at hn
      intro e' he'
      cases List.mem_singleton.mp he'
      exact each_term hsub e hlist hn
  | .snoc list e, hlist, hn => by
      rw [ExpressionList.Derived] at hlist
      rw [ExpressionList.tokens] at hn
      simp only [List.length_cons, List.length_append] at hn
      intro e' he'
      rcases List.mem_append.mp he' with he' | he'
      · exact each_toList hsub list hlist.1 (by omega) e' he'
      · cases List.mem_singleton.mp he'
        exact each_term hsub e hlist.2 (by omega)

theorem each_wrapCondition {P : Condition → Prop} {needed : Bool}
    {c : ConditionTerm} (h : c.Each P) : (wrapCondition needed c).Each P := by
  cases needed <;> exact h

theorem each_condition (hshort : Shortens sub) (hsub : Covers sub n) :
    ∀ c : Condition, c.Derived → c.tokens.length ≤ n →
      c.term.Each (GoodPredicate ld sub)
  | .comparison op left right, hc, hn => by
      rw [Condition.Derived] at hc
      rw [Condition.tokens] at hn
      simp only [List.length_cons, List.length_append] at hn
      exact good_comparison hshort (each_term hsub left hc.1 (by omega))
        (each_term hsub right hc.2 (by omega))
  | .between negated e lower upper, hc, hn => by
      rw [Condition.Derived] at hc
      rw [Condition.tokens] at hn
      simp only [List.length_cons, List.length_append] at hn
      exact good_between hshort (each_term hsub e hc.1 (by omega))
        (each_term hsub lower hc.2.1 (by omega))
        (each_term hsub upper hc.2.2 (by omega))
  | .isnull negated e, hc, hn => by
      rw [Condition.Derived] at hc
      rw [Condition.tokens] at hn
      simp only [List.length_append] at hn
      exact good_isnull hshort (each_term hsub e hc (by omega))
  | .inList negated e list, hc, hn => by
      rw [Condition.Derived] at hc
      rw [Condition.tokens] at hn
      simp only [List.length_cons, List.length_append] at hn
      exact good_inList hshort (each_term hsub e hc.1 (by omega))
        (each_toList hsub list hc.2 (by omega))
  | .inSubquery negated e s, hc, hn => by
      rw [Condition.Derived] at hc
      rw [Condition.tokens] at hn
      simp only [List.length_cons, List.length_append] at hn
      exact good_inSubquery hshort (each_term hsub e hc.1 (by omega))
        (hsub s hc.2 (by omega))
  | .like negated e pattern, hc, hn => by
      rw [Condition.Derived] at hc
      rw [Condition.tokens] at hn
      simp only [List.length_append] at hn
      exact good_like hshort (each_term hsub e hc (by omega))
  | .exists s, hc, hn => by
      rw [Condition.Derived] at hc
      rw [Condition.tokens] at hn
      simp only [List.length_cons, List.length_append] at hn
      exact good_exists (hsub s hc (by omega))
  | .unique s, hc, hn => by
      rw [Condition.Derived] at hc
      rw [Condition.tokens] at hn
      simp only [List.length_cons, List.length_append] at hn
      exact good_unique (hsub s hc (by omega))
  | .truthtest c value, hc, hn => by
      rw [Condition.Derived] at hc
      rw [Condition.tokens] at hn
      simp only [List.length_append] at hn
      have hlen := length_parens
        (c.shape = .negation ∨ c.shape = .connective) c.tokens
      exact each_wrapCondition (each_condition hshort hsub c hc (by omega))
  | .not c, hc, hn => by
      rw [Condition.Derived] at hc
      rw [Condition.tokens] at hn
      simp only [List.length_cons] at hn
      have hlen := length_parens
        (c.shape = .truthtest ∨ c.shape = .connective) c.tokens
      exact each_wrapCondition (each_condition hshort hsub c hc (by omega))
  | .and left right, hc, hn => by
      rw [Condition.Derived] at hc
      rw [Condition.tokens] at hn
      simp only [List.length_cons, List.length_append] at hn
      have hlen := length_parens (right.shape = .connective) right.tokens
      exact ⟨each_condition hshort hsub left hc.1 (by omega),
        each_wrapCondition (each_condition hshort hsub right hc.2 (by omega))⟩
  | .or left right, hc, hn => by
      rw [Condition.Derived] at hc
      rw [Condition.tokens] at hn
      simp only [List.length_cons, List.length_append] at hn
      have hlen := length_parens (right.shape = .connective) right.tokens
      exact ⟨each_condition hshort hsub left hc.1 (by omega),
        each_wrapCondition (each_condition hshort hsub right hc.2 (by omega))⟩

/-! ## Which clause comes next -/

/-- What follows begins with one of these keywords, or the statement or the
query is over. -/
def Heads (ks : List Keyword) (ts : List Token) : Prop :=
  ∀ t ∈ ts.head?, t = .char 41 ∨ t = .char 59 ∨ ∃ k ∈ ks, t = .keyword k

theorem Heads.mono (h : Heads ks ts) : Heads (k :: ks) ts := by
  intro t ht
  rcases h t ht with ht | ht | ⟨k', hk', ht⟩
  · exact .inl ht
  · exact .inr (.inl ht)
  · exact .inr (.inr ⟨k', List.mem_cons_of_mem _ hk', ht⟩)

theorem heads_cons : Heads (k :: ks) (.keyword k :: ts) := by
  intro t ht
  cases ht
  exact .inr (.inr ⟨k, List.mem_cons_self, rfl⟩)

theorem Heads.ne {t : Token} (h : Heads ks ts) (hclose : t ≠ .char 41)
    (hend : t ≠ .char 59) (hks : ∀ k ∈ ks, t ≠ .keyword k) :
    ∀ t' ∈ ts.head?, t' ≠ t := by
  rintro t' ht' rfl
  rcases h t' ht' with ht | ht | ⟨k, hk, ht⟩
  · exact hclose ht
  · exact hend ht
  · exact hks k hk ht

theorem Heads.free (h : Heads ks ts) : Free ts := by
  intro t ht
  rcases h t ht with rfl | rfl | ⟨k, -, rfl⟩
  · exact ⟨by decide, rfl⟩
  · exact ⟨by decide, rfl⟩
  · exact ⟨by simp, rfl⟩

theorem Heads.closed (h : Heads ks ts)
    (hks : ∀ k ∈ ks, k ≠ .larxAnd ∧ k ≠ .larxOr ∧ k ≠ .larxIs) : Closed ts := by
  intro t ht
  rcases h t ht with rfl | rfl | ⟨k, hk, rfl⟩
  · decide
  · decide
  · obtain ⟨hand, hor, his⟩ := hks k hk
    exact ⟨fun h => hand (Token.keyword.inj h),
      fun h => hor (Token.keyword.inj h), fun h => his (Token.keyword.inj h)⟩

theorem Heads.comma (h : Heads ks ts) : ∀ t ∈ ts.head?, t ≠ .char 44 :=
  h.ne (by decide) (by decide) fun _ _ => by simp

theorem Heads.pointless (h : Heads ks ts) : Pointless ts := h.free.pointless

theorem Heads.keyword (h : Heads ks ts) (hk : k ∉ ks) :
    ∀ t ∈ ts.head?, t ≠ .keyword k :=
  h.ne (by simp) (by simp) fun k' hk' heq =>
    hk (Token.keyword.inj heq ▸ hk')

/-! ## Clauses -/

/-- Between commas, with the length of the text for the rounds. -/
theorem commaList_length {α : Type} {p : Takes α} {tokens : α → List Token}
    {as : List α} (hne : as ≠ []) (htokens : ∀ a ∈ as, tokens a ≠ [])
    (hrest : ∀ t ∈ rest.head?, t ≠ .char 44)
    (h : ∀ a ∈ as, ∀ ts, ts = rest ∨ ts.head? = some (.char 44) →
      p (tokens a ++ ts) = some (a, ts)) :
    commaList p (commas (as.map tokens) ++ rest).length
      (commas (as.map tokens) ++ rest) = some (as, rest) := by
  refine commaList_commas hrest hne ?_ h
  have hlen : (as.map tokens).length ≤ (commas (as.map tokens)).length := by
    refine length_commas fun x hx => ?_
    obtain ⟨a, ha, rfl⟩ := List.mem_map.mp hx
    exact htokens a ha
  rw [List.length_map] at hlen
  rw [List.length_append]
  omega

theorem pointless_comma (h : Pointless rest) :
    ts = rest ∨ ts.head? = some (.char 44) → Pointless ts := by
  rintro (rfl | hts) t ht
  · exact h t ht
  · rw [hts] at ht
    cases ht
    decide

theorem clause_absent (h : ∀ t ∈ ts.head?, t ≠ .keyword k) :
    clause ld sub k ts = some (.absent, ts) := by
  unfold clause
  split
  · next k' rest' =>
      rw [if_neg]
      rintro rfl
      exact h _ rfl rfl
  · rfl

/-- A clause is read if its condition is, and no keyword of the others is
its own. -/
theorem clause_tokens (hshort : Shortens sub) (hsub : Covers sub n) {c : Clause}
    (hc : c.Derived) (hn : (c.tokens k).length ≤ n) (h : Heads ks rest)
    (hk : k ∉ ks)
    (hks : ∀ k ∈ ks, k ≠ .larxAnd ∧ k ≠ .larxOr ∧ k ≠ .larxIs) :
    clause ld sub k (c.tokens k ++ rest) = some (c, rest) := by
  cases c with
  | absent =>
      rw [Clause.tokens]
      exact clause_absent (h.keyword hk)
  | present c =>
      rw [Clause.Derived] at hc
      rw [Clause.tokens] at hn ⊢
      simp only [List.length_cons] at hn
      have hterm : c.term.Each (GoodPredicate ld sub) :=
        each_condition hshort hsub c hc (by omega)
      rw [List.cons_append, clause, if_pos rfl,
        searchCondition_tokens hshort hterm h.free (h.closed hks)]
      rfl

theorem heads_clause {c : Clause} (h : Heads ks rest) :
    Heads (k :: ks) (c.tokens k ++ rest) := by
  cases c with
  | absent =>
      rw [Clause.tokens]
      exact h.mono
  | present c =>
      rw [Clause.tokens]
      exact heads_cons

theorem aggregate_identifier (s : Bytes) (ts : List Token) :
    aggregate (.identifier s :: ts) = none := rfl

theorem column_tokens {o : Operand}
    (ho : (∃ s, o = .identifier s) ∨ ∃ a s, o = .aggregate a s ∧ o.Derived)
    (h : Pointless rest) : column (o.tokens ++ rest) = some (o, rest) := by
  rcases ho with ⟨s, rfl⟩ | ⟨a, s, rfl, ho⟩
  · rw [Operand.tokens, List.singleton_append, column, aggregate_identifier]
    dsimp only
    rw [identifier_cons h]
    rfl
  · rw [Operand.Derived] at ho
    rw [column, Operand.tokens, List.cons_append, List.cons_append,
      List.cons_append, List.cons_append, aggregate, aggregatetype_keyword ho]
    rfl

theorem commas_begins {x ts : List Token} {xs : List (List Token)} {t : Token}
    (h : x = t :: ts) : ∃ ts', commas (x :: xs) = t :: ts' := by
  cases xs with
  | nil => exact ⟨ts, h⟩
  | cons y xs =>
      rw [commas_cons (List.cons_ne_nil _ _), h]
      exact ⟨_, rfl⟩

/-- Columns that are listed begin with no asterisk and no quantifier. -/
theorem list_begins {os : List Operand} (h : (Columns.list os).Derived) :
    ∃ t ts, (Columns.list os).tokens = t :: ts ∧ Begins t ∧ t ≠ .char 42 := by
  obtain ⟨hne, hos⟩ := h
  obtain ⟨o, os', rfl⟩ := List.exists_cons_of_ne_nil hne
  obtain ⟨t, ts, htokens, hbegins, -⟩ := operand_begins o
  obtain ⟨ts', hts'⟩ : ∃ ts', (Columns.list (o :: os')).tokens = t :: ts' :=
    commas_begins htokens
  refine ⟨t, ts', hts', hbegins, ?_⟩
  rcases hos o List.mem_cons_self with ⟨s, rfl⟩ | ⟨a, s, rfl, -⟩
  · cases htokens
    simp
  · cases htokens
    simp

theorem columns_begins {columns : Columns} (h : columns.Derived) :
    ∃ t ts, columns.tokens = t :: ts ∧ Begins t := by
  cases columns with
  | asterisk => exact ⟨_, _, rfl, by rintro k ⟨⟩⟩
  | list os =>
      obtain ⟨t, ts, htokens, hbegins, -⟩ := list_begins h
      exact ⟨t, ts, htokens, hbegins⟩

theorem columns_tokens {columns : Columns} (hcolumns : columns.Derived)
    (h : Pointless rest) (hcomma : ∀ t ∈ rest.head?, t ≠ .char 44) :
    Larx.columns (columns.tokens ++ rest) = some (columns, rest) := by
  cases columns with
  | asterisk => rfl
  | list os =>
      have hread : commaList column
          (commas (os.map Operand.tokens) ++ rest).length
          (commas (os.map Operand.tokens) ++ rest) = some (os, rest) := by
        refine commaList_length hcolumns.1 ?_ hcomma fun o ho ts hts =>
          column_tokens (hcolumns.2 o ho) (pointless_comma h hts)
        intro o _
        obtain ⟨t, ts, htokens, -⟩ := operand_begins o
        rw [htokens]
        exact List.cons_ne_nil _ _
      obtain ⟨t, ts, htokens, -, hne⟩ := list_begins hcolumns
      rw [Columns.tokens] at htokens ⊢
      rw [Larx.columns]
      · rw [hread]
        rfl
      · rintro ts' heq
        rw [htokens] at heq
        cases heq
        exact hne rfl

theorem setQuantifier_tokens {quantifier : Option Quantifier}
    (hdistinct : ∀ t ∈ ts.head?, t ≠ .keyword .larxDistinct)
    (hall : ∀ t ∈ ts.head?, t ≠ .keyword .larxAll) :
    setQuantifier (quantifierTokens quantifier ++ ts) = (quantifier, ts) := by
  cases quantifier with
  | some q => cases q <;> rfl
  | none =>
      rw [quantifierTokens, List.nil_append]
      unfold setQuantifier
      split
      · exact absurd rfl (hdistinct _ rfl)
      · exact absurd rfl (hall _ rfl)
      · rfl

theorem groupByClause_tokens {names : List Bytes} (h : Heads ks rest)
    (hk : .larxGroup ∉ ks) :
    groupByClause (groupbyTokens names ++ rest) = some (names, rest) := by
  cases names with
  | nil =>
      have hgroup := h.keyword hk
      rw [groupbyTokens, List.nil_append]
      unfold groupByClause
      split
      · exact absurd rfl (hgroup _ rfl)
      · exact absurd rfl (hgroup _ rfl)
      · rfl
  | cons name names =>
      rw [groupbyTokens, List.cons_append, List.cons_append, groupByClause]
      · exact commaList_length (List.cons_ne_nil _ _) (by simp) h.comma
          fun name _ ts hts => identifier_cons
            (pointless_comma h.pointless hts) name
      · exact List.cons_ne_nil _ _

theorem forUpdateClause_tokens {forupdate : Bool} (h : Heads ks rest)
    (hk : .larxFor ∉ ks) :
    forUpdateClause (forupdateTokens forupdate ++ rest) =
      some (forupdate, rest) := by
  cases forupdate with
  | true => rfl
  | false =>
      have hfor := h.keyword hk
      rw [forupdateTokens, if_neg (by decide), List.nil_append]
      unfold forUpdateClause
      split
      · exact absurd rfl (hfor _ rfl)
      · exact absurd rfl (hfor _ rfl)
      · rfl

theorem noLockClause_tokens {nolock : Bool} (h : Heads ks rest)
    (hk : .larxNo ∉ ks) :
    noLockClause (nolockTokens nolock ++ rest) = some (nolock, rest) := by
  cases nolock with
  | true => rfl
  | false =>
      have hno := h.keyword hk
      rw [nolockTokens, if_neg (by decide), List.nil_append]
      unfold noLockClause
      split
      · exact absurd rfl (hno _ rfl)
      · exact absurd rfl (hno _ rfl)
      · rfl

theorem sortSpecification_tokens (sort : Bytes × Bool) :
    sortSpecification (sortTokens sort ++ ts) = some (sort, ts) := by
  obtain ⟨name, asc⟩ := sort
  cases asc <;> rfl

theorem orderByClause_tokens {sorts : List (Bytes × Bool)} (h : Heads ks rest)
    (hk : .larxOrder ∉ ks) :
    orderByClause (orderbyTokens sorts ++ rest) = some (sorts, rest) := by
  cases sorts with
  | nil =>
      have horder := h.keyword hk
      rw [orderbyTokens, List.nil_append]
      unfold orderByClause
      split
      · exact absurd rfl (horder _ rfl)
      · exact absurd rfl (horder _ rfl)
      · rfl
  | cons sort sorts =>
      rw [orderbyTokens, List.cons_append, List.cons_append, orderByClause]
      · exact commaList_length (List.cons_ne_nil _ _) (by simp [sortTokens])
          h.comma fun sort _ ts _ => sortSpecification_tokens sort
      · exact List.cons_ne_nil _ _

/-! ## Queries -/

/-- What the clauses of a query can begin with, each list for the clauses that
are left. -/
theorem heads_orderby {sorts : List (Bytes × Bool)} (h : Heads ks rest) :
    Heads (.larxOrder :: ks) (orderbyTokens sorts ++ rest) := by
  cases sorts with
  | nil => exact h.mono
  | cons sort sorts => exact heads_cons

theorem heads_nolock {nolock : Bool} (h : Heads ks rest) :
    Heads (.larxNo :: ks) (nolockTokens nolock ++ rest) := by
  cases nolock with
  | true => exact heads_cons
  | false => exact h.mono

theorem heads_forupdate {forupdate : Bool} (h : Heads ks rest) :
    Heads (.larxFor :: ks) (forupdateTokens forupdate ++ rest) := by
  cases forupdate with
  | true => exact heads_cons
  | false => exact h.mono

theorem heads_groupby {names : List Bytes} (h : Heads ks rest) :
    Heads (.larxGroup :: ks) (groupbyTokens names ++ rest) := by
  cases names with
  | nil => exact h.mono
  | cons name names => exact heads_cons

theorem selectTail_tokens (hshort : Shortens sub) (hsub : Covers sub n)
    {quantifier : Option Quantifier} {columns : Columns} {table : Bytes}
    {where_clause having_clause : Clause} {groupby : List Bytes}
    {forupdate nolock : Bool} {orderby : List (Bytes × Bool)}
    (hwhere : where_clause.Derived) (hhaving : having_clause.Derived)
    (hnw : (where_clause.tokens .larxWhere).length ≤ n)
    (hnh : (having_clause.tokens .larxHaving).length ≤ n)
    (h : Heads [] rest) :
    selectTail ld sub quantifier columns table
      (where_clause.tokens .larxWhere ++ (groupbyTokens groupby ++
        (having_clause.tokens .larxHaving ++ (forupdateTokens forupdate ++
          (nolockTokens nolock ++ (orderbyTokens orderby ++ rest)))))) =
      some (.mk quantifier columns table where_clause groupby having_clause
        forupdate nolock orderby, rest) := by
  have horder : Heads [.larxOrder] (orderbyTokens orderby ++ rest) :=
    heads_orderby h
  have hno : Heads [.larxNo, .larxOrder]
      (nolockTokens nolock ++ (orderbyTokens orderby ++ rest)) :=
    heads_nolock horder
  have hfor : Heads [.larxFor, .larxNo, .larxOrder]
      (forupdateTokens forupdate ++ (nolockTokens nolock ++
        (orderbyTokens orderby ++ rest))) := heads_forupdate hno
  have hhead : Heads [.larxHaving, .larxFor, .larxNo, .larxOrder]
      (having_clause.tokens .larxHaving ++ (forupdateTokens forupdate ++
        (nolockTokens nolock ++ (orderbyTokens orderby ++ rest)))) :=
    heads_clause hfor
  have hgroup : Heads [.larxGroup, .larxHaving, .larxFor, .larxNo, .larxOrder]
      (groupbyTokens groupby ++ (having_clause.tokens .larxHaving ++
        (forupdateTokens forupdate ++ (nolockTokens nolock ++
          (orderbyTokens orderby ++ rest))))) := heads_groupby hhead
  rw [selectTail, clause_tokens hshort hsub hwhere hnw hgroup (by decide)
    (by decide)]
  simp only [Option.bind_eq_bind, Option.bind_some]
  rw [groupByClause_tokens hhead (by decide)]
  simp only [Option.bind_some]
  rw [clause_tokens hshort hsub hhaving hnh hfor (by decide) (by decide)]
  simp only [Option.bind_some]
  rw [forUpdateClause_tokens hno (by decide)]
  simp only [Option.bind_some]
  rw [noLockClause_tokens horder (by decide)]
  simp only [Option.bind_some]
  rw [orderByClause_tokens h (by decide)]
  rfl

theorem clause_shortens (hshort : Shortens sub) {c : Clause}
    (h : clause ld sub k ts = some (c, rest)) : rest.length ≤ ts.length := by
  unfold clause at h
  split at h
  · split at h
    · obtain ⟨found, hfound, heq⟩ := Option.map_eq_some_iff.mp h
      cases heq
      obtain ⟨found', hfound', heq⟩ := Option.map_eq_some_iff.mp hfound
      cases heq
      exact Nat.le_succ_of_le (Nat.le_of_lt
        (parse_shortens (conditionReader_consumes hshort) hfound'))
    · cases h
      exact Nat.le_refl _
  · cases h
    exact Nat.le_refl _

theorem groupByClause_shortens {names : List Bytes}
    (h : groupByClause ts = some (names, rest)) :
    rest.length ≤ ts.length := by
  unfold groupByClause at h
  split at h
  · have := commaList_shortens identifier_shortens _ _ _ _ h
    simp only [List.length_cons]
    omega
  · cases h
  · cases h
    exact Nat.le_refl _

theorem forUpdateClause_shortens {forupdate : Bool}
    (h : forUpdateClause ts = some (forupdate, rest)) :
    rest.length ≤ ts.length := by
  unfold forUpdateClause at h
  split at h
  · cases h
    simp only [List.length_cons]
    omega
  · cases h
  · cases h
    exact Nat.le_refl _

theorem noLockClause_shortens {nolock : Bool}
    (h : noLockClause ts = some (nolock, rest)) :
    rest.length ≤ ts.length := by
  unfold noLockClause at h
  split at h
  · cases h
    simp only [List.length_cons]
    omega
  · cases h
  · cases h
    exact Nat.le_refl _

theorem sortSpecification_shortens : Shortens sortSpecification := by
  intro sort ts rest h
  rw [sortSpecification] at h
  split at h
  · cases h
  · next name rest' hread =>
      cases h
      have := identifier_shortens _ _ _ hread
      rw [List.length_cons] at this
      omega
  · next name rest' hread =>
      cases h
      have := identifier_shortens _ _ _ hread
      rw [List.length_cons] at this
      omega
  · next hread =>
      cases h
      exact identifier_shortens _ _ _ hread

theorem orderByClause_shortens {sorts : List (Bytes × Bool)}
    (h : orderByClause ts = some (sorts, rest)) :
    rest.length ≤ ts.length := by
  unfold orderByClause at h
  split at h
  · have := commaList_shortens sortSpecification_shortens _ _ _ _ h
    simp only [List.length_cons]
    omega
  · cases h
  · cases h
    exact Nat.le_refl _

/-- What the clauses of a query are, and that each takes what it takes off the
front. -/
theorem selectTail_some {s : Select} {quantifier : Option Quantifier}
    {columns : Columns} {table : Bytes}
    (h : selectTail ld sub quantifier columns table ts = some (s, rest)) :
    ∃ where_clause ts₁ groupby ts₂ having_clause ts₃ forupdate ts₄ nolock ts₅
      orderby, clause ld sub .larxWhere ts = some (where_clause, ts₁) ∧
      groupByClause ts₁ = some (groupby, ts₂) ∧
      clause ld sub .larxHaving ts₂ = some (having_clause, ts₃) ∧
      forUpdateClause ts₃ = some (forupdate, ts₄) ∧
      noLockClause ts₄ = some (nolock, ts₅) ∧
      orderByClause ts₅ = some (orderby, rest) ∧
      s = .mk quantifier columns table where_clause groupby having_clause
        forupdate nolock orderby := by
  simp only [selectTail, Option.bind_eq_bind, Option.bind_eq_some_iff] at h
  obtain ⟨⟨where_clause, ts₁⟩, hwhere, ⟨groupby, ts₂⟩, hgroup,
    ⟨having_clause, ts₃⟩, hhaving, ⟨forupdate, ts₄⟩, hfor, ⟨nolock, ts₅⟩, hno,
    ⟨orderby, ts₆⟩, horder, heq⟩ := h
  cases heq
  exact ⟨_, _, _, _, _, _, _, _, _, _, _, hwhere, hgroup, hhaving, hfor, hno,
    horder, rfl⟩

theorem selectTail_shortens (hshort : Shortens sub) {s : Select}
    {quantifier : Option Quantifier} {columns : Columns} {table : Bytes}
    (h : selectTail ld sub quantifier columns table ts = some (s, rest)) :
    rest.length ≤ ts.length := by
  obtain ⟨_, _, _, _, _, _, _, _, _, _, _, hwhere, hgroup, hhaving, hfor, hno,
    horder, -⟩ := selectTail_some h
  calc rest.length
      _ ≤ _ := orderByClause_shortens horder
      _ ≤ _ := noLockClause_shortens hno
      _ ≤ _ := forUpdateClause_shortens hfor
      _ ≤ _ := clause_shortens hshort hhaving
      _ ≤ _ := groupByClause_shortens hgroup
      _ ≤ _ := clause_shortens hshort hwhere

theorem column_shortens : Shortens column := by
  intro o ts rest h
  rw [column] at h
  split at h
  · next found hread =>
      cases h
      exact aggregate_shortens _ _ _ hread
  · obtain ⟨found, hfound, heq⟩ := Option.map_eq_some_iff.mp h
    cases heq
    exact identifier_shortens _ _ _ hfound

theorem columns_shortens : Shortens Larx.columns := by
  intro columns ts rest h
  unfold Larx.columns at h
  split at h
  · cases h
    exact Nat.lt_succ_self _
  · obtain ⟨found, hfound, heq⟩ := Option.map_eq_some_iff.mp h
    cases heq
    exact commaList_shortens column_shortens _ _ _ _ hfound

theorem fromClause_shortens : Shortens fromClause := by
  intro table ts rest h
  unfold fromClause at h
  split at h
  · exact Nat.lt_succ_of_lt (identifier_shortens _ _ _ h)
  · cases h

theorem setQuantifier_shortens (ts : List Token) :
    (setQuantifier ts).2.length ≤ ts.length := by
  unfold setQuantifier
  split
  · exact Nat.le_succ _
  · exact Nat.le_succ _
  · exact Nat.le_refl _

/-- What a query begins with. -/
theorem selectStmt_some {fuel : ℕ} {s : Select}
    (h : selectStmt ld (fuel + 1) ts = some (s, rest)) :
    ∃ ts₁ columns ts₂ table ts₃, ts = .keyword .larxSelect :: ts₁ ∧
      Larx.columns (setQuantifier ts₁).2 = some (columns, ts₂) ∧
      fromClause ts₂ = some (table, ts₃) ∧
      selectTail ld (selectStmt ld fuel) (setQuantifier ts₁).1 columns table
        ts₃ = some (s, rest) := by
  unfold selectStmt at h
  split at h
  · next fuel' ts₁ hfuel =>
      cases hfuel
      simp only [Option.bind_eq_bind, Option.bind_eq_some_iff] at h
      obtain ⟨⟨columns, ts₂⟩, hcolumns, ⟨table, ts₃⟩, hfrom, htail⟩ := h
      exact ⟨_, _, _, _, _, rfl, hcolumns, hfrom, htail⟩
  · cases h

theorem selectStmt_shortens (ld : LongDouble) :
    ∀ fuel : ℕ, Shortens (selectStmt ld fuel)
  | 0 => by
      intro s ts rest h
      cases h
  | fuel + 1 => by
      intro s ts rest h
      obtain ⟨ts₁, columns, ts₂, table, ts₃, rfl, hcolumns, hfrom, htail⟩ :=
        selectStmt_some h
      have hquantifier := setQuantifier_shortens ts₁
      have hlist := columns_shortens _ _ _ hcolumns
      have htable := fromClause_shortens _ _ _ hfrom
      have hrest := selectTail_shortens (selectStmt_shortens ld fuel) htail
      rw [List.length_cons]
      omega

/-- A query is read as it is written. The induction is on its length. -/
theorem selectStmt_tokens : ∀ {fuel : ℕ} {s : Select} {rest : List Token},
    s.Derived → s.tokens.length ≤ fuel → Heads [] rest →
      selectStmt ld fuel (s.tokens ++ rest) = some (s, rest)
  | 0, s, _, _, hn, _ => by
      obtain ⟨ts, hts⟩ := select_tokens s
      rw [hts] at hn
      exact absurd hn (by simp)
  | fuel + 1, .mk quantifier columns table where_clause groupby having_clause
      forupdate nolock orderby, rest, hs, hn, h => by
      have hsub : Covers (selectStmt ld fuel) fuel := fun s hs hn rest =>
        selectStmt_tokens hs hn (by rintro t ⟨⟩; exact .inl rfl)
      rw [Select.Derived] at hs
      obtain ⟨hcolumns, hwhere, hhaving⟩ := hs
      rw [Select.tokens] at hn ⊢
      simp only [List.length_cons, List.length_append] at hn
      simp only [List.cons_append, List.append_assoc, selectStmt]
      have hbegins : ∀ t ∈ (columns.tokens ++ Token.keyword .larxFrom ::
          .identifier table :: (where_clause.tokens .larxWhere ++
            (groupbyTokens groupby ++ (having_clause.tokens .larxHaving ++
              (forupdateTokens forupdate ++ (nolockTokens nolock ++
                (orderbyTokens orderby ++ rest))))))).head?, Begins t := by
        obtain ⟨t, ts, htokens, hbegins⟩ := columns_begins hcolumns
        rw [htokens]
        rintro t' ⟨⟩
        exact hbegins
      rw [setQuantifier_tokens
        (by rintro t ht rfl; exact absurd (hbegins _ ht _ rfl) (by decide))
        (by rintro t ht rfl; exact absurd (hbegins _ ht _ rfl) (by decide)),
        columns_tokens hcolumns (pointless_cons (by decide))
          (by rintro t ⟨⟩; decide)]
      simp only [Option.bind_eq_bind, Option.bind_some, fromClause]
      have hwhead : Heads [.larxWhere, .larxGroup, .larxHaving, .larxFor,
          .larxNo, .larxOrder] (where_clause.tokens .larxWhere ++
            (groupbyTokens groupby ++ (having_clause.tokens .larxHaving ++
              (forupdateTokens forupdate ++ (nolockTokens nolock ++
                (orderbyTokens orderby ++ rest)))))) :=
        heads_clause (heads_groupby (heads_clause (heads_forupdate
          (heads_nolock (heads_orderby h)))))
      rw [identifier_cons hwhead.pointless]
      simp only [Option.bind_some]
      exact selectTail_tokens (selectStmt_shortens ld fuel) hsub hwhere
        hhaving (by omega) (by omega) h

/-! ## Statements -/

theorem setassignment_tokens (hshort : Shortens sub) {a : Bytes × Expression}
    (ha : a.2.term.Each (GoodAtom sub)) (h : Free rest) :
    setassignment ld sub (assignmentTokens a ++ rest) = some (a, rest) := by
  have hread : expression ld sub (a.2.tokens ++ rest) = some (a.2, rest) :=
    expression_tokens hshort ha h
  rw [assignmentTokens, List.cons_append, List.cons_append, setassignment,
    identifier_cons (pointless_cons (by decide))]
  simp only [hread, Option.map_some]

theorem covers_selectStmt (ld : LongDouble) (fuel : ℕ) :
    Covers (selectStmt ld fuel) fuel :=
  fun _ hs hn _ => selectStmt_tokens hs hn (by rintro t ⟨⟩; exact .inl rfl)

theorem free_comma (h : Free rest) :
    ts = rest ∨ ts.head? = some (.char 44) → Free ts := by
  rintro (rfl | hts) t ht
  · exact h t ht
  · rw [hts] at ht
    cases ht
    exact ⟨by decide, rfl⟩

theorem stmt_insert {fuel : ℕ} {table : Bytes} {values : ExpressionList}
    (hst : values.Derived) (hn : values.tokens.length ≤ fuel) :
    stmt ld fuel ((Stmt.insert table values).tokens ++ rest) =
      some (.insert table values, rest) := by
  have hread : expressionlist ld (selectStmt ld fuel)
      (values.tokens ++ Token.char 41 :: rest) =
        some (values, .char 41 :: rest) :=
    expressionlist_tokens (selectStmt_shortens ld fuel)
      (each_toList (covers_selectStmt ld fuel) values hst hn)
      (free_cons (by decide) rfl) (by rintro t ⟨⟩; decide)
  simp only [Stmt.tokens, List.cons_append, List.append_assoc,
    List.nil_append, stmt]
  rw [identifier_cons (pointless_cons (by decide))]
  simp only [Option.bind_eq_bind, Option.bind_some]
  rw [hread]
  rfl

theorem length_le_commas {x : List Token} : ∀ {xs : List (List Token)},
    x ∈ xs → x.length ≤ (commas xs).length
  | [y], h => by
      cases List.mem_singleton.mp h
      exact Nat.le_refl _
  | y :: z :: xs, h => by
      rw [commas_cons (List.cons_ne_nil _ _), List.length_append,
        List.length_cons]
      rcases List.mem_cons.mp h with rfl | h
      · omega
      · have := length_le_commas h
        omega

theorem stmt_update {fuel : ℕ} {table : Bytes}
    {assignments : List (Bytes × Expression)} {hne : assignments ≠ []}
    {where_clause : Clause} (hassign : ∀ a ∈ assignments, a.2.Derived)
    (hwhere : where_clause.Derived)
    (hn : (Stmt.update table assignments hne where_clause).tokens.length ≤ fuel)
    (h : Heads [] rest) :
    stmt ld fuel ((Stmt.update table assignments hne where_clause).tokens ++
      rest) = some (.update table assignments hne where_clause, rest) := by
  have hshort := selectStmt_shortens ld fuel
  have hhead : Heads [.larxWhere] (where_clause.tokens .larxWhere ++ rest) :=
    heads_clause h
  simp only [Stmt.tokens, List.length_cons, List.length_append] at hn
  have hread : commaList (setassignment ld (selectStmt ld fuel))
      (commas (assignments.map assignmentTokens) ++
        (where_clause.tokens .larxWhere ++ rest)).length
      (commas (assignments.map assignmentTokens) ++
        (where_clause.tokens .larxWhere ++ rest)) =
      some (assignments, where_clause.tokens .larxWhere ++ rest) := by
    refine commaList_length hne (fun _ _ => List.cons_ne_nil _ _) hhead.comma
      fun a ha ts hts => ?_
    have hlen := length_le_commas
      (List.mem_map_of_mem (f := assignmentTokens) ha)
    simp only [assignmentTokens, List.length_cons] at hlen
    exact setassignment_tokens hshort (each_term (covers_selectStmt ld fuel) a.2
      (hassign a ha) (by omega)) (free_comma hhead.free hts)
  simp only [Stmt.tokens, List.cons_append, List.append_assoc, stmt]
  rw [identifier_cons (pointless_cons (by decide))]
  simp only [Option.bind_eq_bind, Option.bind_some]
  rw [hread]
  simp only [Option.bind_some]
  rw [clause_tokens hshort (covers_selectStmt ld fuel) hwhere (by omega) h
    (by decide) (by decide)]
  simp only [Option.bind_some]
  rw [dif_pos hne]

theorem stmt_delete {fuel : ℕ} {table : Bytes} {where_clause : Clause}
    (hst : where_clause.Derived)
    (hn : (Stmt.delete table where_clause).tokens.length ≤ fuel)
    (h : Heads [] rest) :
    stmt ld fuel ((Stmt.delete table where_clause).tokens ++ rest) =
      some (.delete table where_clause, rest) := by
  have hwhere : Heads [.larxWhere] (where_clause.tokens .larxWhere ++ rest) :=
    heads_clause h
  simp only [Stmt.tokens, List.length_cons] at hn
  simp only [Stmt.tokens, List.cons_append, stmt]
  rw [identifier_cons hwhere.pointless]
  simp only [Option.bind_eq_bind, Option.bind_some]
  rw [clause_tokens (selectStmt_shortens ld fuel) (covers_selectStmt ld fuel)
    hst (by omega) h (by decide) (by decide)]
  rfl

theorem stmt_tokens {fuel : ℕ} {st : Stmt} (hst : st.Derived)
    (hn : st.tokens.length ≤ fuel) (h : Heads [] rest) :
    stmt ld fuel (st.tokens ++ rest) = some (st, rest) := by
  cases st with
  | select s =>
      obtain ⟨ts, hts⟩ := select_tokens s
      have hread : selectStmt ld fuel (s.tokens ++ rest) = some (s, rest) :=
        selectStmt_tokens hst hn h
      rw [Stmt.tokens]
      rw [hts, List.cons_append] at hread ⊢
      rw [stmt_select, hread]
      rfl
  | insert table values =>
      simp only [Stmt.tokens, List.length_cons, List.length_append] at hn
      exact stmt_insert hst (by omega)
  | update table assignments hne where_clause =>
      exact stmt_update hst.1 hst.2 hn h
  | delete table where_clause => exact stmt_delete hst hn h

/-- A statement is read as it is written, with its terminator or without. -/
theorem yyparse_of_derived {st : Stmt} (hst : st.Derived) :
    yyparse ld st.tokens = some st ∧
      yyparse ld (st.tokens ++ [Token.char 59]) = some st := by
  constructor
  · have hread : stmt ld st.tokens.length (st.tokens ++ []) = some (st, []) :=
      stmt_tokens hst (Nat.le_refl _) (by rintro t ⟨⟩)
    rw [List.append_nil] at hread
    rw [yyparse, hread]
  · have hread : stmt ld (st.tokens ++ [Token.char 59]).length
        (st.tokens ++ [Token.char 59]) = some (st, [.char 59]) := by
      refine stmt_tokens hst ?_ (by rintro t ⟨⟩; exact .inr (.inl rfl))
      rw [List.length_append]
      omega
    rw [yyparse, hread]
    rfl

end Infinisql.Larx
