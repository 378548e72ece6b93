import Infinisql.Proofs.StatementTexts

/-!
# Chains of operators

What stands between connectives is joined from the left: AND and OR are of one
level, so that `a OR b AND c` is AND of the first two and the third. NOT and IS
are of one level too, but do not associate, and there is no way to read
`NOT a IS TRUE`.
-/

namespace Infinisql.Larx

open Infinisql.Ref (Bytes FieldInput LongDouble)
open Infinisql.Lib
open Infinisql.Lib.Precedence

variable {ld : LongDouble} {sub : Takes Select} {rest ts : List Token}
  {ks : List Keyword} {fuel : ℕ}

/-! ## Connectives -/

theorem tokens_join {c d : Condition} {o : Connective}
    (hd : d.shape ≠ .connective) :
    (o.join c d).tokens = c.tokens ++ o.token :: d.tokens := by
  cases o with
  | and =>
      rw [Connective.join, Condition.tokens, decide_eq_false hd]
      rfl
  | or =>
      rw [Connective.join, Condition.tokens, decide_eq_false hd]
      rfl

theorem derived_join {c d : Condition} {o : Connective} (hc : c.Derived)
    (hd : d.Derived) : (o.join c d).Derived := by
  cases o with
  | and =>
      rw [Connective.join, Condition.Derived]
      exact ⟨hc, hd⟩
  | or =>
      rw [Connective.join, Condition.Derived]
      exact ⟨hc, hd⟩

/-- Joined from the left they need no parentheses. -/
theorem tokens_joined {links : List (Connective × Condition)} {c : Condition}
    (h : ∀ next ∈ links, next.2.shape ≠ .connective) :
    (joined c links).tokens = connected c links := by
  induction links generalizing c with
  | nil => exact (List.append_nil _).symm
  | cons next links ih =>
      obtain ⟨hnext, hlinks⟩ := List.forall_mem_cons.mp h
      have htail := ih (c := next.1.join c next.2) hlinks
      rw [joined] at htail
      rw [joined, List.foldl_cons, htail, connected, tokens_join hnext,
        connected, List.flatMap_cons, List.append_assoc]

theorem derived_joined {links : List (Connective × Condition)} {c : Condition}
    (hc : c.Derived) (h : ∀ next ∈ links, next.2.Derived) :
    (joined c links).Derived := by
  induction links generalizing c with
  | nil => exact hc
  | cons next links ih =>
      obtain ⟨hnext, hlinks⟩ := List.forall_mem_cons.mp h
      exact ih (derived_join hc hnext) hlinks

/-- A chain of connectives is joined from the left. -/
theorem searchCondition_connected (ld : LongDouble) {c : Condition}
    {links : List (Connective × Condition)} (hc : c.Derived)
    (hlinks : ∀ next ∈ links, next.2.Derived ∧ next.2.shape ≠ .connective)
    (hfuel : (connected c links).length ≤ fuel) (h : Heads ks rest)
    (hks : ∀ k ∈ ks, k ≠ .larxAnd ∧ k ≠ .larxOr ∧ k ≠ .larxIs) :
    searchCondition ld (selectStmt ld fuel) (connected c links ++ rest) =
      some (joined c links, rest) := by
  have htokens := tokens_joined (c := c) fun next hnext => (hlinks next hnext).2
  have hderived := derived_joined hc fun next hnext => (hlinks next hnext).1
  rw [← htokens] at hfuel ⊢
  exact searchCondition_tokens (selectStmt_shortens ld fuel)
    (each_condition (selectStmt_shortens ld fuel) (covers_selectStmt ld fuel)
      _ hderived hfuel) h.free (h.closed hks)

/-- `a = 1 OR b = 2 AND c = 3` -/
theorem searchCondition_or_and :
    let ld : LongDouble :=
      ⟨fun a _ => a, fun a _ => a, fun a _ => a, fun a _ => a, fun _ => 0#64⟩
    let p := fun (name : Bytes) (v : BitVec 64) =>
      Condition.comparison .eq (.operand (.identifier name))
        (.operand (.integer v))
    searchCondition ld (selectStmt ld 11) (connected (p [97] 1)
      [(.or, p [98] 2), (.and, p [99] 3)] ++ []) =
      some (joined (p [97] 1) [(.or, p [98] 2), (.and, p [99] 3)], []) := by
  intro ld p
  have hderived : ∀ name v, (p name v).Derived := by
    intro name v
    simp only [p, Condition.Derived, Expression.Derived, Operand.Derived,
      and_self]
  have hend : Heads [] [] := by
    rintro t ⟨⟩
  refine searchCondition_connected ld (hderived _ _) ?_ (by decide) hend
    (List.forall_mem_nil _)
  simp [hderived, p, Condition.shape]

/-! ## NOT and IS -/

theorem term_of_closed {c : Condition} (h : c.shape = .closed) :
    c.term = .atom c := by
  cases c with
  | truthtest c value => cases h
  | not c => cases h
  | and left right => cases h
  | or left right => cases h
  | _ => rfl

/-- With an operator on neither side. -/
theorem primary_edges (c : Condition) :
    (wrapCondition (c.shape ≠ .closed) c.term).ops = [] ∧
      (wrapCondition (c.shape ≠ .closed) c.term).frames = [] ∧
      (wrapCondition (c.shape ≠ .closed) c.term).tip =
        wrapCondition (c.shape ≠ .closed) c.term := by
  by_cases h : c.shape = .closed
  · rw [decide_eq_false (not_not.mpr h), term_of_closed h]
    exact ⟨rfl, rfl, rfl⟩
  · rw [decide_eq_true h]
    exact ⟨rfl, rfl, rfl⟩

/-- NOT before a condition, which is in parentheses if it has an operator of
its own, and IS behind it do not go together. -/
theorem searchCondition_not_is (ld : LongDouble) {c : Condition}
    (hc : c.Derived) (hfuel : c.tokens.length ≤ fuel) (value : Truthvalue)
    (rest : List Token) :
    searchCondition ld (selectStmt ld fuel) (.keyword .larxNot ::
      (parens (c.shape ≠ .closed) c.tokens ++
        Token.keyword .larxIs :: value.token :: rest)) = none := by
  have hshort := selectStmt_shortens ld fuel
  have hgood : c.term.Each (GoodPredicate ld (selectStmt ld fuel)) :=
    each_condition hshort (covers_selectStmt ld fuel) c hc hfuel
  obtain ⟨hops, hframes, htip⟩ := primary_edges c
  have hcomplete : (conditionReader ld (selectStmt ld fuel)).Complete
      conditionSpelling resolveCondition Free _ :=
    conditionReader_complete hshort
  have hresolved : (wrapCondition (c.shape ≠ .closed) c.term).Resolved
      resolveCondition := resolved_wrapCondition (resolved_condition c)
  have hgets : Attains
      (step (conditionReader ld (selectStmt ld fuel)) resolveCondition)
      (fun _ => False)
      (.need [.unary ()] ((wrapCondition (c.shape ≠ .closed) c.term).text
        conditionSpelling ++ Token.keyword .larxIs :: value.token :: rest))
      (· = .got ((wrapCondition (c.shape ≠ .closed) c.term).frames ++
        [Frame.unary ()]) (wrapCondition (c.shape ≠ .closed) c.term).tip
        (.keyword .larxIs :: value.token :: rest)) :=
    gets_tip hcomplete hresolved (each_wrapCondition hgood)
      (free_cons (by decide) rfl) (by rw [hops]; exact List.forall_mem_nil _)
  rw [hframes, htip, wrapCondition_text, condition_text] at hgets
  rw [searchCondition, parse_of_fails (conditionReader_consumes hshort)]
  · rfl
  · refine .of_step (hgets.trans ?_)
    rintro _ rfl
    refine .of_step (.here ?_)
    have hop : (conditionReader ld (selectStmt ld fuel)).op
        (.keyword .larxIs :: value.token :: rest) =
        some (.trailing value, rest) :=
      hcomplete.op (o := .trailing value)
    rw [List.nil_append, step, hop]
    rfl

/-- `NOT (a = 1 OR b = 2) IS TRUE` -/
theorem searchCondition_not_is_true :
    let ld : LongDouble :=
      ⟨fun a _ => a, fun a _ => a, fun a _ => a, fun a _ => a, fun _ => 0#64⟩
    let p := fun (name : Bytes) (v : BitVec 64) =>
      Condition.comparison .eq (.operand (.identifier name))
        (.operand (.integer v))
    let c := Condition.or (p [97] 1) (p [98] 2)
    searchCondition ld (selectStmt ld 7) (.keyword .larxNot ::
      (parens (c.shape ≠ .closed) c.tokens ++
        [Token.keyword .larxIs, Truthvalue.token .true])) = none := by
  intro ld p c
  have hderived : c.Derived := by
    simp only [c, p, Condition.Derived, Expression.Derived, Operand.Derived,
      and_self]
  exact searchCondition_not_is ld hderived (by decide) .true []

/-! ## Sums of products -/

/-- Operators of a level take what stands before them as it is, if its level is
no lower, and what stands behind them, if its level is higher. -/
theorem tokens_combined {n : ℕ} {links : List (Binary × Expression)}
    {e : Expression} (he : n ≤ e.level)
    (h : ∀ next ∈ links, next.1.level = n ∧ n < next.2.level) :
    (combined e links).tokens = operated e links ∧
      n ≤ (combined e links).level := by
  induction links generalizing e with
  | nil => exact ⟨(List.append_nil _).symm, he⟩
  | cons next links ih =>
      obtain ⟨⟨hlevel, hnext⟩, hlinks⟩ := List.forall_mem_cons.mp h
      have hle : n ≤ (Expression.binary next.1 e next.2).level :=
        hlevel.ge
      obtain ⟨htail, hout⟩ := ih hle hlinks
      refine ⟨?_, hout⟩
      rw [combined] at htail
      rw [combined, List.foldl_cons, htail, operated, Expression.tokens,
        decide_eq_false (by omega), decide_eq_false (by omega), operated,
        List.flatMap_cons, List.append_assoc]
      rfl

theorem derived_combined {links : List (Binary × Expression)} {e : Expression}
    (he : e.Derived) (h : ∀ next ∈ links, next.2.Derived) :
    (combined e links).Derived := by
  induction links generalizing e with
  | nil => exact he
  | cons next links ih =>
      obtain ⟨hnext, hlinks⟩ := List.forall_mem_cons.mp h
      refine ih ?_ hlinks
      rw [Expression.Derived]
      exact ⟨he, hnext⟩

theorem tokens_product {p : Product} (h : p.Proper) :
    (combined p.1 p.2).tokens = operated p.1 p.2 ∧
      2 ≤ (combined p.1 p.2).level := by
  refine tokens_combined (by rw [h.1.1]; decide) fun next hnext => ?_
  obtain ⟨hop, hfactor, -⟩ := h.2 next hnext
  exact ⟨hop, by omega⟩

theorem derived_product {p : Product} (h : p.Proper) :
    (combined p.1 p.2).Derived :=
  derived_combined h.1.2 fun next hnext => (h.2 next hnext).2.2

/-- A sum of products is read with no parentheses, and associates to the
left. -/
theorem expression_sumTokens (ld : LongDouble) {p : Product}
    {links : List (Binary × Product)} (hp : p.Proper)
    (hlinks : ∀ next ∈ links, next.1.level = 1 ∧ next.2.Proper)
    (hfuel : (sumTokens p links).length ≤ fuel) (h : Free rest) :
    expression ld (selectStmt ld fuel) (sumTokens p links ++ rest) =
      some (sumOf p links, rest) := by
  have htokens : (sumOf p links).tokens = sumTokens p links := by
    have hlevel := (tokens_product hp).2
    rw [sumOf, (tokens_combined (n := 1) (by omega) ?_).1, operated,
      (tokens_product hp).1, List.flatMap_map, sumTokens]
    · refine congrArg (operated p.1 p.2 ++ ·) (List.flatMap_congr ?_)
      intro next hnext
      rw [(tokens_product (hlinks next hnext).2).1]
    · intro next hnext
      obtain ⟨link, hlink, rfl⟩ := List.mem_map.mp hnext
      obtain ⟨hop, hproper⟩ := hlinks link hlink
      exact ⟨hop, (tokens_product hproper).2⟩
  have hderived : (sumOf p links).Derived := by
    refine derived_combined (derived_product hp) fun next hnext => ?_
    obtain ⟨link, hlink, rfl⟩ := List.mem_map.mp hnext
    exact derived_product (hlinks link hlink).2
  rw [← htokens] at hfuel ⊢
  exact expression_tokens (selectStmt_shortens ld fuel)
    (each_term (covers_selectStmt ld fuel) _ hderived hfuel) h

/-- `a - b * c - d` -/
theorem expression_differences :
    let ld : LongDouble :=
      ⟨fun a _ => a, fun a _ => a, fun a _ => a, fun a _ => a, fun _ => 0#64⟩
    let x := fun name : Bytes => Expression.operand (.identifier name)
    let links : List (Binary × Product) :=
      [(.subtraction, x [98], [(.multiplication, x [99])]),
        (.subtraction, x [100], [])]
    expression ld (selectStmt ld 7) (sumTokens (x [97], []) links ++ []) =
      some (sumOf (x [97], []) links, []) := by
  intro ld x links
  have hderived : ∀ name, (x name).Derived := by
    intro name
    simp only [x, Expression.Derived, Operand.Derived]
  have hlevel : ∀ name, (x name).level = 3 := fun _ => rfl
  refine expression_sumTokens ld ⟨⟨rfl, hderived _⟩, List.forall_mem_nil _⟩ ?_
    (by decide) (by rintro t ⟨⟩)
  simp [links, Product.Proper, Binary.level, hderived, hlevel]

end Infinisql.Larx
