import Infinisql.Spec.Parser

/-!
# Statements are read as they are written

The tokens of an expression are the text of a term, `Expression.term`, that is
resolved, and so the machine reads it; the same goes for conditions, whose atoms
are the predicates. There a parenthesis is tried as the beginning of an
expression first, and `fails_condition` is that this comes to nothing where it
opens a condition.

A query within the statement is one of the atoms. The induction over how deep
they go is at the end, in `selectStmt_tokens`.
-/

namespace Infinisql.Larx

open Infinisql.Ref (Bytes FieldInput LongDouble)
open Infinisql.Lib
open Infinisql.Lib.Precedence

variable {ld : LongDouble} {sub : Takes Select} {rest ts : List Token}
  {t : Token} {b : Binary}

/-! ## What may stand behind -/

/-- No operator of an expression, and no point. -/
def Free (ts : List Token) : Prop :=
  ∀ t ∈ ts.head?, t ≠ .char 46 ∧ binaryOf t = none

theorem binaryOf_token (op : Binary) : binaryOf op.token = some op := by
  cases op <;> rfl

/-- No point. -/
def Pointless (ts : List Token) : Prop := ∀ t ∈ ts.head?, t ≠ .char 46

theorem Free.pointless (h : Free ts) : Pointless ts := fun t ht => (h t ht).1

theorem pointless_cons (h : t ≠ .char 46) : Pointless (t :: ts) := by
  intro t' ht'
  cases ht'
  exact h

theorem free_cons (h : t ≠ .char 46) (hb : binaryOf t = none) :
    Free (t :: ts) := by
  intro t' ht'
  cases ht'
  exact ⟨h, hb⟩

/-! ## Operands -/

theorem identifier_cons (h : Pointless rest) (s : Bytes) :
    identifier (.identifier s :: rest) = some (s, rest) := by
  cases rest with
  | nil => rfl
  | cons t rest =>
      have hne := h t rfl
      unfold identifier
      split <;> simp_all

theorem aggregatetype_keyword {a : UInt8} (h : 97 ≤ a ∧ a ≤ 101) :
    aggregatetype (aggregateKeyword a) = some a := by
  have hcases : a = 97 ∨ a = 98 ∨ a = 99 ∨ a = 100 ∨ a = 101 := by
    simp only [UInt8.le_iff_toNat_le, ← UInt8.toNat_inj, UInt8.reduceToNat]
      at h ⊢
    omega
  rcases hcases with rfl | rfl | rfl | rfl | rfl <;> rfl

/-- The keywords that begin an operand. -/
def operandKeywords : List Keyword :=
  [.larxAvg, .larxCount, .larxMax, .larxMin, .larxSum, .larxNull, .larxTrue,
    .larxFalse]

theorem aggregateKeyword_mem (a : UInt8) :
    aggregateKeyword a ∈ operandKeywords := by
  unfold aggregateKeyword
  split
  · decide
  · split
    · decide
    · split
      · decide
      · split <;> decide

theorem operand_tokens {o : Operand} (ho : o.Derived) (h : Pointless rest) :
    operand ld (o.tokens ++ rest) = some (o, rest) := by
  cases o with
  | identifier s =>
      rw [Operand.tokens, List.singleton_append, operand, identifier_cons h]
      · rfl
      all_goals simp
  | integer v =>
      rw [Operand.tokens]
      split
      · rw [List.cons_append, List.cons_append, operand, BitVec.zero_sub,
          BitVec.neg_neg]
        rfl
      · rfl
  | aggregate a s =>
      have hk := aggregateKeyword_mem a
      rw [Operand.tokens, List.cons_append, operand]
      · simp only [List.cons_append, List.nil_append, aggregate,
          aggregatetype_keyword ho, Option.map_some]
      all_goals
        intro heq
        rw [Operand.Derived] at ho
        have htype := aggregatetype_keyword ho
        rw [heq] at htype
        cases htype
  | boolean b => cases b <;> rfl
  | _ => rfl

/-- It can begin an expression, but no query, and no other condition. -/
def Begins (t : Token) : Prop := ∀ k, t = .keyword k → k ∈ operandKeywords

theorem operand_begins (o : Operand) :
    ∃ t ts, o.tokens = t :: ts ∧ Begins t ∧ t ≠ .char 41 := by
  cases o with
  | integer v =>
      rw [Operand.tokens]
      split
      · exact ⟨_, _, rfl, (by rintro k ⟨⟩), by decide⟩
      · exact ⟨_, _, rfl, (by rintro k ⟨⟩), by simp⟩
  | aggregate a s =>
      refine ⟨_, _, rfl, ?_, by simp⟩
      intro k hk
      cases hk
      exact aggregateKeyword_mem a
  | null => exact ⟨_, _, rfl, (by rintro k ⟨⟩; decide), by simp⟩
  | boolean b =>
      refine ⟨_, _, rfl, ?_, by simp⟩
      intro k hk
      cases hk
      cases b <;> decide
  | _ => exact ⟨_, _, rfl, (by rintro k ⟨⟩), by simp⟩

/-! ## Expressions as terms -/

def spelling :
    Spelling Token (Operand ⊕ Select) Bracket Empty Binary Empty where
  atom
    | .inl o => o.tokens
    | .inr s => .char 40 :: (s.tokens ++ [Token.char 41])
  bracket
    | .plain => [.char 40]
    | .negated => [.char 45, .char 40]
    | .plus => [.char 43, .char 40]
  unary u := u.elim
  binary op := [op.token]
  trailing q := q.elim
  close := [.char 41]

/-- In parentheses, where they are needed. -/
def wrap (needed : Bool) (e : ExpressionTerm) : ExpressionTerm :=
  if needed then .bracket .plain e else e

def Expression.term : Expression → ExpressionTerm
  | .operand o => .atom (.inl o)
  | .subquery s => .atom (.inr s)
  | .binary op left right =>
      .binary (wrap (left.level < op.level) left.term) op
        (wrap (right.level ≤ op.level) right.term)
  | .negation right => .bracket .negated right.term

theorem wrap_text (needed : Bool) (e : ExpressionTerm) :
    (wrap needed e).text spelling = parens needed (e.text spelling) := by
  cases needed <;> rfl

theorem term_text : ∀ e : Expression, e.term.text spelling = e.tokens
  | .operand _ => rfl
  | .subquery s => (Expression.tokens_subquery s).symm
  | .binary op left right => by
      rw [Expression.term, Term.text, wrap_text, wrap_text, term_text left,
        term_text right, Expression.tokens]
      rfl
  | .negation right => by
      rw [Expression.term, Term.text, term_text right, Expression.tokens]
      rfl

theorem toExpression_wrap (needed : Bool) (e : ExpressionTerm) :
    toExpression (wrap needed e) = toExpression e := by
  cases needed <;> rfl

theorem toExpression_term : ∀ e : Expression, toExpression e.term = e
  | .operand _ => rfl
  | .subquery _ => rfl
  | .binary op left right => by
      rw [Expression.term, toExpression, toExpression_wrap, toExpression_wrap,
        toExpression_term left, toExpression_term right]
  | .negation right => by
      rw [Expression.term, toExpression, toExpression_term right]

/-- The operators at the edges of a term are of this level or above. -/
structure Above (n : ℕ) (e : ExpressionTerm) : Prop where
  rules : ∀ r ∈ e.rules, ∃ b, r = .binary b ∧ n ≤ b.level
  ops : ∀ o ∈ e.ops, ∃ b, o = .binary b ∧ n ≤ b.level

theorem Above.bracket (n : ℕ) (p : Bracket) (e : ExpressionTerm) :
    Above n (.bracket p e) :=
  ⟨fun _ h => absurd h List.not_mem_nil, fun _ h => absurd h List.not_mem_nil⟩

theorem Above.atom (n : ℕ) (a : Operand ⊕ Select) : Above n (.atom a) :=
  ⟨fun _ h => absurd h List.not_mem_nil, fun _ h => absurd h List.not_mem_nil⟩

theorem Above.mono {m n : ℕ} {e : ExpressionTerm} (h : Above n e)
    (hmn : m ≤ n) : Above m e where
  rules r hr := by
    obtain ⟨b, hb, hn⟩ := h.rules r hr
    exact ⟨b, hb, Nat.le_trans hmn hn⟩
  ops o ho := by
    obtain ⟨b, hb, hn⟩ := h.ops o ho
    exact ⟨b, hb, Nat.le_trans hmn hn⟩

/-- What is put in parentheses has no open edge. -/
theorem Above.wrap {m n : ℕ} {e : ExpressionTerm} (h : Above n e)
    {needed : Bool} (hn : needed = false → m ≤ n) :
    Above m (wrap needed e) := by
  cases needed with
  | false => exact h.mono (hn rfl)
  | true => exact .bracket m .plain e

theorem Above.binary {op : Binary} {left right : ExpressionTerm}
    (hl : Above op.level left) (hr : Above op.level right) :
    Above op.level (.binary left op right) where
  rules r h := by
    rcases List.mem_append.mp h with h | h
    · exact hr.rules r h
    · exact ⟨op, List.mem_singleton.mp h, Nat.le_refl _⟩
  ops o h := by
    rcases List.mem_append.mp h with h | h
    · exact hl.ops o h
    · exact ⟨op, List.mem_singleton.mp h, Nat.le_refl _⟩

theorem above_left {e : Expression} {op : Binary} (h : Above e.level e.term) :
    Above op.level (wrap (e.level < op.level) e.term) :=
  h.wrap fun hn => Nat.le_of_not_lt (of_decide_eq_false hn)

theorem above_right {e : Expression} {op : Binary} (h : Above e.level e.term) :
    Above (op.level + 1) (wrap (e.level ≤ op.level) e.term) :=
  h.wrap fun hn => Nat.lt_of_not_le (of_decide_eq_false hn)

theorem above_term : ∀ e : Expression, Above e.level e.term
  | .operand _ => .atom _ _
  | .subquery _ => .atom _ _
  | .negation _ => .bracket _ _ _
  | .binary _ left right =>
      .binary (above_left (above_term left))
        ((above_right (above_term right)).mono (Nat.le_succ _))

theorem resolved_wrap {needed : Bool} {e : ExpressionTerm}
    (h : e.Resolved resolveExpression) :
    (wrap needed e).Resolved resolveExpression := by
  cases needed <;> exact h

/-- The operands of an operator are of its level on the left, and above it on
the right. -/
theorem resolved_term : ∀ e : Expression, e.term.Resolved resolveExpression
  | .operand _ => trivial
  | .subquery _ => trivial
  | .negation right => resolved_term right
  | .binary op left right => by
      refine ⟨resolved_wrap (resolved_term left),
        resolved_wrap (resolved_term right), ?_, ?_⟩
      · intro r hr
        obtain ⟨b, rfl, hb⟩ := (above_left (above_term left)).rules r hr
        exact if_neg (Nat.not_lt.mpr hb)
      · intro o ho
        obtain ⟨b, rfl, hb⟩ := (above_right (above_term right)).ops o ho
        exact if_pos hb

/-! ## The reader of expressions -/

/-- What is read is taken off the front. -/
def Shortens {α : Type} (p : Takes α) : Prop :=
  ∀ a ts rest, p ts = some (a, rest) → rest.length < ts.length

theorem identifier_shortens : Shortens identifier := by
  intro s ts rest h
  unfold identifier at h
  split at h
  · cases h
    simp only [List.length_cons]
    omega
  · cases h
  · cases h
    exact Nat.lt_succ_self _
  · cases h

theorem aggregate_shortens : Shortens aggregate := by
  intro o ts rest h
  unfold aggregate at h
  split at h
  · obtain ⟨a, -, heq⟩ := Option.map_eq_some_iff.mp h
    cases heq
    simp only [List.length_cons]
    omega
  · cases h

theorem operand_shortens (ld : LongDouble) : Shortens (operand ld) := by
  intro o ts rest h
  unfold operand at h
  split at h
  case h_12 => exact aggregate_shortens o _ rest h
  case h_13 =>
    obtain ⟨found, hfound, heq⟩ := Option.map_eq_some_iff.mp h
    cases heq
    exact identifier_shortens found.1 ts found.2 hfound
  all_goals
    cases h
    simp only [List.length_cons]
    omega

theorem subquery_shortens (hsub : Shortens sub) : Shortens (subquery sub) := by
  intro s ts rest h
  unfold subquery at h
  split at h
  · split at h
    · next hs =>
        cases h
        have := hsub _ _ _ hs
        simp only [List.length_cons] at this ⊢
        omega
    · cases h
  · cases h

theorem expressionReader_consumes (hsub : Shortens sub) :
    (expressionReader ld sub).Consumes where
  first := by
    intro f ts rest h
    simp only [expressionReader] at h
    split at h
    · obtain ⟨found, hfound, heq⟩ := Option.map_eq_some_iff.mp h
      cases heq
      exact subquery_shortens hsub found.1 _ found.2 hfound
    · cases h
      exact Nat.lt_succ_self _
    · cases h
      simp only [List.length_cons]
      omega
    · cases h
      simp only [List.length_cons]
      omega
    · obtain ⟨found, hfound, heq⟩ := Option.map_eq_some_iff.mp h
      cases heq
      exact operand_shortens ld found.1 _ found.2 hfound
  op := by
    intro o ts rest h
    simp only [expressionReader] at h
    split at h
    · obtain ⟨b, -, heq⟩ := Option.map_eq_some_iff.mp h
      cases heq
      exact Nat.lt_succ_self _
    · cases h
  close := by
    intro ts rest h
    simp only [expressionReader] at h
    split at h
    · cases h
      exact Nat.lt_succ_self _
    · cases h

/-- The text of a query is read, up to the parenthesis behind it. -/
def Queried (sub : Takes Select) (s : Select) : Prop :=
  ∀ rest, sub (s.tokens ++ Token.char 41 :: rest) = some (s, .char 41 :: rest)

theorem select_tokens (s : Select) :
    ∃ ts, s.tokens = .keyword .larxSelect :: ts := by
  cases s with
  | mk quantifier columns table where_clause groupby having_clause forupdate
      nolock orderby =>
      rw [Select.tokens]
      exact ⟨_, rfl⟩

theorem subquery_tokens {s : Select} (hs : Queried sub s) :
    subquery sub (Token.char 40 :: (s.tokens ++ [Token.char 41]) ++ rest) =
      some (s, rest) := by
  rw [List.cons_append, List.append_assoc, List.singleton_append, subquery,
    hs rest]
  rfl

/-- An atom of an expression that is read. -/
def GoodAtom (sub : Takes Select) : Operand ⊕ Select → Prop
  | .inl o => o.Derived
  | .inr s => Queried sub s

theorem spelling_begins (e : ExpressionTerm) :
    ∃ t ts, e.text spelling = t :: ts ∧ Begins t ∧ t ≠ .char 41 := by
  induction e with
  | atom a =>
      cases a with
      | inl o => exact operand_begins o
      | inr s => exact ⟨_, _, rfl, (by rintro k ⟨⟩), by decide⟩
  | bracket p e ih =>
      cases p with
      | plain => exact ⟨_, _, rfl, (by rintro k ⟨⟩), by decide⟩
      | negated => exact ⟨_, _, rfl, (by rintro k ⟨⟩), by decide⟩
      | plus => exact ⟨_, _, rfl, (by rintro k ⟨⟩), by decide⟩
  | unary u e ih => exact u.elim
  | binary left b right ih _ =>
      obtain ⟨t, ts, htext, ht⟩ := ih
      rw [Term.text, htext]
      exact ⟨t, _, rfl, ht⟩
  | trailing e q ih => exact q.elim

theorem first_operand {o : Operand} (ho : o.Derived) (h : Pointless rest) :
    (expressionReader ld sub).first (o.tokens ++ rest) =
      some (.atom (.inl o), rest) := by
  have hfirst : (expressionReader ld sub).first (o.tokens ++ rest) =
      (operand ld (o.tokens ++ rest)).map fun found =>
        (.atom (.inl found.1), found.2) := by
    cases o with
    | integer v =>
        rw [Operand.tokens]
        split <;> rfl
    | _ => rfl
  rw [hfirst, operand_tokens ho h]
  rfl

theorem first_plain (h : t ≠ .keyword .larxSelect) :
    (expressionReader ld sub).first (.char 40 :: t :: ts) =
      some (.bracket .plain, t :: ts) := by
  simp only [expressionReader]
  split
  · next heq =>
      cases heq
      exact absurd rfl h
  · next heq =>
      cases heq
      rfl
  · next heq => cases heq
  · next heq => cases heq
  · next _ hno _ _ => exact absurd rfl (hno _)

theorem op_token :
    (expressionReader ld sub).op (b.token :: rest) =
      some (.binary b, rest) := by
  simp only [expressionReader, binaryOf_token]
  rfl

theorem op_free (h : Free rest) : (expressionReader ld sub).op rest = none := by
  cases rest with
  | nil => rfl
  | cons t rest => simp only [expressionReader, (h t rfl).2]; rfl

theorem token_ne_point (b : Binary) : b.token ≠ .char 46 := by
  cases b <;> decide

theorem expressionReader_complete :
    (expressionReader ld sub).Complete spelling resolveExpression Pointless
      (GoodAtom sub) where
  atom := by
    intro a rest ha h
    cases a with
    | inl o => exact first_operand ha h
    | inr s =>
        obtain ⟨ts, hts⟩ := select_tokens s
        have hread : subquery sub
            (Token.char 40 :: (s.tokens ++ [Token.char 41]) ++ rest) =
              some (s, rest) := subquery_tokens ha
        simp only [spelling, List.cons_append] at hread ⊢
        simp only [hts, List.cons_append, expressionReader] at hread ⊢
        rw [hread]
        rfl
  bracket := by
    intro p rest e he _
    cases p with
    | plain =>
        obtain ⟨t, ts, htext, ht, -⟩ := spelling_begins e
        have hne : t ≠ .keyword .larxSelect := by
          rintro rfl
          exact absurd (ht _ rfl) (by decide)
        rw [htext]
        exact first_plain hne
    | negated => rfl
    | plus => rfl
  unary := by
    intro u
    exact u.elim
  op := by
    intro o rest
    cases o with
    | binary b => exact op_token
    | trailing q => exact q.elim
  op_close := rfl
  close := rfl
  ends_op := by
    intro o rest
    cases o with
    | binary b => exact pointless_cons (token_ne_point b)
    | trailing q => exact q.elim
  ends_close := pointless_cons (by decide)

/-- An expression is read as it is written. -/
theorem expression_tokens (hsub : Shortens sub) {e : Expression}
    (he : e.term.Each (GoodAtom sub)) (h : Free rest) :
    expression ld sub (e.tokens ++ rest) = some (e, rest) := by
  rw [expression, ← term_text, parse_complete (expressionReader_consumes hsub)
    expressionReader_complete (resolved_term e) he h.pointless (op_free h),
    Option.map_some, toExpression_term]

theorem expression_shortens (hsub : Shortens sub) :
    Shortens (expression ld sub) := by
  intro e ts rest h
  obtain ⟨found, hfound, heq⟩ := Option.map_eq_some_iff.mp h
  cases heq
  exact parse_shortens (expressionReader_consumes hsub) hfound

theorem expression_begins (e : Expression) :
    ∃ t ts, e.tokens = t :: ts ∧ Begins t ∧ t ≠ .char 41 := by
  rw [← term_text]
  exact spelling_begins e.term

/-- Behind an expression the machine of expressions finds no parenthesis. -/
theorem fails_expression {e : Expression} (he : e.term.Each (GoodAtom sub))
    (h : Free (t :: ts)) (hclose : t ≠ .char 41) (p : Bracket)
    (stack : Precedence.Stack (Operand ⊕ Select) Bracket Empty Binary Empty) :
    Attains (step (expressionReader ld sub) resolveExpression)
      (fun _ => False) (.need (.bracket p :: stack) (e.tokens ++ t :: ts))
      (· = .failed) := by
  rw [← term_text]
  refine (gets_tip expressionReader_complete (resolved_term e) he h.pointless
    fun _ _ => rfl).trans ?_
  rintro _ rfl
  refine (gets_fill fun r _ => reduces_none (op_free h) r).trans ?_
  rintro _ rfl
  refine .of_step (.here ?_)
  rw [step, op_free h]
  dsimp only
  rw [finish]
  have hnone : (expressionReader ld sub).close (t :: ts) = none := by
    simp only [expressionReader]
    split
    · next heq =>
        cases heq
        exact absurd rfl hclose
    · rfl
  rw [hnone]

theorem aggregatetype_none {k : Keyword} (hk : k ∉ operandKeywords) :
    aggregatetype k = none := by
  cases k <;> first | rfl | exact absurd (by decide) hk

/-- Nor does it find an expression. -/
theorem fails_first {k : Keyword} (hk : k ∉ operandKeywords)
    (stack : Precedence.Stack (Operand ⊕ Select) Bracket Empty Binary Empty) :
    Attains (step (expressionReader ld sub) resolveExpression)
      (fun _ => False) (.need stack (.keyword k :: ts)) (· = .failed) := by
  have hnone : (expressionReader ld sub).first (.keyword k :: ts) = none := by
    have hread : operand ld (.keyword k :: ts) = none := by
      rw [operand]
      · unfold aggregate
        split
        · next heq =>
            cases heq
            rw [aggregatetype_none hk]
            rfl
        · rfl
      all_goals
        rintro rfl
        exact hk (by decide)
    simp only [expressionReader]
    rw [hread]
    rfl
  refine .of_step (.here ?_)
  rw [step, hnone]

/-! ## Lists -/

theorem commas_cons {x : List Token} {xs : List (List Token)} (h : xs ≠ []) :
    commas (x :: xs) = x ++ Token.char 44 :: commas xs := by
  cases xs with
  | nil => exact absurd rfl h
  | cons y xs => rfl

theorem commas_append : ∀ {xs : List (List Token)} {x : List Token},
    xs ≠ [] → commas (xs ++ [x]) = commas xs ++ Token.char 44 :: x
  | [], _, h => absurd rfl h
  | [_], _, _ => rfl
  | x :: y :: xs, z, _ => by
      have htail : commas (y :: xs ++ [z]) =
          commas (y :: xs) ++ Token.char 44 :: z :=
        commas_append (List.cons_ne_nil _ _)
      rw [List.cons_append, commas_cons (by simp), htail,
        commas_cons (List.cons_ne_nil _ _), List.append_assoc]
      rfl

theorem length_commas : ∀ {xs : List (List Token)}, (∀ x ∈ xs, x ≠ []) →
    xs.length ≤ (commas xs).length
  | [], _ => Nat.zero_le _
  | [x], h => List.length_pos_iff.mpr (h x List.mem_cons_self)
  | x :: y :: xs, h => by
      have hrest : (y :: xs).length ≤ (commas (y :: xs)).length :=
        length_commas fun z hz => h z (List.mem_cons_of_mem _ hz)
      rw [commas_cons (List.cons_ne_nil _ _), List.length_append]
      simp only [List.length_cons] at hrest ⊢
      omega

/-- What is between commas is read, if each of it is, whether a comma or the
rest stands behind it. -/
theorem commaList_commas {α : Type} {p : Takes α} {tokens : α → List Token}
    (hrest : ∀ t ∈ rest.head?, t ≠ .char 44) : ∀ {as : List α} {fuel : ℕ},
    as ≠ [] → as.length ≤ fuel →
    (∀ a ∈ as, ∀ ts, ts = rest ∨ ts.head? = some (.char 44) →
      p (tokens a ++ ts) = some (a, ts)) →
    commaList p fuel (commas (as.map tokens) ++ rest) = some (as, rest)
  | [], _, hne, _, _ => absurd rfl hne
  | _ :: _, 0, _, hfuel, _ => absurd hfuel (by simp)
  | [a], fuel + 1, _, _, h => by
      rw [List.map_cons, List.map_nil, commas, commaList,
        h a List.mem_cons_self rest (.inl rfl)]
      cases rest with
      | nil => rfl
      | cons t ts =>
          have hne := hrest t rfl
          split
          · next heq => cases heq
          · next heq =>
              cases heq
              exact absurd rfl hne
          · next heq =>
              cases heq
              rfl
  | a :: b :: as, fuel + 1, _, hfuel, h => by
      have htail : commaList p fuel (commas ((b :: as).map tokens) ++ rest) =
          some (b :: as, rest) :=
        commaList_commas hrest (List.cons_ne_nil b as)
          (Nat.le_of_succ_le_succ hfuel)
          fun a ha => h a (List.mem_cons_of_mem _ ha)
      rw [List.map_cons, commas_cons (by simp), List.append_assoc,
        List.cons_append, commaList, h a List.mem_cons_self _ (.inr rfl)]
      exact congrArg (Option.map fun found => (a :: found.1, found.2)) htail

def ExpressionList.toList : ExpressionList → List Expression
  | .one e => [e]
  | .snoc list e => list.toList ++ [e]

theorem toList_ofList : ∀ list : ExpressionList,
    ∃ e es, list.toList = e :: es ∧ ExpressionList.ofList e es = list
  | .one e => ⟨e, [], rfl, rfl⟩
  | .snoc list e' => by
      obtain ⟨e, es, hlist, hof⟩ := toList_ofList list
      refine ⟨e, es ++ [e'], by rw [ExpressionList.toList, hlist]; rfl, ?_⟩
      rw [← hof, ExpressionList.ofList, List.foldl_append]
      rfl

theorem expressionList_tokens : ∀ list : ExpressionList,
    list.tokens = commas (list.toList.map Expression.tokens)
  | .one e => by rw [ExpressionList.tokens]; rfl
  | .snoc list e => by
      obtain ⟨_, _, hlist, -⟩ := toList_ofList list
      rw [ExpressionList.tokens, ExpressionList.toList, List.map_append,
        List.map_cons, List.map_nil, commas_append,
        expressionList_tokens list]
      rw [hlist]
      exact List.cons_ne_nil _ _

theorem expressionlist_tokens (hsub : Shortens sub) {list : ExpressionList}
    (hlist : ∀ e ∈ list.toList, e.term.Each (GoodAtom sub)) (h : Free rest)
    (hrest : ∀ t ∈ rest.head?, t ≠ .char 44) :
    expressionlist ld sub (list.tokens ++ rest) = some (list, rest) := by
  obtain ⟨e, es, htoList, hof⟩ := toList_ofList list
  have hne : list.toList ≠ [] := by
    rw [htoList]
    exact List.cons_ne_nil _ _
  have hlen : list.toList.length ≤ (list.tokens ++ rest).length := by
    have hall : (list.toList.map Expression.tokens).length ≤
        (commas (list.toList.map Expression.tokens)).length := by
      refine length_commas fun x hx => ?_
      obtain ⟨e', -, rfl⟩ := List.mem_map.mp hx
      obtain ⟨t, ts, htokens, -⟩ := expression_begins e'
      rw [htokens]
      exact List.cons_ne_nil _ _
    rw [List.length_map, ← expressionList_tokens] at hall
    rw [List.length_append]
    omega
  have hread : commaList (expression ld sub) (list.tokens ++ rest).length
      (list.tokens ++ rest) = some (list.toList, rest) := by
    rw [expressionList_tokens] at hlen ⊢
    refine commaList_commas hrest hne hlen fun e' he' ts hts => ?_
    refine expression_tokens hsub (hlist e' he') ?_
    rcases hts with rfl | hts
    · exact h
    · intro t ht
      rw [hts] at ht
      cases ht
      exact ⟨by decide, rfl⟩
  rw [expressionlist, hread, htoList]
  dsimp only
  rw [hof]

/-! ## Predicates -/

/-- An atom of a condition: it is read, and behind a parenthesis it is not
taken for an expression. -/
structure GoodPredicate (ld : LongDouble) (sub : Takes Select)
    (c : Condition) : Prop where
  begins : ∃ t ts, c.tokens = t :: ts ∧ t ≠ .keyword .larxNot ∧
    t ≠ .keyword .larxSelect
  reads : ∀ rest, Free rest →
    predicate ld sub (c.tokens ++ rest) = some (c, rest)
  fails : ∀ p (stack : Precedence.Stack (Operand ⊕ Select) Bracket Empty
    Binary Empty) rest,
    Attains (step (expressionReader ld sub) resolveExpression)
      (fun _ => False) (.need (.bracket p :: stack) (c.tokens ++ rest))
      (· = .failed)

theorem predicate_expression {e : Expression} (hsub : Shortens sub)
    (he : e.term.Each (GoodAtom sub)) (h : Free rest) :
    predicate ld sub (e.tokens ++ rest) = predicateTail ld sub e rest := by
  obtain ⟨t, ts, htokens, ht, -⟩ := expression_begins e
  have hread : expression ld sub (e.tokens ++ rest) = some (e, rest) :=
    expression_tokens hsub he h
  rw [htokens, List.cons_append] at hread ⊢
  rw [predicate, hread]
  all_goals
    intro ts' heq
    cases heq
    exact absurd (ht _ rfl) (by decide)

/-- A predicate that begins with an expression. -/
theorem good_of_tail (hsub : Shortens sub) {e : Expression} {c : Condition}
    (he : e.term.Each (GoodAtom sub)) (htokens : c.tokens = e.tokens ++ t :: ts)
    (hfree : t ≠ .char 46 ∧ binaryOf t = none) (hclose : t ≠ .char 41)
    (hread : ∀ rest, Free rest →
      predicateTail ld sub e (t :: (ts ++ rest)) = some (c, rest)) :
    GoodPredicate ld sub c where
  begins := by
    obtain ⟨t', ts', hbegin, ht, -⟩ := expression_begins e
    refine ⟨t', ts' ++ t :: ts, by rw [htokens, hbegin]; rfl, ?_, ?_⟩
    · rintro rfl
      exact absurd (ht _ rfl) (by decide)
    · rintro rfl
      exact absurd (ht _ rfl) (by decide)
  reads := by
    intro rest h
    rw [htokens, List.append_assoc, List.cons_append,
      predicate_expression hsub he (free_cons hfree.1 hfree.2)]
    exact hread rest h
  fails := by
    intro p stack rest
    rw [htokens, List.append_assoc, List.cons_append]
    exact fails_expression he (free_cons hfree.1 hfree.2) hclose p stack

/-- A predicate that begins with a keyword. -/
theorem good_of_keyword {k : Keyword} {c : Condition}
    (htokens : c.tokens = .keyword k :: ts) (hk : k ∉ operandKeywords)
    (hnot : k ≠ .larxNot) (hselect : k ≠ .larxSelect)
    (hread : ∀ rest, Free rest →
      predicate ld sub (.keyword k :: (ts ++ rest)) = some (c, rest)) :
    GoodPredicate ld sub c where
  begins := by
    refine ⟨_, _, htokens, ?_, ?_⟩
    · exact fun h => hnot (Token.keyword.inj h)
    · exact fun h => hselect (Token.keyword.inj h)
  reads := by
    intro rest h
    rw [htokens]
    exact hread rest h
  fails := by
    intro p stack rest
    rw [htokens]
    exact fails_first hk _

theorem good_comparison (hsub : Shortens sub) {op : Comparison}
    {left right : Expression} (hl : left.term.Each (GoodAtom sub))
    (hr : right.term.Each (GoodAtom sub)) :
    GoodPredicate ld sub (.comparison op left right) := by
  refine good_of_tail hsub hl (by rw [Condition.tokens]) ?_ ?_ ?_
  · cases op <;> exact ⟨by decide, rfl⟩
  · cases op <;> decide
  · intro rest h
    have hread : expression ld sub (right.tokens ++ rest) =
        some (right, rest) := expression_tokens hsub hr h
    cases op <;>
      simp only [Comparison.token, predicateTail, comparisonOf, hread,
        Option.map_some]

theorem betweenexpressions_tokens (hsub : Shortens sub) {negated : Bool}
    {e lower upper : Expression} (hl : lower.term.Each (GoodAtom sub))
    (hu : upper.term.Each (GoodAtom sub)) (h : Free rest) :
    betweenexpressions ld sub negated e (lower.tokens ++
      Token.keyword .larxAnd :: (upper.tokens ++ rest)) =
        some (.between negated e lower upper, rest) := by
  rw [betweenexpressions, expression_tokens hsub hl
    (free_cons (by decide) rfl)]
  dsimp only
  rw [expression_tokens hsub hu h]
  rfl

theorem good_between (hsub : Shortens sub) {negated : Bool}
    {e lower upper : Expression} (he : e.term.Each (GoodAtom sub))
    (hl : lower.term.Each (GoodAtom sub))
    (hu : upper.term.Each (GoodAtom sub)) :
    GoodPredicate ld sub (.between negated e lower upper) := by
  have htokens : (Condition.between negated e lower upper).tokens =
      e.tokens ++ (notTokens negated ++ Token.keyword .larxBetween ::
        (lower.tokens ++ Token.keyword .larxAnd :: upper.tokens)) := by
    rw [Condition.tokens]
  cases negated with
  | false =>
      refine good_of_tail hsub he htokens ⟨by decide, rfl⟩ (by decide)
        fun rest h => ?_
      rw [List.append_assoc, List.cons_append]
      exact betweenexpressions_tokens hsub hl hu h
  | true =>
      refine good_of_tail hsub he htokens ⟨by decide, rfl⟩ (by decide)
        fun rest h => ?_
      have hread : betweenexpressions ld sub true e (lower.tokens ++
          Token.keyword .larxAnd :: (upper.tokens ++ rest)) =
            some (.between true e lower upper, rest) :=
        betweenexpressions_tokens hsub hl hu h
      rw [← List.cons_append, ← List.append_assoc] at hread
      exact hread

theorem good_isnull (hsub : Shortens sub) {negated : Bool} {e : Expression}
    (he : e.term.Each (GoodAtom sub)) :
    GoodPredicate ld sub (.isnull negated e) := by
  cases negated with
  | false =>
      exact good_of_tail hsub he (by rw [Condition.tokens])
        ⟨by decide, rfl⟩ (by decide) fun rest _ => rfl
  | true =>
      exact good_of_tail hsub he (by rw [Condition.tokens])
        ⟨by decide, rfl⟩ (by decide) fun rest _ => rfl

theorem good_like (hsub : Shortens sub) {negated : Bool} {e : Expression}
    {pattern : Bytes} (he : e.term.Each (GoodAtom sub)) :
    GoodPredicate ld sub (.like negated e pattern) := by
  cases negated with
  | false =>
      exact good_of_tail hsub he (by rw [Condition.tokens]; rfl)
        ⟨by decide, rfl⟩ (by decide) fun rest _ => rfl
  | true =>
      exact good_of_tail hsub he (by rw [Condition.tokens]; rfl)
        ⟨by decide, rfl⟩ (by decide) fun rest _ => rfl

theorem inObject_list (hsub : Shortens sub) {negated : Bool} {e : Expression}
    {list : ExpressionList}
    (hlist : ∀ e ∈ list.toList, e.term.Each (GoodAtom sub)) :
    inObject ld sub negated e
      (Token.char 40 :: (list.tokens ++ [Token.char 41]) ++ rest) =
        some (.inList negated e list, rest) := by
  have hread : expressionlist ld sub (list.tokens ++ Token.char 41 :: rest) =
      some (list, .char 41 :: rest) :=
    expressionlist_tokens hsub hlist (free_cons (by decide) rfl)
      (by rintro t ⟨⟩; decide)
  obtain ⟨e', es, htoList, -⟩ := toList_ofList list
  obtain ⟨t, ts, htokens, ht, -⟩ := expression_begins e'
  have hhead : ∃ ts, list.tokens = t :: ts := by
    rw [expressionList_tokens, htoList, List.map_cons]
    cases es with
    | nil => exact ⟨_, htokens⟩
    | cons e'' es =>
        rw [List.map_cons, commas_cons (List.cons_ne_nil _ _), htokens]
        exact ⟨_, rfl⟩
  obtain ⟨ts', hlisttokens⟩ := hhead
  rw [List.cons_append, List.append_assoc, List.singleton_append]
  rw [hlisttokens, List.cons_append] at hread ⊢
  rw [inObject, hread]
  · rfl
  · intro ts' heq
    cases heq
    exact absurd (ht _ rfl) (by decide)

theorem inObject_subquery {negated : Bool} {e : Expression} {s : Select}
    (hs : Queried sub s) :
    inObject ld sub negated e (Token.char 40 :: (s.tokens ++ [Token.char 41]) ++
      rest) = some (.inSubquery negated e s, rest) := by
  have hread : subquery sub (Token.char 40 :: (s.tokens ++ [Token.char 41]) ++
      rest) = some (s, rest) := subquery_tokens hs
  obtain ⟨ts, hts⟩ := select_tokens s
  rw [hts, List.cons_append, List.cons_append, List.cons_append] at hread ⊢
  rw [inObject, hread]
  rfl

theorem good_inList (hsub : Shortens sub) {negated : Bool} {e : Expression}
    {list : ExpressionList} (he : e.term.Each (GoodAtom sub))
    (hlist : ∀ e ∈ list.toList, e.term.Each (GoodAtom sub)) :
    GoodPredicate ld sub (.inList negated e list) := by
  have htokens : (Condition.inList negated e list).tokens = e.tokens ++
      (notTokens negated ++ Token.keyword .larxIn :: .char 40 ::
        (list.tokens ++ [Token.char 41])) := by
    rw [Condition.tokens]
  cases negated with
  | false =>
      exact good_of_tail hsub he htokens ⟨by decide, rfl⟩ (by decide)
        fun rest _ => inObject_list hsub hlist
  | true =>
      exact good_of_tail hsub he htokens ⟨by decide, rfl⟩ (by decide)
        fun rest _ => inObject_list hsub hlist

theorem good_inSubquery (hsub : Shortens sub) {negated : Bool}
    {e : Expression} {s : Select} (he : e.term.Each (GoodAtom sub))
    (hs : Queried sub s) : GoodPredicate ld sub (.inSubquery negated e s) := by
  have htokens : (Condition.inSubquery negated e s).tokens = e.tokens ++
      (notTokens negated ++ Token.keyword .larxIn :: .char 40 ::
        (s.tokens ++ [Token.char 41])) := by
    rw [Condition.tokens]
  cases negated with
  | false =>
      exact good_of_tail hsub he htokens ⟨by decide, rfl⟩ (by decide)
        fun rest _ => inObject_subquery hs
  | true =>
      exact good_of_tail hsub he htokens ⟨by decide, rfl⟩ (by decide)
        fun rest _ => inObject_subquery hs

theorem good_exists {s : Select} (hs : Queried sub s) :
    GoodPredicate ld sub (.exists s) := by
  refine good_of_keyword (Condition.tokens_exists s) (by decide) (by decide)
    (by decide) fun rest _ => ?_
  rw [predicate, subquery_tokens hs]
  rfl

theorem good_unique {s : Select} (hs : Queried sub s) :
    GoodPredicate ld sub (.unique s) := by
  refine good_of_keyword (by rw [Condition.tokens]) (by decide) (by decide)
    (by decide) fun rest _ => ?_
  rw [predicate, subquery_tokens hs]
  rfl

/-! ## Conditions as terms -/

def conditionSpelling :
    Spelling Token Condition Unit Unit Connective Truthvalue where
  atom c := c.tokens
  bracket _ := [.char 40]
  unary _ := [.keyword .larxNot]
  binary
    | .and => [.keyword .larxAnd]
    | .or => [.keyword .larxOr]
  trailing value := [.keyword .larxIs, value.token]
  close := [.char 41]

def wrapCondition (needed : Bool) (c : ConditionTerm) : ConditionTerm :=
  if needed then .bracket () c else c

def Condition.term : Condition → ConditionTerm
  | .truthtest c value =>
      .trailing (wrapCondition (c.shape = .negation ∨ c.shape = .connective)
        c.term) value
  | .not c =>
      .unary () (wrapCondition (c.shape = .truthtest ∨ c.shape = .connective)
        c.term)
  | .and left right =>
      .binary left.term .and
        (wrapCondition (right.shape = .connective) right.term)
  | .or left right =>
      .binary left.term .or
        (wrapCondition (right.shape = .connective) right.term)
  | c => .atom c

theorem wrapCondition_text (needed : Bool) (c : ConditionTerm) :
    (wrapCondition needed c).text conditionSpelling =
      parens needed (c.text conditionSpelling) := by
  cases needed <;> rfl

theorem condition_text :
    ∀ c : Condition, c.term.text conditionSpelling = c.tokens
  | .truthtest c value => by
      rw [Condition.term, Term.text, wrapCondition_text, condition_text c,
        Condition.tokens]
      rfl
  | .not c => by
      rw [Condition.term, Term.text, wrapCondition_text, condition_text c,
        Condition.tokens]
      rfl
  | .and left right => by
      rw [Condition.term, Term.text, wrapCondition_text, condition_text left,
        condition_text right, Condition.tokens]
      rfl
  | .or left right => by
      rw [Condition.term, Term.text, wrapCondition_text, condition_text left,
        condition_text right, Condition.tokens]
      rfl
  | .comparison _ _ _ => rfl
  | .between _ _ _ _ => rfl
  | .isnull _ _ => rfl
  | .inList _ _ _ => rfl
  | .inSubquery _ _ _ => rfl
  | .like _ _ _ => rfl
  | .exists _ => rfl
  | .unique _ => rfl

theorem toCondition_wrap (needed : Bool) (c : ConditionTerm) :
    toCondition (wrapCondition needed c) = toCondition c := by
  cases needed <;> rfl

theorem toCondition_term : ∀ c : Condition, toCondition c.term = c
  | .truthtest c value => by
      rw [Condition.term, toCondition, toCondition_wrap, toCondition_term c]
  | .not c => by
      rw [Condition.term, toCondition, toCondition_wrap, toCondition_term c]
  | .and left right => by
      rw [Condition.term, toCondition, toCondition_wrap,
        toCondition_term left, toCondition_term right]
  | .or left right => by
      rw [Condition.term, toCondition, toCondition_wrap,
        toCondition_term left, toCondition_term right]
  | .comparison _ _ _ => rfl
  | .between _ _ _ _ => rfl
  | .isnull _ _ => rfl
  | .inList _ _ _ => rfl
  | .inSubquery _ _ _ => rfl
  | .like _ _ _ => rfl
  | .exists _ => rfl
  | .unique _ => rfl

/-- No rule is open where the condition ends. -/
theorem rules_term {c : Condition} (hneg : c.shape ≠ .negation)
    (hconn : c.shape ≠ .connective) : c.term.rules = [] := by
  cases c with
  | not c => exact absurd rfl hneg
  | and left right => exact absurd rfl hconn
  | or left right => exact absurd rfl hconn
  | _ => rfl

/-- What it begins with is no AND and no OR of its own. -/
theorem ops_term : ∀ {c : Condition}, c.shape ≠ .connective →
    ∀ o ∈ c.term.ops, c.shape = .truthtest ∧ ∃ value, o = .trailing value
  | .truthtest c value, _, o, ho => by
      refine ⟨rfl, ?_⟩
      rcases List.mem_append.mp ho with ho | ho
      · by_cases hneeded : c.shape = .negation ∨ c.shape = .connective
        · rw [wrapCondition, if_pos (decide_eq_true hneeded)] at ho
          exact absurd ho List.not_mem_nil
        · rw [wrapCondition, if_neg (by simpa using hneeded)] at ho
          exact (ops_term (fun h => hneeded (.inr h)) o ho).2
      · exact ⟨value, List.mem_singleton.mp ho⟩
  | .not c, _, o, ho => absurd ho List.not_mem_nil
  | .and left right, h, _, _ => absurd rfl h
  | .or left right, h, _, _ => absurd rfl h
  | .comparison _ _ _, _, _, ho => absurd ho List.not_mem_nil
  | .between _ _ _ _, _, _, ho => absurd ho List.not_mem_nil
  | .isnull _ _, _, _, ho => absurd ho List.not_mem_nil
  | .inList _ _ _, _, _, ho => absurd ho List.not_mem_nil
  | .inSubquery _ _ _, _, _, ho => absurd ho List.not_mem_nil
  | .like _ _ _, _, _, ho => absurd ho List.not_mem_nil
  | .exists _, _, _, ho => absurd ho List.not_mem_nil
  | .unique _, _, _, ho => absurd ho List.not_mem_nil

theorem resolved_wrapCondition {needed : Bool} {c : ConditionTerm}
    (h : c.Resolved resolveCondition) :
    (wrapCondition needed c).Resolved resolveCondition := by
  cases needed <;> exact h

/-- On the right of a connective. -/
theorem shift_right {c : Condition} {o : Connective} :
    ∀ op ∈ (wrapCondition (c.shape = .connective) c.term).ops,
      resolveCondition (.binary o) op = .shift := by
  intro op hop
  by_cases hneeded : c.shape = .connective
  · rw [wrapCondition, if_pos (decide_eq_true hneeded)] at hop
    exact absurd hop List.not_mem_nil
  · rw [wrapCondition, if_neg (by simpa using hneeded)] at hop
    obtain ⟨-, value, rfl⟩ := ops_term hneeded op hop
    rfl

theorem resolved_condition :
    ∀ c : Condition, c.term.Resolved resolveCondition
  | .truthtest c value => by
      refine ⟨resolved_wrapCondition (resolved_condition c), fun r hr => ?_⟩
      by_cases hneeded : c.shape = .negation ∨ c.shape = .connective
      · rw [wrapCondition, if_pos (decide_eq_true hneeded)] at hr
        exact absurd hr List.not_mem_nil
      · rw [wrapCondition, if_neg (by simpa using hneeded),
          rules_term (fun h => hneeded (.inl h)) fun h => hneeded (.inr h)]
          at hr
        exact absurd hr List.not_mem_nil
  | .not c => by
      refine ⟨resolved_wrapCondition (resolved_condition c), fun o ho => ?_⟩
      by_cases hneeded : c.shape = .truthtest ∨ c.shape = .connective
      · rw [wrapCondition, if_pos (decide_eq_true hneeded)] at ho
        exact absurd ho List.not_mem_nil
      · rw [wrapCondition, if_neg (by simpa using hneeded)] at ho
        exact absurd (ops_term (fun h => hneeded (.inr h)) o ho).1
          fun h => hneeded (.inl h)
  | .and left right =>
      ⟨resolved_condition left,
        resolved_wrapCondition (resolved_condition right),
        (fun r _ => by cases r <;> rfl), shift_right⟩
  | .or left right =>
      ⟨resolved_condition left,
        resolved_wrapCondition (resolved_condition right),
        (fun r _ => by cases r <;> rfl), shift_right⟩
  | .comparison _ _ _ => trivial
  | .between _ _ _ _ => trivial
  | .isnull _ _ => trivial
  | .inList _ _ _ => trivial
  | .inSubquery _ _ _ => trivial
  | .like _ _ _ => trivial
  | .exists _ => trivial
  | .unique _ => trivial

/-! ## The reader of conditions -/

theorem commaList_shortens {α : Type} {p : Takes α} (hp : Shortens p)
    (fuel : ℕ) : Shortens (commaList p fuel) := by
  induction fuel with
  | zero =>
      intro as ts rest h
      cases h
  | succ fuel ih =>
      intro as ts rest h
      rw [commaList] at h
      split at h
      · cases h
      · next a rest' hread =>
          obtain ⟨found, hfound, heq⟩ := Option.map_eq_some_iff.mp h
          cases heq
          have hfirst := hp a ts _ hread
          have hrest := ih found.1 rest' found.2 hfound
          rw [List.length_cons] at hfirst
          omega
      · next a rest' _ hread =>
          cases h
          exact hp a ts _ hread

theorem expressionlist_shortens (hsub : Shortens sub) :
    Shortens (expressionlist ld sub) := by
  intro list ts rest h
  rw [expressionlist] at h
  split at h
  · next hread =>
      cases h
      exact commaList_shortens (expression_shortens hsub) _ _ _ _ hread
  · cases h

theorem betweenexpressions_shortens (hsub : Shortens sub) (negated : Bool)
    (e : Expression) :
    Shortens (betweenexpressions ld sub negated e) := by
  intro c ts rest h
  rw [betweenexpressions] at h
  split at h
  · next lower rest' hread =>
      obtain ⟨found, hfound, heq⟩ := Option.map_eq_some_iff.mp h
      cases heq
      have hlower := expression_shortens hsub _ _ _ hread
      have hupper := expression_shortens hsub _ _ _ hfound
      rw [List.length_cons] at hlower
      omega
  · cases h

theorem inObject_shortens (hsub : Shortens sub) (negated : Bool)
    (e : Expression) : Shortens (inObject ld sub negated e) := by
  intro c ts rest h
  unfold inObject at h
  split at h
  · obtain ⟨found, hfound, heq⟩ := Option.map_eq_some_iff.mp h
    cases heq
    exact subquery_shortens hsub _ _ _ hfound
  · split at h
    · next hread =>
        cases h
        have := expressionlist_shortens hsub _ _ _ hread
        simp only [List.length_cons] at this ⊢
        omega
    · cases h
  · cases h

theorem predicateTail_shortens (hsub : Shortens sub) (e : Expression) :
    Shortens (predicateTail ld sub e) := by
  intro c ts rest h
  unfold predicateTail at h
  split at h
  · exact Nat.lt_succ_of_lt (betweenexpressions_shortens hsub _ _ _ _ _ h)
  · have := betweenexpressions_shortens hsub _ _ _ _ _ h
    simp only [List.length_cons]
    omega
  · cases h
    simp only [List.length_cons]
    omega
  · cases h
    simp only [List.length_cons]
    omega
  · exact Nat.lt_succ_of_lt (inObject_shortens hsub _ _ _ _ _ h)
  · have := inObject_shortens hsub _ _ _ _ _ h
    simp only [List.length_cons]
    omega
  · cases h
    simp only [List.length_cons]
    omega
  · cases h
    simp only [List.length_cons]
    omega
  · split at h
    · cases h
    · obtain ⟨found, hfound, heq⟩ := Option.map_eq_some_iff.mp h
      cases heq
      exact Nat.lt_succ_of_lt (expression_shortens hsub _ _ _ hfound)
  · cases h

theorem predicate_shortens (hsub : Shortens sub) :
    Shortens (predicate ld sub) := by
  intro c ts rest h
  unfold predicate at h
  split at h
  · obtain ⟨found, hfound, heq⟩ := Option.map_eq_some_iff.mp h
    cases heq
    exact Nat.lt_succ_of_lt (subquery_shortens hsub _ _ _ hfound)
  · obtain ⟨found, hfound, heq⟩ := Option.map_eq_some_iff.mp h
    cases heq
    exact Nat.lt_succ_of_lt (subquery_shortens hsub _ _ _ hfound)
  · split at h
    · cases h
    · next e rest' hread =>
        exact Nat.lt_trans (predicateTail_shortens hsub _ _ _ _ h)
          (expression_shortens hsub _ _ _ hread)

theorem conditionReader_consumes (hsub : Shortens sub) :
    (conditionReader ld sub).Consumes where
  first := by
    intro f ts rest h
    simp only [conditionReader] at h
    split at h
    · cases h
      exact Nat.lt_succ_self _
    · split at h
      · next hread =>
          cases h
          exact predicate_shortens hsub _ _ _ hread
      · split at h
        · cases h
          exact Nat.lt_succ_self _
        · cases h
  op := by
    intro o ts rest h
    simp only [conditionReader] at h
    split at h
    · cases h
      exact Nat.lt_succ_self _
    · cases h
      exact Nat.lt_succ_self _
    · obtain ⟨value, -, heq⟩ := Option.map_eq_some_iff.mp h
      cases heq
      simp only [List.length_cons]
      omega
    · cases h
  close := by
    intro ts rest h
    simp only [conditionReader] at h
    split at h
    · cases h
      exact Nat.lt_succ_self _
    · cases h

theorem conditionSpelling_begins {c : ConditionTerm}
    (hc : c.Each (GoodPredicate ld sub)) :
    ∃ t ts, c.text conditionSpelling = t :: ts ∧
      t ≠ .keyword .larxSelect := by
  induction c with
  | atom c =>
      obtain ⟨t, ts, htokens, -, ht⟩ := hc.begins
      exact ⟨t, ts, htokens, ht⟩
  | bracket p c ih => exact ⟨_, _, rfl, by decide⟩
  | unary u c ih => exact ⟨_, _, rfl, by decide⟩
  | binary left o right ih _ =>
      obtain ⟨t, ts, htext, ht⟩ := ih hc.1
      exact ⟨t, _, by rw [Term.text, htext]; rfl, ht⟩
  | trailing c value ih =>
      obtain ⟨t, ts, htext, ht⟩ := ih hc
      exact ⟨t, _, by rw [Term.text, htext]; rfl, ht⟩

/-- Behind a parenthesis that opens a condition no expression is found: the
machine goes down to the first predicate, and there it fails. -/
theorem fails_condition {c : ConditionTerm}
    (hc : c.Each (GoodPredicate ld sub)) (p : Bracket)
    (stack : Precedence.Stack (Operand ⊕ Select) Bracket Empty Binary Empty) :
    Attains (step (expressionReader ld sub) resolveExpression)
      (fun _ => False)
      (.need (.bracket p :: stack) (c.text conditionSpelling ++ rest))
      (· = .failed) := by
  induction c generalizing p stack rest with
  | atom c => exact hc.fails p stack rest
  | bracket q c ih =>
      have hinner : c.Each (GoodPredicate ld sub) := hc
      obtain ⟨t, ts, htext, ht⟩ := conditionSpelling_begins hinner
      refine .of_step ?_
      rw [Term.text, List.append_assoc, List.append_assoc]
      have hfirst : (expressionReader ld sub).first
          ([Token.char 40] ++ (c.text conditionSpelling ++
            (conditionSpelling.close ++ rest))) =
          some (.bracket .plain, c.text conditionSpelling ++
            (conditionSpelling.close ++ rest)) := by
        rw [htext]
        exact first_plain ht
      rw [step]
      simp only [conditionSpelling] at hfirst ⊢
      rw [hfirst]
      exact ih hinner .plain _
  | unary u c ih => exact fails_first (by decide) _
  | binary left o right ih _ =>
      rw [Term.text, List.append_assoc]
      exact ih hc.1 p stack
  | trailing c value ih =>
      rw [Term.text, List.append_assoc]
      exact ih hc p stack

/-- A parenthesis that opens a condition is taken for one. -/
theorem first_parenthesis (hsub : Shortens sub) {c : ConditionTerm}
    (hc : c.Each (GoodPredicate ld sub)) :
    (conditionReader ld sub).first
      (.char 40 :: (c.text conditionSpelling ++ rest)) =
      some (.bracket (), c.text conditionSpelling ++ rest) := by
  obtain ⟨t, ts, htext, ht⟩ := conditionSpelling_begins hc
  have hnone : predicate ld sub
      (.char 40 :: (c.text conditionSpelling ++ rest)) = none := by
    have hread : expression ld sub
        (.char 40 :: (c.text conditionSpelling ++ rest)) = none := by
      rw [expression, parse_of_fails (expressionReader_consumes hsub)]
      · rfl
      · refine .of_step ?_
        rw [step]
        rw [htext, List.cons_append, first_plain ht, ← List.cons_append,
          ← htext]
        exact fails_condition hc .plain []
    rw [predicate, hread]
    all_goals
      intro ts' heq
      cases heq
  simp only [conditionReader]
  rw [hnone]

/-- No connective. -/
def Closed (ts : List Token) : Prop :=
  ∀ t ∈ ts.head?, t ≠ .keyword .larxAnd ∧ t ≠ .keyword .larxOr ∧
    t ≠ .keyword .larxIs

theorem op_closed (h : Closed rest) :
    (conditionReader ld sub).op rest = none := by
  cases rest with
  | nil => rfl
  | cons t rest =>
      obtain ⟨hand, hor, his⟩ := h t rfl
      simp only [conditionReader]
      split
      · next heq =>
          cases heq
          exact absurd rfl hand
      · next heq =>
          cases heq
          exact absurd rfl hor
      · next heq =>
          cases heq
          exact absurd rfl his
      · rfl

theorem conditionReader_complete (hsub : Shortens sub) :
    (conditionReader ld sub).Complete conditionSpelling resolveCondition Free
      (GoodPredicate ld sub) where
  atom := by
    intro c rest hc h
    obtain ⟨t, ts, htokens, ht, -⟩ := hc.begins
    have hread := hc.reads rest h
    simp only [conditionSpelling]
    rw [htokens, List.cons_append] at hread ⊢
    simp only [conditionReader]
    split
    · next heq =>
        cases heq
        exact absurd rfl ht
    · rw [hread]
  bracket := by
    intro p rest c _ hc
    exact first_parenthesis hsub hc
  unary := by
    intro u rest c _ _
    rfl
  op := by
    intro o rest
    cases o with
    | binary b => cases b <;> rfl
    | trailing value => cases value <;> rfl
  op_close := rfl
  close := rfl
  ends_op := by
    intro o rest
    cases o with
    | binary b => cases b <;> exact free_cons (by decide) rfl
    | trailing value => exact free_cons (by decide) rfl
  ends_close := free_cons (by decide) rfl

/-- A condition is read as it is written. -/
theorem searchCondition_tokens (hsub : Shortens sub) {c : Condition}
    (hc : c.term.Each (GoodPredicate ld sub)) (h : Free rest)
    (hclosed : Closed rest) :
    searchCondition ld sub (c.tokens ++ rest) = some (c, rest) := by
  rw [searchCondition, ← condition_text,
    parse_complete (conditionReader_consumes hsub)
      (conditionReader_complete hsub) (resolved_condition c) hc h
      (op_closed hclosed), Option.map_some, toCondition_term]

end Infinisql.Larx
