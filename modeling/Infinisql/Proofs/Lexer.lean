import Infinisql.Spec.Lexer

/-!
# The scanner takes lexemes apart

What the patterns of the rules match, one after the other, `Match`. A lexeme is
matched by its own rule, by no rule before it, and by none with more of the
text, since whatever is matched that begins like it goes on only with a
character of `Continues`.
-/

namespace Infinisql.Larx

open Infinisql.Ref (Bytes FieldInput)
open Infinisql.Ref.Output (ascii)
open Infinisql.Lib

variable {v w rest : Bytes} {b c : UInt8} {a : Action} {l : Lexeme}
  {ls : List Lexeme}

/-! ## Classes of characters -/

theorem toNat_fold (c : UInt8) : (fold c).toNat =
    if 65 ≤ c.toNat ∧ c.toNat ≤ 90 then c.toNat + 32 else c.toNat := by
  simp only [fold, Bool.and_eq_true, decide_eq_true_eq,
    UInt8.le_iff_toNat_le, UInt8.reduceToNat]
  split
  · simp only [UInt8.toNat_add, UInt8.reduceToNat]
    omega
  · rfl

theorem isLetter_iff : isLetter c = true ↔
    65 ≤ c.toNat ∧ c.toNat ≤ 90 ∨ 97 ≤ c.toNat ∧ c.toNat ≤ 122 := by
  simp only [isLetter, Bool.and_eq_true, decide_eq_true_eq,
    UInt8.le_iff_toNat_le, UInt8.reduceToNat, toNat_fold]
  split <;> omega

theorem isDigit_iff :
    isDigit c = true ↔ 48 ≤ c.toNat ∧ c.toNat ≤ 57 := by
  simp only [isDigit, Bool.and_eq_true, decide_eq_true_eq,
    UInt8.le_iff_toNat_le, UInt8.reduceToNat]

theorem isSpace_iff : isSpace c = true ↔
    c.toNat = 32 ∨ c.toNat = 9 ∨ c.toNat = 10 ∨ c.toNat = 13 := by
  simp only [isSpace, Bool.or_eq_true, beq_iff_eq, ← UInt8.toNat_inj,
    UInt8.reduceToNat, or_assoc]

theorem isDigit_of_isLetter (h : isLetter c = true) : isDigit c = false := by
  rw [isLetter_iff] at h
  rw [Bool.eq_false_iff, Ne, isDigit_iff]
  omega

theorem isSpace_of_isLetter (h : isLetter c = true) : isSpace c = false := by
  rw [isLetter_iff] at h
  rw [Bool.eq_false_iff, Ne, isSpace_iff]
  omega

theorem isSpace_of_isDigit (h : isDigit c = true) : isSpace c = false := by
  rw [isDigit_iff] at h
  rw [Bool.eq_false_iff, Ne, isSpace_iff]
  omega

theorem isWord_of_isLetter (h : isLetter c = true) : isWord c = true := by
  rw [isWord, h]
  rfl

/-- A character of a class is none that is not in it. -/
theorem ne_of_class {p : UInt8 → Bool} (h : p c = true) (hb : p b = false) :
    c ≠ b := by
  rintro rfl
  rw [h] at hb
  cases hb

/-- What is checked for each member of a list holds for them. -/
theorem forall_mem_of_all {α : Type} {P : α → Prop} [DecidablePred P]
    {as : List α} (h : (as.all fun a => decide (P a)) = true) :
    ∀ a ∈ as, P a :=
  fun a ha => of_decide_eq_true (List.all_eq_true.mp h a ha)

theorem isLetter_fold (c : UInt8) : isLetter (fold c) = isLetter c := by
  rw [Bool.eq_iff_iff, isLetter_iff, isLetter_iff, toNat_fold]
  split <;> omega

theorem fold_eq (h : isLetter c = false) : fold c = c := by
  rw [Bool.eq_false_iff, Ne, isLetter_iff] at h
  rw [← UInt8.toNat_inj, toNat_fold]
  split <;> omega

theorem isWord_fold (c : UInt8) : isWord (fold c) = isWord c := by
  by_cases h : isLetter c = true
  · rw [isWord_of_isLetter h, isWord_of_isLetter ((isLetter_fold c).trans h)]
  · rw [fold_eq (Bool.eq_false_iff.mpr h)]

theorem eq_of_fold {b c : UInt8} (hc : isLetter c = false)
    (h : fold b = fold c) : b = c := by
  have hb : isLetter b = false := by rw [← isLetter_fold, h, isLetter_fold, hc]
  rwa [fold_eq hb, fold_eq hc] at h

/-! ## What the patterns match -/

theorem matches_chr_iff : (chr c).Matches v ↔ v = [c] := by
  rw [chr, Pattern.matches_one_iff]
  constructor
  · rintro ⟨b, rfl, h⟩
    rw [beq_iff_eq.mp h]
  · rintro rfl
    exact ⟨c, rfl, beq_self_eq_true c⟩

theorem matches_text_iff {s : Bytes} :
    (text s).Matches v ↔ v.map fold = s.map fold := by
  induction s generalizing v with
  | nil =>
      rw [text, List.map_nil, Pattern.each, Pattern.matches_empty_iff,
        List.map_nil, List.map_eq_nil_iff]
  | cons c s ih =>
      rw [text, List.map_cons, Pattern.each, Pattern.matches_cat_iff]
      constructor
      · rintro ⟨v₁, v₂, rfl, h₁, h₂⟩
        obtain ⟨b, rfl, hb⟩ := Pattern.matches_one_iff.mp h₁
        rw [List.singleton_append, List.map_cons, List.map_cons,
          beq_iff_eq.mp hb, ih.mp h₂]
      · intro h
        cases v with
        | nil => cases h
        | cons b v =>
            rw [List.map_cons, List.map_cons] at h
            injection h with hb hv
            exact ⟨[b], v, rfl, .one (beq_iff_eq.mpr hb), ih.mpr hv⟩

theorem matches_star_one_iff {p : UInt8 → Bool} :
    (Pattern.star (.one p)).Matches v ↔ ∀ b ∈ v, p b = true := by
  induction v with
  | nil => exact iff_of_true .nil (by simp)
  | cons b v ih =>
      rw [List.forall_mem_cons, ← ih]
      constructor
      · intro h
        obtain ⟨v₁, v₂, rfl, h₁, h₂⟩ := Pattern.star_cons h
        obtain ⟨c, hc, hp⟩ := Pattern.matches_one_iff.mp h₁
        injection hc with hb hv
        subst hb hv
        exact ⟨hp, h₂⟩
      · rintro ⟨hb, hv⟩
        exact .more (v := [b]) (.one hb) hv

theorem matches_plus_one_iff {p : UInt8 → Bool} :
    (Pattern.plus (.one p)).Matches v ↔ v ≠ [] ∧ ∀ b ∈ v, p b = true := by
  rw [Pattern.plus, Pattern.matches_cat_iff]
  constructor
  · rintro ⟨v₁, v₂, rfl, h₁, h₂⟩
    obtain ⟨b, rfl, hb⟩ := Pattern.matches_one_iff.mp h₁
    rw [matches_star_one_iff] at h₂
    exact ⟨List.cons_ne_nil _ _, List.forall_mem_cons.mpr ⟨hb, h₂⟩⟩
  · rintro ⟨hne, h⟩
    cases v with
    | nil => exact absurd rfl hne
    | cons b v =>
        obtain ⟨hb, hv⟩ := List.forall_mem_cons.mp h
        rw [← matches_star_one_iff] at hv
        exact ⟨[b], v, rfl, .one hb, hv⟩

/-- What follows a character. -/
theorem matches_chr_cat_iff {r : Pattern UInt8} :
    (Pattern.cat (chr c) r).Matches v ↔ ∃ w, v = c :: w ∧ r.Matches w := by
  rw [Pattern.matches_cat_iff]
  constructor
  · rintro ⟨v₁, v₂, rfl, h₁, h₂⟩
    rw [matches_chr_iff] at h₁
    exact ⟨v₂, congrArg (· ++ v₂) h₁, h₂⟩
  · rintro ⟨w, rfl, h⟩
    refine ⟨[c], w, rfl, ?_, h⟩
    rw [matches_chr_iff]

theorem matches_cat_chr_iff {r : Pattern UInt8} :
    (Pattern.cat r (chr c)).Matches v ↔ ∃ w, v = w ++ [c] ∧ r.Matches w := by
  rw [Pattern.matches_cat_iff]
  constructor
  · rintro ⟨v₁, v₂, rfl, h₁, h₂⟩
    rw [matches_chr_iff] at h₂
    exact ⟨v₁, congrArg (v₁ ++ ·) h₂, h₁⟩
  · rintro ⟨w, rfl, h⟩
    refine ⟨w, [c], rfl, h, ?_⟩
    rw [matches_chr_iff]

theorem matches_two (b c : UInt8) :
    (Pattern.cat (chr b) (chr c)).Matches [b, c] := by
  rw [matches_chr_cat_iff]
  refine ⟨[c], rfl, ?_⟩
  rw [matches_chr_iff]

theorem matches_comment_iff : commentPattern.Matches v ↔
    ∃ w, v = 45 :: 45 :: w ∧ ∀ b ∈ w, b ≠ 10 := by
  rw [commentPattern, matches_chr_cat_iff]
  simp only [matches_chr_cat_iff, matches_star_one_iff, bne_iff_ne]
  constructor
  · rintro ⟨w, rfl, u, rfl, h⟩
    exact ⟨u, rfl, h⟩
  · rintro ⟨w, rfl, h⟩
    exact ⟨_, rfl, w, rfl, h⟩

/-- A body of a string, without the first of what it repeats. -/
theorem stringBody_cons (h : stringBody.Matches (b :: v)) :
    b ≠ 39 ∧ stringBody.Matches v ∨
      b = 39 ∧ ∃ w, v = 39 :: w ∧ stringBody.Matches w := by
  obtain ⟨v₁, v₂, rfl, h₁, h₂⟩ := Pattern.star_cons h
  rcases Pattern.matches_alt_iff.mp h₁ with h₁ | h₁
  · rw [matches_chr_cat_iff] at h₁
    obtain ⟨w, hw, h₁⟩ := h₁
    injection hw with hb hv
    subst hb hv
    rw [matches_chr_iff] at h₁
    exact .inr ⟨rfl, v₂, congrArg (· ++ v₂) h₁, h₂⟩
  · obtain ⟨d, hd, hp⟩ := Pattern.matches_one_iff.mp h₁
    injection hd with hb hv
    subst hb hv
    exact .inl ⟨bne_iff_ne.mp hp, h₂⟩

theorem matches_stringBody_iff : stringBody.Matches v ↔ Paired v = true := by
  fun_induction Paired v with
  | case1 => exact iff_of_true .nil rfl
  | case2 b =>
      constructor
      · intro h
        rcases stringBody_cons h with ⟨hb, -⟩ | ⟨-, w, hw, -⟩
        · exact bne_iff_ne.mpr hb
        · cases hw
      · intro hb
        exact .more (v := [b]) (.right (.one hb)) .nil
  | case3 c w ih =>
      rw [Bool.and_eq_true, beq_iff_eq, ← ih]
      constructor
      · intro h
        rcases stringBody_cons h with ⟨hb, -⟩ | ⟨-, u, hu, h⟩
        · exact absurd rfl hb
        · injection hu with hc hw
          subst hc hw
          exact ⟨rfl, h⟩
      · rintro ⟨rfl, h⟩
        exact .more (v := [39, 39]) (.left (matches_two 39 39)) h
  | case4 b c w hb ih =>
      rw [← ih]
      constructor
      · intro h
        rcases stringBody_cons h with ⟨-, h⟩ | ⟨hb', -⟩
        · exact h
        · exact absurd hb' hb
      · intro h
        exact .more (v := [b]) (.right (.one (bne_iff_ne.mpr hb))) h

theorem matches_string_iff : stringPattern.Matches v ↔
    ∃ w, v = 39 :: (w ++ [39]) ∧ Paired w = true := by
  rw [stringPattern, matches_chr_cat_iff]
  simp only [matches_cat_chr_iff, matches_stringBody_iff]
  constructor
  · rintro ⟨u, rfl, w, rfl, h⟩
    exact ⟨w, rfl, h⟩
  · rintro ⟨w, rfl, h⟩
    exact ⟨_, rfl, w, rfl, h⟩

theorem quotedBody_cons (h : quotedBody.Matches (b :: v)) :
    (b = 94 ∨ b = 34) ∧ ∃ w, v = 34 :: w ∧ quotedBody.Matches w := by
  obtain ⟨v₁, v₂, rfl, h₁, h₂⟩ := Pattern.star_cons h
  rcases Pattern.matches_alt_iff.mp h₁ with h₁ | h₁
  all_goals
    rw [matches_chr_cat_iff] at h₁
    obtain ⟨w, hw, h₁⟩ := h₁
    injection hw with hb hv
    subst hb hv
    rw [matches_chr_iff] at h₁
  · exact ⟨.inl rfl, v₂, congrArg (· ++ v₂) h₁, h₂⟩
  · exact ⟨.inr rfl, v₂, congrArg (· ++ v₂) h₁, h₂⟩

theorem matches_quotedBody_iff :
    quotedBody.Matches v ↔ QuotedPairs v = true := by
  fun_induction QuotedPairs v with
  | case1 => exact iff_of_true .nil rfl
  | case2 b =>
      refine iff_of_false (fun h => ?_) Bool.false_ne_true
      obtain ⟨-, w, hw, -⟩ := quotedBody_cons h
      cases hw
  | case3 b c w ih =>
      rw [Bool.and_eq_true, Bool.and_eq_true, Bool.or_eq_true, beq_iff_eq,
        beq_iff_eq, beq_iff_eq, ← ih]
      constructor
      · intro h
        obtain ⟨hb, u, hu, h⟩ := quotedBody_cons h
        injection hu with hc hw
        subst hc hw
        exact ⟨⟨hb, rfl⟩, h⟩
      · rintro ⟨⟨rfl | rfl, rfl⟩, h⟩
        · exact .more (v := [94, 34]) (.left (matches_two 94 34)) h
        · exact .more (v := [34, 34]) (.right (matches_two 34 34)) h

theorem matches_quoted_iff : quotedPattern.Matches v ↔
    ∃ w, v = 34 :: (w ++ [34]) ∧ QuotedPairs w = true := by
  rw [quotedPattern, matches_chr_cat_iff]
  simp only [matches_cat_chr_iff, matches_quotedBody_iff]
  constructor
  · rintro ⟨u, rfl, w, rfl, h⟩
    exact ⟨w, rfl, h⟩
  · rintro ⟨w, rfl, h⟩
    exact ⟨_, rfl, w, rfl, h⟩

theorem matches_float_iff : floatPattern.Matches v ↔
    ∃ ws fs, v = ws ++ 46 :: fs ∧ (∀ b ∈ ws, isDigit b = true) ∧ fs ≠ [] ∧
      ∀ b ∈ fs, isDigit b = true := by
  rw [floatPattern, Pattern.matches_cat_iff]
  simp only [matches_chr_cat_iff, matches_star_one_iff, digits,
    matches_plus_one_iff]
  constructor
  · rintro ⟨ws, u, rfl, hws, fs, rfl, hfs⟩
    exact ⟨ws, fs, rfl, hws, hfs⟩
  · rintro ⟨ws, fs, rfl, hws, hfs⟩
    exact ⟨ws, _, rfl, hws, fs, rfl, hfs⟩

theorem matches_identifier_iff : identifierPattern.Matches v ↔
    ∃ c w, v = c :: w ∧ isLetter c = true ∧ ∀ b ∈ w, isWord b = true := by
  rw [identifierPattern, Pattern.matches_cat_iff]
  simp only [Pattern.matches_one_iff, matches_star_one_iff]
  constructor
  · rintro ⟨u, w, rfl, ⟨c, rfl, hc⟩, hw⟩
    exact ⟨c, w, rfl, hc, hw⟩
  · rintro ⟨c, w, rfl, hc, hw⟩
    exact ⟨[c], w, rfl, ⟨c, rfl, hc⟩, hw⟩

/-! ## Keywords -/

/-- What a keyword is made of: two characters at least, the first of them a
letter, and one keyword has a dash. -/
def IsKeyword (k : String × Token) : Bool :=
  let word := ascii k.1
  word.head?.any isLetter && 2 ≤ word.length && word.all fun c =>
    isWord c || c == 45 && k.1 == "END-EXEC" &&
      k.2 == .reserved (ascii "END-EXEC")

theorem isKeyword_table : keywordTable.all IsKeyword = true := by
  decide +kernel

variable {k : String × Token}

theorem isKeyword (hk : k ∈ keywordTable) :
    ((ascii k.1).head?.any isLetter = true ∧ 2 ≤ (ascii k.1).length) ∧
      ∀ c ∈ ascii k.1, isWord c = true ∨
        (c = 45 ∧ k.1 = "END-EXEC") ∧ k.2 = .reserved (ascii "END-EXEC") := by
  have hprops := List.all_eq_true.mp isKeyword_table k hk
  simpa only [IsKeyword, Bool.and_eq_true, Bool.or_eq_true, beq_iff_eq,
    List.all_eq_true, decide_eq_true_eq] using hprops

theorem isLetter_of_keyword (hk : k ∈ keywordTable)
    (hv : v.map fold = (ascii k.1).map fold) :
    ∃ c w, v = c :: w ∧ isLetter c = true := by
  obtain ⟨⟨hhead, -⟩, -⟩ := isKeyword hk
  cases hs : ascii k.1 with
  | nil =>
      rw [hs] at hhead
      cases hhead
  | cons d s =>
      rw [hs, List.map_cons] at hv
      rw [hs] at hhead
      obtain ⟨c, w, rfl, hc, -⟩ := List.map_eq_cons_iff.mp hv
      refine ⟨c, w, rfl, ?_⟩
      rw [← isLetter_fold, hc, isLetter_fold]
      exact hhead

theorem keyword_chars (hk : k ∈ keywordTable)
    (hv : v.map fold = (ascii k.1).map fold) {b : UInt8} (hb : b ∈ v) :
    isWord b = true ∨
      (b = 45 ∧ k.1 = "END-EXEC") ∧ k.2 = .reserved (ascii "END-EXEC") := by
  have hmem : fold b ∈ (ascii k.1).map fold := hv ▸ List.mem_map_of_mem hb
  obtain ⟨d, hd, hfold⟩ := List.mem_map.mp hmem
  rcases (isKeyword hk).2 d hd with hword | ⟨⟨rfl, hend⟩, htoken⟩
  · rw [← isWord_fold, ← hfold, isWord_fold]
    exact .inl hword
  · exact .inr ⟨⟨eq_of_fold rfl hfold.symm, hend⟩, htoken⟩

/-! ## What the rules match -/

/-- Which rules a first character leaves. -/
inductive Kind
  | letter
  | digit
  | space
  | dash
  | quote
  | doubleQuote
  | colon
  | point
  | relation
  | plain
  deriving DecidableEq

def kind (c : UInt8) : Kind :=
  if isLetter c then .letter else if isDigit c then .digit
  else if isSpace c then .space else if c = 45 then .dash
  else if c = 39 then .quote else if c = 34 then .doubleQuote
  else if c = 58 then .colon else if c = 46 then .point
  else if c = 60 ∨ c = 62 ∨ c = 124 then .relation else .plain

theorem kind_letter (h : isLetter c = true) : kind c = .letter := if_pos h

theorem kind_digit (h : isDigit c = true) : kind c = .digit := by
  have hletter : ¬ isLetter c = true := fun hl => by
    rw [isDigit_of_isLetter hl] at h
    cases h
  rw [kind, if_neg hletter, if_pos h]

theorem kind_space (h : isSpace c = true) : kind c = .space := by
  have hletter : ¬ isLetter c = true := fun hl => by
    rw [isSpace_of_isLetter hl] at h
    cases h
  have hdigit : ¬ isDigit c = true := fun hd => by
    rw [isSpace_of_isDigit hd] at h
    cases h
  rw [kind, if_neg hletter, if_neg hdigit, if_pos h]

/-- The two characters of an operator. -/
def operators : List (UInt8 × UInt8 × Token) :=
  [(60, 62, .ne), (62, 61, .gte), (60, 61, .lte), (124, 124, .concat)]

/-- A rule, by what it does, that has matched `c :: v`. -/
inductive Match (c : UInt8) (v : Bytes) : Action → Prop
  | keyword (k : String × Token) (hk : k ∈ keywordTable)
      (hv : (c :: v).map fold = (ascii k.1).map fold)
      (hc : kind c = .letter) : Match c v (.token k.2)
  | identifier (hv : ∀ b ∈ v, isWord b = true) (hc : kind c = .letter) :
      Match c v .identifier
  | integer (hv : ∀ b ∈ v, isDigit b = true) (hc : kind c = .digit) :
      Match c v .intval
  | float (ws fs : Bytes) (hv : v = ws ++ 46 :: fs)
      (hws : ∀ b ∈ ws, isDigit b = true) (hne : fs ≠ [])
      (hfs : ∀ b ∈ fs, isDigit b = true) (hc : kind c = .digit) :
      Match c v .floatval
  | fraction (hne : v ≠ []) (hv : ∀ b ∈ v, isDigit b = true)
      (hc : kind c = .point) : Match c v .floatval
  | parameter (hne : v ≠ []) (hv : ∀ b ∈ v, isDigit b = true)
      (hc : kind c = .colon) : Match c v .parameter
  | space (hv : ∀ b ∈ v, isSpace b = true) (hc : kind c = .space) :
      Match c v .space
  | comment (w : Bytes) (hv : v = 45 :: w) (hw : ∀ b ∈ w, b ≠ 10)
      (hc : kind c = .dash) : Match c v .comment
  | string (w : Bytes) (hv : v = w ++ [39]) (hw : Paired w = true)
      (hc : kind c = .quote) : Match c v .stringval
  | quoted (w : Bytes) (hv : v = w ++ [34]) (hw : QuotedPairs w = true)
      (hc : kind c = .doubleQuote) : Match c v .quoted
  | operator (d : UInt8) (t : Token) (hv : v = [d])
      (ht : (c, d, t) ∈ operators) (hc : kind c = .relation) :
      Match c v (.token t)
  | char (hv : v = []) (hc : c ∈ characters) : Match c v (.token (.char c))
  | badCharacter (hv : v = []) : Match c v .badCharacter

/-- Whatever a rule matches. -/
def Matched (v : Bytes) (a : Action) : Prop := ∃ c w, v = c :: w ∧ Match c w a

theorem matched_operator {s : String} {b d : UInt8} {t : Token}
    (hs : ascii s = [b, d]) (hd : isLetter d = false)
    (ht : (b, d, t) ∈ operators) (hb : kind b = .relation)
    (h : (text (ascii s)).Matches v) : Matched v (.token t) := by
  have hletter : isLetter b = false := by
    cases hl : isLetter b with
    | false => rfl
    | true => rw [kind_letter hl] at hb; cases hb
  rw [matches_text_iff, hs, List.map_cons] at h
  obtain ⟨b', v, rfl, hb', h⟩ := List.map_eq_cons_iff.mp h
  obtain ⟨d', v, rfl, hd', h⟩ := List.map_eq_cons_iff.mp h
  rw [List.map_eq_nil_iff.mp h, eq_of_fold hletter hb', eq_of_fold hd hd']
  exact ⟨b, [d], rfl, .operator d t rfl ht hb⟩

theorem matched_number {ws fs : Bytes} (hws : ∀ b ∈ ws, isDigit b = true)
    (hne : fs ≠ []) (hfs : ∀ b ∈ fs, isDigit b = true) :
    Matched (ws ++ 46 :: fs) .floatval := by
  cases ws with
  | nil => exact ⟨46, fs, rfl, .fraction hne hfs (by decide)⟩
  | cons d ws =>
      obtain ⟨hd, hws⟩ := List.forall_mem_cons.mp hws
      exact ⟨d, ws ++ 46 :: fs, rfl,
        .float ws fs rfl hws hne hfs (kind_digit hd)⟩

theorem matched_of_plus {p : UInt8 → Bool}
    (h : (Pattern.plus (.one p)).Matches v) :
    ∃ c w, v = c :: w ∧ p c = true ∧ ∀ b ∈ w, p b = true := by
  obtain ⟨hne, hv⟩ := matches_plus_one_iff.mp h
  cases v with
  | nil => exact absurd rfl hne
  | cons c w =>
      obtain ⟨hc, hw⟩ := List.forall_mem_cons.mp hv
      exact ⟨c, w, rfl, hc, hw⟩

theorem matched_of_rule {rule : Pattern UInt8 × Action} (hrule : rule ∈ rules)
    (h : rule.1.Matches v) : Matched v rule.2 := by
  rw [rules, List.mem_append, List.mem_append, List.mem_append] at hrule
  rcases hrule with ((hrule | hrule) | hrule) | hrule
  · obtain ⟨k, hk, rfl⟩ := List.mem_map.mp hrule
    have hv := matches_text_iff.mp h
    obtain ⟨c, w, rfl, hc⟩ := isLetter_of_keyword hk hv
    exact ⟨c, w, rfl, .keyword k hk hv (kind_letter hc)⟩
  · simp only [literalRules, List.mem_cons, List.not_mem_nil, or_false]
      at hrule
    rcases hrule with rfl | rfl | rfl | rfl | rfl | rfl | rfl | rfl | rfl |
      rfl | rfl
    · obtain ⟨w, rfl, hw⟩ := matches_comment_iff.mp h
      exact ⟨45, 45 :: w, rfl, .comment w rfl hw (by decide)⟩
    · obtain ⟨w, rfl, hw⟩ := matches_string_iff.mp h
      exact ⟨39, w ++ [39], rfl, .string w rfl hw (by decide)⟩
    · obtain ⟨w, rfl, hw⟩ := matches_chr_cat_iff.mp h
      exact ⟨58, w, rfl, .parameter (matches_plus_one_iff.mp hw).1
        (matches_plus_one_iff.mp hw).2 (by decide)⟩
    · obtain ⟨c, w, rfl, hc, hw⟩ := matched_of_plus h
      exact ⟨c, w, rfl, .integer hw (kind_digit hc)⟩
    · obtain ⟨ws, fs, rfl, hws, hne, hfs⟩ := matches_float_iff.mp h
      exact matched_number hws hne hfs
    · obtain ⟨c, w, rfl, hc, hw⟩ := matches_identifier_iff.mp h
      exact ⟨c, w, rfl, .identifier hw (kind_letter hc)⟩
    · obtain ⟨w, rfl, hw⟩ := matches_quoted_iff.mp h
      exact ⟨34, w ++ [34], rfl, .quoted w rfl hw (by decide)⟩
    all_goals
      exact matched_operator rfl (by decide) (by decide) (by decide) h
  · obtain ⟨c, hc, rfl⟩ := List.mem_map.mp hrule
    exact ⟨c, [], matches_chr_iff.mp h, .char rfl hc⟩
  · simp only [List.mem_cons, List.not_mem_nil, or_false] at hrule
    rcases hrule with rfl | rfl
    · obtain ⟨c, w, rfl, hc, hw⟩ := matched_of_plus h
      exact ⟨c, w, rfl, .space hw (kind_space hc)⟩
    · obtain ⟨c, rfl, -⟩ := Pattern.matches_one_iff.mp h
      exact ⟨c, [], rfl, .badCharacter rfl⟩

/-! ## What a lexeme goes on with -/

variable {x : Bytes}

/-- Two first characters of different kinds. -/
theorem Match.kind_ne {m n : Kind} (hm : kind c = m) (hn : kind c = n)
    (hne : m ≠ n) : False := hne (hm.symm.trans hn)

theorem append_cons_ne_nil : v ++ b :: x ≠ [] := by simp

theorem mem_append_cons : b ∈ v ++ b :: x := by simp

/-- What the dash in the only keyword with one stands behind. -/
theorem fold_of_dash (hw : ∀ b ∈ w, isWord b = true)
    (h : (w ++ 45 :: x).map fold = (ascii "END-EXEC").map fold) :
    w.map fold = ascii "end" := by
  rw [List.map_append, List.map_cons] at h
  have htake := congrArg (List.takeWhile fun b => b != 45) h
  have hkeep : ∀ b ∈ w.map fold, (b != 45) = true := by
    intro b hb
    obtain ⟨d, hd, rfl⟩ := List.mem_map.mp hb
    refine bne_iff_ne.mpr (ne_of_class (p := isWord) ?_ (by decide))
    rw [isWord_fold]
    exact hw d hd
  rw [List.takeWhile_append_of_pos hkeep, List.takeWhile_cons_of_neg (by decide),
    List.append_nil] at htake
  rw [htake]
  decide

theorem word_continues (hw : (Lexeme.word w).Valid)
    (h : Matched (w ++ b :: x) a) : (Lexeme.word w).Continues b := by
  obtain ⟨⟨c, hc, hletter⟩, hall⟩ := hw
  obtain ⟨w', rfl⟩ := List.head?_eq_some_iff.mp hc
  obtain ⟨c', u, heq, hm⟩ := h
  rw [List.cons_append] at heq
  injection heq with hc' hu
  subst hc' hu
  have hkind := kind_letter hletter
  cases hm with
  | keyword k hk hv =>
      rcases keyword_chars hk hv (List.mem_cons_of_mem _ mem_append_cons) with
        hword | ⟨⟨rfl, hend⟩, -⟩
      · exact .inl hword
      · rw [hend, ← List.cons_append] at hv
        exact .inr ⟨rfl, fold_of_dash hall hv⟩
  | identifier hv => exact .inl (hv b mem_append_cons)
  | char hv => exact absurd hv append_cons_ne_nil
  | badCharacter hv => exact absurd hv append_cons_ne_nil
  | _ =>
      rename_i hk
      exact (Match.kind_ne hkind hk (by decide)).elim

theorem integer_continues {ds : Bytes} (hds : (Lexeme.integer ds).Valid)
    (h : Matched (ds ++ b :: x) a) : (Lexeme.integer ds).Continues b := by
  obtain ⟨hne, hall⟩ := hds
  cases ds with
  | nil => exact absurd rfl hne
  | cons d ds =>
      obtain ⟨hd, hds⟩ := List.forall_mem_cons.mp hall
      obtain ⟨c, u, heq, hm⟩ := h
      rw [List.cons_append] at heq
      injection heq with hc hu
      subst hc hu
      have hkind := kind_digit hd
      cases hm with
      | integer hv => exact .inl (hv b mem_append_cons)
      | float ws fs hv hws hne hfs =>
          have hmem : b ∈ ws ++ 46 :: fs := hv ▸ mem_append_cons
          rcases List.mem_append.mp hmem with hb | hb
          · exact .inl (hws b hb)
          · rcases List.mem_cons.mp hb with hb | hb
            · exact .inr hb
            · exact .inl (hfs b hb)
      | char hv => exact absurd hv append_cons_ne_nil
      | badCharacter hv => exact absurd hv append_cons_ne_nil
      | _ =>
          rename_i hk
          exact (Match.kind_ne hkind hk (by decide)).elim

/-- A number has one point. -/
theorem isDigit_of_float {ws fs ws' fs' : Bytes}
    (hws : ∀ b ∈ ws', isDigit b = true) (hfs : ∀ b ∈ fs', isDigit b = true)
    (h : ws ++ 46 :: fs ++ b :: x = ws' ++ 46 :: fs') : isDigit b = true := by
  have hpoint : isDigit 46 ≠ true := by decide
  have hnone : ∀ u : Bytes, (∀ b ∈ u, isDigit b = true) → u.count 46 = 0 :=
    fun u hu => List.count_eq_zero.mpr fun hmem => hpoint (hu 46 hmem)
  have hcount := congrArg (List.count 46) h
  simp only [List.count_append, List.count_cons_self, hnone ws' hws,
    hnone fs' hfs] at hcount
  have hmem : b ∈ ws' ++ 46 :: fs' := h ▸ mem_append_cons
  rcases List.mem_append.mp hmem with hb | hb
  · exact hws b hb
  · rcases List.mem_cons.mp hb with rfl | hb
    · rw [List.count_cons_self] at hcount
      omega
    · exact hfs b hb

theorem float_continues {ws fs : Bytes} (hl : (Lexeme.float ws fs).Valid)
    (h : Matched ((Lexeme.float ws fs).text ++ b :: x) a) :
    isDigit b = true := by
  obtain ⟨hws, hne, hfs⟩ := hl
  obtain ⟨c, u, heq, hm⟩ := h
  rw [Lexeme.text] at heq
  have hpoint : isDigit 46 ≠ true := by decide
  cases ws with
  | nil =>
      rw [List.nil_append, List.cons_append] at heq
      injection heq with hc hu
      subst hc hu
      have hkind : kind 46 = .point := by decide
      cases hm with
      | fraction hne hv => exact hv b mem_append_cons
      | char hv => exact absurd hv append_cons_ne_nil
      | badCharacter hv => exact absurd hv append_cons_ne_nil
      | _ =>
          rename_i hk
          exact (Match.kind_ne hkind hk (by decide)).elim
  | cons d ws =>
      have hd := hws d List.mem_cons_self
      rw [List.cons_append, List.cons_append] at heq
      injection heq with hc hu
      subst hc hu
      have hkind := kind_digit hd
      cases hm with
      | integer hv =>
          exact absurd (hv 46 (List.mem_append_left _ mem_append_cons)) hpoint
      | float ws' fs' hv hws' hne hfs' => exact isDigit_of_float hws' hfs' hv
      | char hv => exact absurd hv append_cons_ne_nil
      | badCharacter hv => exact absurd hv append_cons_ne_nil
      | _ =>
          rename_i hk
          exact (Match.kind_ne hkind hk (by decide)).elim

theorem paired_cases (h : Paired (b :: v) = true) :
    b ≠ 39 ∧ Paired v = true ∨
      b = 39 ∧ ∃ w, v = 39 :: w ∧ Paired w = true := by
  rw [← matches_stringBody_iff] at h
  simp only [← matches_stringBody_iff]
  exact stringBody_cons h

/-- Behind a text with its quotes in pairs there is a quote, and the whole has
its quotes in pairs but for the last: then the one is followed by another. -/
theorem quote_of_paired : ∀ {w u : Bytes}, Paired w = true →
    Paired u = true → w ++ 39 :: b :: x = u ++ [39] → b = 39
  | [], [], _, _, h => by cases h
  | [], e :: u, _, hu, h => by
      injection h with he h
      subst he
      rcases paired_cases hu with ⟨hne, -⟩ | ⟨-, u', rfl, -⟩
      · exact absurd rfl hne
      · injection h
  | d :: w, [], _, _, h => by
      injection h with _ h
      exact absurd h append_cons_ne_nil
  | d :: w, e :: u, hw, hu, h => by
      injection h with he h
      subst he
      rcases paired_cases hw with ⟨hne, hw'⟩ | ⟨heq, w', rfl, hw'⟩
      · rcases paired_cases hu with ⟨-, hu'⟩ | ⟨heq, -⟩
        · exact quote_of_paired hw' hu' h
        · exact absurd heq hne
      · rcases paired_cases hu with ⟨hne, -⟩ | ⟨-, u', rfl, hu'⟩
        · exact absurd heq hne
        · injection h with _ h
          exact quote_of_paired hw' hu' h

theorem quotedPairs_mem : ∀ {w : Bytes}, QuotedPairs w = true →
    ∀ b ∈ w, b = 34 ∨ b = 94 := by
  intro w
  fun_induction QuotedPairs w with
  | case1 => exact fun _ b hb => absurd hb List.not_mem_nil
  | case2 b => exact fun h => absurd h Bool.false_ne_true
  | case3 c d w ih =>
      intro h b hb
      rw [Bool.and_eq_true, Bool.and_eq_true, Bool.or_eq_true, beq_iff_eq,
        beq_iff_eq, beq_iff_eq] at h
      obtain ⟨⟨hc, rfl⟩, hw⟩ := h
      rcases List.mem_cons.mp hb with rfl | hb
      · exact hc.symm
      · rcases List.mem_cons.mp hb with rfl | hb
        · exact .inl rfl
        · exact ih hw b hb

theorem string_continues (hw : Paired w = true)
    (h : Matched (39 :: (w ++ [39]) ++ b :: x) a) : b = 39 := by
  obtain ⟨c, u, heq, hm⟩ := h
  rw [List.cons_append, List.append_assoc, List.singleton_append] at heq
  injection heq with hc hu
  subst hc hu
  have hkind : kind 39 = .quote := by decide
  cases hm with
  | string u hv hu => exact quote_of_paired hw hu hv
  | char hv => exact absurd hv append_cons_ne_nil
  | badCharacter hv => exact absurd hv append_cons_ne_nil
  | _ =>
      rename_i hk
      exact (Match.kind_ne hkind hk (by decide)).elim

theorem quoted_continues
    (h : Matched (34 :: (w ++ [34]) ++ b :: x) a) : b = 34 ∨ b = 94 := by
  obtain ⟨c, u, heq, hm⟩ := h
  rw [List.cons_append] at heq
  injection heq with hc hu
  subst hc hu
  have hkind : kind 34 = .doubleQuote := by decide
  cases hm with
  | quoted u hv hu =>
      have hmem : b ∈ u ++ [34] := hv ▸ mem_append_cons
      rcases List.mem_append.mp hmem with hb | hb
      · exact quotedPairs_mem hu b hb
      · exact .inl (List.mem_singleton.mp hb)
  | char hv => exact absurd hv append_cons_ne_nil
  | badCharacter hv => exact absurd hv append_cons_ne_nil
  | _ =>
      rename_i hk
      exact (Match.kind_ne hkind hk (by decide)).elim

theorem parameter_continues {ds : Bytes} (h : Matched (58 :: ds ++ b :: x) a) :
    isDigit b = true := by
  obtain ⟨c, u, heq, hm⟩ := h
  rw [List.cons_append] at heq
  injection heq with hc hu
  subst hc hu
  have hkind : kind 58 = .colon := by decide
  cases hm with
  | parameter hne hv => exact hv b mem_append_cons
  | char hv => exact absurd hv append_cons_ne_nil
  | badCharacter hv => exact absurd hv append_cons_ne_nil
  | _ =>
      rename_i hk
      exact (Match.kind_ne hkind hk (by decide)).elim

theorem space_continues (hw : (Lexeme.space w).Valid)
    (h : Matched (w ++ b :: x) a) : isSpace b = true := by
  obtain ⟨hne, hall⟩ := hw
  cases w with
  | nil => exact absurd rfl hne
  | cons d w =>
      obtain ⟨c, u, heq, hm⟩ := h
      rw [List.cons_append] at heq
      injection heq with hc hu
      subst hc hu
      have hkind := kind_space (hall d List.mem_cons_self)
      cases hm with
      | space hv => exact hv b mem_append_cons
      | char hv => exact absurd hv append_cons_ne_nil
      | badCharacter hv => exact absurd hv append_cons_ne_nil
      | _ =>
          rename_i hk
          exact (Match.kind_ne hkind hk (by decide)).elim

theorem comment_continues (h : Matched (45 :: 45 :: w ++ b :: x) a) :
    b ≠ 10 := by
  obtain ⟨c, u, heq, hm⟩ := h
  rw [List.cons_append] at heq
  injection heq with hc hu
  subst hc hu
  have hkind : kind 45 = .dash := by decide
  cases hm with
  | comment u hv hu =>
      rw [List.cons_append] at hv
      injection hv with _ hv
      exact hu b (hv ▸ mem_append_cons)
  | char hv => exact absurd hv (List.cons_ne_nil _ _)
  | badCharacter hv => exact absurd hv (List.cons_ne_nil _ _)
  | _ =>
      rename_i hk
      exact (Match.kind_ne hkind hk (by decide)).elim

/-- An operator of two characters is not the beginning of anything. -/
theorem operator_continues {d : UInt8} (hc : kind c = .relation)
    (h : Matched ([c, d] ++ b :: x) a) : False := by
  obtain ⟨c', u, heq, hm⟩ := h
  injection heq with hc' hu
  subst hc' hu
  cases hm with
  | operator e t hv => cases hv
  | char hv => cases hv
  | badCharacter hv => cases hv
  | _ =>
      rename_i hk
      exact Match.kind_ne hc hk (by decide)

theorem char_kind : ∀ c ∈ characters, kind c ≠ .letter ∧ kind c ≠ .digit ∧
    kind c ≠ .space ∧ (kind c = .quote → c = 39) ∧
    (kind c = .doubleQuote → c = 34) ∧ (kind c = .colon → c = 58) ∧
    (kind c = .point → c = 46) ∧ (kind c = .dash → c = 45) :=
  forall_mem_of_all (by decide)

theorem char_continues (hl : (Lexeme.char c).Valid)
    (h : Matched ([c] ++ b :: x) a) : (Lexeme.char c).Continues b := by
  obtain ⟨hmem, hdouble, hquote⟩ := hl
  obtain ⟨hletter, hdigit, hspace, hkquote, hkdouble, hkcolon, hkpoint,
    hkdash⟩ := char_kind c hmem
  obtain ⟨c', u, heq, hm⟩ := h
  injection heq with hc hu
  subst hc hu
  cases hm with
  | keyword k hk hv hc => exact absurd hc hletter
  | identifier hv hc => exact absurd hc hletter
  | integer hv hc => exact absurd hc hdigit
  | float ws fs hv hws hne hfs hc => exact absurd hc hdigit
  | fraction hne hv hc =>
      exact .inr (.inl ⟨hkpoint hc, hv b List.mem_cons_self⟩)
  | parameter hne hv hc =>
      exact .inr (.inr (.inl ⟨hkcolon hc, hv b List.mem_cons_self⟩))
  | space hv hc => exact absurd hc hspace
  | comment w hv hw hc =>
      injection hv with hb _
      exact .inl ⟨hkdash hc, hb⟩
  | string w hv hw hc => exact absurd (hkquote hc) hquote
  | quoted w hv hw hc => exact absurd (hkdouble hc) hdouble
  | operator d t hv ht hc =>
      injection hv with hb _
      subst hb
      simp only [operators, List.mem_cons, Prod.mk.injEq, List.not_mem_nil,
        or_false] at ht
      rcases ht with ⟨rfl, rfl, -⟩ | ⟨rfl, rfl, -⟩ | ⟨rfl, rfl, -⟩ |
        ⟨rfl, rfl, -⟩
      · exact .inr (.inr (.inr (.inl ⟨rfl, .inr rfl⟩)))
      · exact .inr (.inr (.inr (.inr (.inl ⟨rfl, rfl⟩))))
      · exact .inr (.inr (.inr (.inl ⟨rfl, .inl rfl⟩)))
      · exact .inr (.inr (.inr (.inr (.inr ⟨rfl, rfl⟩))))
  | char hv => cases hv
  | badCharacter hv => cases hv

theorem continues_of_matched (hl : l.Valid) (h : Matched (l.text ++ b :: x) a) :
    l.Continues b := by
  cases l with
  | word w => exact word_continues hl h
  | quoted w => exact quoted_continues h
  | string w => exact string_continues hl h
  | integer ds => exact integer_continues hl h
  | float ws fs => exact float_continues hl h
  | parameter ds => exact parameter_continues h
  | char c => exact char_continues hl h
  | space w => exact space_continues hl h
  | comment w => exact comment_continues h
  | ne => exact operator_continues (c := 60) (d := 62) (by decide) h
  | gte => exact operator_continues (c := 62) (d := 61) (by decide) h
  | lte => exact operator_continues (c := 60) (d := 61) (by decide) h
  | concat => exact operator_continues (c := 124) (d := 124) (by decide) h

theorem ends_of_apart (hl : l.Valid)
    (h : ∀ b ∈ rest.head?, ¬ l.Continues b) : Rules.Ends rules l.text rest := by
  intro rule hrule x y hxy hne hmatch
  cases x with
  | nil => exact absurd rfl hne
  | cons b x =>
      refine h b ?_ (continues_of_matched hl (matched_of_rule hrule hmatch))
      rw [hxy]
      rfl

/-! ## Which rule comes first -/

/-- The rules before the last. -/
def properRules : Rules UInt8 Action :=
  keywordRules ++ literalRules ++ characterRules ++
    [(Pattern.plus (.one isSpace), Action.space)]

theorem rules_eq :
    rules = properRules ++
      [(Pattern.one (· != 10), Action.badCharacter)] := by
  simp only [rules, properRules, List.append_assoc, List.cons_append,
    List.nil_append]

theorem properRules_action {rule : Pattern UInt8 × Action}
    (h : rule ∈ properRules) : rule.2 ≠ .badCharacter := by
  rw [properRules, List.mem_append, List.mem_append, List.mem_append] at h
  rcases h with ((h | h) | h) | h
  · obtain ⟨k, -, rfl⟩ := List.mem_map.mp h
    exact Action.noConfusion
  · have hall : ∀ rule ∈ literalRules, rule.2 ≠ .badCharacter := by
      simp [literalRules]
    exact hall rule h
  · obtain ⟨c, -, rfl⟩ := List.mem_map.mp h
    exact Action.noConfusion
  · rw [List.mem_singleton.mp h]
    exact Action.noConfusion

/-- The first rule that matches is known if the others that match do the same,
but for the last. -/
theorem decides_of {r : Pattern UInt8} (hr : (r, a) ∈ properRules)
    (hm : r.Matches v)
    (h : ∀ a', Matched v a' → a' = a ∨ a' = .badCharacter) :
    Rules.Decides rules v a := by
  obtain ⟨rule, hrule, hmatch, hdecides⟩ := Rules.exists_decides hr hm
  have hmem : rule ∈ rules := by
    rw [rules_eq]
    exact List.mem_append_left _ hrule
  rcases h rule.2 (matched_of_rule hmem hmatch) with heq | heq
  · rw [rules_eq, ← heq]
    exact hdecides.append
  · exact absurd heq (properRules_action hrule)

theorem mem_literal {rule : Pattern UInt8 × Action} (h : rule ∈ literalRules) :
    rule ∈ properRules :=
  List.mem_append_left _ (List.mem_append_left _ (List.mem_append_right _ h))

/-- What the rule for a lexeme does. -/
def Lexeme.action : Lexeme → Action
  | word w =>
      match keywordTable.find? fun k =>
        w.map fold == (ascii k.1).map fold with
      | some k => .token k.2
      | none => .identifier
  | quoted _ => .quoted
  | string _ => .stringval
  | integer _ => .intval
  | float _ _ => .floatval
  | parameter _ => .parameter
  | ne => .token .ne
  | gte => .token .gte
  | lte => .token .lte
  | concat => .token .concat
  | char c => .token (.char c)
  | space _ => .space
  | comment _ => .comment

theorem decides_word (hw : (Lexeme.word w).Valid) :
    Rules.Decides rules w (Lexeme.word w).action := by
  rw [Lexeme.action]
  cases hfind : keywordTable.find? fun k =>
      w.map fold == (ascii k.1).map fold with
  | some k =>
      obtain ⟨hk, before, after, htable, hbefore⟩ :=
        List.find?_eq_some_iff_append.mp hfind
      have hkeyword : Rules.Decides keywordRules w (.token k.2) := by
        refine ⟨before.map fun k => (text (ascii k.1), .token k.2),
          text (ascii k.1), after.map fun k => (text (ascii k.1), .token k.2),
          ?_, matches_text_iff.mpr (beq_iff_eq.mp hk), ?_⟩
        · rw [keywordRules, htable, List.map_append, List.map_cons]
        · intro rule hrule hmatch
          obtain ⟨k', hk', rfl⟩ := List.mem_map.mp hrule
          have hne := hbefore k' hk'
          rw [beq_iff_eq.mpr (matches_text_iff.mp hmatch)] at hne
          cases hne
      rw [rules, List.append_assoc, List.append_assoc]
      exact hkeyword.append
  | none =>
      rw [List.find?_eq_none] at hfind
      obtain ⟨⟨c, hc, hletter⟩, hall⟩ := hw
      obtain ⟨u, rfl⟩ := List.head?_eq_some_iff.mp hc
      have hu : ∀ b ∈ u, isWord b = true :=
        fun b hb => hall b (List.mem_cons_of_mem _ hb)
      have hkind := kind_letter hletter
      refine decides_of (r := identifierPattern)
        (mem_literal (by simp [literalRules, digits]))
        (matches_identifier_iff.mpr ⟨c, u, rfl, hletter, hu⟩) ?_
      rintro a ⟨c', u', heq, hm⟩
      injection heq with hc' hu'
      subst hc' hu'
      cases hm with
      | keyword k hk hv => exact absurd (beq_iff_eq.mpr hv) (hfind k hk)
      | identifier hv => exact .inl rfl
      | char hv hmem => exact absurd hkind (char_kind c hmem).1
      | badCharacter hv => exact .inr rfl
      | _ =>
          rename_i hk
          exact (Match.kind_ne hkind hk (by decide)).elim

theorem integer_action {ds : Bytes} (hl : (Lexeme.integer ds).Valid)
    (h : Matched ds a) : a = .intval ∨ a = .badCharacter := by
  obtain ⟨hne, hall⟩ := hl
  obtain ⟨c, u, rfl, hm⟩ := h
  obtain ⟨hc, hu⟩ := List.forall_mem_cons.mp hall
  have hkind := kind_digit hc
  cases hm with
  | integer hv => exact .inl rfl
  | float ws fs hv =>
      have hpoint : isDigit 46 = true :=
        hu 46 (hv ▸ List.mem_append_right _ List.mem_cons_self)
      exact absurd hpoint (by decide)
  | char hv hmem => exact absurd hkind (char_kind c hmem).2.1
  | badCharacter hv => exact .inr rfl
  | _ =>
      rename_i hk
      exact (Match.kind_ne hkind hk (by decide)).elim

theorem float_action {ws fs : Bytes} (hl : (Lexeme.float ws fs).Valid)
    (h : Matched (ws ++ 46 :: fs) a) :
    a = .floatval ∨ a = .badCharacter := by
  obtain ⟨hws, hne, hfs⟩ := hl
  obtain ⟨c, u, heq, hm⟩ := h
  cases ws with
  | nil =>
      injection heq with hc hu
      subst hc hu
      have hkind : kind 46 = .point := by decide
      cases hm with
      | fraction hv => exact .inl rfl
      | char hv => exact absurd hv hne
      | badCharacter hv => exact .inr rfl
      | _ =>
          rename_i hk
          exact (Match.kind_ne hkind hk (by decide)).elim
  | cons d ws =>
      injection heq with hc hu
      subst hc hu
      have hkind := kind_digit (hws d List.mem_cons_self)
      cases hm with
      | integer hv => exact absurd (hv 46 mem_append_cons) (by decide)
      | float ws fs hv => exact .inl rfl
      | char hv => exact absurd hv append_cons_ne_nil
      | badCharacter hv => exact .inr rfl
      | _ =>
          rename_i hk
          exact (Match.kind_ne hkind hk (by decide)).elim

/-- Lexemes of several characters that begin with one of their own. -/
theorem delimited_action (hne : v ≠ []) (h : Matched (c :: v) a) :
    (kind c = .colon → a = .parameter) ∧ (kind c = .dash → a = .comment) ∧
      (kind c = .quote → a = .stringval) ∧
      (kind c = .doubleQuote → a = .quoted) := by
  obtain ⟨c', u, heq, hm⟩ := h
  injection heq with hc hu
  subst hc hu
  cases hm with
  | char hv => exact absurd hv hne
  | badCharacter hv => exact absurd hv hne
  | _ =>
      rename_i hk
      rw [hk]
      simp

theorem space_action (hl : (Lexeme.space w).Valid) (h : Matched w a) :
    a = .space ∨ a = .badCharacter := by
  obtain ⟨hne, hall⟩ := hl
  obtain ⟨c, u, rfl, hm⟩ := h
  have hkind := kind_space (hall c List.mem_cons_self)
  cases hm with
  | space hv => exact .inl rfl
  | char hv hmem => exact absurd hkind (char_kind c hmem).2.2.1
  | badCharacter hv => exact .inr rfl
  | _ =>
      rename_i hk
      exact (Match.kind_ne hkind hk (by decide)).elim

theorem operator_action {d : UInt8} {t : Token} (hc : kind c = .relation)
    (ht : ∀ o ∈ operators, o.1 = c → o.2.1 = d → o.2.2 = t) (h : Matched [c, d] a) :
    a = .token t ∨ a = .badCharacter := by
  obtain ⟨c', u, heq, hm⟩ := h
  injection heq with hc' hu
  subst hc' hu
  cases hm with
  | operator e t' hv hmem =>
      injection hv with he
      subst he
      exact .inl (congrArg Action.token (ht _ hmem rfl rfl))
  | char hv => cases hv
  | badCharacter hv => cases hv
  | _ =>
      rename_i hk
      exact (Match.kind_ne hc hk (by decide)).elim

theorem char_action (hl : (Lexeme.char c).Valid) (h : Matched [c] a) :
    a = .token (.char c) ∨ a = .badCharacter := by
  obtain ⟨hletter, hdigit, hspace, -⟩ := char_kind c hl.1
  obtain ⟨c', u, heq, hm⟩ := h
  injection heq with hc hu
  subst hc hu
  cases hm with
  | char hv => exact .inl rfl
  | badCharacter hv => exact .inr rfl
  | fraction hne => exact absurd rfl hne
  | parameter hne => exact absurd rfl hne
  | comment w hv => cases hv
  | string w hv => exact absurd hv.symm append_cons_ne_nil
  | quoted w hv => exact absurd hv.symm append_cons_ne_nil
  | operator d t hv => cases hv
  | _ =>
      rename_i hk
      first
      | exact absurd hk hletter
      | exact absurd hk hdigit
      | exact absurd hk hspace

theorem decides_operator {s : String} {d : UInt8} {t : Token}
    (hs : ascii s = [c, d]) (hc : kind c = .relation)
    (ht : ∀ o ∈ operators, o.1 = c → o.2.1 = d → o.2.2 = t)
    (hmem : (text (ascii s), Action.token t) ∈ literalRules) :
    Rules.Decides rules (ascii s) (.token t) := by
  refine decides_of (mem_literal hmem) (matches_text_iff.mpr rfl) fun a h => ?_
  rw [hs] at h
  exact operator_action hc ht h

/-- A lexeme is matched by its own rule first. -/
theorem decides_action (hl : l.Valid) : Rules.Decides rules l.text l.action := by
  cases l with
  | word w => exact decides_word hl
  | quoted w =>
      refine decides_of (r := quotedPattern)
        (mem_literal (by simp [literalRules, Lexeme.action, digits]))
        (matches_quoted_iff.mpr ⟨w, rfl, hl⟩) fun a h => .inl ?_
      exact (delimited_action append_cons_ne_nil h).2.2.2 (by decide)
  | string w =>
      refine decides_of (r := stringPattern)
        (mem_literal (by simp [literalRules, Lexeme.action, digits]))
        (matches_string_iff.mpr ⟨w, rfl, hl⟩) fun a h => .inl ?_
      exact (delimited_action append_cons_ne_nil h).2.2.1 (by decide)
  | integer ds =>
      exact decides_of (mem_literal (by simp [literalRules, Lexeme.action, digits]))
        (matches_plus_one_iff.mpr hl) fun a h => integer_action hl h
  | float ws fs =>
      exact decides_of (mem_literal (by simp [literalRules, Lexeme.action, digits]))
        (matches_float_iff.mpr ⟨ws, fs, rfl, hl⟩) fun a h => float_action hl h
  | parameter ds =>
      refine decides_of (r := .cat (chr 58) digits)
        (mem_literal (by simp [literalRules, Lexeme.action, digits]))
        (matches_chr_cat_iff.mpr ⟨ds, rfl, matches_plus_one_iff.mpr hl⟩)
        fun a h => .inl ?_
      exact (delimited_action hl.1 h).1 (by decide)
  | ne =>
      exact decides_operator (c := 60) (d := 62) (by decide) (by decide)
        (by decide) (by simp [literalRules])
  | gte =>
      exact decides_operator (c := 62) (d := 61) (by decide) (by decide)
        (by decide) (by simp [literalRules])
  | lte =>
      exact decides_operator (c := 60) (d := 61) (by decide) (by decide)
        (by decide) (by simp [literalRules])
  | concat =>
      exact decides_operator (c := 124) (d := 124) (by decide) (by decide)
        (by decide) (by simp [literalRules])
  | char c =>
      refine decides_of (r := chr c) ?_ (matches_chr_iff.mpr rfl)
        fun a h => char_action hl h
      exact List.mem_append_left _ (List.mem_append_right _
        (List.mem_map_of_mem hl.1))
  | space w =>
      refine decides_of (r := .plus (.one isSpace)) ?_
        (matches_plus_one_iff.mpr hl) fun a h => space_action hl h
      exact List.mem_append_right _ (List.mem_singleton.mpr rfl)
  | comment w =>
      refine decides_of (r := commentPattern)
        (mem_literal (by simp [literalRules, Lexeme.action, digits]))
        (matches_comment_iff.mpr ⟨w, rfl, hl⟩) fun a h => .inl ?_
      exact (delimited_action (List.cons_ne_nil _ _) h).2.1 (by decide)

/-! ## The tokens -/

theorem inner_eq : inner (b :: (w ++ [c])) = w := by
  rw [inner, List.drop_one, List.tail_cons, List.dropLast_concat]

theorem run_action (strtold : Bytes → FieldInput) (l : Lexeme) :
    l.action.run strtold l.text = l.token strtold := by
  cases l with
  | word w =>
      rw [Lexeme.action, Lexeme.token, Lexeme.wordToken, Lexeme.text]
      cases keywordTable.find? fun k => w.map fold == (ascii k.1).map fold <;>
        rfl
  | quoted w => exact congrArg (fun s => some (Token.identifier s)) inner_eq
  | string w => exact congrArg (fun s => some (Token.stringval s)) inner_eq
  | _ => rfl

theorem text_ne_nil (hl : l.Valid) : l.text ≠ [] := by
  cases l with
  | word w =>
      obtain ⟨⟨c, hc, -⟩, -⟩ := hl
      rintro hw
      rw [Lexeme.text] at hw
      rw [hw] at hc
      cases hc
  | integer ds => exact hl.1
  | space w => exact hl.1
  | float ws fs => exact append_cons_ne_nil
  | ne => exact List.cons_ne_nil _ _
  | gte => exact List.cons_ne_nil _ _
  | lte => exact List.cons_ne_nil _ _
  | concat => exact List.cons_ne_nil _ _
  | _ => exact List.cons_ne_nil _ _

theorem taken_lexemes : ∀ {ls : List Lexeme}, (∀ l ∈ ls, l.Valid) →
    Apart ls → Rules.Taken rules (ls.map fun l => (l.text, l.action))
  | [], _, _ => trivial
  | l :: ls, hvalid, hapart => by
      obtain ⟨hl, hls⟩ := List.forall_mem_cons.mp hvalid
      refine ⟨text_ne_nil hl, decides_action hl, ?_,
        taken_lexemes hls hapart.2⟩
      rw [List.flatMap_map]
      exact ends_of_apart hl hapart.1

theorem scan_text (hvalid : ∀ l ∈ ls, l.Valid) (hapart : Apart ls) :
    rules.scan (ls.flatMap Lexeme.text).length (ls.flatMap Lexeme.text) =
      some (ls.map fun l => (l.text, l.action)) := by
  have hscan := Rules.scan_lexemes (taken_lexemes hvalid hapart)
    (Nat.le_refl _)
  rw [List.flatMap_map] at hscan
  exact hscan

theorem filterMap_run (strtold : Bytes → FieldInput) (ls : List Lexeme) :
    (ls.map fun l => (l.text, l.action)).filterMap
      (fun lexeme => lexeme.2.run strtold lexeme.1) =
      ls.filterMap fun l => l.token strtold := by
  rw [List.filterMap_map]
  exact List.filterMap_congr fun l _ => run_action strtold l

/-- The tokens of a text are those of its lexemes. -/
theorem yylex_lexemes (strtold : Bytes → FieldInput)
    (hvalid : ∀ l ∈ ls, l.Valid) (hapart : Apart ls) :
    yylex strtold (ls.flatMap Lexeme.text) =
      some (ls.filterMap fun l => l.token strtold) := by
  rw [yylex, scan_text hvalid hapart, Option.map_some, filterMap_run]

/-- `t<>'it''s'` -/
theorem yylex_lexemes_ne :
    let ls : List Lexeme := [.word [116], .ne, .string [105, 39, 39, 115]]
    yylex (fun _ => 0#128) (ls.flatMap Lexeme.text) =
      some (ls.filterMap fun l => l.token fun _ => 0#128) := by
  intro ls
  refine yylex_lexemes _ ?_ ?_
  · simp only [ls, List.forall_mem_cons]
    exact ⟨⟨⟨_, rfl, by decide⟩, forall_mem_of_all rfl⟩, trivial, rfl,
      List.forall_mem_nil _⟩
  · refine ⟨?_, ?_, ?_, trivial⟩
    · rintro b ⟨⟩ (h | ⟨h, -⟩)
      · exact absurd h (by decide)
      · exact absurd h (by decide)
    · exact fun _ _ h => h
    · rintro b ⟨⟩

end Infinisql.Larx
