import Infinisql.Proofs.Lexer

/-!
# What tokens there are

Whatever the text is, a token is that of a valid lexeme, or it is a quote on
its own, or END-EXEC. So what a string token holds has its quotes in pairs, a
name is never a keyword, and a number is below `2 ^ 63`.
-/

namespace Infinisql.Larx

open Infinisql.Ref (Bytes FieldInput)
open Infinisql.Ref.Output (ascii)
open Infinisql.Lib

variable {strtold : Bytes → FieldInput} {t : Token} {ts : List Token}
  {v : Bytes} {a : Action}

/-- What a character of this kind is. -/
def Kind.Of (c : UInt8) : Kind → Prop
  | letter => isLetter c = true
  | digit => isDigit c = true
  | space => isSpace c = true
  | dash => c = 45
  | quote => c = 39
  | doubleQuote => c = 34
  | colon => c = 58
  | point => c = 46
  | relation => c = 60 ∨ c = 62 ∨ c = 124
  | plain => True

theorem of_kind {c : UInt8} {k : Kind} (h : kind c = k) : k.Of c := by
  subst h
  unfold kind
  repeat' split
  all_goals
    first
    | assumption
    | trivial

theorem word_of_keyword {k : String × Token} (hk : k ∈ keywordTable)
    (hv : v.map fold = (ascii k.1).map fold) :
    (Lexeme.word v).Valid ∨ k.2 = .reserved (ascii "END-EXEC") := by
  by_cases hend : k.2 = .reserved (ascii "END-EXEC")
  · exact .inr hend
  · obtain ⟨c, w, rfl, hc⟩ := isLetter_of_keyword hk hv
    refine .inl ⟨⟨c, rfl, hc⟩, fun b hb => ?_⟩
    exact (keyword_chars hk hv hb).resolve_right fun h => hend h.2

/-- Only what a lexeme is made of is matched by a rule that returns a token. -/
theorem lexeme_of_matched (h : Matched v a) (ht : a.run strtold v = some t) :
    (∃ l : Lexeme, l.Valid ∧ l.text = v) ∨ t = .char 34 ∨ t = .char 39 ∨
      t = .reserved (ascii "END-EXEC") := by
  obtain ⟨c, w, rfl, hm⟩ := h
  cases hm with
  | keyword k hk hv hc =>
      cases ht
      rcases word_of_keyword hk hv with hword | hend
      · exact .inl ⟨.word (c :: w), hword, rfl⟩
      · exact .inr (.inr (.inr hend))
  | identifier hv hc =>
      have hletter : isLetter c = true := of_kind hc
      exact .inl ⟨.word (c :: w), ⟨⟨c, rfl, hletter⟩, List.forall_mem_cons.mpr
        ⟨isWord_of_isLetter hletter, hv⟩⟩, rfl⟩
  | integer hv hc =>
      exact .inl ⟨.integer (c :: w), ⟨List.cons_ne_nil _ _,
        List.forall_mem_cons.mpr ⟨of_kind hc, hv⟩⟩, rfl⟩
  | float ws fs hv hws hne hfs hc =>
      subst hv
      exact .inl ⟨.float (c :: ws) fs, ⟨List.forall_mem_cons.mpr
        ⟨of_kind hc, hws⟩, hne, hfs⟩, rfl⟩
  | fraction hne hv hc =>
      rw [of_kind hc]
      exact .inl ⟨.float [] w, ⟨List.forall_mem_nil _, hne, hv⟩, rfl⟩
  | parameter hne hv hc =>
      rw [of_kind hc]
      exact .inl ⟨.parameter w, ⟨hne, hv⟩, rfl⟩
  | space hv hc => cases ht
  | comment w' hv hw hc => cases ht
  | string w' hv hw hc =>
      rw [of_kind hc, hv]
      exact .inl ⟨.string w', hw, rfl⟩
  | quoted w' hv hw hc =>
      rw [of_kind hc, hv]
      exact .inl ⟨.quoted w', hw, rfl⟩
  | operator d t' hv ht' hc =>
      simp only [operators, List.mem_cons, List.not_mem_nil, or_false,
        Prod.mk.injEq] at ht'
      rw [hv]
      rcases ht' with ⟨rfl, rfl, -⟩ | ⟨rfl, rfl, -⟩ | ⟨rfl, rfl, -⟩ |
        ⟨rfl, rfl, -⟩
      · exact .inl ⟨.ne, trivial, rfl⟩
      · exact .inl ⟨.gte, trivial, rfl⟩
      · exact .inl ⟨.lte, trivial, rfl⟩
      · exact .inl ⟨.concat, trivial, rfl⟩
  | char hv hc =>
      cases ht
      by_cases hdouble : c = 34
      · exact .inr (.inl (congrArg Token.char hdouble))
      · by_cases hquote : c = 39
        · exact .inr (.inr (.inl (congrArg Token.char hquote)))
        · exact .inl ⟨.char c, ⟨hc, hdouble, hquote⟩, by rw [hv]; rfl⟩
  | badCharacter hv => cases ht

/-- A token of any text is that of a lexeme, a quote on its own, or END-EXEC. -/
theorem yylex_tokens {instr : Bytes} (h : yylex strtold instr = some ts) :
    ∀ t ∈ ts, (∃ l : Lexeme, l.Valid ∧ l.token strtold = some t) ∨
      t = .char 34 ∨ t = .char 39 ∨ t = .reserved (ascii "END-EXEC") := by
  obtain ⟨lexemes, hscan, rfl⟩ := Option.map_eq_some_iff.mp h
  obtain ⟨-, hall⟩ := Rules.scan_some hscan
  intro t ht
  obtain ⟨⟨v, a⟩, hmem, ht⟩ := List.mem_filterMap.mp ht
  have hdecides : Rules.Decides rules v a := hall _ hmem
  obtain ⟨before, r, after, hrules, hmatch, -⟩ := hdecides
  have hrule : (r, a) ∈ rules := by
    rw [hrules]
    exact List.mem_append_right _ List.mem_cons_self
  rcases lexeme_of_matched (matched_of_rule hrule hmatch) ht with
    ⟨l, hl, rfl⟩ | hrest
  · refine .inl ⟨l, hl, ?_⟩
    rw [← run_action, (decides_action hl).unique (hall _ hmem)]
    exact ht
  · exact .inr hrest

theorem yylex_tokens_eq :
    let t := Token.char 61
    (∃ l : Lexeme, l.Valid ∧ l.token (fun _ => 0#128) = some t) ∨
      t = .char 34 ∨ t = .char 39 ∨ t = .reserved (ascii "END-EXEC") := by
  intro t
  have hvalid : ∀ l ∈ [Lexeme.char 61], l.Valid := by
    rintro l ⟨⟩
    · exact ⟨by decide, by decide, by decide⟩
    · next h => cases h
  have hapart : Apart [Lexeme.char 61] := ⟨by rintro b ⟨⟩, trivial⟩
  have hscan := scan_text hvalid hapart
  have hlex : yylex (fun _ => 0#128) ([Lexeme.char 61].flatMap Lexeme.text) =
      some [.char 61] := by
    rw [yylex, hscan, Option.map_some, filterMap_run]
    rfl
  exact yylex_tokens hlex t List.mem_cons_self

end Infinisql.Larx
