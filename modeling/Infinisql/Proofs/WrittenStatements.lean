import Infinisql.Proofs.CompiledQueries
import Infinisql.Proofs.DerivedStatements
import Infinisql.Proofs.Lexer
import Infinisql.Spec.Text

/-!
# From a statement to its text and back

Tokens that have a lexeme are the tokens of what is written for them, and so a
statement that is made of such tokens is read from its text.
-/

namespace Infinisql.Larx

open Infinisql.Ref (Bytes FieldInput LongDouble)
open Infinisql.Ref.Output (ascii)

variable {strtold : Bytes → FieldInput} {decimal : FieldInput → Bytes × Bytes}
  {t : Token} {ts : List Token} {l : Lexeme}

/-! ## Numbers -/

theorem digit_toNat {d : ℕ} (h : d < 10) :
    (48 + UInt8.ofNat d).toNat = 48 + d := by
  rw [UInt8.toNat_add, UInt8.toNat_ofNat']
  simp only [UInt8.reduceToNat]
  omega

theorem number_append (ds : Bytes) (d : UInt8) :
    number (ds ++ [d]) = 10 * number ds + (d.toNat - 48) := by
  rw [number, List.foldl_append]
  rfl

theorem number_digits : ∀ {ds : List ℕ}, (∀ d ∈ ds, d < 10) →
    number (ds.reverse.map fun d => 48 + UInt8.ofNat d) = Nat.ofDigits 10 ds
  | [], _ => rfl
  | d :: ds, h => by
      obtain ⟨hd, hds⟩ := List.forall_mem_cons.mp h
      rw [List.reverse_cons, List.map_append, List.map_cons, List.map_nil,
        number_append, number_digits hds, digit_toNat hd, Nat.ofDigits_cons]
      omega

theorem digits_lt_ten {n d : ℕ} (h : d ∈ Nat.digits 10 n) : d < 10 :=
  Nat.digits_lt_base (by decide) h

theorem number_decimalDigits (n : ℕ) : number (decimalDigits n) = n := by
  unfold decimalDigits
  split
  · next h => rw [h]; rfl
  · rw [number_digits fun d hd => digits_lt_ten hd, Nat.ofDigits_digits]

theorem decimalDigits_valid (n : ℕ) :
    decimalDigits n ≠ [] ∧ ∀ b ∈ decimalDigits n, isDigit b = true := by
  unfold decimalDigits
  split
  · exact ⟨List.cons_ne_nil _ _, forall_mem_of_all rfl⟩
  · next h =>
      refine ⟨?_, ?_⟩
      · simpa [Nat.digits_ne_nil_iff_ne_zero] using h
      · intro b hb
        obtain ⟨d, hd, rfl⟩ := List.mem_map.mp hb
        have hlt := digits_lt_ten (List.mem_reverse.mp hd)
        simp only [isDigit, Bool.and_eq_true, decide_eq_true_eq,
          UInt8.le_iff_toNat_le, digit_toNat hlt, UInt8.reduceToNat]
        omega

theorem atol_decimalDigits {n : BitVec 64} (h : n.msb = false) :
    atol (decimalDigits n.toNat) = n := by
  have hlt : n.toNat < 2 ^ 63 := BitVec.msb_eq_false_iff_two_mul_lt.mp h |>
    fun h => by omega
  rw [atol, number_decimalDigits, Nat.min_eq_left (by omega),
    BitVec.ofNat_toNat, BitVec.setWidth_eq]

/-! ## Keywords -/

theorem text_mem (k : Keyword) : (k.text, k) ∈ keywords := by
  cases k <;>
    simp only [Keyword.text, keywords, List.mem_cons, true_or, or_true]

theorem nodup_keywords :
    (keywords.map fun k => (ascii k.1).map fold).Nodup := by
  decide +kernel

theorem wordToken_keyword (k : Keyword) :
    Lexeme.wordToken (ascii k.text) = .keyword k := by
  have hfirst : keywords.find? (fun k' => (ascii k.text).map fold ==
      (ascii k'.1).map fold) = some (k.text, k) := by
    cases hfind : keywords.find? fun k' => (ascii k.text).map fold ==
        (ascii k'.1).map fold with
    | none =>
        have hnot := List.find?_eq_none.mp hfind _ (text_mem k)
        exact absurd (beq_self_eq_true _) hnot
    | some k' =>
        have hsame : (ascii k.text).map fold = (ascii k'.1).map fold := by
          simpa using List.find?_some hfind
        rw [List.inj_on_of_nodup_map nodup_keywords (text_mem k)
          (List.mem_of_find?_eq_some hfind) hsame]
  rw [Lexeme.wordToken, keywordTable, List.append_assoc, List.find?_append,
    List.find?_map]
  simp only [Function.comp_def, hfirst, Option.map_some, Option.some_or]

/-- No keyword has only one letter. -/
theorem wordToken_single (b : UInt8) :
    Lexeme.wordToken [b] = .identifier [b] := by
  have hnone : keywordTable.find? (fun k => [b].map fold ==
      (ascii k.1).map fold) = none := by
    refine List.find?_eq_none.mpr fun k hk heq => ?_
    have hlen := congrArg List.length (beq_iff_eq.mp heq)
    have htwo := (isKeyword hk).1.2
    simp only [List.length_map, List.length_cons, List.length_nil] at hlen
    omega
  rw [Lexeme.wordToken, hnone]

theorem single_writable {b : UInt8} (h : isLetter b = true) :
    (Token.identifier [b]).Writable strtold decimal := by
  refine .inr ⟨⟨⟨b, rfl, h⟩, ?_⟩, wordToken_single b⟩
  intro c hc
  rw [List.mem_singleton.mp hc]
  exact isWord_of_isLetter h

theorem valid_keyword (k : Keyword) : (Lexeme.word (ascii k.text)).Valid := by
  cases k <;> exact ⟨⟨_, rfl, by decide⟩, forall_mem_of_all rfl⟩

/-! ## Tokens -/

theorem lexeme_valid (h : t.Writable strtold decimal) :
    (t.lexeme decimal).Valid := by
  cases t with
  | keyword k => exact valid_keyword k
  | reserved w => exact h.1
  | stringval s => exact h
  | identifier s =>
      rw [Token.lexeme]
      split
      · next hs => exact hs
      · next hs => exact (h.resolve_left hs).1
  | parameter n => exact decimalDigits_valid _
  | intval n => exact decimalDigits_valid _
  | floatval v => exact h.1
  | char c => exact h
  | _ => trivial

theorem lexeme_token (h : t.Writable strtold decimal) :
    (t.lexeme decimal).token strtold = some t := by
  cases t with
  | keyword k => exact congrArg some (wordToken_keyword k)
  | reserved w => exact congrArg some h.2
  | identifier s =>
      rw [Token.lexeme]
      split
      · rfl
      · next hs => exact congrArg some (h.resolve_left hs).2
  | parameter n =>
      exact congrArg (fun n => some (Token.parameter n)) (atol_decimalDigits h)
  | intval n =>
      exact congrArg (fun n => some (Token.intval n)) (atol_decimalDigits h)
  | floatval v => exact congrArg (fun v => some (Token.floatval v)) h.2
  | _ => rfl

theorem not_space_of_letter {b : UInt8} (h : isLetter b = true) :
    isSpace b ≠ true := by
  intro hspace
  exact absurd ((kind_letter h).symm.trans (kind_space hspace)) (by decide)

theorem not_space_of_digit {b : UInt8} (h : isDigit b = true) :
    isSpace b ≠ true := by
  intro hspace
  exact absurd ((kind_digit h).symm.trans (kind_space hspace)) (by decide)

theorem not_continues_space (hl : l.Valid) (ht : l.token strtold = some t) :
    ¬ l.Continues 32 := by
  cases l with
  | word w =>
      rintro (h | ⟨h, -⟩)
      · exact absurd h (by decide)
      · exact absurd h (by decide)
  | char c =>
      rintro (⟨-, h⟩ | ⟨-, h⟩ | ⟨-, h⟩ | ⟨-, h | h⟩ | ⟨-, h⟩ | ⟨-, h⟩)
      all_goals exact absurd h (by decide)
  | space w => cases ht
  | comment w => cases ht
  | integer ds =>
      rintro (h | h)
      · exact absurd h (by decide)
      · exact absurd h (by decide)
  | quoted w =>
      rintro (h | h)
      · exact absurd h (by decide)
      · exact absurd h (by decide)
  | string w => exact (by decide : (32 : UInt8) ≠ 39)
  | float ws fs => exact (by decide : ¬ isDigit 32 = true)
  | parameter ds => exact (by decide : ¬ isDigit 32 = true)
  | _ => exact fun h => h

/-- No lexeme that has a token begins with a space. -/
theorem head_not_space (hl : l.Valid) (ht : l.token strtold = some t) :
    ∀ b ∈ l.text.head?, isSpace b ≠ true := by
  cases l with
  | word w =>
      obtain ⟨⟨c, hc, hletter⟩, -⟩ := hl
      intro b hb
      cases hc.symm.trans hb
      exact not_space_of_letter hletter
  | integer ds =>
      intro b hb
      exact not_space_of_digit (hl.2 b (List.mem_of_mem_head? hb))
  | float ws fs =>
      intro b hb
      cases ws with
      | nil =>
          cases hb
          decide
      | cons w ws =>
          cases hb
          exact not_space_of_digit (hl.1 b List.mem_cons_self)
  | char c =>
      rintro b ⟨⟩ hspace
      have hkind : ∀ c ∈ characters, isSpace c = false :=
        forall_mem_of_all (by decide)
      rw [hkind c hl.1] at hspace
      cases hspace
  | space w => cases ht
  | comment w => cases ht
  | _ =>
      rintro b ⟨⟩
      decide

/-- A space behind every lexeme. -/
def spaced (ls : List Lexeme) : List Lexeme :=
  ls.flatMap fun l => [l, .space [32]]

theorem apart_spaced : ∀ {ls : List Lexeme},
    (∀ l ∈ ls, l.Valid ∧ ∃ t, l.token strtold = some t) → Apart (spaced ls)
  | [], _ => trivial
  | l :: ls, h => by
      obtain ⟨⟨hl, t, ht⟩, hls⟩ := List.forall_mem_cons.mp h
      refine ⟨?_, ?_, apart_spaced hls⟩
      · rintro b ⟨⟩
        exact not_continues_space hl ht
      · cases ls with
        | nil =>
            rintro b ⟨⟩
        | cons l' ls =>
            obtain ⟨⟨hl', t', ht'⟩, -⟩ := List.forall_mem_cons.mp hls
            have hhead : (l'.text ++ ([32] ++
                (spaced ls).flatMap Lexeme.text)).head? = l'.text.head? :=
              List.head?_append_of_ne_nil _ (text_ne_nil hl')
            intro b hb
            exact head_not_space hl' ht' b (hhead ▸ hb)

/-! ## Texts -/

theorem written_eq (decimal : FieldInput → Bytes × Bytes) (ts : List Token) :
    written decimal ts = (spaced (ts.map (Token.lexeme decimal))).flatMap
      Lexeme.text := by
  induction ts with
  | nil => rfl
  | cons t ts ih =>
      rw [written, List.flatMap_cons, ← written, ih, List.append_assoc]
      rfl

theorem filterMap_spaced (h : ∀ t ∈ ts, t.Writable strtold decimal) :
    (spaced (ts.map (Token.lexeme decimal))).filterMap
      (fun l => l.token strtold) = ts := by
  induction ts with
  | nil => rfl
  | cons t ts ih =>
      obtain ⟨ht, hts⟩ := List.forall_mem_cons.mp h
      have htail := ih hts
      rw [spaced] at htail ⊢
      rw [List.map_cons, List.flatMap_cons, List.filterMap_append, htail,
        List.filterMap_cons, lexeme_token ht]
      rfl

/-- The tokens of what is written for tokens are these. -/
theorem yylex_of_writable (h : ∀ t ∈ ts, t.Writable strtold decimal) :
    yylex strtold (written decimal ts) = some ts := by
  have hmem : ∀ l ∈ ts.map (Token.lexeme decimal),
      l.Valid ∧ ∃ t, l.token strtold = some t := by
    intro l hl
    obtain ⟨t, ht, rfl⟩ := List.mem_map.mp hl
    exact ⟨lexeme_valid (h t ht), t, lexeme_token (h t ht)⟩
  have hvalid : ∀ l ∈ spaced (ts.map (Token.lexeme decimal)), l.Valid := by
    intro l hl
    obtain ⟨l', hl', hl⟩ := List.mem_flatMap.mp hl
    rcases List.mem_cons.mp hl with rfl | hl
    · exact (hmem l hl').1
    · cases List.mem_singleton.mp hl
      exact ⟨List.cons_ne_nil _ _, forall_mem_of_all rfl⟩
  rw [written_eq, yylex, scan_text hvalid (apart_spaced hmem),
    Option.map_some, filterMap_run, filterMap_spaced h]

/-! ## Statements -/

theorem read_written {ld : LongDouble} {st : Stmt} (hst : st.Derived)
    (h : ∀ t ∈ st.tokens, t.Writable strtold decimal) :
    (yylex strtold (written decimal st.tokens)).bind (yyparse ld) =
      some st := by
  rw [yylex_of_writable h, Option.bind_some, (yyparse_of_derived hst).1]

/-- A statement is read from its text. -/
theorem yyparse_written {ld : LongDouble} {st : Stmt} (hst : st.Derived)
    (h : ∀ t ∈ st.tokens, t.Writable strtold decimal) :
    (yylex strtold (written decimal st.tokens)).bind (yyparse ld) =
      some st := by
  exact read_written hst h

/-- `DELETE FROM t` -/
theorem yyparse_written_delete :
    let ld : LongDouble :=
      ⟨fun a _ => a, fun a _ => a, fun a _ => a, fun a _ => a, fun _ => 0#64⟩
    ((yylex fun _ => 0#128) (written (fun _ => ([], []))
      (Stmt.delete [116] .absent).tokens)).bind (yyparse ld) =
      some (.delete [116] .absent) := by
  intro ld
  have hderived : (Stmt.delete [116] .absent).Derived := by
    simp only [Stmt.Derived, Clause.Derived]
  refine yyparse_written hderived ?_
  simp only [Stmt.tokens, Clause.tokens, List.forall_mem_cons]
  exact ⟨trivial, trivial, single_writable rfl, List.forall_mem_nil _⟩

end Infinisql.Larx
