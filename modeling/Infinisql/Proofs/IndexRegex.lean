import Infinisql.Proofs.IndexSearch
import Infinisql.Spec.IndexRegex

/-!
# LIKE and its regular expressions

`getIterators` takes the bytes up to the first metacharacter for what every
match begins with, and looks up where the strings with that beginning are: from
the beginning itself to the beginning with its last byte one greater,
`prefix_iff_between`. That byte may be 255, and then it becomes 0, and the
second position is not behind the first one. `regex_stem` and `regex_last` say
what is searched in the one case and in the other, and `pruningLossless_iff`
when nothing is lost.

`like2Regex` does not change a character that is no wildcard. What becomes of a
pattern whose characters all stand for themselves is a sequence that the matcher
is known to read, `fullMatch_like2Regex`; it reads what LIKE should read except
for newlines, so that `likeMeans_iff` is a matter of the iterators and of these.
NOT LIKE asks for keys in which the pattern occurs nowhere, and the complement
of LIKE is something else, `likePartitions_iff`.
-/

namespace Infinisql.Searches

open Infinisql.Ref (Bytes trimspace)
open Infinisql.Lib

variable {xs : List (Bytes × IndexEntry)} {m : IndexMap Bytes}
  {fullMatch : Bytes → Bytes → Bool} {regexStr pattern key s : Bytes}
  {last : UInt8}

/-! ## Strings with a beginning -/

theorem cons_lt_cons {a b : UInt8} {s t : Bytes} :
    a :: s < b :: t ↔ a < b ∨ a = b ∧ s < t := List.cons_lt_cons_iff

theorem cons_le_cons {a b : UInt8} {s t : Bytes} :
    a :: s ≤ b :: t ↔ a < b ∨ a = b ∧ s ≤ t := by
  rw [le_iff_lt_or_eq, le_iff_lt_or_eq, cons_lt_cons, List.cons.injEq,
    or_assoc, ← and_or_left]

theorem nil_le_bytes : ([] : Bytes) ≤ s := not_lt.mp (List.not_lt_nil s)

/-- The strings that begin so are the ones from there to where the last byte is
one greater. -/
theorem prefix_iff_between (hlast : last ≠ 255) : ∀ {s key : Bytes},
    s ++ [last] <+: key ↔ s ++ [last] ≤ key ∧ key < s ++ [last + 1]
  | s, [] => by
      refine iff_of_false (by simp) fun h => ?_
      exact absurd (le_antisymm h.1 nil_le_bytes) (by simp)
  | [], b :: key => by
      have hsucc : (last + 1).toNat = last.toNat + 1 := by
        have hne : last.toNat ≠ 255 := fun h => hlast (UInt8.toNat_inj.mp h)
        have hlt := last.toNat_lt
        rw [UInt8.toNat_add]
        change (last.toNat + 1) % 256 = _
        omega
      rw [List.nil_append, List.nil_append, cons_le_cons, cons_lt_cons,
        List.cons_prefix_cons]
      simp only [List.nil_prefix, and_true, nil_le_bytes, List.not_lt_nil,
        and_false, or_false, UInt8.lt_iff_toNat_lt, hsucc]
      constructor
      · rintro rfl
        exact ⟨.inr rfl, Nat.lt_succ_self _⟩
      · rintro ⟨h | h, hb⟩
        · omega
        · exact h
  | a :: s, b :: key => by
      rw [List.cons_append, List.cons_append, cons_le_cons, cons_lt_cons,
        List.cons_prefix_cons, prefix_iff_between hlast]
      constructor
      · rintro ⟨rfl, hle, hlt⟩
        exact ⟨.inr ⟨rfl, hle⟩, .inr ⟨rfl, hlt⟩⟩
      · rintro ⟨h | h, h' | h'⟩
        · exact absurd (lt_trans h h') (lt_irrefl _)
        · exact absurd (h'.1 ▸ h) (lt_irrefl _)
        · exact absurd (h.1 ▸ h') (lt_irrefl _)
        · exact ⟨h.1, h.2, h'.2⟩

theorem le_of_last (hlast : last ≠ 255) : s ++ [last] ≤ s ++ [last + 1] :=
  le_of_lt ((prefix_iff_between hlast).mp (List.prefix_refl _)).2

theorem wrapped_lt : wrapped (s ++ [255]) < s ++ [255] := by
  rw [wrapped, List.dropLast_concat]
  induction s with
  | nil => exact cons_lt_cons.mpr (.inl (by decide))
  | cons a s ih => exact cons_lt_cons.mpr (.inr ⟨rfl, ih⟩)

/-! ## The iterators -/

theorem length_eraseCaret : ∀ {regexStr : Bytes},
    (eraseCaret regexStr).length ≤ regexStr.length
  | [] => Nat.le_refl _
  | c :: s => by
      rw [eraseCaret]
      split
      · exact Nat.le_succ _
      · exact Nat.le_refl _

/-- The beginning that is looked up. -/
theorem beginStr_eq : beginStr regexStr = stem regexStr := by
  have htake : stem regexStr = (eraseCaret regexStr).take
      ((eraseCaret regexStr).findIdx fun c => decide (c ∈ metacharacters)) := by
    rw [stem, List.takeWhile_eq_take_findIdx_not]
    congr 2
    funext c
    rw [decide_not, Bool.not_not]
  have hlen : (eraseCaret regexStr).length ≤ regexStr.length :=
    length_eraseCaret
  rw [htake, beginStr]
  cases hn : firstMeta (eraseCaret regexStr) with
  | none =>
      rw [List.findIdx?_eq_none_iff_findIdx_eq.mp hn, List.take_length]
      exact List.take_of_length_le hlen
  | some n =>
      obtain ⟨hlt, heq⟩ := List.findIdx?_eq_some_iff_findIdx_eq.mp hn
      dsimp only
      rw [heq, Nat.min_eq_left (by omega)]

theorem firstMeta_zero (hne : eraseCaret regexStr ≠ []) :
    firstMeta (eraseCaret regexStr) = some 0 ↔ stem regexStr = [] := by
  rw [stem, firstMeta]
  cases hs : eraseCaret regexStr with
  | nil => exact absurd hs hne
  | cons c s =>
      rw [List.takeWhile_cons, List.findIdx?_cons]
      by_cases hc : c ∈ metacharacters
      · simp [hc]
      · simp [hc]

theorem length_ne_zero (hne : eraseCaret regexStr ≠ []) :
    regexStr.length ≠ 0 := by
  intro h
  rw [List.eq_nil_of_length_eq_zero h] at hne
  exact hne rfl

/-- An expression without a beginning: the whole map. -/
theorem getIterators_nil (hne : eraseCaret regexStr ≠ [])
    (hstem : stem regexStr = []) :
    getIterators regexStr xs = some (itBegin xs, itEnd xs) := by
  unfold getIterators
  rw [if_neg (length_ne_zero hne), if_pos ((firstMeta_zero hne).mpr hstem)]

/-- The last byte is never taken for 255. -/
theorem endStr_eq : endStr (s ++ [last]) last = s ++ [last + 1] := by
  have hne : last.toInt8.toInt ≠ 255 := by
    have := last.toInt8.toInt_lt
    omega
  rw [endStr, if_neg hne, List.dropLast_concat]

theorem getIterators_stem (h : Sorted xs)
    (hstem : stem regexStr = s ++ [last]) :
    getIterators regexStr xs =
      some (lowerBound xs (s ++ [last]), lowerBound xs (s ++ [last + 1])) := by
  have hne : eraseCaret regexStr ≠ [] := by
    intro hnil
    rw [stem, hnil] at hstem
    exact absurd hstem (by simp)
  have hzero : firstMeta (eraseCaret regexStr) ≠ some 0 := by
    rw [Ne, firstMeta_zero hne, hstem]
    simp
  unfold getIterators
  rw [if_neg (length_ne_zero hne), if_neg hzero, beginStr_eq, hstem,
    List.getLast?_concat]
  dsimp only
  rw [endStr_eq, h.find_or_upperBound]

theorem getIterators_none (hnil : eraseCaret regexStr = []) :
    getIterators regexStr xs = none := by
  unfold getIterators
  rw [beginStr_eq, stem, hnil]
  split
  · rfl
  · rfl

/-! ## The search -/

theorem matching_eq : matching fullMatch regexStr xs =
    picked xs fun k => fullMatch regexStr k = true := by
  unfold matching picked
  congr 2
  funext e
  exact Bool.decide_eq_true.symm

theorem regex_eq (hm : m.IsOrdered) : regex fullMatch m regexStr =
    (getIterators regexStr m.toList).bind fun r =>
      (scan m.toList r.1 r.2).map (matching fullMatch regexStr) := by
  cases m with
  | unique m => rfl
  | nonunique m => rfl
  | unordered m => cases hm

/-- The search of a whole map. -/
theorem regex_all (h : ¬ m.IsOrdered ∨
    eraseCaret regexStr ≠ [] ∧ stem regexStr = []) :
    regex fullMatch m regexStr =
      some (m.selected fun k => fullMatch regexStr k = true) := by
  have hscan : (scan m.toList (itBegin m.toList) (itEnd m.toList)).map
      (matching fullMatch regexStr) =
        some (m.selected fun k => fullMatch regexStr k = true) := by
    rw [scan_all, Option.map_some, matching_eq, selected_eq]
  by_cases hm : m.IsOrdered
  · obtain ⟨hne, hstem⟩ := h.resolve_left (not_not_intro hm)
    rw [regex_eq hm, getIterators_nil hne hstem]
    exact hscan
  · cases m with
    | unique m => exact absurd trivial hm
    | nonunique m => exact absurd trivial hm
    | unordered m => exact hscan

/-- The search between the iterators. -/
theorem regex_stem (hm : m.IsOrdered) (hstem : stem regexStr = s ++ [last])
    (hlast : last ≠ 255) : regex fullMatch m regexStr =
      some (m.selected fun k =>
        fullMatch regexStr k = true ∧ stem regexStr <+: k) := by
  rw [regex_eq hm, getIterators_stem hm.sorted hstem, Option.bind_some,
    hm.sorted.scan_halfopen (le_of_last hlast), Option.map_some, matching_eq,
    selected_eq, hstem]
  unfold picked
  rw [List.filter_filter]
  congr 2
  refine List.filter_congr fun e _ => ?_
  rw [← Bool.decide_and]
  exact decide_eq_decide.mpr (and_congr_right fun _ =>
    (prefix_iff_between hlast).symm)

variable (fullMatch) in
/-- The search between iterators in the wrong order. -/
theorem regex_last (hm : m.IsOrdered) (hstem : stem regexStr = s ++ [255]) :
    (m.HasKey (fun k => wrapped (stem regexStr) ≤ k ∧ k < stem regexStr) →
      regex fullMatch m regexStr = none) ∧
    (¬ m.HasKey (fun k => wrapped (stem regexStr) ≤ k ∧ k < stem regexStr) →
      regex fullMatch m regexStr = some []) := by
  have hiters : getIterators regexStr m.toList = some
      (lowerBound m.toList (s ++ [255]),
        lowerBound m.toList (wrapped (s ++ [255]))) := by
    rw [getIterators_stem hm.sorted hstem, wrapped, List.dropLast_concat]
    rfl
  rw [regex_eq hm, hiters, Option.bind_some,
    hm.sorted.scan_wrong (le_of_lt wrapped_lt), hstem]
  unfold IndexMap.HasKey
  constructor
  · intro hkey
    rw [if_pos hkey]
    rfl
  · intro hnone
    rw [if_neg hnone]
    rfl

theorem regex_none (hm : m.IsOrdered) (hnil : eraseCaret regexStr = []) :
    regex fullMatch m regexStr = none := by
  rw [regex_eq hm, getIterators_none hnil]
  rfl

/-- A selection that is empty. -/
theorem nil_perm_selected {p : Bytes → Prop} [DecidablePred p] :
    ([] : List IndexEntry).Perm (m.selected p) ↔ ¬ m.HasKey p := by
  rw [selected_eq]
  constructor
  · rintro hperm ⟨e, he, hp⟩
    have hmem : e.2 ∈ picked m.toList p :=
      List.mem_map_of_mem (List.mem_filter.mpr ⟨he, decide_eq_true hp⟩)
    rw [List.nil_perm.mp hperm] at hmem
    cases hmem
  · intro hnone
    rw [picked_nil fun e he hp => hnone ⟨e, he, hp⟩]

/-- How the search of an ordered map goes. -/
theorem stem_cases (regexStr : Bytes) : eraseCaret regexStr = [] ∨
    eraseCaret regexStr ≠ [] ∧ stem regexStr = [] ∨
    (∃ s last, stem regexStr = s ++ [last] ∧ last ≠ 255) ∨
    ∃ s, stem regexStr = s ++ [255] := by
  by_cases hnil : eraseCaret regexStr = []
  · exact .inl hnil
  · rcases List.eq_nil_or_concat (stem regexStr) with hstem | ⟨s, last, hstem⟩
    · exact .inr (.inl ⟨hnil, hstem⟩)
    · by_cases hlast : last = 255
      · subst hlast
        exact .inr (.inr (.inr ⟨s, hstem.trans (List.concat_eq_append)⟩))
      · exact .inr (.inr (.inl
          ⟨s, last, hstem.trans (List.concat_eq_append), hlast⟩))

/-! ## Patterns and expressions -/

section

variable {wild wild' : UInt8 → Bool} {ps : List Piece} {c : UInt8}

theorem reads_char : reads wild (.char c :: ps) s = true ↔
    ∃ t, s = c :: t ∧ reads wild ps t = true := by
  cases s with
  | nil => exact iff_of_false (by simp [reads]) (by simp)
  | cons b s =>
      rw [reads, Bool.and_eq_true, decide_eq_true_eq]
      constructor
      · rintro ⟨rfl, h⟩
        exact ⟨s, rfl, h⟩
      · rintro ⟨t, heq, h⟩
        injection heq with hb hs
        exact ⟨hb, hs ▸ h⟩

theorem reads_one : reads wild (.one :: ps) s = true ↔
    ∃ b t, s = b :: t ∧ wild b = true ∧ reads wild ps t = true := by
  cases s with
  | nil => exact iff_of_false (by simp [reads]) (by simp)
  | cons b s =>
      rw [reads, Bool.and_eq_true]
      constructor
      · exact fun h => ⟨b, s, rfl, h⟩
      · rintro ⟨b', t, heq, h⟩
        injection heq with hb hs
        exact hb ▸ hs ▸ h

theorem reads_many : reads wild (.many :: ps) s = true ↔
    ∃ a b, s = a ++ b ∧ (∀ c ∈ a, wild c = true) ∧ reads wild ps b = true := by
  rw [reads, List.any_eq_true]
  simp only [Bool.and_eq_true, List.all_eq_true, List.mem_range]
  constructor
  · rintro ⟨n, -, hwild, hrest⟩
    exact ⟨s.take n, s.drop n, (List.take_append_drop n s).symm, hwild, hrest⟩
  · rintro ⟨a, b, rfl, hwild, hrest⟩
    refine ⟨a.length, ?_, ?_, ?_⟩
    · rw [List.length_append]
      omega
    · rwa [List.take_left]
    · rwa [List.drop_left]

/-- More characters to stand for. -/
theorem reads_mono (h : ∀ c, wild c = true → wild' c = true) :
    ∀ {ps : List Piece} {s : Bytes}, reads wild ps s = true →
      reads wild' ps s = true
  | [], _, hr => hr
  | .char c :: ps, s, hr => by
      obtain ⟨t, rfl, ht⟩ := reads_char.mp hr
      exact reads_char.mpr ⟨t, rfl, reads_mono h ht⟩
  | .one :: ps, s, hr => by
      obtain ⟨b, t, rfl, hb, ht⟩ := reads_one.mp hr
      exact reads_one.mpr ⟨b, t, rfl, h b hb, reads_mono h ht⟩
  | .many :: ps, s, hr => by
      obtain ⟨a, b, rfl, ha, hb⟩ := reads_many.mp hr
      exact reads_many.mpr ⟨a, b, rfl, fun c hc => h c (ha c hc),
        reads_mono h hb⟩

theorem LikeInLine.like (h : LikeInLine pattern key) : Like pattern key :=
  reads_mono (fun _ _ => rfl) h

/-- As a regular expression, the pieces read the same. -/
theorem toRegex_reads : ∀ ps : List Piece, Regex.Reads newline (toRegex ps)
    fun s => reads (· != newline) ps s = true
  | [] => by
      intro u v w
      exact (Regex.reads_empty u v w).trans List.isEmpty_iff.symm
  | .char c :: ps => by
      intro u v w
      have hchar : Regex.Reads newline (.char c) (· = [c]) := Regex.reads_char
      have hcat := hchar.cat (toRegex_reads ps) u v w
      refine hcat.trans (Iff.trans ?_ reads_char.symm)
      constructor
      · rintro ⟨v₁, v₂, rfl, rfl, h⟩
        exact ⟨v₂, rfl, h⟩
      · rintro ⟨t, rfl, h⟩
        exact ⟨[c], t, rfl, rfl, h⟩
  | .one :: ps => by
      intro u v w
      have hany : Regex.Reads newline .any fun v =>
        ∃ c, c ≠ newline ∧ v = [c] := Regex.reads_any
      have hcat := hany.cat (toRegex_reads ps) u v w
      refine hcat.trans (Iff.trans ?_ reads_one.symm)
      constructor
      · rintro ⟨v₁, v₂, rfl, ⟨b, hb, rfl⟩, h⟩
        exact ⟨b, v₂, rfl, bne_iff_ne.mpr hb, h⟩
      · rintro ⟨b, t, rfl, hb, h⟩
        exact ⟨[b], t, rfl, ⟨b, bne_iff_ne.mp hb, rfl⟩, h⟩
  | .many :: ps => by
      intro u v w
      have hstar : Regex.Reads newline (.star .any) fun v =>
        ∀ c ∈ v, c ≠ newline := Regex.reads_star_any
      have hcat := hstar.cat (toRegex_reads ps) u v w
      refine hcat.trans (Iff.trans ?_ reads_many.symm)
      simp only [bne_iff_ne]

/-- `like2Regex` goes piece by piece. -/
theorem like2Regex_eq : ∀ pattern : Bytes,
    like2Regex pattern = text (pattern.map piece)
  | [] => rfl
  | c :: pattern => by
      have ih := like2Regex_eq pattern
      unfold like2Regex at ih ⊢
      unfold text at ih ⊢
      rw [List.map_cons, List.flatMap_cons, ← ih, piece, replaceEach]
      by_cases hpercent : c = percent
      · subst hpercent
        rw [if_neg (by decide), if_pos rfl, replaceEach, if_pos rfl]
        rfl
      · rw [if_neg hpercent]
        by_cases hunder : c = underscore
        · rw [if_pos hunder, if_pos hunder, List.singleton_append, replaceEach,
            if_neg (by decide)]
          rfl
        · rw [if_neg hunder, if_neg hunder, replaceEach, if_neg hpercent]
          rfl

theorem piece_plain (h : PlainPattern pattern) :
    ∀ p ∈ pattern.map piece, p.Plain := by
  intro p hp
  obtain ⟨c, hc, rfl⟩ := List.mem_map.mp hp
  unfold piece
  split
  · trivial
  · split
    · trivial
    · exact h c hc

/-- The matcher reads what the pattern reads on one line. -/
theorem fullMatch_like2Regex (h : Standard fullMatch)
    (hplain : PlainPattern pattern) (key : Bytes) :
    fullMatch (like2Regex pattern) key = true ↔ LikeInLine pattern key := by
  rw [like2Regex_eq, h.sequence _ (piece_plain hplain)]
  exact toRegex_reads _ [] key []

theorem Plain.not_meta (h : Plain c) : c ∉ metacharacters := fun hc =>
  h (List.mem_cons_of_mem _ (List.mem_cons_of_mem _ hc))

theorem PlainPattern.tail (h : PlainPattern (c :: pattern)) :
    PlainPattern pattern := fun b hb => h b (List.mem_cons_of_mem _ hb)

theorem eraseCaret_plain (hplain : PlainPattern pattern) :
    eraseCaret pattern = pattern := by
  cases pattern with
  | nil => rfl
  | cons c pattern =>
      have hc := (hplain c List.mem_cons_self).not_meta
      have hcaret : c ≠ caret := fun h => hc (h ▸ by decide)
      exact if_neg hcaret

/-- The rewriting does not touch a `^`. -/
theorem eraseCaret_like2Regex :
    eraseCaret (like2Regex pattern) = like2Regex (eraseCaret pattern) := by
  rw [like2Regex_eq, like2Regex_eq]
  cases pattern with
  | nil => rfl
  | cons c pattern =>
      rw [List.map_cons, text, List.flatMap_cons, eraseCaret, piece]
      by_cases hpercent : c = percent
      · rw [if_pos hpercent, if_neg (hpercent ▸ by decide), List.map_cons, text,
          List.flatMap_cons, piece, if_pos hpercent]
        rfl
      · rw [if_neg hpercent]
        by_cases hunder : c = underscore
        · rw [if_pos hunder, if_neg (hunder ▸ by decide), List.map_cons, text,
            List.flatMap_cons, piece, if_neg hpercent, if_pos hunder]
          rfl
        · rw [if_neg hunder]
          show eraseCaret (c :: _) = _
          rw [eraseCaret]
          split
          · rfl
          · rw [List.map_cons, text, List.flatMap_cons, piece,
              if_neg hpercent, if_neg hunder]
            rfl

theorem like2Regex_eq_nil : like2Regex pattern = [] ↔ pattern = [] := by
  rw [like2Regex_eq]
  cases pattern with
  | nil => exact iff_of_true rfl rfl
  | cons c pattern =>
      refine iff_of_false ?_ (List.cons_ne_nil _ _)
      rw [List.map_cons, text, List.flatMap_cons, piece]
      split
      · exact List.cons_ne_nil _ _
      · split <;> exact List.cons_ne_nil _ _

/-- What the expression begins with is what the pattern begins with. -/
theorem stem_like2Regex : stem (like2Regex pattern) = likeStem pattern := by
  rw [stem, eraseCaret_like2Regex, like2Regex_eq, likeStem]
  induction eraseCaret pattern with
  | nil => rfl
  | cons c pattern ih =>
      rw [text] at ih ⊢
      rw [List.map_cons, List.flatMap_cons, piece]
      by_cases hpercent : c = percent
      · rw [if_pos hpercent, List.takeWhile_cons (l := pattern),
          if_neg (by simp [hpercent])]
        rfl
      · by_cases hunder : c = underscore
        · rw [if_neg hpercent, if_pos hunder,
            List.takeWhile_cons (l := pattern), if_neg (by simp [hunder])]
          rfl
        · rw [if_neg hpercent, if_neg hunder]
          show (c :: _).takeWhile _ = _
          by_cases hmeta : c ∈ metacharacters
          · rw [List.takeWhile_cons, List.takeWhile_cons, if_neg (by simpa),
              if_neg (by simp [hmeta])]
          · rw [List.takeWhile_cons, List.takeWhile_cons, if_pos (by simpa),
              if_pos (by simp [hpercent, hunder, hmeta])]
            exact congrArg (c :: ·) ih

/-- What a plain pattern reads begins as the pattern does. -/
theorem likeStem_prefix (hplain : PlainPattern pattern)
    (h : reads wild (pattern.map piece) key = true) :
    likeStem pattern <+: key := by
  rw [likeStem, eraseCaret_plain hplain]
  clear hplain
  induction pattern generalizing key with
  | nil => exact List.nil_prefix
  | cons c pattern ih =>
      rw [List.takeWhile_cons]
      split
      · next hc =>
          rw [decide_eq_true_eq] at hc
          have hpercent : c ≠ percent := fun h => hc (by simp [h])
          have hunder : c ≠ underscore := fun h => hc (by simp [h])
          rw [List.map_cons, piece, if_neg hpercent, if_neg hunder] at h
          obtain ⟨t, rfl, ht⟩ := reads_char.mp h
          exact (List.prefix_cons_inj c).mpr (ih ht)
      · exact List.nil_prefix

end

/-! ## A matcher

Of the expressions it knows the two kinds that are asked for, and any other one
it refuses. -/

/-- The sequence that is written so. -/
def readPieces : Bytes → Option (List Piece)
  | [] => some []
  | [c] =>
      if c = dot then some [.one]
      else if Plain c then some [.char c] else none
  | c :: b :: s =>
      if c = dot then
        if b = asterisk then (readPieces s).map (.many :: ·)
        else (readPieces (b :: s)).map (.one :: ·)
      else if Plain c then (readPieces (b :: s)).map (.char c :: ·) else none

/-- Between the beginning and the end, if these are there. -/
def inside (pattern : Bytes) : Option Bytes :=
  let rest := pattern.drop withoutBegin.length
  let s := rest.take (rest.length - withoutEnd.length)
  if pattern = withoutBegin ++ s ++ withoutEnd then some s else none

/-- The sequence is read from no character on, and there is no newline. -/
def nowhere (ps : List Piece) : Bytes → Bool
  | [] => true
  | c :: b =>
      decide (c ≠ newline) &&
        (c :: b).inits.all (fun x => !reads (· != newline) ps x) &&
        nowhere ps b

/-- `FullMatch`, for such expressions. -/
def pcre (pattern key : Bytes) : Bool :=
  match readPieces pattern with
  | some ps => reads (· != newline) ps key
  | none =>
      match (inside pattern).bind readPieces with
      | some ps => nowhere ps key
      | none => false

section

variable {ps : List Piece}

theorem head_text_ne (h : ∀ p ∈ ps, p.Plain) :
    (text ps).head? ≠ some asterisk := by
  cases ps with
  | nil => exact nofun
  | cons p ps =>
      have hp := h p List.mem_cons_self
      cases p with
      | char c =>
          intro hc
          have hmeta := Plain.not_meta hp
          rw [Option.some.inj hc] at hmeta
          exact hmeta (by decide)
      | one => exact nofun
      | many => exact nofun

theorem readPieces_text : ∀ {ps : List Piece}, (∀ p ∈ ps, p.Plain) →
    readPieces (text ps) = some ps
  | [], _ => rfl
  | p :: ps, h => by
      have hps : ∀ p ∈ ps, p.Plain :=
        fun q hq => h q (List.mem_cons_of_mem _ hq)
      have ih := readPieces_text hps
      have hhead := head_text_ne hps
      have hp := h p List.mem_cons_self
      have htext : text (p :: ps) = p.text ++ text ps := List.flatMap_cons
      rw [htext]
      cases p with
      | char c =>
          have hdot : c ≠ dot := fun hc => Plain.not_meta hp (hc ▸ by decide)
          have hplain : Plain c := hp
          show readPieces (c :: text ps) = _
          cases ht : text ps with
          | nil =>
              rw [ht] at ih
              rw [readPieces, if_neg hdot, if_pos hplain, Option.some.inj ih]
          | cons b s =>
              rw [ht] at ih
              rw [readPieces, if_neg hdot, if_pos hplain, ih]
              rfl
      | one =>
          show readPieces (dot :: text ps) = _
          cases ht : text ps with
          | nil =>
              rw [ht] at ih
              rw [readPieces, if_pos rfl, Option.some.inj ih]
          | cons b s =>
              rw [ht] at ih hhead
              have hb : b ≠ asterisk := fun hb => hhead (congrArg some hb)
              rw [readPieces, if_pos rfl, if_neg hb, ih]
              rfl
      | many =>
          show readPieces (dot :: asterisk :: text ps) = _
          rw [readPieces, if_pos rfl, if_pos rfl, ih]
          rfl

theorem inside_eq {s : Bytes} :
    inside (withoutBegin ++ s ++ withoutEnd) = some s := by
  have hrest : (withoutBegin ++ s ++ withoutEnd).drop withoutBegin.length =
      s ++ withoutEnd := by
    rw [List.append_assoc, List.drop_left]
  unfold inside
  dsimp only
  rw [hrest, List.length_append, Nat.add_sub_cancel, List.take_left,
    if_pos rfl]

theorem nowhere_iff : ∀ {key : Bytes}, nowhere ps key = true ↔
    ∀ a c b, key = a ++ c :: b → c ≠ newline ∧
      ∀ x y, c :: b = x ++ y → ¬ reads (· != newline) ps x = true
  | [] => iff_of_true rfl fun a c b h => absurd h (by simp)
  | c :: key => by
      rw [nowhere, Bool.and_eq_true, Bool.and_eq_true, nowhere_iff,
        decide_eq_true_eq, List.all_eq_true]
      have hinits : (∀ x ∈ (c :: key).inits,
          (!reads (· != newline) ps x) = true) ↔
          ∀ x y, c :: key = x ++ y → ¬ reads (· != newline) ps x = true := by
        simp only [List.mem_inits, Bool.not_eq_true', Bool.not_eq_true]
        exact ⟨fun h x y hxy => h x ⟨y, hxy.symm⟩,
          fun h x ⟨y, hxy⟩ => h x y hxy.symm⟩
      rw [hinits]
      constructor
      · rintro ⟨hhere, hrest⟩ a d b hkey
        cases a with
        | nil =>
            injection hkey with hc hb
            subst hc hb
            exact hhere
        | cons a' a =>
            injection hkey with _ hkey
            exact hrest a d b hkey
      · intro hall
        exact ⟨hall [] c key rfl, fun a d b hkey => hall (c :: a) d b
          (congrArg (c :: ·) hkey)⟩

end

theorem standard_pcre : Standard pcre where
  sequence ps h key := by
    rw [pcre, readPieces_text h]
    exact (toRegex_reads ps [] key []).symm
  without ps h key := by
    have hnone : readPieces (withoutBegin ++ text ps ++ withoutEnd) = none :=
      rfl
    rw [Regex.fullMatch_without (toRegex_reads ps), ← nowhere_iff, pcre, hnone,
      inside_eq, Option.bind_some, readPieces_text h]

/-- A unique index with one key. -/
def oneKey (key : Bytes) : IndexMap Bytes :=
  .unique ⟨[(key, ⟨1, 1⟩)], List.pairwise_singleton _ _⟩

/-! ## Other entries for the same keys -/

theorem SameKeys.hasKey {m m' : IndexMap Bytes} (h : SameKeys m m')
    (p : Bytes → Prop) : m.HasKey p ↔ m'.HasKey p := by
  have hkeys : ∀ xs : List (Bytes × IndexEntry),
      (∃ e ∈ xs, p e.1) ↔ ∃ k ∈ xs.map Prod.fst, p k := by
    intro xs
    simp only [List.mem_map, exists_exists_and_eq_and]
  unfold IndexMap.HasKey
  rw [hkeys, hkeys, h.2]

/-- As the entry of each key, its place. -/
def numberedFrom : ℕ → List (Bytes × IndexEntry) → List (Bytes × IndexEntry)
  | _, [] => []
  | n, e :: xs => (e.1, ⟨n, 0⟩) :: numberedFrom (n + 1) xs

theorem keys_numberedFrom : ∀ {n : ℕ} {xs : List (Bytes × IndexEntry)},
    (numberedFrom n xs).map Prod.fst = xs.map Prod.fst
  | _, [] => rfl
  | _, e :: _ => congrArg (e.1 :: ·) keys_numberedFrom

theorem pairwise_numberedFrom {R : Bytes → Bytes → Prop} {n : ℕ}
    (h : xs.Pairwise fun e f => R e.1 f.1) :
    (numberedFrom n xs).Pairwise fun e f => R e.1 f.1 := by
  rw [← List.pairwise_map (R := R)] at h ⊢
  rwa [keys_numberedFrom]

theorem le_of_mem_numberedFrom {e : Bytes × IndexEntry} : ∀ {n : ℕ}
    {xs : List (Bytes × IndexEntry)}, e ∈ numberedFrom n xs →
      (n : ℤ) ≤ e.2.rowid
  | _, [], h => absurd h (List.not_mem_nil)
  | n, _ :: xs, h => by
      rcases List.mem_cons.mp h with rfl | h
      · exact le_refl _
      · have := le_of_mem_numberedFrom h
        omega

theorem entries_numberedFrom : ∀ {n : ℕ} {xs : List (Bytes × IndexEntry)},
    ((numberedFrom n xs).map Prod.snd).Nodup
  | _, [] => List.nodup_nil
  | n, _ :: xs => by
      refine List.nodup_cons.mpr ⟨fun h => ?_, entries_numberedFrom⟩
      obtain ⟨e, he, heq⟩ := List.mem_map.mp h
      have hle := le_of_mem_numberedFrom he
      rw [heq] at hle
      change ((n + 1 : ℕ) : ℤ) ≤ n at hle
      omega

/-- The map with its entries numbered. -/
def numbered : IndexMap Bytes → IndexMap Bytes
  | .unique ⟨xs, h⟩ => .unique ⟨numberedFrom 0 xs, pairwise_numberedFrom h⟩
  | .nonunique ⟨xs, h⟩ =>
      .nonunique ⟨numberedFrom 0 xs, pairwise_numberedFrom h⟩
  | .unordered ⟨xs, h⟩ =>
      .unordered ⟨numberedFrom 0 xs, pairwise_numberedFrom (R := (· ≠ ·)) h⟩

theorem toList_numbered : (numbered m).toList = numberedFrom 0 m.toList := by
  cases m <;> rfl

theorem sameKeys_numbered : SameKeys m (numbered m) := by
  refine ⟨?_, ?_⟩
  · cases m <;> rfl
  · rw [toList_numbered, keys_numberedFrom]

/-- Of numbered entries two selections are the same only if they are of the same
keys. -/
theorem numbered_perm {p q : Bytes → Prop} [DecidablePred p] [DecidablePred q]
    (h : ((numbered m).selected p).Perm ((numbered m).selected q)) :
    ∀ e ∈ m.toList, p e.1 ↔ q e.1 := by
  have hnodup : ((numbered m).toList.map Prod.snd).Nodup := by
    rw [toList_numbered]
    exact entries_numberedFrom
  have hone : ∀ {p q : Bytes → Prop} [DecidablePred p] [DecidablePred q],
      ((numbered m).selected p).Perm ((numbered m).selected q) →
      ∀ e ∈ (numbered m).toList, p e.1 → q e.1 := by
    intro p q _ _ h e he hp
    have hmem : e.2 ∈ (numbered m).selected q :=
      h.subset (List.mem_map_of_mem
        (List.mem_filter.mpr ⟨he, decide_eq_true hp⟩))
    obtain ⟨e', he', heq⟩ := List.mem_map.mp hmem
    obtain ⟨hin, hq⟩ := List.mem_filter.mp he'
    rw [← List.inj_on_of_nodup_map hnodup hin he heq]
    exact of_decide_eq_true hq
  have hkeys : ¬ (numbered m).HasKey fun k => ¬ (p k ↔ q k) := by
    rintro ⟨e, he, hne⟩
    exact hne ⟨hone h e he, hone h.symm e he⟩
  rw [← sameKeys_numbered.hasKey] at hkeys
  intro e he
  by_contra hne
  exact hkeys ⟨e, he, hne⟩

/-! ## Pruning -/

/-- Nothing is lost between the iterators, if every match begins as the
expression does. -/
theorem pruningLossless_iff (hm : m.IsOrdered) (pattern : Bytes) :
    PruningLossless fullMatch m (like2Regex pattern) ↔
      PruningSound fullMatch m (like2Regex pattern) := by
  generalize like2Regex pattern = regexStr
  unfold PruningLossless
  rcases stem_cases regexStr with hnil | ⟨hne, hstem⟩ |
    ⟨s, last, hstem, hlast⟩ | ⟨s, hstem⟩
  · rw [regex_none hm hnil]
    exact iff_of_false not_appends_none fun h => h.nonempty hnil
  · rw [regex_all (.inr ⟨hne, hstem⟩)]
    refine iff_of_true (appends_some.mpr (.refl _)) ⟨hne, ?_, ?_⟩
    · rintro - ⟨e, -, -, hnot⟩
      rw [hstem] at hnot
      exact hnot List.nil_prefix
    · intro h
      rw [hstem] at h
      exact absurd h (by simp)
  · have hne : eraseCaret regexStr ≠ [] := by
      intro hnil
      rw [stem, hnil] at hstem
      exact absurd hstem (by simp)
    have hget : (stem regexStr).getLast? = some last := by
      rw [hstem, List.getLast?_concat]
    rw [regex_stem hm hstem hlast, appends_some, selected_eq, selected_eq,
      picked_perm_iff _ fun k h => h.1]
    constructor
    · intro hnone
      refine ⟨hne, fun _ => ?_, fun h => ?_⟩
      · rintro ⟨e, he, hmatch, hnot⟩
        exact hnone ⟨e, he, hmatch, fun h => hnot h.2⟩
      · rw [hget] at h
        exact absurd (Option.some.inj h) hlast
    · rintro hsound ⟨e, he, hmatch, hnot⟩
      refine hsound.beginning ?_ ⟨e, he, hmatch, fun h => hnot ⟨hmatch, h⟩⟩
      rw [hget]
      exact fun h => hlast (Option.some.inj h)
  · have hne : eraseCaret regexStr ≠ [] := by
      intro hnil
      rw [stem, hnil] at hstem
      exact absurd hstem (by simp)
    have hget : (stem regexStr).getLast? = some 255 := by
      rw [hstem, List.getLast?_concat]
    obtain ⟨hloop, hempty⟩ := regex_last fullMatch hm hstem
    by_cases hkey : m.HasKey fun k =>
        wrapped (stem regexStr) ≤ k ∧ k < stem regexStr
    · rw [hloop hkey]
      refine iff_of_false not_appends_none fun h => ?_
      obtain ⟨e, he, hin⟩ := hkey
      exact h.last hget ⟨e, he, .inr hin⟩
    · rw [hempty hkey, appends_some, nil_perm_selected]
      constructor
      · intro hnone
        refine ⟨hne, fun h => absurd hget h, fun _ => ?_⟩
        rintro ⟨e, he, hmatch | hin⟩
        · exact hnone ⟨e, he, hmatch⟩
        · exact hkey ⟨e, he, hin⟩
      · rintro hsound ⟨e, he, hmatch⟩
        exact hsound.last hget ⟨e, he, .inl hmatch⟩

theorem pruningLossless_a : PruningLossless pcre (oneKey [97])
      (like2Regex [97, 37]) ↔
    PruningSound pcre (oneKey [97]) (like2Regex [97, 37]) :=
  pruningLossless_iff (m := oneKey [97]) trivial _

/-- The string of one byte 255 is not LIKE itself. -/
theorem pruning_loses : ¬ PruningLossless pcre (oneKey [255])
    (like2Regex [255]) := by
  rintro ⟨es, hes, hperm⟩
  have hnil : regex pcre (oneKey [255]) (like2Regex [255]) = some [] := by
    decide +kernel
  rw [hnil] at hes
  obtain rfl := Option.some.inj hes
  have hlen := hperm.length_eq
  revert hlen
  decide +kernel

/-! ## LIKE -/

instance : Decidable m.IsOrdered :=
  match m with
  | .unique _ | .nonunique _ => isTrue trivial
  | .unordered _ => isFalse id

/-- Where the iterators are assigned and in order, the search finds what is
matched behind the beginning. -/
theorem regex_found (h : m.IsOrdered → eraseCaret regexStr ≠ [] ∧
    (stem regexStr).getLast? ≠ some 255) :
    regex fullMatch m regexStr = some (m.selected fun k =>
      fullMatch regexStr k = true ∧ (m.IsOrdered → stem regexStr <+: k)) := by
  by_cases hord : m.IsOrdered
  · obtain ⟨hne, hlast⟩ := h hord
    rcases stem_cases regexStr with hnil | ⟨-, hnil⟩ | ⟨s, last, hs, hbyte⟩ |
      ⟨s, hs⟩
    · exact absurd hnil hne
    · rw [regex_all (.inr ⟨hne, hnil⟩), selected_eq, selected_eq]
      refine congrArg some (picked_congr fun e _ => ?_)
      rw [hnil]
      exact (and_iff_left fun _ => List.nil_prefix).symm
    · rw [regex_stem hord hs hbyte, selected_eq, selected_eq]
      refine congrArg some (picked_congr fun e _ => ?_)
      exact and_congr_right fun _ => ⟨fun h _ => h, fun h => h hord⟩
    · rw [hs, List.getLast?_concat] at hlast
      exact absurd rfl hlast
  · rw [regex_all (.inl hord), selected_eq, selected_eq]
    refine congrArg some (picked_congr fun e _ => ?_)
    exact (and_iff_left fun h => absurd h hord).symm

/-- What is found for a plain pattern is what it reads on one line. -/
theorem found_plain (h : Standard fullMatch) (hplain : PlainPattern pattern) :
    fullMatch (like2Regex pattern) key = true ∧
      (m.IsOrdered → likeStem pattern <+: key) ↔ LikeInLine pattern key := by
  rw [fullMatch_like2Regex h hplain]
  exact and_iff_left_of_imp fun hreads _ => likeStem_prefix hplain hreads

/-- The rewritten pattern takes the same keys as LIKE does. -/
def Takes (fullMatch : Bytes → Bytes → Bool) (m : IndexMap Bytes)
    (pattern : Bytes) : Prop :=
  ∀ m', SameKeys m m' → Appends (regex fullMatch m' (like2Regex pattern))
    (m'.selected (Like pattern))

theorem takes_none (hord : m.IsOrdered) (hnil : eraseCaret pattern = []) :
    ¬ Takes fullMatch m pattern := by
  intro htakes
  have hnone := htakes m ⟨Iff.rfl, rfl⟩
  rw [regex_none hord (by rw [eraseCaret_like2Regex, hnil]; rfl)] at hnone
  exact not_appends_none hnone

/-- Between iterators in the wrong order there is nothing to take. -/
theorem takes_high (hord : m.IsOrdered) (hlast : EndsHigh pattern) :
    Takes fullMatch m pattern ↔ ¬ m.HasKey fun key => Like pattern key ∨
      wrapped (likeStem pattern) ≤ key ∧ key < likeStem pattern := by
  obtain ⟨s, hs⟩ := List.getLast?_eq_some_iff.mp hlast
  have hruns := fun m' (hord' : IndexMap.IsOrdered m') =>
    regex_last fullMatch hord' (stem_like2Regex.trans hs)
  rw [stem_like2Regex] at hruns
  constructor
  · intro htakes
    have hself := htakes m ⟨Iff.rfl, rfl⟩
    have hkey : ¬ m.HasKey fun k =>
        wrapped (likeStem pattern) ≤ k ∧ k < likeStem pattern := by
      intro hkey
      rw [(hruns m hord).1 hkey] at hself
      exact not_appends_none hself
    rw [(hruns m hord).2 hkey, appends_some, nil_perm_selected] at hself
    rintro ⟨e, he, hlike | hin⟩
    · exact hself ⟨e, he, hlike⟩
    · exact hkey ⟨e, he, hin⟩
  · intro hnone m' hsame
    rw [hsame.hasKey] at hnone
    rw [(hruns m' (hsame.1.mp hord)).2, appends_some, nil_perm_selected]
    · rintro ⟨e, he, hlike⟩
      exact hnone ⟨e, he, .inl hlike⟩
    · rintro ⟨e, he, hin⟩
      exact hnone ⟨e, he, .inr hin⟩

/-- Between the right ones it is a matter of the keys one by one. -/
theorem takes_found (h : m.IsOrdered →
    eraseCaret pattern ≠ [] ∧ ¬ EndsHigh pattern) :
    Takes fullMatch m pattern ↔ ¬ m.HasKey fun key => ¬ (Like pattern key ↔
      fullMatch (like2Regex pattern) key = true ∧
        (m.IsOrdered → likeStem pattern <+: key)) := by
  have hruns : ∀ m', SameKeys m m' →
      regex fullMatch m' (like2Regex pattern) = some (m'.selected fun key =>
        fullMatch (like2Regex pattern) key = true ∧
          (m.IsOrdered → likeStem pattern <+: key)) := by
    intro m' hsame
    rw [regex_found, stem_like2Regex, selected_eq, selected_eq]
    · refine congrArg some (picked_congr fun e _ => ?_)
      rw [hsame.1]
    · intro hord'
      obtain ⟨hne, hlast⟩ := h (hsame.1.mpr hord')
      rw [eraseCaret_like2Regex, Ne, like2Regex_eq_nil, stem_like2Regex]
      exact ⟨hne, hlast⟩
  constructor
  · rintro htakes ⟨e, he, hne⟩
    have hperm := htakes _ sameKeys_numbered
    rw [hruns _ sameKeys_numbered, appends_some] at hperm
    exact hne (numbered_perm hperm e he).symm
  · intro hnone m' hsame
    rw [hsame.hasKey] at hnone
    rw [hruns m' hsame, appends_some, selected_eq, selected_eq]
    refine List.Perm.of_eq (picked_congr fun e he => ?_)
    by_contra hne
    exact hnone ⟨e, he, fun hiff => hne hiff.symm⟩

/-- For a plain pattern the keys are told apart by their newlines only. -/
theorem disagrees_plain (h : Standard fullMatch)
    (hplain : PlainPattern pattern) :
    ¬ (Like pattern key ↔ fullMatch (like2Regex pattern) key = true ∧
        (m.IsOrdered → likeStem pattern <+: key)) ↔
      Like pattern key ∧ ¬ LikeInLine pattern key := by
  rw [found_plain h hplain]
  constructor
  · intro hne
    by_cases hline : LikeInLine pattern key
    · exact absurd (iff_of_true hline.like hline) hne
    · exact ⟨not_not.mp fun hlike => hne (iff_of_false hlike hline), hline⟩
  · rintro ⟨hlike, hline⟩ hiff
    exact hline (hiff.mp hlike)

theorem takes_iff_sound (h : Standard fullMatch) (hright : m.IsOrdered →
    eraseCaret pattern ≠ [] ∧ ¬ EndsHigh pattern) :
    Takes fullMatch m pattern ↔ LikeSound fullMatch m pattern := by
  rw [takes_found hright]
  have hwrong : ¬ (m.IsOrdered ∧ EndsHigh pattern) :=
    fun hw => (hright hw.1).2 hw.2
  by_cases hplain : PlainPattern pattern
  · simp only [disagrees_plain h hplain]
    constructor
    · intro hnone
      exact ⟨fun hord => (hright hord).1,
        fun hord hlast => absurd ⟨hord, hlast⟩ hwrong, fun _ => hnone,
        fun hnot => absurd hplain hnot⟩
    · exact fun hsound => hsound.newline hplain
  · constructor
    · intro hnone
      exact ⟨fun hord => (hright hord).1,
        fun hord hlast => absurd ⟨hord, hlast⟩ hwrong,
        fun h => absurd h hplain, fun _ _ => hnone⟩
    · exact fun hsound => hsound.expression hplain hwrong

/-- LIKE finds what it should, if nothing makes of the pattern more or less than
it says. -/
theorem likeMeans_iff (h : Standard fullMatch) (m : IndexMap Bytes)
    (pattern : Bytes) : LikeMeans fullMatch m pattern ↔
      LikeSound fullMatch m (trimspace pattern) := by
  change Takes fullMatch m (trimspace pattern) ↔ _
  generalize trimspace pattern = pattern
  by_cases hord : m.IsOrdered
  · by_cases hnil : eraseCaret pattern = []
    · exact iff_of_false (takes_none hord hnil) fun hsound =>
        hsound.nonempty hord hnil
    · by_cases hlast : EndsHigh pattern
      · rw [takes_high hord hlast]
        constructor
        · intro hnone
          refine ⟨fun _ => hnil, fun _ _ => hnone, fun _ => ?_,
            fun _ h => absurd ⟨hord, hlast⟩ h⟩
          rintro ⟨e, he, hlike, -⟩
          exact hnone ⟨e, he, .inl hlike⟩
        · exact fun hsound => hsound.last hord hlast
      · exact takes_iff_sound h fun _ => ⟨hnil, hlast⟩
  · exact takes_iff_sound h fun h => absurd h hord

theorem likeMeans_a : LikeMeans pcre (oneKey [97]) [97, 37] ↔
    LikeSound pcre (oneKey [97]) (trimspace [97, 37]) :=
  likeMeans_iff standard_pcre _ _

/-- `'acb' LIKE 'a.b'`. -/
theorem like_dot : ¬ LikeMeans pcre (oneKey [97, 99, 98]) [97, 46, 98] := by
  intro hmeans
  obtain ⟨es, hes, hperm⟩ := hmeans _ ⟨Iff.rfl, rfl⟩
  have hfound : like pcre (oneKey [97, 99, 98]) [97, 46, 98] =
      some [⟨1, 1⟩] := by decide +kernel
  rw [hfound] at hes
  obtain rfl := Option.some.inj hes
  have hlen := hperm.length_eq
  revert hlen
  decide +kernel

/-! ## NOT LIKE -/

namespace IsWord

theorem plain (h : IsWord pattern) : PlainPattern pattern := by
  have hnone : ∀ b ∈ 0 :: 123 :: metacharacters, ¬ (48 ≤ b ∧ b ≤ 57 ∨
      65 ≤ b ∧ b ≤ 90 ∨ 97 ≤ b ∧ b ≤ 122 ∨ b = percent ∨ b = underscore) := by
    decide +kernel
  exact fun c hc hmem => hnone c hmem (h c hc)

theorem trimspace_eq (h : IsWord pattern) : trimspace pattern = pattern := by
  refine List.rdropWhile_eq_self_iff.mpr fun hne hlast => ?_
  have hspace := of_decide_eq_true hlast
  have hword := h _ (List.getLast_mem hne)
  rw [hspace] at hword
  exact absurd hword (by decide)

theorem not_high (h : IsWord pattern) : ¬ EndsHigh pattern := by
  intro hhigh
  have hmem := List.mem_of_getLast? hhigh
  rw [likeStem, eraseCaret_plain h.plain] at hmem
  have hword := h _ (List.takeWhile_sublist _ |>.subset hmem)
  exact absurd hword (by decide)

end IsWord

/-- The keys of NOT LIKE: they have no newline and the pattern is nowhere in
them. -/
theorem fullMatch_without_iff (h : Standard fullMatch)
    (hplain : PlainPattern pattern) (key : Bytes) : fullMatch
      (withoutBegin ++ like2Regex pattern ++ withoutEnd) key = true ↔
        ¬ (newline ∈ key ∨ LikeInside pattern key) := by
  rw [like2Regex_eq, h.without _ (piece_plain hplain),
    Regex.fullMatch_without (toRegex_reads _)]
  constructor
  · rintro hall (hmem | ⟨a, b, x, y, hkey, hb, hxy, hread⟩)
    · obtain ⟨a, b, hkey⟩ := List.append_of_mem hmem
      exact (hall a newline b hkey).1 rfl
    · cases b with
      | nil => exact hb rfl
      | cons c b => exact (hall a c b hkey).2 x y hxy hread
  · intro hnone a c b hkey
    refine ⟨fun hc => hnone (.inl ?_), fun x y hxy hread => hnone (.inr
      ⟨a, c :: b, x, y, hkey, List.cons_ne_nil c b, hxy, hread⟩)⟩
    rw [hkey, ← hc]
    exact List.mem_append_right a List.mem_cons_self

theorem like_word (h : Standard fullMatch) (hword : IsWord pattern)
    (hne : m.IsOrdered → pattern ≠ []) :
    like fullMatch m pattern = some (m.selected (LikeInLine pattern)) := by
  unfold like
  rw [hword.trimspace_eq, regex_found, stem_like2Regex, selected_eq,
    selected_eq]
  · exact congrArg some (picked_congr fun e _ => found_plain h hword.plain)
  · intro hord
    rw [eraseCaret_like2Regex, Ne, like2Regex_eq_nil, stem_like2Regex,
      eraseCaret_plain hword.plain]
    exact ⟨hne hord, hword.not_high⟩

theorem notlike_word (hword : IsWord pattern) :
    notlike fullMatch m pattern = some (m.selected fun key => fullMatch
      (withoutBegin ++ like2Regex pattern ++ withoutEnd) key = true) := by
  unfold notlike
  rw [hword.trimspace_eq]
  exact regex_all (.inr ⟨List.cons_ne_nil _ _, rfl⟩)

/-- LIKE and NOT LIKE share the entries out, if in no key the pattern is found
from some character on only. -/
theorem likePartitions_iff (h : Standard fullMatch) (m : IndexMap Bytes)
    (hword : IsWord pattern) :
    LikePartitions fullMatch m pattern ↔ NotLikeSound m pattern := by
  have hnowhere := fullMatch_without_iff h hword.plain
  by_cases hne : m.IsOrdered → pattern ≠ []
  · have hlike := fun m' (hsame : SameKeys m m') =>
      like_word (m := m') h hword fun hord => hne (hsame.1.mpr hord)
    constructor
    · intro hpart
      obtain ⟨likes, others, all, hlikes, hothers, -, -, keys, hin, hout⟩ :=
        hpart _ sameKeys_numbered
      rw [hlike _ sameKeys_numbered] at hlikes
      rw [notlike_word hword] at hothers
      obtain rfl := Option.some.inj hlikes
      obtain rfl := Option.some.inj hothers
      have hsplit : ∀ e ∈ m.toList, LikeInLine pattern e.1 ↔
          newline ∈ e.1 ∨ LikeInside pattern e.1 := by
        intro e he
        have hfound := numbered_perm hin e he
        have hnot := numbered_perm hout e he
        rw [hnowhere, ← Bool.not_eq_true, not_iff_not] at hnot
        exact hfound.trans hnot.symm
      refine ⟨hne, ?_, ?_⟩
      · rintro ⟨e, he, hfound, hline⟩
        exact hline ((hsplit e he).mpr hfound)
      · rintro ⟨e, he, hnil, hline⟩
        rcases (hsplit e he).mp hline with hmem | ⟨a, b, x, y, hkey, hb, -⟩
        · rw [hnil] at hmem
          cases hmem
        · rw [hnil] at hkey
          exact hb (List.append_eq_nil_iff.mp hkey.symm).2
    · intro hsound m' hsame
      have hinside := hsound.inside
      have hempty := hsound.empty
      rw [hsame.hasKey] at hinside hempty
      have hsplit : ∀ e ∈ m'.toList, (fullMatch (withoutBegin ++
          like2Regex pattern ++ withoutEnd) e.1 = true ↔
            ¬ LikeInLine pattern e.1) := by
        intro e he
        rw [hnowhere, not_iff_not]
        constructor
        · intro hfound
          by_contra hline
          exact hinside ⟨e, he, hfound, hline⟩
        · intro hline
          refine .inr ⟨[], e.1, e.1, [], rfl, fun hnil => ?_, ?_, hline⟩
          · exact hempty ⟨e, he, hnil, hline⟩
          · rw [List.append_nil]
      have hothers : m'.selected (fun key => fullMatch (withoutBegin ++
          like2Regex pattern ++ withoutEnd) key = true) =
            m'.selected fun key => ¬ LikeInLine pattern key := by
        rw [selected_eq, selected_eq]
        exact picked_congr (p := fun key => fullMatch (withoutBegin ++
          like2Regex pattern ++ withoutEnd) key = true) hsplit
      refine ⟨_, _, _, hlike m' hsame, notlike_word hword, getnotnulls_eq,
        ?_, fun key => decide (LikeInLine pattern key), ?_, ?_⟩
      · rw [hothers]
        exact picked_not_perm _ _
      · simp only [decide_eq_true_eq]
        exact List.Perm.refl _
      · rw [hothers]
        simp only [decide_eq_false_iff_not]
        exact List.Perm.refl _
  · obtain ⟨hord, hnil⟩ := Classical.not_imp.mp hne
    refine iff_of_false (fun hpart => ?_) fun hsound => hne hsound.nonempty
    obtain ⟨likes, -, -, hlikes, -⟩ := hpart m ⟨Iff.rfl, rfl⟩
    unfold like at hlikes
    rw [not_not.mp hnil, regex_none hord rfl] at hlikes
    cases hlikes

theorem likePartitions_b : LikePartitions pcre (oneKey [98]) [97] ↔
    NotLikeSound (oneKey [98]) [97] :=
  likePartitions_iff standard_pcre _ (by unfold IsWord; decide +kernel)

/-- The key `ab` is neither LIKE `a` nor NOT LIKE it. -/
theorem like_neither : ¬ LikePartitions pcre (oneKey [97, 98]) [97] := by
  intro hpart
  obtain ⟨likes, others, all, hlikes, hothers, hall, hperm, -⟩ :=
    hpart _ ⟨Iff.rfl, rfl⟩
  have hnone : like pcre (oneKey [97, 98]) [97] = some [] := by decide +kernel
  have hnot : notlike pcre (oneKey [97, 98]) [97] = some [] := by
    decide +kernel
  have hkeys : getnotnulls (oneKey [97, 98]) = some [⟨1, 1⟩] := by
    decide +kernel
  rw [hnone] at hlikes
  rw [hnot] at hothers
  rw [hkeys] at hall
  obtain rfl := Option.some.inj hlikes
  obtain rfl := Option.some.inj hothers
  obtain rfl := Option.some.inj hall
  exact absurd hperm.length_eq (by decide)

end Infinisql.Searches
