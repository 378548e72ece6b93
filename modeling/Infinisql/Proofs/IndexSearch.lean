import Infinisql.Spec.IndexSearch

/-!
# The searches over ranges and lists

Each loop of a search goes over a stretch of the map, and which one is known
from `Lib.Sorted`. So each text of a search has an equation, what it appends as
a selection of the map, and against the selection that is owed this is counted:
of two selections the smaller is as good as the larger only if there is no key
in between, `selected_perm_iff`.

The overloads of `comparison` for `uint64_t` and `bool` push only what is
greater, and for `<=` what is equal, `comparison_iff`. `between` for
`uint64_t` begins with the lower bound and stops before the upper one, and a
loop whose bounds are not in order runs off the map, `between_iff`. NOT IN
takes strings as they are in three of six cases, IN never does,
`inPartitions_iff`.
-/

namespace Infinisql.Searches

open Infinisql.Ref (Bytes trimspace trimspace_trimspace)
open Infinisql.Asts (Operatortype)
open Infinisql.Lib

variable {κ φ : Type} [LinearOrder κ] [LinearOrder φ]
  {xs : List (κ × IndexEntry)} {m : IndexMap κ} {input lower upper : κ}
  {op : Operatortype} {p q : κ → Prop} [DecidablePred p] [DecidablePred q]

/-! ## Selections -/

/-- The entries of the pairs whose keys are so. -/
def picked (xs : List (κ × IndexEntry)) (p : κ → Prop) [DecidablePred p] :
    List IndexEntry :=
  (xs.filter fun e => decide (p e.1)).map Prod.snd

theorem selected_eq : m.selected p = picked m.toList p := rfl

omit [LinearOrder κ] in
theorem picked_congr (h : ∀ e ∈ xs, p e.1 ↔ q e.1) :
    picked xs p = picked xs q := by
  unfold picked
  rw [List.filter_congr fun e he => decide_eq_decide.mpr (h e he)]

omit [LinearOrder κ] in
theorem picked_nil (h : ∀ e ∈ xs, ¬ p e.1) : picked xs p = [] := by
  unfold picked
  rw [List.filter_eq_nil_iff.mpr fun e he => by simpa using h e he]
  rfl

omit [LinearOrder κ] in
theorem picked_cons {e : κ × IndexEntry} : picked (e :: xs) p =
    if p e.1 then e.2 :: picked xs p else picked xs p := by
  unfold picked
  rw [List.filter_cons]
  by_cases he : p e.1 <;> simp [he]

variable (xs p q) in
omit [LinearOrder κ] in
theorem picked_append_perm (h : ∀ e ∈ xs, p e.1 → ¬ q e.1) :
    (picked xs p ++ picked xs q).Perm (picked xs fun k => p k ∨ q k) := by
  unfold picked
  rw [← List.map_append]
  refine List.Perm.map _ ?_
  have hsplit := List.filter_append_perm (fun e => decide (p e.1))
    (xs.filter fun e => decide (p e.1 ∨ q e.1))
  rw [List.filter_filter, List.filter_filter] at hsplit
  refine List.Perm.trans (List.Perm.of_eq ?_) hsplit
  congr 1
  · refine List.filter_congr fun e _ => ?_
    by_cases hp : p e.1 <;> simp [hp]
  · refine List.filter_congr fun e he => ?_
    have := h e he
    by_cases hp : p e.1 <;> by_cases hq : q e.1 <;> simp_all

variable (xs) in
omit [LinearOrder κ] in
/-- A selection that takes no other keys is as large only if it takes them
all. -/
theorem picked_perm_iff (h : ∀ k, p k → q k) :
    (picked xs p).Perm (picked xs q) ↔ ¬ ∃ e ∈ xs, q e.1 ∧ ¬ p e.1 := by
  constructor
  · rintro hperm ⟨e, he, hq, hp⟩
    have hsub : (xs.filter fun e => decide (p e.1)) =
        (xs.filter fun e => decide (q e.1)).filter fun e => decide (p e.1) := by
      rw [List.filter_filter]
      refine List.filter_congr fun e _ => ?_
      by_cases hp : p e.1
      · simp [hp, h e.1 hp]
      · simp [hp]
    have hlen := hperm.length_eq
    rw [picked, picked, List.length_map, List.length_map, hsub] at hlen
    have heq := List.filter_sublist.eq_of_length hlen
    have hmem : e ∈ xs.filter fun e => decide (q e.1) :=
      List.mem_filter.mpr ⟨he, decide_eq_true hq⟩
    rw [← heq] at hmem
    exact hp (of_decide_eq_true (List.mem_filter.mp hmem).2)
  · intro hnone
    refine List.Perm.of_eq (picked_congr fun e he => ⟨h e.1, fun hq => ?_⟩)
    by_contra hp
    exact hnone ⟨e, he, hq, hp⟩

omit [LinearOrder κ] in
theorem appends_some {es entries : List IndexEntry} :
    Appends (some es) entries ↔ es.Perm entries :=
  ⟨fun ⟨_, h, hperm⟩ => Option.some.inj h ▸ hperm, fun h => ⟨es, rfl, h⟩⟩

theorem not_appends_none {entries : List IndexEntry} :
    ¬ Appends none entries := fun ⟨_, h, _⟩ => by cases h

/-! ## One key -/

theorem lookup_cons {k : κ} {e : κ × IndexEntry} :
    lookup (e :: xs) k = if e.1 = k then some e.2 else lookup xs k := by
  unfold lookup
  rw [List.find?_cons]
  by_cases he : e.1 = k <;> simp [he]

theorem lookup_toList {k : κ} : ∀ {xs : List (κ × IndexEntry)},
    xs.Pairwise (fun e f => e.1 ≠ f.1) →
    (lookup xs k).toList = picked xs (· = k)
  | [], _ => rfl
  | e :: xs, h => by
      obtain ⟨hne, h⟩ := List.pairwise_cons.mp h
      rw [lookup_cons, picked_cons]
      by_cases he : e.1 = k
      · rw [if_pos he, if_pos he,
          picked_nil fun f hf hk => hne f hf (he.trans hk.symm)]
        rfl
      · rw [if_neg he, if_neg he, lookup_toList h]

theorem OrderedMap.apart (m : OrderedMap κ IndexEntry) :
    m.toList.Pairwise fun e f => e.1 ≠ f.1 :=
  m.sorted.imp ne_of_lt

theorem getequalF_eq : getequalF m input = some (m.selected (· = input)) := by
  cases m with
  | unique m => exact congrArg some (lookup_toList (OrderedMap.apart m))
  | unordered m => exact congrArg some (lookup_toList m.nodup)
  | nonunique m =>
      show (scan _ _ _).map _ = _
      rw [scan_equal m.sorted]
      rfl

theorem getnotnulls_eq : getnotnulls m = some (m.toList.map Prod.snd) := by
  rw [getnotnulls, scan_all]
  rfl

/-! ## Comparisons -/

theorem comparisonLoop_eq (h : Sorted xs) (hop : IsComparison op) :
    comparisonLoop op xs input = some (xs.filter fun e =>
      decide (Compares op e.1 input ∨ e.1 = input)) := by
  rcases hop with rfl | rfl | rfl | rfl
  all_goals
    unfold comparisonLoop comparisonRange
    rw [Option.bind_some]
    first | rw [scan_upto h] | rw [scan_from h]
    congr 1
    refine List.filter_congr fun e _ => decide_eq_decide.mpr ?_
    simp only [Compares, reduceCtorEq, false_and, true_and, false_or, or_false]
    first
      | exact le_iff_lt_or_eq
      | exact le_iff_lt_or_eq.trans (or_congr_right eq_comm)
      | exact ⟨.inl, fun h => h.elim id le_of_eq⟩
      | exact ⟨.inl, fun h => h.elim id fun h => le_of_eq h.symm⟩

theorem skipEqual_eq (h : Sorted xs) (hop : IsComparison op) :
    (comparisonLoop op xs input).map (skipEqual op input) =
      some (picked xs fun k => Compares op k input) := by
  rw [comparisonLoop_eq h hop, Option.map_some, skipEqual, List.filter_filter]
  unfold picked
  congr 2
  refine List.filter_congr fun e _ => ?_
  rw [← Bool.decide_and]
  refine decide_eq_decide.mpr ?_
  rcases hop with rfl | rfl | rfl | rfl <;>
    simp only [Compares, reduceCtorEq, false_and, true_and, false_or, or_false,
      or_true, not_false_eq_true]
  · exact ⟨fun h => h.2.resolve_right h.1, fun h => ⟨ne_of_lt h, .inl h⟩⟩
  · exact ⟨fun h => h.elim id le_of_eq, .inl⟩
  · exact ⟨fun h => h.2.resolve_right h.1, fun h => ⟨ne_of_gt h, .inl h⟩⟩
  · exact ⟨fun h => h.elim id fun h => le_of_eq h.symm, .inl⟩

theorem comparisonSkip_eq (hm : m.IsOrdered) (hop : IsComparison op) :
    comparisonSkip m input op =
      some (m.selected fun k => Compares op k input) := by
  cases m with
  | unique m => exact skipEqual_eq m.le hop
  | nonunique m => exact skipEqual_eq m.sorted hop
  | unordered m => cases hm

theorem pushGreater_eq (h : Sorted xs) (hop : IsComparison op) :
    (comparisonLoop op xs input).map (pushGreater op input) =
      some (picked xs fun k => op = .gt ∧ input < k) := by
  rw [comparisonLoop_eq h hop, Option.map_some, pushGreater,
    List.filter_filter]
  unfold picked
  congr 2
  refine List.filter_congr fun e _ => ?_
  rw [← Bool.decide_and]
  refine decide_eq_decide.mpr ?_
  rcases hop with rfl | rfl | rfl | rfl <;>
    simp only [Compares, reduceCtorEq, false_and, true_and, false_or, or_false]
  exact ⟨fun h => h.2.resolve_right h.1, fun h => ⟨ne_of_gt h, .inl h⟩⟩

/-- What the overloads for `uint64_t` and `bool` append. -/
def Pushed (op : Operatortype) (key input : κ) : Prop :=
  op = .gt ∧ input < key ∨ op = .lte ∧ key = input

instance (op : Operatortype) (key input : κ) :
    Decidable (Pushed op key input) :=
  inferInstanceAs (Decidable (_ ∨ _))

theorem Pushed.compares {k : κ} (h : Pushed op k input) :
    Compares op k input := by
  rcases h with ⟨hop, h⟩ | ⟨hop, h⟩
  · exact .inr (.inr (.inl ⟨hop, h⟩))
  · exact .inr (.inl ⟨hop, le_of_eq h⟩)

variable (xs op input) in
theorem picked_pushed {es : List IndexEntry} (hes : op = .lte →
    es = picked xs (· = input)) :
    picked xs (fun k => op = .gt ∧ input < k) ++
      (if op = .lte then es else []) =
    picked xs fun k => Pushed op k input := by
  by_cases hop : op = .lte
  · subst hop
    have hnil : picked xs (fun k => Operatortype.lte = .gt ∧ input < k) = [] :=
      picked_nil fun e _ h => by cases h.1
    rw [if_pos rfl, hes rfl, hnil, List.nil_append]
    refine picked_congr fun e _ => ?_
    simp only [Pushed, reduceCtorEq, false_and, true_and, false_or]
  · rw [if_neg hop, List.append_nil]
    refine picked_congr fun e _ => ?_
    simp only [Pushed, hop, false_and, or_false]

theorem comparisonPush_eq (hm : m.IsOrdered) (hop : IsComparison op) :
    comparisonPush m input op =
      some (m.selected fun k => Pushed op k input) := by
  cases m with
  | unique m =>
      have hpush : (comparisonLoop op m.toList input).map
          (pushGreater op input) = _ := pushGreater_eq m.le hop
      rw [Option.map_eq_some_iff] at hpush
      obtain ⟨es, hes, hpush⟩ := hpush
      unfold comparisonPush
      dsimp only
      rw [hes, Option.map_some, hpush, picked_pushed _ _ _ fun _ =>
        lookup_toList (OrderedMap.apart m)]
      rfl
  | nonunique m =>
      have hpush : (comparisonLoop op m.toList input).map
          (pushGreater op input) = _ := pushGreater_eq m.sorted hop
      rw [Option.map_eq_some_iff] at hpush
      obtain ⟨es, hes, hpush⟩ := hpush
      unfold comparisonPush
      dsimp only
      rw [hes, Option.bind_some, hpush, scan_equal m.sorted, Option.map_some]
      have hpicked := picked_pushed m.toList input op fun _ => rfl
      by_cases hlte : op = .lte
      · rw [if_pos hlte] at hpicked ⊢
        exact congrArg some hpicked
      · rw [if_neg hlte, List.append_nil] at hpicked
        rw [if_neg hlte]
        exact congrArg some hpicked
  | unordered m => cases hm

theorem comparisonPush_iff (hm : m.IsOrdered) (hop : IsComparison op) :
    Appends (comparisonPush m input op)
        (m.selected fun k => Compares op k input) ↔
      op = .gt ∨ (op = .lt ∨ op = .lte) ∧ ¬ m.HasKey (· < input) ∨
        op = .gte ∧ ¬ m.HasKey (input ≤ ·) := by
  rw [comparisonPush_eq hm hop, appends_some, selected_eq, selected_eq,
    picked_perm_iff _ fun k h => h.compares]
  rcases hop with rfl | rfl | rfl | rfl <;>
    simp only [Pushed, Compares, reduceCtorEq, false_and, true_and, false_or,
      or_false, not_false_eq_true, and_true, IndexMap.HasKey]
  · refine not_congr (exists_congr fun e => and_congr_right fun _ => ?_)
    exact lt_iff_le_and_ne.symm
  · simp only [and_not_self, and_false, exists_false, not_false_eq_true]

/-- The overload for a key type that skips equal keys. -/
theorem filters_of_skip (hm : m.IsOrdered) (hop : IsComparison op) :
    Appends (comparisonSkip m input op)
      (m.selected fun k => Compares op k input) := by
  rw [comparisonSkip_eq hm hop, appends_some]

/-- A comparison appends what compares, for all key types but two with every
operator. -/
theorem comparison_iff {t : Keytype} {m : IndexMap (t.Key φ)}
    {input : t.Key φ} (hm : m.IsOrdered) (hop : IsComparison op) :
    ComparisonFilters m input op ↔ ComparisonSound m input op := by
  cases t with
  | uint =>
      exact (comparisonPush_iff hm hop).trans
        ⟨fun h _ => h, fun h => h (.inl rfl)⟩
  | bool =>
      exact (comparisonPush_iff hm hop).trans
        ⟨fun h _ => h, fun h => h (.inr rfl)⟩
  | int | float | char | charx | varchar =>
      exact iff_of_true (filters_of_skip hm hop)
        fun h => by rcases h with h | h <;> cases h

/-- An index on an unsigned field, with the key 5. -/
def uintFive : IndexMap (Keytype.Key ℤ .uint) :=
  .unique ⟨[((5 : ℕ), ⟨1, 1⟩)], List.pairwise_singleton _ _⟩

theorem comparison_greater :
    ComparisonFilters uintFive (3 : ℕ) .gt ↔
      ComparisonSound uintFive (3 : ℕ) .gt :=
  comparison_iff trivial (.inr (.inr (.inl rfl)))

/-- No row is found for `< 7`. -/
theorem comparison_less_lost : ¬ ComparisonFilters uintFive (7 : ℕ) .lt := by
  rintro ⟨es, hes, hperm⟩
  have hlen := hperm.length_eq
  cases hes
  revert hlen
  decide

/-! ## BETWEEN -/

/-- The text with the special cases for equal and for inverted bounds. -/
theorem betweenBounds_appends (hm : m.IsOrdered) :
    Appends (betweenBounds m lower upper)
      (m.selected fun k => lower ≤ k ∧ k ≤ upper) := by
  cases m with
  | unordered m => cases hm
  | unique m =>
      have hupper := lookup_toList (k := upper) (OrderedMap.apart m)
      unfold betweenBounds
      dsimp only
      split
      · next heq =>
          subst heq
          rw [hupper, appends_some, selected_eq]
          refine List.Perm.of_eq (picked_congr fun e _ => ?_)
          exact ⟨fun h => ⟨le_of_eq h.symm, le_of_eq h⟩,
            fun h => le_antisymm h.2 h.1⟩
      · split
        · next hlt =>
            rw [appends_some, selected_eq, picked_nil fun e _ h =>
              not_le.mpr hlt (h.1.trans h.2)]
        · next hne hge =>
            have hle := not_lt.mp hge
            rw [Sorted.scan_halfopen m.le hle, Option.map_some, hupper,
              appends_some, selected_eq]
            refine (picked_append_perm m.toList
              (fun k => lower ≤ k ∧ k < upper) (fun k => k = upper)
              fun e _ h => ne_of_lt h.2).trans ?_
            refine List.Perm.of_eq (picked_congr fun e _ => ?_)
            constructor
            · rintro (h | h)
              · exact ⟨h.1, le_of_lt h.2⟩
              · exact ⟨h ▸ hle, le_of_eq h⟩
            · rintro ⟨h₁, h₂⟩
              exact (lt_or_eq_of_le h₂).imp (fun h => ⟨h₁, h⟩) id
  | nonunique m =>
      unfold betweenBounds
      dsimp only
      split
      · next hlt =>
          rw [appends_some, selected_eq, picked_nil fun e _ h =>
            not_le.mpr hlt (h.1.trans h.2)]
      · next hge =>
          rw [Sorted.scan_closed m.sorted (not_lt.mp hge), Option.map_some,
            List.filter_filter, appends_some, selected_eq]
          unfold picked
          refine List.Perm.of_eq (congrArg _ (List.filter_congr fun e _ => ?_))
          rw [← Bool.decide_and]
          exact decide_eq_decide.mpr ⟨fun h => h.2, fun h => ⟨h.2, h⟩⟩

/-- The text for `uint64_t`: what is equal to the lower bound, and a loop. -/
theorem betweenInside_eq (hm : m.IsOrdered) :
    betweenInside m lower upper =
      (scan m.toList (upperBound m.toList lower)
        (lowerBound m.toList upper)).map fun es =>
          picked m.toList (· = lower) ++ es.map Prod.snd := by
  cases m with
  | unordered m => cases hm
  | unique m =>
      unfold betweenInside
      dsimp only
      rw [lookup_toList (OrderedMap.apart m)]
      rfl
  | nonunique m =>
      unfold betweenInside
      dsimp only
      rw [scan_equal m.sorted, Option.bind_some]
      rfl

theorem IndexMap.IsOrdered.sorted (hm : m.IsOrdered) : Sorted m.toList := by
  cases m with
  | unique m => exact m.le
  | nonunique m => exact m.sorted
  | unordered m => cases hm

/-- With its bounds in order it leaves out the upper one. -/
theorem betweenInside_lt (hm : m.IsOrdered) (hlt : lower < upper) :
    Appends (betweenInside m lower upper)
      (m.selected fun k => lower ≤ k ∧ k < upper) := by
  rw [betweenInside_eq hm, hm.sorted.scan_inside hlt, Option.map_some,
    appends_some, selected_eq]
  refine (picked_append_perm m.toList (· = lower)
    (fun k => lower < k ∧ k < upper)
    fun e _ h hin => ne_of_gt hin.1 h).trans
      (List.Perm.of_eq (picked_congr fun e _ => ?_))
  constructor
  · rintro (h | h)
    · exact ⟨le_of_eq h.symm, h ▸ hlt⟩
    · exact ⟨le_of_lt h.1, h.2⟩
  · rintro ⟨h₁, h₂⟩
    exact (lt_or_eq_of_le h₁).symm.imp Eq.symm fun h => ⟨h, h₂⟩

theorem betweenInside_inverted (hm : m.IsOrdered) (hle : upper ≤ lower) :
    Appends (betweenInside m lower upper)
        (m.selected fun k => lower ≤ k ∧ k ≤ upper) ↔
      ¬ m.HasKey fun k => upper ≤ k ∧ k ≤ lower := by
  rw [betweenInside_eq hm, hm.sorted.scan_inverted hle]
  by_cases hkey : ∃ e ∈ m.toList, upper ≤ e.1 ∧ e.1 ≤ lower
  · rw [if_pos hkey]
    exact iff_of_false not_appends_none (not_not.mpr hkey)
  · have hnone : ∀ e ∈ m.toList, ¬ (upper ≤ e.1 ∧ e.1 ≤ lower) :=
      fun e he h => hkey ⟨e, he, h⟩
    have hlower : picked m.toList (· = lower) = [] :=
      picked_nil fun e he h => hnone e he ⟨h ▸ hle, le_of_eq h⟩
    have hboth : picked m.toList (fun k => lower ≤ k ∧ k ≤ upper) = [] :=
      picked_nil fun e he h => hnone e he
        ⟨hle.trans h.1, h.2.trans hle⟩
    rw [if_neg hkey, selected_eq, hboth, Option.map_some, hlower]
    exact iff_of_true (appends_some.mpr (List.Perm.refl _)) hkey

/-- The overload for `uint64_t`. -/
theorem betweenInside_iff (hm : m.IsOrdered) :
    Appends (betweenInside m lower upper)
        (m.selected fun k => lower ≤ k ∧ k ≤ upper) ↔
      (lower < upper → ¬ m.HasKey (· = upper)) ∧
        (upper ≤ lower → ¬ m.HasKey fun k => upper ≤ k ∧ k ≤ lower) := by
  rcases lt_or_ge lower upper with hlt | hle
  · obtain ⟨es, hes, hperm⟩ := betweenInside_lt hm hlt
    have hsub : ∀ k, lower ≤ k ∧ k < upper → lower ≤ k ∧ k ≤ upper :=
      fun k h => ⟨h.1, le_of_lt h.2⟩
    have hcount := picked_perm_iff m.toList hsub
    rw [hes, appends_some, hperm.congr_left, selected_eq, selected_eq, hcount]
    have hkey : (∃ e ∈ m.toList, (lower ≤ e.1 ∧ e.1 ≤ upper) ∧
        ¬ (lower ≤ e.1 ∧ e.1 < upper)) ↔ m.HasKey (· = upper) := by
      refine exists_congr fun e => and_congr_right fun _ => ⟨fun h => ?_,
        fun h => ⟨⟨h ▸ le_of_lt hlt, le_of_eq h⟩, fun h' => ne_of_lt h'.2 h⟩⟩
      exact (lt_or_eq_of_le h.1.2).resolve_left fun h' => h.2 ⟨h.1.1, h'⟩
    rw [hkey]
    exact ⟨fun h => ⟨fun _ => h, fun hle => absurd hlt (not_lt.mpr hle)⟩,
      fun h => h.1 hlt⟩
  · rw [betweenInside_inverted hm hle]
    exact ⟨fun h => ⟨fun hlt => absurd hlt (not_lt.mpr hle), fun _ => h⟩,
      fun h => h.2 hle⟩

/-! ### NOT BETWEEN -/

/-- The two comparisons that NOT BETWEEN makes, if they both append what
compares. -/
theorem notbetween_skip (hle : lower ≤ upper) :
    (m.selected (fun k => Compares .lt k lower) ++
      m.selected fun k => Compares .gt k upper).Perm
      (m.selected fun k => k < lower ∨ upper < k) := by
  have hlt : ∀ k, Compares .lt k lower ↔ k < lower := by
    intro k
    simp only [Compares, reduceCtorEq, false_and, true_and, or_false]
  have hgt : ∀ k, Compares .gt k upper ↔ upper < k := by
    intro k
    simp only [Compares, reduceCtorEq, false_and, true_and, or_false, false_or]
  refine (picked_append_perm m.toList
    (fun k => Compares .lt k lower) (fun k => Compares .gt k upper)
    fun e _ h h' => ?_).trans (List.Perm.of_eq (picked_congr
      (p := fun k => Compares .lt k lower ∨ Compares .gt k upper)
      (q := fun k => k < lower ∨ upper < k) fun e _ =>
        or_congr (hlt e.1) (hgt e.1)))
  exact lt_asymm ((hlt e.1).mp h) (lt_of_le_of_lt hle ((hgt e.1).mp h'))

/-- Without what is less, it is right where there is nothing less. -/
theorem notbetween_push (hle : lower ≤ upper) :
    (m.selected (fun k => Pushed .lt k lower) ++
      m.selected fun k => Pushed .gt k upper).Perm
      (m.selected fun k => k < lower ∨ upper < k) ↔
    ¬ m.HasKey (· < lower) := by
  have hnil : picked m.toList (fun k => Pushed .lt k lower) = [] :=
    picked_nil fun e _ h => by rcases h with h | h <;> cases h.1
  have hgt : picked m.toList (fun k => Pushed .gt k upper) =
      picked m.toList fun k => upper < k := by
    refine picked_congr fun e _ => ?_
    simp only [Pushed, reduceCtorEq, false_and, true_and, or_false]
  rw [selected_eq, selected_eq, selected_eq, hnil, List.nil_append, hgt,
    picked_perm_iff _ fun k h => .inr h]
  refine not_congr (exists_congr fun e => and_congr_right fun _ => ?_)
  exact ⟨fun h => h.1.resolve_right h.2, fun h => ⟨.inl h,
    not_lt.mpr ((le_of_lt h).trans hle)⟩⟩

/-- A key type whose overloads have the special cases. -/
theorem betweenFilters_of_skip {t : Keytype} {m : IndexMap (t.Key φ)}
    {lower upper : t.Key φ} (hm : m.IsOrdered)
    (hbetween : between m lower upper =
      betweenBounds m (trimmed lower) (trimmed upper))
    (hcompare : ∀ input op, comparison m input op =
      comparisonSkip m (trimmed input) op) : BetweenFilters m lower upper where
  between := by
    rw [hbetween]
    exact betweenBounds_appends hm
  notbetween hle := by
    rw [notbetween, hcompare, hcompare, comparisonSkip_eq hm (.inl rfl),
      comparisonSkip_eq hm (.inr (.inr (.inl rfl)))]
    exact appends_some.mpr (notbetween_skip hle)

/-- NOT BETWEEN of the two types whose comparisons lack what is less. -/
theorem notbetween_push_iff {t : Keytype} {m : IndexMap (t.Key φ)}
    {lower upper : t.Key φ} (hm : m.IsOrdered)
    (hcompare : ∀ input op, comparison m input op =
      comparisonPush m input op) (hle : lower ≤ upper) :
    Appends (notbetween m lower upper)
        (m.selected fun k => k < lower ∨ upper < k) ↔
      ¬ m.HasKey (· < lower) := by
  rw [notbetween, hcompare, hcompare, comparisonPush_eq hm (.inl rfl),
    comparisonPush_eq hm (.inr (.inr (.inl rfl)))]
  exact appends_some.trans (notbetween_push hle)

/-- BETWEEN and NOT BETWEEN are as they should be, for all key types but
two. -/
theorem between_iff {t : Keytype} {m : IndexMap (t.Key φ)}
    {lower upper : t.Key φ} (hm : m.IsOrdered) :
    BetweenFilters m lower upper ↔ BetweenSound m lower upper := by
  have htype : t ≠ .uint → t ≠ .bool → BetweenSound m lower upper :=
    fun hu hb => ⟨fun h => absurd h hu, fun h => absurd h hu,
      fun h => absurd h hb, fun h => absurd h (not_or.mpr ⟨hu, hb⟩)⟩
  cases t with
  | uint =>
      constructor
      · intro h
        obtain ⟨habove, hinverted⟩ := (betweenInside_iff hm).mp h.between
        exact ⟨fun _ => habove, fun _ => hinverted, nofun,
          fun _ hle => (notbetween_push_iff hm (fun _ _ => rfl) hle).mp
            (h.notbetween hle)⟩
      · intro h
        exact ⟨(betweenInside_iff hm).mpr ⟨h.above rfl, h.inverted rfl⟩,
          fun hle => (notbetween_push_iff hm (fun _ _ => rfl) hle).mpr
            (h.below (.inl rfl) hle)⟩
  | bool =>
      have hempty : Appends (some []) (m.selected fun k =>
          lower ≤ k ∧ k ≤ upper) ↔ ¬ m.HasKey fun k =>
            lower ≤ k ∧ k ≤ upper := by
        rw [appends_some, selected_eq]
        constructor
        · rintro hperm ⟨e, he, hin⟩
          have hnil := List.nil_perm.mp hperm
          have hmem : e.2 ∈ picked m.toList fun k => lower ≤ k ∧ k ≤ upper :=
            List.mem_map_of_mem (List.mem_filter.mpr ⟨he, decide_eq_true hin⟩)
          rw [hnil] at hmem
          cases hmem
        · intro hnone
          rw [picked_nil fun e he h => hnone ⟨e, he, h⟩]
      constructor
      · intro h
        exact ⟨nofun, nofun,
          fun _ => hempty.mp h.between,
          fun _ hle => (notbetween_push_iff hm (fun _ _ => rfl) hle).mp
            (h.notbetween hle)⟩
      · intro h
        exact ⟨hempty.mpr (h.bool rfl),
          fun hle => (notbetween_push_iff hm (fun _ _ => rfl) hle).mpr
            (h.below (.inr rfl) hle)⟩
  | int | float | char | charx | varchar =>
      exact iff_of_true
        (betweenFilters_of_skip hm rfl fun _ _ => rfl)
        (htype (by decide) (by decide))

theorem between_three :
    BetweenFilters uintFive (3 : ℕ) (4 : ℕ) ↔
      BetweenSound uintFive (3 : ℕ) (4 : ℕ) :=
  between_iff trivial

/-- The upper bound is left out. -/
theorem between_upper_lost : ¬ BetweenFilters uintFive (3 : ℕ) (5 : ℕ) := by
  intro h
  obtain ⟨es, hes, hperm⟩ := h.between
  have hlen := hperm.length_eq
  cases hes
  revert hlen
  decide
/-! ## IN and NOT IN -/

omit [LinearOrder φ] in
@[simp] theorem trimmed_trimmed {t : Keytype} (k : t.Key φ) :
    trimmed (φ := φ) (trimmed k) = trimmed k := by
  cases t with
  | charx | varchar => exact trimspace_trimspace k
  | int | uint | bool | float | char => rfl

/-- IN takes a key once for each value that is so without its trailing
spaces. -/
theorem getin_perm {t : Keytype} {m : IndexMap (t.Key φ)} :
    ∀ {values : List (t.Key φ)}, (values.map trimmed).Nodup →
    ∃ ins, getin m values = some ins ∧
      ins.Perm (m.selected (· ∈ values.map trimmed))
  | [], _ => ⟨[], rfl, by
      have hnil : picked m.toList (· ∈ ([] : List (t.Key φ))) = [] :=
        picked_nil fun e _ h => List.not_mem_nil h
      exact List.Perm.of_eq hnil.symm⟩
  | v :: values, h => by
      obtain ⟨hv, h⟩ := List.nodup_cons.mp h
      obtain ⟨ins, hins, hperm⟩ := getin_perm (m := m) h
      have hequal : getequal m v = some (m.selected (· = trimmed v)) :=
        getequalF_eq
      refine ⟨m.selected (· = trimmed v) ++ ins, ?_, ?_⟩
      · show getinLoop (getequal m) (v :: values) = _
        rw [getin] at hins
        rw [getinLoop, hequal]
        show (getinLoop (getequal m) values).map _ = _
        rw [hins]
        rfl
      · refine (hperm.append_left _).trans ?_
        rw [selected_eq, selected_eq]
        refine (picked_append_perm m.toList (· = trimmed v)
          (· ∈ values.map trimmed)
          fun e _ he hmem => hv (he ▸ hmem)).trans (List.Perm.of_eq ?_)
        exact picked_congr fun e _ => List.mem_cons.symm

/-- One pass of the inner loop: it may trim values, and of none the value
without its trailing spaces changes. -/
theorem isfound_spec {trim : κ → κ} (h : ∀ k, trim (trim k) = trim k)
    (key : κ) : ∀ entries : List κ,
    ((isfound trim key entries).1 = true ↔ key ∈ entries.map trim) ∧
      (isfound trim key entries).2.map trim = entries.map trim
  | [] => ⟨⟨nofun, nofun⟩, rfl⟩
  | v :: entries => by
      obtain ⟨hfound, hmap⟩ := isfound_spec h key entries
      unfold isfound
      dsimp only
      split
      · next heq =>
          refine ⟨iff_of_true rfl (List.mem_cons.mpr (.inl heq.symm)), ?_⟩
          rw [List.map_cons, h]
          rfl
      · next hne =>
          constructor
          · rw [hfound, List.map_cons, List.mem_cons]
            exact (or_iff_right fun h => hne h.symm).symm
          · rw [List.map_cons, h, hmap]
            rfl

theorem getnotinLoop_eq {trim : κ → κ} (h : ∀ k, trim (trim k) = trim k) :
    ∀ (entries : List κ) (xs : List (κ × IndexEntry)),
    getnotinLoop trim entries xs = picked xs (· ∉ entries.map trim)
  | _, [] => rfl
  | entries, e :: xs => by
      obtain ⟨hfound, hmap⟩ := isfound_spec h e.1 entries
      have ih := getnotinLoop_eq h (isfound trim e.1 entries).2 xs
      rw [hmap] at ih
      rw [picked_cons, ← ih]
      show (if (isfound trim e.1 entries).1 then _ else _) = _
      by_cases hmem : e.1 ∈ entries.map trim
      · rw [if_pos (hfound.mpr hmem), if_neg (not_not_intro hmem)]
      · rw [if_neg (mt hfound.mp hmem), if_pos hmem]

theorem getnotinMap_eq {trim : κ → κ} (h : ∀ k, trim (trim k) = trim k)
    (entries : List κ) : getnotinMap trim m entries =
      some (m.selected (· ∉ entries.map trim)) := by
  rw [getnotinMap, scan_all, Option.map_some, getnotinLoop_eq h _ _]
  rfl

theorem getnotin_trimmed {t : Keytype} {m : IndexMap (t.Key φ)}
    {values : List (t.Key φ)} (h : ¬ Untrimmed m) :
    getnotin m values = some (m.selected (· ∉ values.map trimmed)) := by
  cases t with
  | int | uint | bool | float | char => exact getnotinMap_eq (fun _ => rfl) values
  | charx =>
      cases m with
      | unique m | nonunique m => exact getnotinMap_eq trimspace_trimspace values
      | unordered m => exact absurd (.inl rfl) h
  | varchar =>
      cases m with
      | unique m => exact getnotinMap_eq trimspace_trimspace values
      | unordered m => exact absurd (.inr rfl) h
      | nonunique m => exact absurd rfl h

theorem getnotin_untrimmed {t : Keytype} {m : IndexMap (t.Key φ)}
    {values : List (t.Key φ)} (h : Untrimmed m) :
    getnotin m values = some (m.selected (· ∉ values)) := by
  have hid : getnotinMap id m values = some (m.selected (· ∉ values)) := by
    have hmap := getnotinMap_eq (m := m) (fun k : t.Key φ => congrArg id (id_eq k))
      values
    rwa [List.map_id] at hmap
  cases m with
  | unique m => cases h
  | nonunique m =>
      cases t with
      | varchar => exact hid
      | int | uint | bool | float | char | charx => cases h
  | unordered m =>
      cases t with
      | charx | varchar => exact hid
      | int | uint | bool | float | char => rcases h with h | h <;> cases h

variable (xs p) in
omit [LinearOrder κ] in
theorem picked_not_perm : (picked xs p ++ picked xs fun k => ¬ p k).Perm
    (xs.map Prod.snd) := by
  refine (picked_append_perm xs p (fun k => ¬ p k)
    fun e _ hp hn => hn hp).trans (List.Perm.of_eq ?_)
  unfold picked
  rw [List.filter_eq_self.mpr fun e _ => decide_eq_true (em _)]

variable (xs) in
omit [LinearOrder κ] in
/-- Two selections that leave nothing out count every entry once only if they
have no key in common. -/
theorem picked_overlap (hall : ∀ e ∈ xs, p e.1 ∨ q e.1)
    (hperm : (picked xs p ++ picked xs q).Perm (xs.map Prod.snd)) :
    ∀ e ∈ xs, p e.1 → ¬ q e.1 := by
  have hq : (picked xs q).Perm ((picked xs fun k => ¬ p k) ++
      picked xs fun k => p k ∧ q k) := by
    refine List.Perm.symm ((picked_append_perm xs (fun k => ¬ p k)
      (fun k => p k ∧ q k) fun e _ hp h => hp h.1).trans (List.Perm.of_eq (picked_congr ?_)))
    intro e he
    constructor
    · rintro (h | h)
      · exact (hall e he).resolve_left h
      · exact h.2
    · intro h
      by_cases hp : p e.1
      · exact .inr ⟨hp, h⟩
      · exact .inl hp
  have hlen := hperm.length_eq
  have hsplit := (picked_not_perm xs p).length_eq
  have hqlen := hq.length_eq
  rw [List.length_append] at hlen hsplit hqlen
  have hnil : picked xs (fun k => p k ∧ q k) = [] :=
    List.eq_nil_of_length_eq_zero (by omega)
  intro e he hp hqe
  have hmem : e.2 ∈ picked xs fun k => p k ∧ q k :=
    List.mem_map_of_mem (List.mem_filter.mpr ⟨he, decide_eq_true ⟨hp, hqe⟩⟩)
  rw [hnil] at hmem
  exact List.not_mem_nil hmem

/-- A map whose NOT IN trims. -/
theorem inPartitions_trimmed {t : Keytype} {m : IndexMap (t.Key φ)}
    {values : List (t.Key φ)} (hvalues : (values.map trimmed).Nodup)
    (h : ¬ Untrimmed m) : InPartitions m values := by
  obtain ⟨ins, hins, hperm⟩ := getin_perm (m := m) hvalues
  refine ⟨ins, _, _, hins, getnotin_trimmed h, getnotnulls_eq,
    (hperm.append_right _).trans (picked_not_perm _ _),
    fun k => decide (k ∈ values.map trimmed), ?_, ?_⟩
  · rw [selected_eq] at hperm ⊢
    simpa only [decide_eq_true_eq] using hperm
  · rw [selected_eq, selected_eq]
    exact List.Perm.of_eq (picked_congr fun e _ => by
      rw [decide_eq_false_iff_not])

/-- A map whose NOT IN does not. -/
theorem inPartitions_untrimmed {t : Keytype} {m : IndexMap (t.Key φ)}
    {values : List (t.Key φ)} (hm : Trimmed m)
    (hvalues : (values.map trimmed).Nodup) (h : Untrimmed m) :
    InPartitions m values ↔
      ∀ v ∈ values, m.HasKey (· = trimmed v) → trimmed v = v := by
  obtain ⟨ins, hins, hperm⟩ := getin_perm (m := m) hvalues
  have hraw : ∀ e ∈ m.toList, e.1 ∈ values → e.1 ∈ values.map trimmed :=
    fun e he hmem => List.mem_map.mpr ⟨e.1, hmem, hm e he⟩
  constructor
  · rintro ⟨ins', outs, all, hins', houts, hall, hsum, -⟩ v hv ⟨e, he, hkey⟩
    rw [hins] at hins'
    rw [getnotin_untrimmed h] at houts
    rw [getnotnulls_eq] at hall
    obtain rfl := Option.some.inj hins'
    obtain rfl := Option.some.inj houts
    obtain rfl := Option.some.inj hall
    have hin : e.1 ∈ values.map trimmed := List.mem_map.mpr ⟨v, hv, hkey.symm⟩
    have hnot := picked_overlap m.toList
      (p := (· ∈ values.map trimmed)) (q := (· ∉ values))
      (fun e he => or_iff_not_imp_right.mpr fun hn => hraw e he (not_not.mp hn))
      ((hperm.append_right _).symm.trans hsum) e he hin
    have hsame : e.1 = v := by
      refine List.inj_on_of_nodup_map hvalues (not_not.mp hnot) hv ?_
      rw [hm e he, hkey]
    rw [← hkey, hsame]
  · intro hsound
    have hraw' : ∀ e ∈ m.toList, e.1 ∈ values ↔ e.1 ∈ values.map trimmed := by
      refine fun e he => ⟨hraw e he, fun hmem => ?_⟩
      obtain ⟨v, hv, hkey⟩ := List.mem_map.mp hmem
      rw [← hkey, hsound v hv ⟨e, he, hkey.symm⟩]
      exact hv
    have houts : getnotin m values =
        some (m.selected (· ∉ values.map trimmed)) := by
      rw [getnotin_untrimmed h, selected_eq, selected_eq]
      exact congrArg some (picked_congr (p := (· ∉ values))
        (q := (· ∉ values.map trimmed)) fun e he => not_congr (hraw' e he))
    refine ⟨ins, _, _, hins, houts, getnotnulls_eq,
      (hperm.append_right _).trans (picked_not_perm _ _),
      fun k => decide (k ∈ values.map trimmed), ?_, ?_⟩
    · rw [selected_eq] at hperm ⊢
      simpa only [decide_eq_true_eq] using hperm
    · rw [selected_eq, selected_eq]
      exact List.Perm.of_eq (picked_congr fun e _ => by
        rw [decide_eq_false_iff_not])

/-- IN and NOT IN share the entries out, unless NOT IN is given a key with
trailing spaces and does not trim. -/
theorem inPartitions_iff {t : Keytype} {m : IndexMap (t.Key φ)}
    {values : List (t.Key φ)} (hm : Trimmed m)
    (hvalues : (values.map trimmed).Nodup) :
    InPartitions m values ↔ InSound m values := by
  by_cases h : Untrimmed m
  · exact (inPartitions_untrimmed hm hvalues h).trans
      ⟨fun hs _ => hs, fun hs => hs h⟩
  · exact iff_of_true (inPartitions_trimmed hvalues h) fun h' => absurd h' h

/-- An index on a VARCHAR field, with the key `a`. -/
def varcharA : IndexMap (Keytype.Key ℤ .varchar) :=
  .nonunique ⟨[(([97] : Bytes), ⟨1, 1⟩)], List.pairwise_singleton _ _⟩

theorem inPartitions_b :
    InPartitions varcharA [([98, 32] : Bytes)] ↔
      InSound varcharA [([98, 32] : Bytes)] :=
  inPartitions_iff (List.forall_mem_singleton.mpr rfl) (by decide)

/-- Of the value `a` with a space behind it the row is found both ways. -/
theorem inPartitions_twice : ¬ InPartitions varcharA [([97, 32] : Bytes)] := by
  rintro ⟨ins, outs, all, hins, houts, hall, hsum, -⟩
  have hlen := hsum.length_eq
  cases hins
  cases houts
  cases hall
  revert hlen
  decide

end Infinisql.Searches
