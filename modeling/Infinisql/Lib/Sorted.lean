import Mathlib.Data.List.Basic
import Mathlib.Order.Basic
import Mathlib.Order.Lattice

/-!
# Ordered containers and their iterators

A container in order is the list of its pairs. An iterator is a position in it,
and the end is the position behind the last pair. `lower_bound` and
`upper_bound` are the first positions of a pair that is not less and of one
that is greater, so both are where a predicate begins to hold that then holds
to the end: an `Upward` one.

What a loop goes over from one such position to another is `scan_findIdx`: the
pairs at which the first predicate holds and the second does not. That needs
the first to hold wherever the second does. Otherwise the loop begins behind
its end and never meets it, it runs off the container, and it has no result:
`scan_eq_none`.
-/

namespace Infinisql.Lib

/-! ## Loops over a container -/

section

variable {α : Type*} {p q : α → Bool} {a : α} {xs ys : List α} {i j n : ℕ}

/-- What is left of the loop, from a position before what is left of the
container. -/
def scanFrom (itEnd : ℕ) : ℕ → List α → Option (List α)
  | it, [] => if it = itEnd then some [] else none
  | it, a :: rest =>
      if it = itEnd then some []
      else (scanFrom itEnd (it + 1) rest).map (a :: ·)

/-- `for (it = itBegin; it != itEnd; ++it)`. -/
def scan (xs : List α) (itBegin itEnd : ℕ) : Option (List α) :=
  scanFrom itEnd itBegin (xs.drop itBegin)

theorem scanFrom_take : ∀ {n i : ℕ} {xs : List α}, n ≤ xs.length →
    scanFrom (i + n) i xs = some (xs.take n)
  | 0, _, [], _ => if_pos rfl
  | 0, _, _ :: _, _ => if_pos rfl
  | n + 1, i, a :: xs, h => by
      rw [scanFrom, if_neg (by omega), show i + (n + 1) = i + 1 + n by omega,
        scanFrom_take (Nat.le_of_succ_le_succ h)]
      rfl

theorem scanFrom_behind : ∀ {i : ℕ} {xs : List α}, j < i →
    scanFrom j i xs = none
  | i, [], h => by rw [scanFrom, if_neg (Nat.ne_of_gt h)]
  | i, a :: xs, h => by
      rw [scanFrom, if_neg (Nat.ne_of_gt h),
        scanFrom_behind (Nat.lt_succ_of_lt h)]
      rfl

theorem scan_eq (h : i ≤ j) (hj : j ≤ xs.length) :
    scan xs i j = some ((xs.take j).drop i) := by
  obtain ⟨n, rfl⟩ := Nat.exists_eq_add_of_le h
  rw [scan, scanFrom_take (by rw [List.length_drop]; omega), List.drop_take,
    Nat.add_sub_cancel_left]

theorem scan_behind (h : j < i) : scan xs i j = none := scanFrom_behind h

/-! ## Where a predicate begins to hold -/

/-- The predicate holds from some position on. -/
def Upward (xs : List α) (p : α → Bool) : Prop :=
  xs.Pairwise fun a b => p a = true → p b = true

theorem Upward.tail (h : Upward (a :: xs) p) : Upward xs p :=
  (List.pairwise_cons.mp h).2

theorem Upward.all (h : Upward (a :: xs) p) (ha : p a = true) :
    ∀ b ∈ a :: xs, p b = true := by
  intro b hb
  rcases List.mem_cons.mp hb with rfl | hb
  · exact ha
  · exact (List.pairwise_cons.mp h).1 b hb ha

/-- `begin()`. -/
def itBegin (_ : List α) : ℕ := 0

/-- `end()`. -/
def itEnd (xs : List α) : ℕ := xs.length

theorem upward_true : Upward xs fun _ => true :=
  List.pairwise_of_forall fun _ _ _ => rfl

theorem upward_false : Upward xs fun _ => false :=
  List.pairwise_of_forall fun _ _ h => h

theorem itBegin_eq : itBegin xs = xs.findIdx fun _ => true := by
  cases xs <;> rfl

theorem itEnd_eq : itEnd xs = xs.findIdx fun _ => false :=
  (List.findIdx_eq_length.mpr fun _ _ => rfl).symm

/-- Between two such positions. -/
theorem drop_take_findIdx : ∀ {xs : List α}, Upward xs p → Upward xs q →
    (∀ a ∈ xs, q a = true → p a = true) →
    (xs.take (xs.findIdx q)).drop (xs.findIdx p) =
      xs.filter fun a => p a && !q a
  | [], _, _, _ => rfl
  | a :: xs, hp, hq, h => by
      have ih := drop_take_findIdx hp.tail hq.tail
        fun b hb => h b (List.mem_cons_of_mem a hb)
      rw [List.findIdx_cons, List.findIdx_cons]
      cases hqa : q a with
      | true =>
          have hnone : ∀ b ∈ a :: xs, ¬ (p b && !q b) = true := by
            intro b hb
            rw [hq.all hqa b hb]
            simp
          rw [List.filter_eq_nil_iff.mpr hnone]
          exact List.drop_nil
      | false =>
          cases hpa : p a with
          | false =>
              rw [List.filter_cons_of_neg (by simp [hpa])]
              exact ih
          | true =>
              have hfirst : xs.findIdx p = 0 := by
                cases xs with
                | nil => rfl
                | cons b xs =>
                    rw [List.findIdx_cons, hp.all hpa b (by simp)]
                    rfl
              rw [hfirst, List.drop_zero] at ih
              rw [List.filter_cons_of_pos (by simp [hpa, hqa])]
              show List.drop 0 (a :: xs.take (xs.findIdx q)) = _
              rw [List.drop_zero, ih]

theorem findIdx_le_iff (hp : Upward xs p) :
    xs.findIdx p ≤ xs.findIdx q ↔ ∀ a ∈ xs, q a = true → p a = true := by
  induction xs with
  | nil => exact iff_of_true (Nat.le_refl _) fun _ h => by cases h
  | cons a xs ih =>
      rw [List.findIdx_cons, List.findIdx_cons]
      cases hpa : p a with
      | true =>
          exact iff_of_true (Nat.zero_le _) fun b hb _ => hp.all hpa b hb
      | false =>
          cases hqa : q a with
          | true =>
              refine iff_of_false (Nat.not_succ_le_zero _) fun h => ?_
              rw [h a List.mem_cons_self hqa] at hpa
              cases hpa
          | false =>
              show xs.findIdx p + 1 ≤ xs.findIdx q + 1 ↔ _
              rw [Nat.add_le_add_iff_right, ih hp.tail]
              simp only [List.forall_mem_cons, hqa, Bool.false_eq_true,
                false_implies, true_and]

/-- What a loop between the two positions goes over. -/
theorem scan_findIdx (hp : Upward xs p) (hq : Upward xs q)
    (h : ∀ a ∈ xs, q a = true → p a = true) :
    scan xs (xs.findIdx p) (xs.findIdx q) =
      some (xs.filter fun a => p a && !q a) := by
  rw [scan_eq ((findIdx_le_iff hp).mpr h) List.findIdx_le_length,
    drop_take_findIdx hp hq h]

theorem scan_eq_none (hp : Upward xs p) (ha : a ∈ xs) (hqa : q a = true)
    (hpa : p a = false) : scan xs (xs.findIdx p) (xs.findIdx q) = none := by
  refine scan_behind (Nat.lt_of_not_le fun hle => ?_)
  rw [(findIdx_le_iff hp).mp hle a ha hqa] at hpa
  cases hpa

end

/-! ## Containers -/

section

variable {κ ν : Type} [LinearOrder κ] {xs : List (κ × ν)} {k l : κ}

/-- `std::multimap`. -/
structure OrderedMultimap (κ ν : Type) [LinearOrder κ] where
  toList : List (κ × ν)
  sorted : toList.Pairwise fun e f => e.1 ≤ f.1

/-- `std::map`. -/
structure OrderedMap (κ ν : Type) [LinearOrder κ] where
  toList : List (κ × ν)
  sorted : toList.Pairwise fun e f => e.1 < f.1

/-- An `unordered_map`, in the order in which it is gone over. -/
structure Unordered (κ ν : Type) where
  toList : List (κ × ν)
  nodup : toList.Pairwise fun e f => e.1 ≠ f.1

def Sorted (xs : List (κ × ν)) : Prop := xs.Pairwise fun e f => e.1 ≤ f.1

theorem OrderedMap.le (m : OrderedMap κ ν) : Sorted m.toList :=
  m.sorted.imp le_of_lt

/-- `lower_bound(k)`. -/
def lowerBound (xs : List (κ × ν)) (k : κ) : ℕ :=
  xs.findIdx fun e => decide (k ≤ e.1)

/-- `upper_bound(k)`. -/
def upperBound (xs : List (κ × ν)) (k : κ) : ℕ :=
  xs.findIdx fun e => decide (k < e.1)

/-- `find(k)`: the first pair with the key, or the end. -/
def find (xs : List (κ × ν)) (k : κ) : ℕ :=
  xs.findIdx fun e => decide (e.1 = k)

/-- `equal_range(k)`. -/
def equalRange (xs : List (κ × ν)) (k : κ) : ℕ × ℕ :=
  (lowerBound xs k, upperBound xs k)

omit [LinearOrder κ] in
/-- `at(k)`, if there is such a key: `count(k)`. -/
def lookup [DecidableEq κ] (xs : List (κ × ν)) (k : κ) : Option ν :=
  (xs.find? fun e => decide (e.1 = k)).map Prod.snd

theorem Sorted.upward_le (h : Sorted xs) :
    Upward xs fun e => decide (k ≤ e.1) :=
  h.imp fun hle hk => decide_eq_true (le_trans (of_decide_eq_true hk) hle)

theorem Sorted.upward_lt (h : Sorted xs) :
    Upward xs fun e => decide (k < e.1) :=
  h.imp fun hle hk =>
    decide_eq_true (lt_of_lt_of_le (of_decide_eq_true hk) hle)

/-! ### The loops that occur -/

omit [LinearOrder κ] in
theorem scan_all : scan xs (itBegin xs) (itEnd xs) = some xs := by
  rw [itBegin, itEnd, scan_eq (Nat.zero_le _) (Nat.le_refl _), List.take_length]
  rfl

theorem scan_upto (h : Sorted xs) :
    scan xs (itBegin xs) (upperBound xs k) =
      some (xs.filter fun e => decide (e.1 ≤ k)) := by
  rw [itBegin_eq, upperBound, scan_findIdx upward_true h.upward_lt
    fun _ _ _ => rfl]
  simp only [Bool.true_and, ← decide_not, not_lt]

theorem scan_from (h : Sorted xs) :
    scan xs (lowerBound xs k) (itEnd xs) =
      some (xs.filter fun e => decide (k ≤ e.1)) := by
  rw [itEnd_eq, lowerBound, scan_findIdx h.upward_le upward_false
    fun _ _ h => by cases h]
  simp only [Bool.not_false, Bool.and_true]

theorem scan_equal (h : Sorted xs) :
    scan xs (equalRange xs k).1 (equalRange xs k).2 =
      some (xs.filter fun e => decide (e.1 = k)) := by
  rw [equalRange, lowerBound, upperBound, scan_findIdx h.upward_le h.upward_lt
    fun _ _ h => decide_eq_true (le_of_lt (of_decide_eq_true h))]
  congr 1
  refine List.filter_congr fun e _ => ?_
  rw [← decide_not, ← Bool.decide_and]
  exact decide_eq_decide.mpr ⟨fun h => le_antisymm (not_lt.mp h.2) h.1,
    fun h => ⟨le_of_eq h.symm, not_lt.mpr (le_of_eq h)⟩⟩

/-- A search that begins at a key, or else at the first greater one. -/
theorem Sorted.find_or_upperBound (h : Sorted xs) :
    (if find xs k = itEnd xs then upperBound xs k else find xs k) =
      lowerBound xs k := by
  induction xs with
  | nil => rfl
  | cons e xs ih =>
      obtain ⟨hle, h⟩ := List.pairwise_cons.mp h
      have ih := ih h
      unfold find upperBound lowerBound itEnd at ih ⊢
      rw [List.findIdx_cons, List.findIdx_cons, List.findIdx_cons,
        List.length_cons]
      rcases lt_trichotomy e.1 k with hlt | heq | hgt
      · rw [decide_eq_false (ne_of_lt hlt), decide_eq_false (not_lt_of_gt hlt),
          decide_eq_false (not_le_of_gt hlt)]
        simp only [cond_false, Nat.add_right_cancel_iff]
        rw [← ih]
        split <;> rfl
      · rw [decide_eq_true heq, decide_eq_true (le_of_eq heq.symm)]
        exact if_neg (Nat.succ_ne_zero _).symm
      · have hnone : (xs.findIdx fun f => decide (f.1 = k)) = xs.length :=
          List.findIdx_eq_length.mpr fun f hf =>
            decide_eq_false (ne_of_gt (lt_of_lt_of_le hgt (hle f hf)))
        rw [decide_eq_false (ne_of_gt hgt), decide_eq_true hgt,
          decide_eq_true (le_of_lt hgt), hnone]
        exact if_pos rfl

theorem Sorted.scan_inside {lower upper : κ} (h : Sorted xs)
    (hlt : lower < upper) :
    scan xs (upperBound xs lower) (lowerBound xs upper) =
      some (xs.filter fun e => decide (lower < e.1 ∧ e.1 < upper)) := by
  rw [upperBound, lowerBound, scan_findIdx h.upward_lt h.upward_le fun e _ h =>
    decide_eq_true (lt_of_lt_of_le hlt (of_decide_eq_true h))]
  congr 1
  refine List.filter_congr fun e _ => ?_
  rw [← decide_not, ← Bool.decide_and]
  exact decide_eq_decide.mpr (and_congr_right fun _ => not_le)

/-- A loop with its bounds in the wrong order has nothing to go over, or no
end. -/
theorem Sorted.scan_inverted {lower upper : κ} (h : Sorted xs)
    (hle : upper ≤ lower) :
    scan xs (upperBound xs lower) (lowerBound xs upper) =
      if ∃ e ∈ xs, upper ≤ e.1 ∧ e.1 ≤ lower then none else some [] := by
  rw [upperBound, lowerBound]
  split
  · next hex =>
      obtain ⟨e, he, hge, hle⟩ := hex
      exact scan_eq_none h.upward_lt he (decide_eq_true hge)
        (decide_eq_false (not_lt.mpr hle))
  · next hnone =>
      have hsub : ∀ e ∈ xs, decide (upper ≤ e.1) = true →
          decide (lower < e.1) = true := by
        intro e he hge
        refine decide_eq_true (not_le.mp fun hle => ?_)
        exact hnone ⟨e, he, of_decide_eq_true hge, hle⟩
      rw [scan_findIdx h.upward_lt h.upward_le hsub]
      congr 1
      refine List.filter_eq_nil_iff.mpr fun e he hin => ?_
      rw [← decide_not, ← Bool.decide_and] at hin
      obtain ⟨hgt, hlt⟩ := of_decide_eq_true hin
      exact hlt (hle.trans (le_of_lt hgt))

theorem Sorted.scan_wrong {lower upper : κ} (h : Sorted xs)
    (hle : upper ≤ lower) :
    scan xs (lowerBound xs lower) (lowerBound xs upper) =
      if ∃ e ∈ xs, upper ≤ e.1 ∧ e.1 < lower then none else some [] := by
  rw [lowerBound, lowerBound]
  split
  · next hex =>
      obtain ⟨e, he, hge, hlt⟩ := hex
      exact scan_eq_none h.upward_le he (decide_eq_true hge)
        (decide_eq_false (not_le.mpr hlt))
  · next hnone =>
      have hsub : ∀ e ∈ xs, decide (upper ≤ e.1) = true →
          decide (lower ≤ e.1) = true := by
        intro e he hge
        refine decide_eq_true (not_lt.mp fun hlt => ?_)
        exact hnone ⟨e, he, of_decide_eq_true hge, hlt⟩
      rw [scan_findIdx h.upward_le h.upward_le hsub]
      congr 1
      refine List.filter_eq_nil_iff.mpr fun e he hin => ?_
      rw [← decide_not, ← Bool.decide_and] at hin
      obtain ⟨hge, hlt⟩ := of_decide_eq_true hin
      exact hlt (hle.trans hge)

theorem Sorted.scan_closed {lower upper : κ} (h : Sorted xs)
    (hle : lower ≤ upper) :
    scan xs (lowerBound xs lower) (upperBound xs upper) =
      some (xs.filter fun e => decide (lower ≤ e.1 ∧ e.1 ≤ upper)) := by
  rw [upperBound, lowerBound, scan_findIdx h.upward_le h.upward_lt fun e _ h =>
    decide_eq_true (hle.trans (le_of_lt (of_decide_eq_true h)))]
  congr 1
  refine List.filter_congr fun e _ => ?_
  rw [← decide_not, ← Bool.decide_and]
  exact decide_eq_decide.mpr (and_congr_right fun _ => not_lt)

theorem Sorted.scan_halfopen {lower upper : κ} (h : Sorted xs)
    (hle : lower ≤ upper) :
    scan xs (lowerBound xs lower) (lowerBound xs upper) =
      some (xs.filter fun e => decide (lower ≤ e.1 ∧ e.1 < upper)) := by
  rw [lowerBound, lowerBound, scan_findIdx h.upward_le h.upward_le fun e _ h =>
    decide_eq_true (hle.trans (of_decide_eq_true h))]
  congr 1
  refine List.filter_congr fun e _ => ?_
  rw [← decide_not, ← Bool.decide_and]
  exact decide_eq_decide.mpr (and_congr_right fun _ => not_le)

end

end Infinisql.Lib
