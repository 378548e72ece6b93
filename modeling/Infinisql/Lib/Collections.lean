import Mathlib.Data.List.Sort
import Mathlib.Data.List.Nodup
import Mathlib.Data.Finset.Card

/-!
# Sets and dictionaries in iteration order

A scripting language's set is a collection without repetition that a program
may walk in some order, and its dictionary a set of keys with a value each.
Both are lists here, in the order of insertion, and both carry the proof that
nothing occurs twice, so the length of the list is the number of elements.

What is proved of the operations is membership, of an element in a set and of
a key in a dictionary, and the one lookup law of an update. `mostCommon` is
the stable order of a dictionary of counts by falling count; `mostCommon_head`
says which entry is the first of it, and `mostCommon_ahead` when no other
entry has as high a count.
-/

namespace Infinisql.Lib

/-- A set, in the order of insertion. -/
structure OrdSet (α : Type*) where
  toList : List α
  nodup : toList.Nodup

namespace OrdSet

variable {α : Type*} {a b : α} {s : OrdSet α}

instance : Membership α (OrdSet α) := ⟨fun s a => a ∈ s.toList⟩

theorem mem_def : a ∈ s ↔ a ∈ s.toList := Iff.rfl

/-- `len(s)`. -/
def card (s : OrdSet α) : ℕ := s.toList.length

theorem eq_of_toList {t : OrdSet α} (h : s.toList = t.toList) : s = t := by
  cases s
  cases t
  simpa using h

theorem card_eq_zero : s.card = 0 ↔ ∀ a, a ∉ s := by
  rw [card, List.length_eq_zero_iff, List.eq_nil_iff_forall_not_mem]
  exact Iff.rfl

def empty : OrdSet α := ⟨[], List.nodup_nil⟩

def singleton (a : α) : OrdSet α := ⟨[a], List.nodup_singleton a⟩

@[simp] theorem not_mem_empty : a ∉ (empty : OrdSet α) := List.not_mem_nil

@[simp] theorem card_empty : (empty : OrdSet α).card = 0 := rfl

@[simp] theorem mem_singleton : a ∈ singleton b ↔ a = b := List.mem_singleton

@[simp] theorem card_singleton : (singleton a).card = 1 := rfl

variable [DecidableEq α]

instance : DecidableEq (OrdSet α) := fun s t =>
  decidable_of_iff (s.toList = t.toList) ⟨eq_of_toList, fun h => h ▸ rfl⟩

instance : Decidable (a ∈ s) := inferInstanceAs (Decidable (a ∈ s.toList))

/-- `s.add(a)`. -/
def insert (s : OrdSet α) (a : α) : OrdSet α where
  toList := if a ∈ s.toList then s.toList else s.toList ++ [a]
  nodup := by
    split
    · exact s.nodup
    · next h =>
        refine List.nodup_append.mpr ⟨s.nodup, List.nodup_singleton a, ?_⟩
        intro x hx y hy
        rw [List.mem_singleton.mp hy]
        exact fun hxa => h (hxa ▸ hx)

/-- `s.remove(a)`, where the element is there. -/
def erase (s : OrdSet α) (a : α) : OrdSet α where
  toList := s.toList.erase a
  nodup := s.nodup.erase a

@[simp] theorem mem_insert : b ∈ s.insert a ↔ b = a ∨ b ∈ s := by
  rw [mem_def, insert]
  dsimp only
  split
  · next h =>
      constructor
      · exact fun hb => .inr hb
      · rintro (rfl | hb)
        · exact h
        · exact hb
  · rw [List.mem_append, List.mem_singleton, or_comm]
    exact Iff.rfl

@[simp] theorem mem_erase : b ∈ s.erase a ↔ b ≠ a ∧ b ∈ s :=
  s.nodup.mem_erase_iff

theorem card_insert_of_mem (h : a ∈ s) : (s.insert a).card = s.card := by
  rw [card, insert]
  dsimp only
  rw [if_pos (mem_def.mp h)]
  rfl

theorem card_insert_of_not_mem (h : a ∉ s) :
    (s.insert a).card = s.card + 1 := by
  rw [card, insert]
  dsimp only
  rw [if_neg (mem_def.not.mp h), List.length_append]
  rfl

theorem card_erase (h : a ∈ s) : (s.erase a).card + 1 = s.card := by
  have hpos : 0 < s.card := List.length_pos_of_mem (mem_def.mp h)
  have herase : (s.erase a).card = s.card - 1 :=
    List.length_erase_of_mem (mem_def.mp h)
  omega

/-- A set inside a finite one is no larger. -/
theorem card_le_of_subset {t : Finset α} (h : ∀ a ∈ s, a ∈ t) :
    s.card ≤ t.card := by
  have hcard : s.toList.toFinset.card = s.card :=
    List.toFinset_card_of_nodup s.nodup
  rw [← hcard]
  exact Finset.card_le_card fun a ha => h a (List.mem_toFinset.mp ha)

end OrdSet

section Max

variable {α : Type*} [LinearOrder α]

/-- `max(s)`: none where the set is empty. -/
def OrdSet.max? (s : OrdSet α) : Option α := s.toList.max?

theorem OrdSet.max?_eq_some {s : OrdSet α} {a : α} :
    s.max? = some a ↔ a ∈ s ∧ ∀ b ∈ s, b ≤ a := List.max?_eq_some_iff

theorem OrdSet.max?_eq_none {s : OrdSet α} : s.max? = none ↔ s.card = 0 := by
  rw [OrdSet.max?, List.max?_eq_none_iff, OrdSet.card, List.length_eq_zero_iff]

end Max

/-- A dictionary, in the order in which the keys were first set. -/
structure Dict (κ ν : Type*) where
  items : List (κ × ν)
  nodup : (items.map Prod.fst).Nodup

namespace Dict

variable {κ ν : Type*} {d : Dict κ ν} {k k' : κ} {v : ν}

def empty : Dict κ ν := ⟨[], List.nodup_nil⟩

def keys (d : Dict κ ν) : List κ := d.items.map Prod.fst

@[simp] theorem keys_empty : (empty : Dict κ ν).keys = [] := rfl

variable [DecidableEq κ]

/-- `d[k]`, none where the key is missing. -/
def get? (d : Dict κ ν) (k : κ) : Option ν :=
  (d.items.find? fun p => decide (p.1 = k)).map Prod.snd

/-- The list `d[k] = v` leaves: the value is replaced in its place, or the
entry added at the end. -/
def setItems (k : κ) (v : ν) : List (κ × ν) → List (κ × ν)
  | [] => [(k, v)]
  | p :: ps => if p.1 = k then (k, v) :: ps else p :: setItems k v ps

theorem mem_map_setItems {ps : List (κ × ν)} :
    k' ∈ (setItems k v ps).map Prod.fst ↔ k' = k ∨ k' ∈ ps.map Prod.fst := by
  induction ps with
  | nil => simp [setItems]
  | cons p ps ih =>
      rw [setItems]
      split
      · next h =>
          simp only [List.map_cons, List.mem_cons, h]
          tauto
      · simp only [List.map_cons, List.mem_cons, ih]
        tauto

theorem mem_setItems {p : κ × ν} {ps : List (κ × ν)}
    (h : p ∈ setItems k v ps) : p = (k, v) ∨ p ∈ ps := by
  induction ps with
  | nil => exact .inl (List.mem_singleton.mp h)
  | cons q qs ih =>
      rw [setItems] at h
      split at h
      · rcases List.mem_cons.mp h with h | h
        · exact .inl h
        · exact .inr (List.mem_cons_of_mem q h)
      · rcases List.mem_cons.mp h with h | h
        · exact .inr (h ▸ List.mem_cons_self)
        · rcases ih h with h | h
          · exact .inl h
          · exact .inr (List.mem_cons_of_mem q h)

theorem nodup_setItems {ps : List (κ × ν)} (h : (ps.map Prod.fst).Nodup) :
    ((setItems k v ps).map Prod.fst).Nodup := by
  induction ps with
  | nil => simp [setItems]
  | cons p ps ih =>
      rw [List.map_cons, List.nodup_cons] at h
      rw [setItems]
      split
      · next hk =>
          rw [List.map_cons, List.nodup_cons]
          exact ⟨hk ▸ h.1, h.2⟩
      · next hk =>
          rw [List.map_cons, List.nodup_cons]
          refine ⟨fun hm => ?_, ih h.2⟩
          rcases mem_map_setItems.mp hm with hm | hm
          · exact hk hm
          · exact h.1 hm

def set (d : Dict κ ν) (k : κ) (v : ν) : Dict κ ν :=
  ⟨setItems k v d.items, nodup_setItems d.nodup⟩

/-- `del d[k]`, where the key is there. -/
def del (d : Dict κ ν) (k : κ) : Dict κ ν where
  items := d.items.filter fun p => decide (p.1 ≠ k)
  nodup := List.Nodup.sublist (List.filter_sublist.map Prod.fst) d.nodup

/-- `{k: v for k in s}`. -/
def ofSet (s : OrdSet κ) (v : ν) : Dict κ ν where
  items := s.toList.map fun k => (k, v)
  nodup := by
    have hid : (Prod.fst ∘ fun k : κ => (k, v)) = id := rfl
    rw [List.map_map, hid, List.map_id]
    exact s.nodup

@[simp] theorem mem_keys_set : k' ∈ (d.set k v).keys ↔ k' = k ∨ k' ∈ d.keys :=
  mem_map_setItems

@[simp] theorem mem_keys_del : k' ∈ (d.del k).keys ↔ k' ≠ k ∧ k' ∈ d.keys := by
  simp only [keys, del, List.mem_map, List.mem_filter, decide_eq_true_eq]
  constructor
  · rintro ⟨p, ⟨hp, hk⟩, rfl⟩
    exact ⟨hk, p, hp, rfl⟩
  · rintro ⟨hk, p, hp, rfl⟩
    exact ⟨p, ⟨hp, hk⟩, rfl⟩

theorem get?_eq_none : d.get? k = none ↔ k ∉ d.keys := by
  rw [get?, Option.map_eq_none_iff, List.find?_eq_none, keys, List.mem_map]
  constructor
  · rintro h ⟨p, hp, hk⟩
    exact h p hp (decide_eq_true hk)
  · intro h p hp hk
    exact h ⟨p, hp, of_decide_eq_true hk⟩

theorem get?_isSome : (d.get? k).isSome ↔ k ∈ d.keys := by
  rw [Option.isSome_iff_ne_none, ne_eq, get?_eq_none, not_not]

theorem get?_set_self : (d.set k v).get? k = some v := by
  rw [get?, set]
  dsimp only
  induction d.items with
  | nil => simp [setItems]
  | cons p ps ih =>
      rw [setItems]
      split
      · simp
      · next h =>
          rw [List.find?_cons_of_neg (by simpa using h)]
          exact ih

theorem get?_set_of_ne (h : k' ≠ k) : (d.set k v).get? k' = d.get? k' := by
  rw [get?, get?, set]
  dsimp only
  induction d.items with
  | nil => simp [setItems, Ne.symm h]
  | cons p ps ih =>
      rw [setItems]
      split
      · next hp => simp [hp, Ne.symm h]
      · by_cases hk : p.1 = k'
        · rw [List.find?_cons_of_pos (by simpa using hk),
            List.find?_cons_of_pos (by simpa using hk)]
        · rw [List.find?_cons_of_neg (by simpa using hk),
            List.find?_cons_of_neg (by simpa using hk)]
          exact ih

theorem get?_of_mem (h : (k, v) ∈ d.items) : d.get? k = some v := by
  obtain ⟨items, hd⟩ := d
  rw [get?]
  dsimp only at h hd ⊢
  induction items with
  | nil => cases h
  | cons p ps ih =>
      rw [List.map_cons, List.nodup_cons] at hd
      rcases List.mem_cons.mp h with h | h
      · rw [← h, List.find?_cons_of_pos (by simp)]
        rfl
      · have hne : p.1 ≠ k := fun hk => hd.1 (hk ▸ List.mem_map_of_mem h)
        rw [List.find?_cons_of_neg (by simpa using hne)]
        exact ih hd.2 h

theorem mem_of_get? (h : d.get? k = some v) : (k, v) ∈ d.items := by
  obtain ⟨p, hp, hv⟩ := Option.map_eq_some_iff.mp h
  have hk : p.1 = k := by simpa using List.find?_some hp
  rw [← hk, ← hv]
  exact List.mem_of_find?_eq_some hp

theorem get?_iff : d.get? k = some v ↔ (k, v) ∈ d.items :=
  ⟨mem_of_get?, get?_of_mem⟩

end Dict

/-! ## Counts -/

section Counts

variable {κ : Type*}

/-- The entries of a dictionary of counts, highest first; equal counts stay in
their order. -/
def mostCommon (d : Dict κ ℕ) : List (κ × ℕ) :=
  d.items.insertionSort fun p q => q.2 ≤ p.2

theorem mem_mostCommon {d : Dict κ ℕ} {p : κ × ℕ} :
    p ∈ mostCommon d ↔ p ∈ d.items := List.mem_insertionSort _

/-- No count is higher than the first one. -/
theorem mostCommon_head {d : Dict κ ℕ} {p q : κ × ℕ} {l : List (κ × ℕ)}
    (h : mostCommon d = p :: l) (hq : q ∈ d.items) : q.2 ≤ p.2 := by
  have hsorted : (mostCommon d).Pairwise fun p q => q.2 ≤ p.2 :=
    List.pairwise_insertionSort _ _
  rw [h, List.pairwise_cons] at hsorted
  rcases List.mem_cons.mp (h ▸ mem_mostCommon.mpr hq) with rfl | hq
  · exact le_rfl
  · exact hsorted.1 q hq

/-- The first count is above the second one where it is above all others. -/
theorem mostCommon_ahead {d : Dict κ ℕ} {p q : κ × ℕ} {l : List (κ × ℕ)}
    (h : mostCommon d = p :: q :: l) :
    q.2 < p.2 ↔ ∀ r ∈ d.items, r.1 ≠ p.1 → r.2 < p.2 := by
  have hsorted : (mostCommon d).Pairwise fun p q => q.2 ≤ p.2 :=
    List.pairwise_insertionSort _ _
  have hkeys : ((mostCommon d).map Prod.fst).Nodup :=
    ((List.perm_insertionSort _ _).map Prod.fst).nodup_iff.mpr d.nodup
  rw [h, List.pairwise_cons, List.pairwise_cons] at hsorted
  rw [h, List.map_cons, List.map_cons, List.nodup_cons] at hkeys
  constructor
  · intro hlt r hr hne
    rcases List.mem_cons.mp (h ▸ mem_mostCommon.mpr hr) with hr | hr
    · exact absurd (congrArg Prod.fst hr) hne
    · rcases List.mem_cons.mp hr with hr | hr
      · exact hr ▸ hlt
      · exact lt_of_le_of_lt (hsorted.2.1 r hr) hlt
  · intro hall
    have hq : q ∈ d.items := by
      rw [← mem_mostCommon, h]
      exact List.mem_cons_of_mem p List.mem_cons_self
    exact hall q hq fun heq => hkeys.1 (heq ▸ List.mem_cons_self)

end Counts

end Infinisql.Lib
