import Mathlib.Logic.Function.Basic
import Mathlib.Data.List.Nodup

/-!
# Cells with addresses

What `new` and `delete` work on: cells that hold a value each, under addresses
of which those from `next` on have never been given out. The three writing
operations change one cell each, and that is all there is to know of them:
every lemma says what is read at an address after one of them.
-/

namespace Infinisql.Lib

/-- The cells there are, and where the next one will be. -/
structure Heap (α : Type*) where
  get : ℕ → Option α
  next : ℕ
  fresh : ∀ a, next ≤ a → get a = none

namespace Heap

variable {α : Type*} {h : Heap α} {a b : ℕ} {x : α} {f : α → α}

/-- `new`. The new cell is at `h.next`. -/
def alloc (h : Heap α) (x : α) : Heap α where
  get := fun b => if b = h.next then some x else h.get b
  next := h.next + 1
  fresh := fun b hb => by
    rw [if_neg (by omega)]
    exact h.fresh b (by omega)

/-- A write to a cell. -/
def modify (h : Heap α) (a : ℕ) (f : α → α) : Heap α where
  get := fun b => if b = a then (h.get b).map f else h.get b
  next := h.next
  fresh := fun b hb => by
    rw [h.fresh b hb]
    split <;> rfl

/-- `delete`. -/
def free (h : Heap α) (a : ℕ) : Heap α where
  get := fun b => if b = a then none else h.get b
  next := h.next
  fresh := fun b hb => by
    rw [h.fresh b hb]
    split <;> rfl

theorem lt_of_get (hx : h.get a = some x) : a < h.next := by
  by_contra hle
  rw [h.fresh a (by omega)] at hx
  cases hx

@[simp] theorem alloc_next : (h.alloc x).next = h.next + 1 := rfl

@[simp] theorem modify_next : (h.modify a f).next = h.next := rfl

@[simp] theorem free_next : (h.free a).next = h.next := rfl

@[simp] theorem get_alloc_self : (h.alloc x).get h.next = some x := if_pos rfl

theorem get_alloc_of_ne (hb : b ≠ h.next) : (h.alloc x).get b = h.get b :=
  if_neg hb

@[simp] theorem get_modify_self : (h.modify a f).get a = (h.get a).map f :=
  if_pos rfl

theorem get_modify_of_ne (hb : b ≠ a) : (h.modify a f).get b = h.get b :=
  if_neg hb

theorem get_free_self : (h.free a).get a = none := if_pos rfl

theorem get_free_of_ne (hb : b ≠ a) : (h.free a).get b = h.get b := if_neg hb

/-- A heap with the given cells. -/
def ofList (cells : List (ℕ × α)) : Heap α where
  get := fun a => (cells.find? fun c => decide (c.1 = a)).map Prod.snd
  next := (cells.map Prod.fst).foldr max 0 + 1
  fresh := fun a ha => by
    rw [Option.map_eq_none_iff, List.find?_eq_none]
    intro c hc heq
    have hle : c.1 ≤ (cells.map Prod.fst).foldr max 0 := by
      clear ha
      induction cells with
      | nil => cases hc
      | cons d ds ih =>
          rw [List.map_cons, List.foldr_cons]
          rcases List.mem_cons.mp hc with rfl | hc
          · exact Nat.le_max_left _ _
          · exact Nat.le_trans (ih hc) (Nat.le_max_right _ _)
    rw [of_decide_eq_true heq] at hle
    omega

/-- With no address twice, each cell is where it was put. -/
theorem get_ofList {cells : List (ℕ × α)} (hnd : (cells.map Prod.fst).Nodup)
    (hc : (a, x) ∈ cells) : (ofList cells).get a = some x := by
  change (cells.find? fun c => decide (c.1 = a)).map Prod.snd = some x
  induction cells with
  | nil => cases hc
  | cons d ds ih =>
      rw [List.map_cons, List.nodup_cons] at hnd
      rcases List.mem_cons.mp hc with rfl | hc
      · rw [List.find?_cons_of_pos (by simp)]
        rfl
      · have hne : d.1 ≠ a := fun h => hnd.1 (h ▸ List.mem_map_of_mem hc)
        rw [List.find?_cons_of_neg (by simpa using hne)]
        exact ih hnd.2 hc

end Heap

end Infinisql.Lib
