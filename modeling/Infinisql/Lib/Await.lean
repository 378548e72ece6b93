import Mathlib.Data.List.Perm.Basic
import Infinisql.Lib.Run

/-!
# Waiting for answers by counting down

A party sends some requests, sets a counter, and counts it down by one with
each answer. When the counter reaches zero it goes on. The counter does not
know which answers are missing; it works only as long as it started at the
number of requests in flight. This file says exactly when it works.

The answers arrive in any order. `Await.answer` is one arrival; it is
undefined for a peer that owes no answer.
-/

namespace Infinisql.Lib

/-- A party that counts answers: its counter, who still owes an answer, and
how often the counter has reached zero. -/
structure Await (A : Type*) where
  wait : Int
  inflight : List A
  entered : Nat := 0

variable {A : Type*} [DecidableEq A]

namespace Await

def answer (w : Await A) (a : A) : Option (Await A) :=
  if a ∈ w.inflight then
    some
      { wait := w.wait - 1
        inflight := w.inflight.erase a
        entered := if w.wait - 1 = 0 then w.entered + 1 else w.entered }
  else none

/-- The party has gone on once everybody has answered, and not before. -/
def InTime (w : Await A) : Prop :=
  w.entered = if w.inflight.length = 0 then 1 else 0

/-- The counter is the number of answers that are missing. -/
def Counts (w : Await A) : Prop :=
  w.wait = w.inflight.length ∧ w.InTime

variable {w w' : Await A} {a : A} {as : List A}

theorem answer_eq_some : w.answer a = some w' ↔ a ∈ w.inflight ∧
    w' = { wait := w.wait - 1, inflight := w.inflight.erase a
           entered := if w.wait - 1 = 0 then w.entered + 1
                      else w.entered } := by
  rw [answer]
  split
  · next h => simp [h, eq_comm]
  · next h => simp [h]

/-- Each answer keeps the count. -/
theorem Counts.answer (hc : Counts w) (h : w.answer a = some w') :
    Counts w' := by
  obtain ⟨hmem, rfl⟩ := answer_eq_some.mp h
  have hpos := List.length_pos_of_mem hmem
  have hlen := List.length_erase_of_mem hmem
  have hzero : w.entered = 0 := hc.2.trans (if_neg (by omega))
  refine ⟨?_, ?_⟩
  · show w.wait - 1 = ((w.inflight.erase a).length : Int)
    rw [hc.1, hlen]
    omega
  · show (if w.wait - 1 = 0 then w.entered + 1 else w.entered) =
      if (w.inflight.erase a).length = 0 then 1 else 0
    rw [hzero, hlen, hc.1]
    by_cases h1 : w.inflight.length = 1
    · rw [if_pos (by omega), if_pos (by omega)]
    · rw [if_neg (by omega), if_neg (by omega)]

theorem Counts.inTime (hc : Counts w) :
    AllStates Await.answer InTime w as := by
  induction as generalizing w with
  | nil => exact hc.2
  | cons a as ih => exact ⟨hc.2, fun w' h => ih (hc.answer h)⟩

/-- All who owe an answer can give it, in any order, and then nobody owes
one. -/
theorem run_answers : ∀ {as : List A} {w : Await A}, as.Perm w.inflight →
    ∃ w', run Await.answer w as = some w' ∧ w'.inflight = [] ∧
      w'.wait = w.wait - as.length := by
  intro as
  induction as with
  | nil =>
      intro w h
      exact ⟨w, rfl, h.symm.eq_nil, by simp⟩
  | cons a as ih =>
      intro w h
      have hmem : a ∈ w.inflight := h.subset List.mem_cons_self
      obtain ⟨w', h1, h2, h3⟩ := ih
        (w := { wait := w.wait - 1, inflight := w.inflight.erase a
                entered := if w.wait - 1 = 0 then w.entered + 1
                           else w.entered })
        (by simpa using h.erase a)
      refine ⟨w', run_cons.mpr ⟨_, answer_eq_some.mpr ⟨hmem, rfl⟩, h1⟩, h2, ?_⟩
      rw [h3, List.length_cons]
      push_cast
      omega

end Await

end Infinisql.Lib
