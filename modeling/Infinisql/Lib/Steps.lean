import Mathlib.Logic.Function.Iterate

/-!
# Where a machine gets to

A machine that takes one step after another, `step`, with nothing else to
choose. `Attains` says that it gets to a state with a property, or to one where
the journey is called off, `off`; two such journeys make one. `Strays` says that
from some point on it never leaves the states of a kind, which a set that is
closed under steps shows. Of two states that it stays in it cannot get to both.
-/

namespace Infinisql.Lib

variable {σ : Type*} {step : σ → σ} {off busy P Q : σ → Prop} {c d e : σ}

/-- At some time the machine is where the property holds, or off. -/
def Attains (step : σ → σ) (off : σ → Prop) (c : σ) (P : σ → Prop) : Prop :=
  ∃ k, P (step^[k] c) ∨ off (step^[k] c)

/-- From some time on it is busy for ever. -/
def Strays (step : σ → σ) (busy : σ → Prop) (c : σ) : Prop :=
  ∃ k, ∀ n, busy (step^[k + n] c)

theorem Attains.here (h : P c) : Attains step off c P := ⟨0, .inl h⟩

theorem Attains.calledOff (h : off c) : Attains step off c P := ⟨0, .inr h⟩

theorem Attains.of_step (h : Attains step off (step c) P) :
    Attains step off c P := by
  obtain ⟨k, hk⟩ := h
  exact ⟨k + 1, by rwa [Function.iterate_succ_apply]⟩

theorem Attains.trans (h : Attains step off c P)
    (hP : ∀ d, P d → Attains step off d Q) : Attains step off c Q := by
  obtain ⟨k, hk | hk⟩ := h
  · obtain ⟨m, hm⟩ := hP _ hk
    exact ⟨m + k, by rwa [Function.iterate_add_apply]⟩
  · exact ⟨k, .inr hk⟩

theorem Attains.mono (h : Attains step off c P) (hPQ : ∀ d, P d → Q d) :
    Attains step off c Q := h.trans fun d hd => .here (hPQ d hd)

theorem Strays.of_step (h : Strays step busy (step c)) :
    Strays step busy c := by
  obtain ⟨k, hk⟩ := h
  refine ⟨k + 1, fun n => ?_⟩
  have hn := hk n
  rw [← Function.iterate_succ_apply] at hn
  rwa [Nat.add_right_comm]

/-- To stray behind a point of the journey, if it is never called off. -/
theorem Attains.strays (h : Attains step off c P) (hoff : ∀ d, ¬ off d)
    (hP : ∀ d, P d → Strays step busy d) : Strays step busy c := by
  obtain ⟨k, hk | hk⟩ := h
  · obtain ⟨m, hm⟩ := hP _ hk
    refine ⟨m + k, fun n => ?_⟩
    have hn := hm n
    rwa [← Function.iterate_add_apply, Nat.add_right_comm] at hn
  · exact absurd hk (hoff _)

/-- A set that is closed under steps is not left. -/
theorem iterate_of_closed (hc : P c) (hstep : ∀ d, P d → P (step d)) (n : ℕ) :
    P (step^[n] c) := by
  induction n with
  | zero => exact hc
  | succ n ih =>
      rw [Function.iterate_succ_apply']
      exact hstep _ ih

theorem Strays.of_closed (hc : P c) (hstep : ∀ d, P d → P (step d))
    (hbusy : ∀ d, P d → busy d) : Strays step busy c :=
  ⟨0, fun _ => hbusy _ (iterate_of_closed hc hstep _)⟩

/-- In a closed set whose states become smaller until they are where the
property holds, it gets there. -/
theorem Attains.of_measure (size : σ → ℕ) (hc : P c)
    (hstep : ∀ d, P d → Q d ∨ P (step d) ∧ size (step d) < size d) :
    Attains step off c Q := by
  induction hn : size c using Nat.strongRecOn generalizing c with
  | ind n ih =>
      rcases hstep c hc with hQ | ⟨hP, hlt⟩
      · exact .here hQ
      · exact .of_step (ih _ (hn ▸ hlt) hP rfl)

theorem iterate_of_fixed (hd : step d = d) {k : ℕ} (hk : step^[k] c = d) :
    ∀ n, step^[k + n] c = d := by
  intro n
  rw [Nat.add_comm, Function.iterate_add_apply, hk,
    Function.iterate_fixed hd]

/-- Two states that are stayed in. -/
theorem fixed_unique (hd : step d = d) (he : step e = e) {k m : ℕ}
    (hk : step^[k] c = d) (hm : step^[m] c = e) : d = e := by
  rw [← iterate_of_fixed hd hk m, Nat.add_comm]
  exact iterate_of_fixed he hm k

end Infinisql.Lib
