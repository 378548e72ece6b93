import Mathlib.Logic.Function.Basic
import Infinisql.Lib.Run

/-!
# Reservations

A table of keys that are first reserved and then settled. Whoever finds a key
free may reserve it; the owner of a reservation settles it or cancels it, and
nobody else's attempt to do either has any effect; a key can be removed
altogether. A request for a key that is taken is told which way it is taken:
reserved keys may become free again, settled ones are somebody's for good.

That is all a unique constraint with staged entries has to do, and the rules
below are what it is for. A key has one owner. A reservation is its owner's:
it stays until the owner ends it or the key is removed, whatever the others
do in between.
-/

namespace Infinisql.Lib

variable {κ σ ρ : Type*}

/-- What a key is taken by. -/
inductive Slot (σ ρ : Type*)
  | reserved (owner : σ) (r : ρ)
  | settled (r : ρ)
  deriving DecidableEq

/-- The keys that are taken. -/
abbrev Reservations (κ σ ρ : Type*) := κ → Option (Slot σ ρ)

inductive ReserveOp (κ σ ρ : Type*)
  | reserve (k : κ) (s : σ) (r : ρ)
  | settle (k : κ) (s : σ)
  | cancel (k : κ) (s : σ)
  | remove (k : κ)

inductive ReserveReply
  | granted
  | busy
  | taken
  | done
  deriving DecidableEq, Repr

namespace Reservations

/-- `s` has reserved `k`. -/
def OwnedBy (t : Reservations κ σ ρ) (k : κ) (s : σ) : Prop :=
  ∃ r, t k = some (.reserved s r)

theorem OwnedBy.unique {t : Reservations κ σ ρ} {k : κ} {s s' : σ}
    (h : t.OwnedBy k s) (h' : t.OwnedBy k s') : s = s' := by
  obtain ⟨r, hr⟩ := h
  obtain ⟨r', hr'⟩ := h'
  rw [hr] at hr'
  injection hr' with hr'
  injection hr'

variable [DecidableEq κ] [DecidableEq σ]

/-- What the owner makes of its reservation; anybody else makes nothing. -/
def ifOwner (t : Reservations κ σ ρ) (k : κ) (s : σ)
    (f : ρ → Option (Slot σ ρ)) : Reservations κ σ ρ :=
  match t k with
  | some (.reserved s' r) => if s' = s then Function.update t k (f r) else t
  | _ => t

def step (t : Reservations κ σ ρ) :
    ReserveOp κ σ ρ → ReserveReply × Reservations κ σ ρ
  | .reserve k s r =>
      match t k with
      | none => (.granted, Function.update t k (some (.reserved s r)))
      | some (.reserved _ _) => (.busy, t)
      | some (.settled _) => (.taken, t)
  | .settle k s => (.done, t.ifOwner k s fun r => some (.settled r))
  | .cancel k s => (.done, t.ifOwner k s fun _ => none)
  | .remove k => (.done, Function.update t k none)

theorem ifOwner_of_owned {t : Reservations κ σ ρ} {k : κ} {s : σ} {r : ρ}
    {f : ρ → Option (Slot σ ρ)} (h : t k = some (.reserved s r)) :
    t.ifOwner k s f = Function.update t k (f r) := by
  simp [ifOwner, h]

/-- Nothing happens to a key that is not the caller's. -/
theorem ifOwner_of_not_owned {t : Reservations κ σ ρ} {k : κ} {s : σ}
    {f : ρ → Option (Slot σ ρ)} (h : ¬ t.OwnedBy k s) :
    t.ifOwner k s f = t := by
  unfold ifOwner
  split
  · next s' r hr =>
      rw [if_neg]
      rintro rfl
      exact h ⟨r, hr⟩
  · rfl

/-- The key an operation is about. -/
def key : ReserveOp κ σ ρ → κ
  | .reserve k _ _ | .settle k _ | .cancel k _ | .remove k => k

/-- No other key is touched. -/
theorem step_of_ne {t : Reservations κ σ ρ} {op : ReserveOp κ σ ρ} {k : κ}
    (h : k ≠ key op) : (t.step op).2 k = t k := by
  have hif : ∀ {s f}, (t.ifOwner (key op) s f) k = t k := by
    intro s f
    by_cases hown : t.OwnedBy (key op) s
    · obtain ⟨r, hr⟩ := hown
      rw [ifOwner_of_owned hr]
      exact Function.update_of_ne h ..
    · rw [ifOwner_of_not_owned hown]
  cases op with
  | reserve k' s r =>
      simp only [step]
      cases t k' with
      | none => exact Function.update_of_ne h ..
      | some slot => cases slot <;> rfl
  | settle k' s => exact hif
  | cancel k' s => exact hif
  | remove k' => exact Function.update_of_ne h ..

/-- A key that is taken was taken before, or has just been asked for. -/
theorem taken_of_step {t : Reservations κ σ ρ} {op : ReserveOp κ σ ρ} {k : κ}
    {slot : Slot σ ρ} (h : (t.step op).2 k = some slot) :
    (∃ slot', t k = some slot') ∨ k = key op := by
  by_cases hk : k = key op
  · exact .inr hk
  · rw [step_of_ne hk] at h
    exact .inl ⟨slot, h⟩

/-- The calls that end the reservation of `k` by `s`. -/
def Ends (k : κ) (s : σ) : ReserveOp κ σ ρ → Prop
  | .reserve _ _ _ => False
  | .settle k' s' | .cancel k' s' => k' = k ∧ s' = s
  | .remove k' => k' = k

/-- A reservation is its owner's. -/
theorem OwnedBy.step {t : Reservations κ σ ρ} {k : κ} {s : σ}
    {op : ReserveOp κ σ ρ} (h : t.OwnedBy k s) (hop : ¬ Ends k s op) :
    (t.step op).2.OwnedBy k s := by
  have hif : ∀ {k' s' f}, ¬ (k' = k ∧ s' = s) →
      (t.ifOwner k' s' f).OwnedBy k s := by
    intro k' s' f hne
    by_cases hown : t.OwnedBy k' s'
    · obtain ⟨r', hr'⟩ := hown
      rw [ifOwner_of_owned hr']
      have hk : k ≠ k' := by
        rintro rfl
        exact hne ⟨rfl, (h.unique ⟨r', hr'⟩).symm⟩
      obtain ⟨r, hr⟩ := h
      exact ⟨r, (Function.update_of_ne hk ..).trans hr⟩
    · exact (ifOwner_of_not_owned hown).symm ▸ h
  cases op with
  | reserve k' s' r' =>
      obtain ⟨r, hr⟩ := h
      simp only [Reservations.step]
      cases hk : t k' with
      | none =>
          have hne : k ≠ k' := by
            rintro rfl
            exact absurd (hk.symm.trans hr) (by simp)
          exact ⟨r, (Function.update_of_ne hne ..).trans hr⟩
      | some slot => cases slot <;> exact ⟨r, hr⟩
  | settle k' s' => exact hif hop
  | cancel k' s' => exact hif hop
  | remove k' =>
      obtain ⟨r, hr⟩ := h
      exact ⟨r, (Function.update_of_ne (Ne.symm hop) ..).trans hr⟩

/-- So it is over whole runs: the others cannot take it away. -/
theorem OwnedBy.run {k : κ} {s : σ} {ops : List (ReserveOp κ σ ρ)}
    {t t' : Reservations κ σ ρ} (h : t.OwnedBy k s)
    (hops : ∀ op ∈ ops, ¬ Ends k s op)
    (hrun : Lib.run (fun t op => some (Reservations.step t op).2) t ops =
      some t') :
    t'.OwnedBy k s := by
  refine run_induct (P := fun t => OwnedBy t k s)
    (fun t op t' hop h hstep => ?_) hops h hrun
  injection hstep with hstep
  exact hstep ▸ h.step hop

end Reservations

end Infinisql.Lib
