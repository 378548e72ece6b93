import Infinisql.Lib.RwLock
import Infinisql.Proofs.TableCells

/-!
# Row locks over whole runs

The lock of a row is three fields. `Represents d l` says which abstract lock
they spell, and the lemmas of the first half follow one row through every
call: a reader joins, a writer takes a free row, an end command by a holder
releases, and the lock fields move as the abstract lock does.

One call does not fit. `REVERTCMD` is meant to undo the staged version and
keep the lock, and for a row that is not an insert it clears the whole flag
byte, lock bit included, and leaves the holder. The row then reads as
unlocked with a holder in place, which is no shape at all. The main theorem
is exact about it: the locks keep their shapes in every state of a run
precisely when no step of the run is such a revert.
-/

namespace Infinisql.Proofs

open Infinisql.Ref Infinisql.Spec Infinisql.Lib

/-- The lock fields of `d` spell the lock `l`. -/
def Represents (d : Rowdata) : RwLock Int → Prop
  | .free => getlocktype d.flags = .noLock ∧ d.writelockHolder = 0 ∧
      d.readlockHolders = none
  | .shared holders _ => getlocktype d.flags = .readLock ∧
      d.readlockHolders = some holders ∧ d.writelockHolder = 0
  | .exclusive owner => getlocktype d.flags = .writeLock ∧
      d.writelockHolder = owner ∧ owner ≠ 0 ∧ d.readlockHolders = none

/-- The lock type bits decide which shape it can be. -/
theorem inShape_unique {d : Rowdata} {k k' : LockKind} (h : InShape k d)
    (h' : InShape k' d) : k = k' := by
  cases k <;> cases k' <;> simp_all [InShape]

theorem shaped_iff_represents {d : Rowdata} :
    Shaped d ↔ ∃ l, Represents d l := by
  constructor
  · rintro ⟨k, hk, _⟩
    cases k with
    | free => exact ⟨.free, hk⟩
    | shared =>
        obtain ⟨h1, ⟨holders, h2, h3⟩, h4⟩ := hk
        exact ⟨.shared holders h3, h1, h2, h4⟩
    | exclusive => exact ⟨.exclusive d.writelockHolder, hk.1, rfl, hk.2⟩
  · rintro ⟨l, hl⟩
    have hk : ∃ k, InShape k d := by
      cases l with
      | free => exact ⟨.free, hl⟩
      | shared holders h => exact ⟨.shared, hl.1, ⟨holders, hl.2.1, h⟩, hl.2.2⟩
      | exclusive owner =>
          obtain ⟨h1, h2, h3, h4⟩ := hl
          exact ⟨.exclusive, h1, h2 ▸ h3, h4⟩
    obtain ⟨k, hk⟩ := hk
    exact ⟨k, hk, fun k' hk' => inShape_unique hk' hk⟩

/-! ## The lock of a row, call by call -/

theorem Represents.congr {d d' : Rowdata} {l : RwLock Int}
    (h : Represents d l) (hl : getlocktype d'.flags = getlocktype d.flags)
    (hw : d'.writelockHolder = d.writelockHolder)
    (hr : d'.readlockHolders = d.readlockHolders) : Represents d' l := by
  cases l <;> simpa only [Represents, hl, hw, hr] using h

/-- The holder of the write lock is the owner of the abstract one. -/
theorem Represents.exclusive_of_writeLockedBy {d : Rowdata} {l : RwLock Int}
    {s : Int} (h : Represents d l) (hw : Table.writeLockedBy d s = true) :
    l = .exclusive s := by
  simp only [Table.writeLockedBy, Bool.and_eq_true, beq_iff_eq] at hw
  cases l with
  | free => exact absurd (h.1.symm.trans hw.1) (by simp)
  | shared => exact absurd (h.1.symm.trans hw.1) (by simp)
  | exclusive owner => rw [← h.2.1, hw.2]

theorem represents_ofHolders {d : Rowdata} {holders : Finset Int}
    (hl : getlocktype d.flags =
      if holders = ∅ then .noLock else .readLock)
    (hw : d.writelockHolder = 0)
    (hr : d.readlockHolders = if holders = ∅ then none else some holders) :
    Represents d (.ofHolders holders) := by
  rcases Finset.eq_empty_or_nonempty holders with rfl | hne
  · rw [RwLock.ofHolders_empty]
    exact ⟨by simpa using hl, hw, by simpa using hr⟩
  · rw [RwLock.ofHolders_of_nonempty hne]
    rw [if_neg hne.ne_empty] at hl hr
    exact ⟨hl, hr, hw⟩

/-- What a call on the row asks of its lock. -/
def lockOp : CellOp → RwLock Int → RwLock Int
  | .newrow s _, _ => .exclusive s
  | .select .readLock s, l => l.acquireRead s
  | .select .writeLock s, l => l.acquireWrite s
  | .finish s .commitCmd, l => l.release s
  | .finish s .rollbackCmd, l => l.release s
  | .finish s .unlockCmd, .shared holders h =>
      RwLock.release (.shared holders h) s
  | _, l => l

def CellOp.sub : CellOp → Int
  | .newrow s _ | .select _ s | .updaterow s _ | .deleterow s
  | .replacedeleterow s _ | .finish s _ => s

/-- The revert that does not keep the lock: of a held row that is not an
insert. -/
def RevertsHeld (c : Cell) (op : CellOp) : Prop :=
  ∃ s d, op = .finish s .revertCmd ∧ c.row = some d ∧
    Table.writeLockedBy d s = true ∧ getinsertflag d.flags = false

theorem represents_newrow {s : Int} {row : Bytes} (hs : s ≠ 0) :
    Represents { flags := setinsertflag (setwritelock 0#8)
                 writelockHolder := s
                 row := row } (.exclusive s) :=
  ⟨by simp, rfl, hs, rfl⟩

theorem select_represents {c c' : Cell} {d : Rowdata} {l : RwLock Int}
    {lt : Locktype} {s : Int} (hs : s ≠ 0) (hd : c.row = some d)
    (hl : Represents d l) (h : c.select lt s = some c') :
    ∃ d', c'.row = some d' ∧ Represents d' (lockOp (.select lt s) l) := by
  unfold Cell.select at h
  simp only [hd] at h
  cases l with
  | free =>
      obtain ⟨h1, h2, h3⟩ := hl
      simp only [h1] at h
      cases lt <;> injection h with h <;> subst h
      case readLock =>
        exact ⟨_, rfl, getlocktype_setreadlock _ h1, rfl, h2⟩
      case writeLock =>
        exact ⟨_, rfl, getlocktype_setwritelock _ h1, rfl, hs, h3⟩
      all_goals exact ⟨d, hd, h1, h2, h3⟩
  | shared holders hne =>
      obtain ⟨h1, h2, h3⟩ := hl
      simp only [h1, h2] at h
      cases lt
      case readLock =>
        simp only [] at h
        split at h
        · next hm =>
            injection h with h
            subst h
            refine ⟨d, hd, h1, ?_, h3⟩
            rw [h2, Finset.insert_eq_of_mem hm]
        · injection h with h
          subst h
          exact ⟨_, rfl, h1, rfl, h3⟩
      all_goals
        simp only [reduceCtorEq, if_false] at h
        injection h with h
        subst h
        exact ⟨d, hd, h1, h2, h3⟩
  | exclusive owner =>
      obtain ⟨h1, h2, h3, h4⟩ := hl
      simp only [h1] at h
      cases lt <;> injection h with h <;> subst h <;>
        exact ⟨d, hd, h1, h2, h3, h4⟩

/-- One reader fewer: what is left is the lock of the remaining holders. -/
theorem dropReader_represents {c c' : Cell} {d : Rowdata}
    {holders : Finset Int} {hne : holders.Nonempty} {s : Int}
    (hd : c.row = some d) (hl : Represents d (.shared holders hne))
    (h : c.dropReader d s = some c') :
    ∃ d', c'.row = some d' ∧ Represents d' (.ofHolders (holders.erase s)) := by
  obtain ⟨h1, h2, h3⟩ := hl
  unfold Cell.dropReader at h
  simp only [h2] at h
  split at h
  · next hm =>
      injection h with h
      subst h
      refine ⟨d, hd, ?_⟩
      rw [Finset.erase_eq_of_notMem hm, RwLock.ofHolders_of_nonempty hne]
      exact ⟨h1, h2, h3⟩
  · split at h
    · next he =>
        injection h with h
        subst h
        exact ⟨_, rfl, represents_ofHolders (by simp [he]) h3 (by simp [he])⟩
    · next he =>
        injection h with h
        subst h
        exact ⟨_, rfl, represents_ofHolders (by simp [he, h1]) h3
          (by simp [he])⟩

theorem installed_represents {c : Cell} {d : Rowdata} :
    Represents (c.installed d) .free := by
  unfold Cell.installed
  cases c.shadow <;> exact ⟨getlocktype_zero, rfl, rfl⟩

theorem not_writeLockedBy_of_represents {d : Rowdata} {l : RwLock Int}
    {s : Int} (h : Represents d l) (hw : Table.writeLockedBy d s = false) :
    l ≠ .exclusive s := by
  rintro rfl
  obtain ⟨h1, h2, _⟩ := h
  simp [Table.writeLockedBy, h1, h2] at hw

theorem commit_represents {c c' : Cell} {d d' : Rowdata} {l : RwLock Int}
    {s : Int} (hd : c.row = some d) (hl : Represents d l)
    (h : c.commit s = some c') (hd' : c'.row = some d') :
    Represents d' (l.release s) := by
  unfold Cell.commit at h
  simp only [hd] at h
  cases l with
  | free =>
      have hw : Table.writeLockedBy d s = false := by
        simp [Table.writeLockedBy, hl.1]
      simp only [hl.1, hw, Bool.not_false, if_true, reduceCtorEq,
        if_false, Option.some.injEq] at h
      rw [← h, hd] at hd'
      injection hd' with hd'
      exact hd' ▸ hl
  | shared holders hne =>
      simp only [hl.1, if_true] at h
      obtain ⟨d₁, h1, h2⟩ := dropReader_represents hd hl h
      rw [h1] at hd'
      injection hd' with hd'
      exact hd' ▸ h2
  | exclusive owner =>
      simp only [hl.1, reduceCtorEq, if_false] at h
      cases hw : Table.writeLockedBy d s with
      | false =>
          simp only [hw, Bool.not_false, if_true, Option.some.injEq] at h
          rw [← h, hd] at hd'
          injection hd' with hd'
          have hne := not_writeLockedBy_of_represents hl hw
          simp only [ne_eq, RwLock.exclusive.injEq] at hne
          rw [RwLock.release, if_neg hne]
          exact hd' ▸ hl
      | true =>
          have howner := hl.exclusive_of_writeLockedBy hw
          injection howner with howner
          rw [RwLock.release, if_pos howner]
          simp only [hw, Bool.not_true, Bool.false_eq_true, if_false] at h
          split at h
          · injection h with h
            rw [← h] at hd'
            exact absurd hd' (by simp)
          · injection h with h
            rw [← h] at hd'
            injection hd' with hd'
            exact hd' ▸ installed_represents

theorem rollback_represents {c c' : Cell} {d d' : Rowdata} {l : RwLock Int}
    {s : Int} (hd : c.row = some d) (hl : Represents d l)
    (h : c.rollback s = some c') (hd' : c'.row = some d') :
    Represents d' (l.release s) := by
  unfold Cell.rollback at h
  simp only [hd] at h
  split at h
  · next hbogus =>
      injection h with h
      rw [← h, hd] at hd'
      injection hd' with hd'
      cases l with
      | free => exact absurd (hl.1.symm.trans hbogus.2) (by simp)
      | shared => exact absurd (hl.1.symm.trans hbogus.2) (by simp)
      | exclusive owner =>
          have hne : owner ≠ s := hl.2.1 ▸ hbogus.1
          rw [RwLock.release, if_neg hne]
          exact hd' ▸ hl
  · next hbogus =>
      split at h
      · injection h with h
        rw [← h] at hd'
        exact absurd hd' (by simp)
      · simp only [Option.map_eq_some_iff] at h
        obtain ⟨holders', hh, h⟩ := h
        rw [← h] at hd'
        injection hd' with hd'
        subst hd'
        unfold Table.rollbackHolders at hh
        cases l with
        | free =>
            simp only [hl.1, hl.2.2, reduceCtorEq, if_false,
              Option.some.injEq] at hh
            exact ⟨by simp [← hh], rfl, hh.symm⟩
        | exclusive owner =>
            obtain ⟨h1, h2, h3, h4⟩ := hl
            simp only [h1, h4, reduceCtorEq, if_false, Option.some.injEq] at hh
            have howner : owner = s := by
              by_contra hne
              exact hbogus ⟨h2 ▸ hne, h1⟩
            rw [RwLock.release, if_pos howner]
            exact ⟨by simp [← hh], rfl, hh.symm⟩
        | shared holders hne =>
            simp only [hl.1, hl.2.1, if_true, Option.some.injEq] at hh
            rw [RwLock.release]
            refine represents_ofHolders ?_ rfl hh.symm
            by_cases he : holders.erase s = ∅
            · simp [he, ← hh]
            · simp [he, ← hh, getlocktype_setreadlock]

theorem unlock_represents {c c' : Cell} {d : Rowdata} {l : RwLock Int}
    {s : Int} (hd : c.row = some d) (hl : Represents d l)
    (h : c.unlock s = some c') :
    ∃ d', c'.row = some d' ∧
      Represents d' (lockOp (.finish s .unlockCmd) l) := by
  unfold Cell.unlock at h
  simp only [hd] at h
  cases l with
  | shared holders hne =>
      rw [if_neg (not_not_intro hl.1)] at h
      exact dropReader_represents hd hl h
  | free =>
      rw [if_pos (by rw [hl.1]; simp)] at h
      injection h with h
      exact ⟨d, h ▸ hd, hl⟩
  | exclusive owner =>
      rw [if_pos (by rw [hl.1]; simp)] at h
      injection h with h
      exact ⟨d, h ▸ hd, hl⟩

/-- Staging by the holder keeps the lock fields, whatever else it writes. -/
theorem ifHolder_represents {c : Cell} {d d' : Rowdata} {l : RwLock Int}
    {s : Int} {f : Rowdata → Cell} (hd : c.row = some d)
    (hl : Represents d l)
    (hf : ∀ d₁, (f d).row = some d₁ → Represents d₁ l)
    (hd' : (c.ifHolder s f).row = some d') : Represents d' l := by
  unfold Cell.ifHolder at hd'
  simp only [hd] at hd'
  split at hd'
  · exact hf d' hd'
  · rw [hd] at hd'
    injection hd' with hd'
    exact hd' ▸ hl

/-- The lock fields of a row follow the abstract lock through every call but
the revert of a held row. -/
theorem cellStep_represents {c c' : Cell} {d d' : Rowdata} {l : RwLock Int}
    {op : CellOp} (hs : CellOp.sub op ≠ 0) (hok : ¬ RevertsHeld c op)
    (hd : c.row = some d) (hl : Represents d l)
    (h : cellStep c op = some c') (hd' : c'.row = some d') :
    Represents d' (lockOp op l) := by
  cases op with
  | newrow s row =>
      injection h with h
      rw [← h] at hd'
      injection hd' with hd'
      exact hd' ▸ represents_newrow hs
  | select lt s =>
      obtain ⟨d₁, h1, h2⟩ := select_represents hs hd hl h
      rw [h1] at hd'
      injection hd' with hd'
      exact hd' ▸ h2
  | updaterow s row =>
      injection h with h
      rw [← h] at hd'
      refine ifHolder_represents hd hl (fun d₁ h1 => ?_) hd'
      rw [hd] at h1
      injection h1 with h1
      exact h1 ▸ hl
  | deleterow s =>
      injection h with h
      rw [← h] at hd'
      refine ifHolder_represents hd hl (fun d₁ h1 => ?_) hd'
      injection h1 with h1
      exact hl.congr (by simp [← h1]) (by rw [← h1]) (by rw [← h1])
  | replacedeleterow s f =>
      injection h with h
      rw [← h] at hd'
      refine ifHolder_represents hd hl (fun d₁ h1 => ?_) hd'
      injection h1 with h1
      exact hl.congr (by simp [← h1]) (by rw [← h1]) (by rw [← h1])
  | finish s cmd =>
      cases cmd with
      | commitCmd => exact commit_represents hd hl h hd'
      | rollbackCmd => exact rollback_represents hd hl h hd'
      | unlockCmd =>
          obtain ⟨d₁, h1, h2⟩ := unlock_represents hd hl h
          rw [h1] at hd'
          injection hd' with hd'
          exact hd' ▸ h2
      | revertCmd =>
          injection h with h
          unfold Cell.revert Cell.ifHolder at h
          simp only [hd] at h
          cases hw : Table.writeLockedBy d s with
          | false =>
              simp only [hw, Bool.false_eq_true, if_false] at h
              rw [← h, hd] at hd'
              injection hd' with hd'
              exact hd' ▸ hl
          | true =>
              have hins : getinsertflag d.flags = true := by
                by_contra hins
                exact hok ⟨s, d, rfl, hd, hw, by simpa using hins⟩
              simp only [hw, hins, if_true] at h
              rw [← h] at hd'
              exact absurd hd' (by simp)
      | noEngineCmd | newRow | uniqueIndex | updateRow | deleteRow
      | replaceDeleteRow | indexSearch | selectRows | searchReturn1 =>
          injection h with h
          rw [← h, hd] at hd'
          injection hd' with hd'
          exact hd' ▸ hl

/-- A row that was not there can only appear as somebody's insert. -/
theorem cellStep_row_none {c c' : Cell} {d' : Rowdata} {op : CellOp}
    (hd : c.row = none) (h : cellStep c op = some c')
    (hd' : c'.row = some d') : ∃ s row, op = .newrow s row := by
  have hsame : ∀ {x : Cell}, x = c → x = c' → False := by
    intro x h1 h2
    rw [← h2, h1, hd] at hd'
    exact absurd hd' (by simp)
  cases op with
  | newrow s row => exact ⟨s, row, rfl⟩
  | select lt s =>
      simp only [cellStep, Cell.select, hd, Option.some.injEq] at h
      exact absurd (hsame rfl h) id
  | updaterow s row =>
      simp only [cellStep, Cell.updaterow, Cell.ifHolder, hd,
        Option.some.injEq] at h
      exact absurd (hsame rfl h) id
  | deleterow s =>
      simp only [cellStep, Cell.deleterow, Cell.ifHolder, hd,
        Option.some.injEq] at h
      exact absurd (hsame rfl h) id
  | replacedeleterow s f =>
      simp only [cellStep, Cell.replacedeleterow, Cell.ifHolder, hd,
        Option.some.injEq] at h
      exact absurd (hsame rfl h) id
  | finish s cmd =>
      cases cmd <;>
        simp only [cellStep, Cell.finish, Cell.commit, Cell.rollback,
          Cell.unlock, Cell.revert, Cell.ifHolder, hd, Option.some.injEq,
          reduceCtorEq] at h
      all_goals exact absurd (hsame rfl h) id

/-! ## The shape of a row, step by step -/

def LockOk (c : Cell) : Prop := ∀ d, c.row = some d → Shaped d

theorem cellStep_lockOk {c c' : Cell} {op : CellOp}
    (hs : CellOp.sub op ≠ 0) (hok : ¬ RevertsHeld c op) (hc : LockOk c)
    (h : cellStep c op = some c') : LockOk c' := by
  intro d' hd'
  rw [shaped_iff_represents]
  cases hd : c.row with
  | none =>
      obtain ⟨s, row, rfl⟩ := cellStep_row_none hd h hd'
      injection h with h
      rw [← h] at hd'
      injection hd' with hd'
      exact ⟨_, hd' ▸ represents_newrow hs⟩
  | some d =>
      obtain ⟨l, hl⟩ := shaped_iff_represents.mp (hc d hd)
      exact ⟨_, cellStep_represents hs hok hd hl h hd'⟩

/-- The other revert leaves a holder under a cleared flag byte. -/
theorem cellStep_revert_not_lockOk {c c' : Cell} {op : CellOp}
    (hs : CellOp.sub op ≠ 0) (hbad : RevertsHeld c op)
    (h : cellStep c op = some c') : ¬ LockOk c' := by
  obtain ⟨s, d, rfl, hd, hw, hins⟩ := hbad
  injection h with h
  unfold Cell.revert Cell.ifHolder at h
  simp only [hd, hw, hins, if_true, Bool.false_eq_true, if_false] at h
  intro hc
  have hholder : d.writelockHolder = s := by
    simp only [Table.writeLockedBy, Bool.and_eq_true, beq_iff_eq] at hw
    exact hw.2
  obtain ⟨l, hl⟩ := shaped_iff_represents.mp
    (hc { d with flags := 0#8 } (by rw [← h]))
  cases l with
  | free => exact hs (hholder.symm.trans hl.2.1)
  | shared => exact absurd (getlocktype_zero.symm.trans hl.1) (by simp)
  | exclusive => exact absurd (getlocktype_zero.symm.trans hl.1) (by simp)

/-! ## Whole runs -/

/-- Every row's lock is in exactly one shape, and two subtransactions hold it
at once only as readers. -/
def RowLocksOk (t : Table) : Prop :=
  ∀ r a, t.rows r = some a → Shaped (t.heap a) ∧
    ∀ s s', s ≠ s' → Spec.Holds (t.heap a) s → Spec.Holds (t.heap a) s' →
      HoldsRead (t.heap a) s ∧ HoldsRead (t.heap a) s'

/-- A `REVERTCMD` by the holder of a row's write lock finds an insert. -/
def RevertsInsert (t : Table) (op : TableOp) : Prop :=
  ∀ r s a, op = .commitRollbackUnlock r s .revertCmd → t.rows r = some a →
    Table.writeLockedBy (t.heap a) s = true →
    getinsertflag (t.heap a).flags = true

theorem holds_of_represents {d : Rowdata} {l : RwLock Int} {s : Int}
    (hl : Represents d l) :
    (HoldsRead d s ↔ l.Reads s) ∧ (HoldsWrite d s ↔ l.Writes s) := by
  cases l with
  | free => simp [HoldsRead, HoldsWrite, RwLock.Reads, RwLock.Writes, hl.1]
  | shared holders hne =>
      simp [HoldsRead, HoldsWrite, RwLock.Reads, RwLock.Writes, hl.1, hl.2.1]
  | exclusive owner =>
      simp [HoldsRead, HoldsWrite, RwLock.Reads, RwLock.Writes, hl.1, hl.2.1]

/-- The exclusion half comes with the shape. -/
theorem rowLocksOk_iff_cells {t : Table} :
    RowLocksOk t ↔ ∀ r, LockOk (cell t r) := by
  constructor
  · intro h r d hd
    simp only [cell, Option.map_eq_some_iff] at hd
    obtain ⟨a, ha, rfl⟩ := hd
    exact (h r a ha).1
  · intro h r a ha
    have hshape : Shaped (t.heap a) := h r _ (cell_row_some ha)
    refine ⟨hshape, fun s s' hne hh hh' => ?_⟩
    obtain ⟨l, hl⟩ := shaped_iff_represents.mp hshape
    have hs := holds_of_represents (s := s) hl
    have hs' := holds_of_represents (s := s') hl
    have hboth := RwLock.reads_of_holds_of_ne hne
      (hh.imp hs.1.mp hs.2.mp) (hh'.imp hs'.1.mp hs'.2.mp)
    exact ⟨hs.1.mpr hboth.1, hs'.1.mpr hboth.2⟩

theorem sub_of_mem_cellOps {r : Int} {op : TableOp} {cop : CellOp}
    (h : cop ∈ cellOps r op) : CellOp.sub cop = op.sub := by
  cases op <;> simp only [cellOps] at h
  case selectrows =>
    obtain ⟨_, _, rfl⟩ := List.mem_map.mp h
    rfl
  all_goals
    split at h
    · rw [List.mem_singleton.mp h]
      rfl
    · exact absurd h List.not_mem_nil

theorem step_rowLocksOk {t t' : Table} {op : TableOp} (hsep : Sep t)
    (hs : op.sub ≠ 0) (hok : RevertsInsert t op) (ht : RowLocksOk t)
    (h : t.step op = some t') : RowLocksOk t' := by
  rw [rowLocksOk_iff_cells] at ht ⊢
  intro r
  have hrun := (step_refines hsep h).2 r
  by_cases hrev : ∃ s, op = .commitRollbackUnlock r s .revertCmd
  · obtain ⟨s, rfl⟩ := hrev
    simp only [cellOps, if_true] at hrun
    obtain ⟨c₁, h1, h2⟩ := run_cons.mp hrun
    injection h2 with h2
    refine cellStep_lockOk (by exact hs) ?_ (ht r) (h2 ▸ h1)
    rintro ⟨s', d, hop, hd, hw, hins⟩
    simp only [CellOp.finish.injEq, and_true] at hop
    subst hop
    simp only [cell, Option.map_eq_some_iff] at hd
    obtain ⟨a, ha, rfl⟩ := hd
    rw [hok r s a rfl ha hw] at hins
    exact absurd hins (by simp)
  · refine run_induct (Q := fun cop => CellOp.sub cop ≠ 0 ∧
      ∀ s, cop ≠ .finish s .revertCmd) ?_ ?_ (ht r) hrun
    · rintro c cop c' ⟨hsub, hne⟩ hc hstep
      refine cellStep_lockOk hsub ?_ hc hstep
      rintro ⟨s, d, rfl, _⟩
      exact hne s rfl
    · intro cop hcop
      refine ⟨by rw [sub_of_mem_cellOps hcop]; exact hs, fun s hcs => ?_⟩
      exact hrev ⟨s, finish_of_mem_cellOps (hcs ▸ hcop)⟩

/-- A revert of a held row that is not an insert breaks the row's shape. -/
theorem revertsInsert_of_rowLocksOk {t t' : Table} {op : TableOp}
    (hsep : Sep t) (hs : op.sub ≠ 0) (h : t.step op = some t')
    (ht' : RowLocksOk t') : RevertsInsert t op := by
  intro r s a hop ha hw
  subst hop
  by_contra hins
  have hrun := (step_refines hsep h).2 r
  simp only [cellOps, if_true] at hrun
  obtain ⟨c₁, h1, h2⟩ := run_cons.mp hrun
  injection h2 with h2
  have hbad : RevertsHeld (cell t r) (.finish s .revertCmd) :=
    ⟨s, t.heap a, rfl, cell_row_some ha, hw, by simpa using hins⟩
  exact cellStep_revert_not_lockOk (by exact hs) hbad (h2 ▸ h1)
    (rowLocksOk_iff_cells.mp ht' r)

/-- Over every run of a table by any number of subtransactions with nonzero
ids: the row locks are sound in every state reached if and only if no step
reverts a held row that is not an insert. -/
theorem rowLocksOk_iff_revertsInsert {idarg nextrowid : Int}
    {ops : List TableOp} (hids : ∀ op ∈ ops, op.sub ≠ 0) :
    AllStates Table.step RowLocksOk (Table.new idarg nextrowid) ops ↔
      AllSteps Table.step RevertsInsert (Table.new idarg nextrowid) ops := by
  refine allStates_iff_allSteps (J := Sep) (Q := fun op => op.sub ≠ 0)
    (fun t op t' _ hsep h => (step_refines hsep h).1) ?_ hids
    (sep_new idarg nextrowid) ?_
  · intro t op t' hs hsep ht h
    exact ⟨revertsInsert_of_rowLocksOk hsep hs h,
      fun hok => step_rowLocksOk hsep hs hok ht h⟩
  · intro r a ha
    exact absurd ha (by simp [Table.new])

/-- Insert row 1, commit it, lock it again, revert: the row reads unlocked
and subtransaction 7 is still its holder. -/
def revertRun : List TableOp :=
  [.newrow 1 7 [], .commitRollbackUnlock 1 7 .commitCmd,
    .selectrows [1] .writeLock 7 1 1, .commitRollbackUnlock 1 7 .revertCmd]

/-- Ending calls name rows that are in the table. -/
def EndsPresent (t : Table) (op : TableOp) : Prop :=
  ∀ r s cmd, op = .commitRollbackUnlock r s cmd → t.rows r ≠ none

theorem revertRun_endsPresent :
    AllSteps Table.step EndsPresent (Table.new 1 0) revertRun := by
  refine .cons rfl ?_ (.cons rfl ?_ (.cons rfl ?_ (.cons rfl ?_ trivial))) <;>
    intro r s cmd hop <;> cases hop <;> decide

theorem revertRun_not_rowLocksOk :
    ¬ (∀ idarg nextrowid ops, (∀ op ∈ ops, op.sub ≠ 0) →
      AllSteps Table.step EndsPresent (Table.new idarg nextrowid) ops →
      AllStates Table.step RowLocksOk (Table.new idarg nextrowid) ops) := by
  intro h
  have hall := h 1 0 revertRun (by decide) revertRun_endsPresent
  have hlast := allStates_iff_run.mp hall revertRun (List.prefix_refl _) _ rfl
  obtain ⟨k, hk, _⟩ := (hlast 1 0 rfl).1
  cases k with
  | free => exact absurd hk.2.1 (by decide)
  | shared => exact absurd hk.1 (by decide)
  | exclusive => exact absurd hk.1 (by decide)

theorem rowLocksOk_iff_revertsInsert_revertRun :
    AllStates Table.step RowLocksOk (Table.new 1 0) revertRun ↔
      AllSteps Table.step RevertsInsert (Table.new 1 0) revertRun :=
  rowLocksOk_iff_revertsInsert (by decide)

end Infinisql.Proofs
