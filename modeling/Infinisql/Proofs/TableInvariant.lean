import Infinisql.Proofs.TableLocks

/-!
# The lock invariant

`LockInv` is what holds between calls: the objects of the rows are apart,
every lock has a shape, and staged versions, delete flags and forwarding
addresses are found only on rows that somebody has write-locked. The
theorems about commit and rollback start from an arbitrary table that
satisfies it, and this file shows that every run gets there. Two steps are
left out. One is the revert of a held row that is not an insert, which
breaks the lock's shape. The other is a `newrow` on a rowid that is still in
use, which no caller does: the rowids come from `getnextrowid`.
-/

namespace Infinisql.Proofs

open Infinisql.Ref Infinisql.Spec Infinisql.Lib

/-! ## The invariant of a row -/

/-- What is staged on a row, and where it may be found. Nothing is staged on
a row that is absent or that nobody has write-locked. -/
structure StagingInv (c : Cell) : Prop where
  absent : c.row = none → c.shadow = .absent
  unlocked : ∀ {d}, c.row = some d → getlocktype d.flags ≠ .writeLock →
    c.shadow = .absent ∧ getinsertflag d.flags = false ∧
      getdeleteflag d.flags = false
  inserted : ∀ {d}, c.row = some d → getinsertflag d.flags = true →
    c.shadow ≠ .absent
  aliased : ∀ {d}, c.row = some d → c.shadow = .same →
    getinsertflag d.flags = true
  replaced : ∀ {d}, c.row = some d → getreplacedeleteflag d.flags = true →
    getdeleteflag d.flags = true
  forwarded : ∀ {d}, c.row = some d → c.forwarder ≠ none →
    getreplacedeleteflag d.flags = true

/-- A sound row: its lock has a shape, and its staging is in order. -/
structure CellInv (c : Cell) : Prop extends StagingInv c where
  shape : ∀ {d}, c.row = some d → Shaped d

structure LockInv (t : Table) : Prop where
  sep : Sep t
  cells : ∀ r, CellInv (cell t r)

theorem stagingInv_of_row_none {c : Cell} (hrow : c.row = none)
    (hshadow : c.shadow = .absent) : StagingInv c where
  absent _ := hshadow
  unlocked hd := by simp [hrow] at hd
  inserted hd := by simp [hrow] at hd
  aliased hd := by simp [hrow] at hd
  replaced hd := by simp [hrow] at hd
  forwarded hd := by simp [hrow] at hd

/-- A row with nothing staged. -/
theorem stagingInv_of_settled {c : Cell} {d : Rowdata} (hd : c.row = some d)
    (hshadow : c.shadow = .absent) (hins : getinsertflag d.flags = false)
    (hdel : getdeleteflag d.flags = false)
    (hrep : getreplacedeleteflag d.flags = false)
    (hfwd : c.forwarder = none) : StagingInv c := by
  refine ⟨fun _ => hshadow, fun hd' _ => ?_, fun hd' hi => ?_, fun hd' hi => ?_,
    fun hd' hi => ?_, fun _ hf => absurd hfwd hf⟩
  · obtain rfl := Option.some.inj (hd.symm.trans hd')
    exact ⟨hshadow, hins, hdel⟩
  · obtain rfl := Option.some.inj (hd.symm.trans hd')
    rw [hins] at hi
    exact absurd hi (by simp)
  · rw [hshadow] at hi
    exact absurd hi (by simp)
  · obtain rfl := Option.some.inj (hd.symm.trans hd')
    rw [hrep] at hi
    exact absurd hi (by simp)

/-- On a row that nobody writes there is nothing, so there is no forwarder. -/
theorem StagingInv.settled_of_unlocked {c : Cell} {d : Rowdata}
    (hc : StagingInv c) (hd : c.row = some d)
    (hl : getlocktype d.flags ≠ .writeLock) :
    getreplacedeleteflag d.flags = false ∧ c.forwarder = none := by
  have hrep : getreplacedeleteflag d.flags = false := by
    by_contra h
    have hdel := hc.replaced hd (by simpa using h)
    rw [(hc.unlocked hd hl).2.2] at hdel
    exact absurd hdel (by simp)
  refine ⟨hrep, ?_⟩
  by_contra hf
  have := hc.forwarded hd hf
  rw [hrep] at this
  exact absurd this (by simp)

theorem StagingInv.relocked {c c' : Cell} {d : Rowdata} (hc : StagingInv c)
    (hd : c.row = some d) (hl : getlocktype d.flags ≠ .writeLock)
    (hrel : Relocked c c') : StagingInv c' := by
  obtain ⟨h1, h2, h3⟩ := hc.unlocked hd hl
  obtain ⟨h4, h5⟩ := hc.settled_of_unlocked hd hl
  obtain ⟨d', hd', hsame⟩ := hrel.rowSome hd
  exact stagingInv_of_settled hd' (hrel.shadow.trans h1)
    (hsame.insertflag.trans h2) (hsame.deleteflag.trans h3)
    (hsame.replaceflag.trans h4) (hrel.forwarder.trans h5)

theorem StagingInv.select {c c' : Cell} {lt : Locktype} {s : Int}
    (hc : StagingInv c) (h : c.select lt s = some c') : StagingInv c' := by
  have hrel := select_relocked h
  cases hd : c.row with
  | none =>
      exact stagingInv_of_row_none (hrel.rowNone hd)
        (hrel.shadow.trans (hc.absent hd))
  | some d =>
      by_cases hl : getlocktype d.flags = .writeLock
      · exact select_of_writeLock hd hl h ▸ hc
      · exact hc.relocked hd hl hrel

/-- Staging by the holder: the row keeps its object up to the delete flags. -/
theorem StagingInv.ifHolder {c : Cell} {s : Int} {f : Rowdata → Cell}
    (hc : StagingInv c) (hf : ∀ d, c.row = some d →
      getlocktype d.flags = .writeLock → StagingInv (f d)) :
    StagingInv (c.ifHolder s f) := by
  unfold Cell.ifHolder
  split
  · exact hc
  · next d hd =>
      split
      · next hw => exact hf d hd (writeLockedBy_iff.mp hw).1
      · exact hc

theorem StagingInv.updaterow {c : Cell} {s : Int} {row : Bytes}
    (hc : StagingInv c) : StagingInv (c.updaterow s row) := by
  refine hc.ifHolder fun d hd hl => ⟨fun h => ?_, fun hd' hn => ?_,
    fun _ _ => by simp, fun _ h => absurd h (by simp), hc.replaced,
    hc.forwarded⟩
  · rw [hd] at h
    exact absurd h (by simp)
  · obtain rfl := Option.some.inj (hd.symm.trans hd')
    exact absurd hl hn

theorem StagingInv.flagDeleted {c : Cell} {d : Rowdata} {fl : Flags}
    {f : Option ForwarderEntry} (hc : StagingInv c) (hd : c.row = some d)
    (hl : getlocktype d.flags = .writeLock)
    (hlock : getlocktype fl = getlocktype d.flags)
    (hins : getinsertflag fl = getinsertflag d.flags)
    (hdel : getdeleteflag fl = true)
    (hfwd : f ≠ none → getreplacedeleteflag fl = true) :
    StagingInv ⟨some { d with flags := fl }, c.shadow, f⟩ := by
  refine ⟨fun h => absurd h (by simp), fun hd' hn => ?_, fun hd' hi => ?_,
    fun hd' hs => ?_, fun hd' _ => ?_, fun hd' hf => ?_⟩ <;>
    injection hd' with hd' <;> subst hd'
  · exact absurd (hlock.trans hl) hn
  · exact hc.inserted hd (hins ▸ hi)
  · exact hins.trans (hc.aliased hd hs)
  · exact hdel
  · exact hfwd hf

theorem StagingInv.commit {c c' : Cell} {s : Int} (hc : StagingInv c)
    (h : c.commit s = some c') : StagingInv c' := by
  cases hd : c.row with
  | none => simp [Cell.commit, hd] at h
  | some d =>
      by_cases hw : Table.writeLockedBy d s = true
      · rcases commit_of_held hd hw h with ⟨_, rfl⟩ | ⟨hdel, rfl⟩
        · exact stagingInv_of_row_none rfl rfl
        · have hfwd : c.forwarder = none := by
            by_contra hf
            have := hc.replaced hd (hc.forwarded hd hf)
            rw [hdel] at this
            exact absurd this (by simp)
          refine stagingInv_of_settled rfl rfl ?_ ?_ ?_ hfwd <;>
            unfold Cell.installed <;> split <;> simp
      · rcases commit_of_not_held hd hw h with rfl | ⟨hl, hdrop⟩
        · exact hc
        · exact hc.relocked hd (by simp [hl]) (dropReader_relocked hd hdrop)

theorem StagingInv.rollback {c c' : Cell} {s : Int} (hc : StagingInv c)
    (h : c.rollback s = some c') : StagingInv c' := by
  cases hd : c.row with
  | none =>
      simp only [Cell.rollback, hd, Option.some.injEq] at h
      exact h ▸ hc
  | some d =>
      rcases rollback_cases hd h with ⟨_, rfl⟩ |
        ⟨_, ⟨_, rfl⟩ | ⟨_, holders, _, rfl⟩⟩
      · exact hc
      · exact stagingInv_of_row_none rfl rfl
      · refine stagingInv_of_settled rfl rfl ?_ ?_ ?_ ?_
        · cases holders <;> simp
        · cases holders <;> simp
        · cases holders <;> simp
        · show (if (getdeleteflag d.flags && getreplacedeleteflag d.flags) = true
            then none else c.forwarder) = none
          split
          · rfl
          · next hflags =>
              by_contra hf
              have hrep := hc.forwarded hd hf
              exact hflags (by simp [hrep, hc.replaced hd hrep])

theorem StagingInv.unlock {c c' : Cell} {s : Int} (hc : StagingInv c)
    (h : c.unlock s = some c') : StagingInv c' := by
  unfold Cell.unlock at h
  cases hd : c.row with
  | none => simp [hd] at h
  | some d =>
      simp only [hd] at h
      split at h
      · injection h with h
        exact h ▸ hc
      · next hl =>
          have hl := not_not.mp hl
          exact hc.relocked hd (by simp [hl]) (dropReader_relocked hd h)

theorem StagingInv.revert {c : Cell} {s : Int} (hc : StagingInv c) :
    StagingInv (c.revert s) := by
  refine hc.ifHolder fun d _ _ => ?_
  split
  · exact stagingInv_of_row_none rfl rfl
  · exact stagingInv_of_settled rfl rfl (by simp) (by simp) (by simp) rfl

/-- A row may be inserted under a rowid that is not in use. -/
def NewrowFree (c : Cell) (op : CellOp) : Prop :=
  ∀ s row, op = .newrow s row → c.row = none ∧ c.forwarder = none

theorem cellStep_stagingInv {c c' : Cell} {op : CellOp}
    (hnew : NewrowFree c op) (hc : StagingInv c)
    (h : cellStep c op = some c') : StagingInv c' := by
  cases op with
  | newrow s row =>
      injection h with h
      subst h
      refine ⟨fun h => absurd h (by simp [Cell.newrow]), fun hd hl => ?_,
        fun _ _ => by simp [Cell.newrow], fun hd _ => ?_, fun hd hr => ?_,
        fun _ hf => absurd (hnew s row rfl).2 hf⟩ <;>
        injection hd with hd <;> subst hd
      · exact absurd (by simp) hl
      · simp
      · exact absurd hr (by simp)
  | select lt s => exact hc.select h
  | updaterow s row =>
      injection h with h
      exact h ▸ hc.updaterow
  | deleterow s =>
      injection h with h
      refine h ▸ hc.ifHolder fun d hd hl =>
        hc.flagDeleted hd hl (by simp) (by simp) (by simp) fun hf => ?_
      simpa using hc.forwarded hd hf
  | replacedeleterow s f =>
      injection h with h
      exact h ▸ hc.ifHolder fun d hd hl =>
        hc.flagDeleted hd hl (by simp) (by simp) (by simp) fun _ => by simp
  | finish s cmd =>
      cases cmd with
      | commitCmd => exact hc.commit h
      | rollbackCmd => exact hc.rollback h
      | unlockCmd => exact hc.unlock h
      | revertCmd =>
          injection h with h
          exact h ▸ hc.revert
      | noEngineCmd | newRow | uniqueIndex | updateRow | deleteRow
      | replaceDeleteRow | indexSearch | selectRows | searchReturn1 =>
          injection h with h
          exact h ▸ hc

/-! ## Whole runs -/

/-- A `newrow` gets a rowid that is not in use. -/
def NewrowOnFree (t : Table) (op : TableOp) : Prop :=
  ∀ r s row, op = .newrow r s row →
    t.rows r = none ∧ t.forwarderMap r = none

theorem step_stagingInv {t t' : Table} {op : TableOp} {r : Int}
    (hsep : Sep t) (hnew : NewrowOnFree t op) (hc : StagingInv (cell t r))
    (h : t.step op = some t') : StagingInv (cell t' r) := by
  refine run_cellOps_induct (fun _ hc hsel => hc.select hsel) ?_ hc
    ((step_refines hsep h).2 r)
  intro cop c₁ hcop hstep
  refine cellStep_stagingInv (fun s row hop => ?_) hc hstep
  subst hop
  obtain ⟨h1, h2⟩ := hnew r s row (newrow_of_mem_cellOps hcop)
  exact ⟨cell_row_none h1, h2⟩

theorem step_lockInv {t t' : Table} {op : TableOp} (hs : op.sub ≠ 0)
    (hrev : RevertsInsert t op) (hnew : NewrowOnFree t op) (ht : LockInv t)
    (h : t.step op = some t') : LockInv t' := by
  refine ⟨(step_refines ht.sep h).1, fun r => ?_⟩
  have hstaging := step_stagingInv ht.sep hnew (ht.cells r).toStagingInv h
  have hlocks := step_rowLocksOk ht.sep hs hrev
    (rowLocksOk_iff_cells.mpr fun r _ hd => (ht.cells r).shape hd) h
  exact ⟨hstaging, fun hd => rowLocksOk_iff_cells.mp hlocks r _ hd⟩

theorem lockInv_new {i n : Int} : LockInv (.new i n) where
  sep := sep_new i n
  cells _ := ⟨stagingInv_of_row_none rfl rfl, fun hd => absurd hd (by
    simp [cell, Table.new])⟩

/-- Every state of a run that uses each rowid once and reverts only inserts
satisfies the lock invariant. -/
theorem lockInv_of_run {idarg nextrowid : Int} {ops : List TableOp}
    {t : Table} (hok : AllSteps Table.step
      (fun t op => (RevertsInsert t op ∧ NewrowOnFree t op) ∧ op.sub ≠ 0)
      (.new idarg nextrowid) ops)
    (hrun : run Table.step (.new idarg nextrowid) ops = some t) :
    LockInv t :=
  hok.run_induct (fun _ _ _ h ht hstep => step_lockInv h.2 h.1.1 h.1.2 ht hstep)
    lockInv_new hrun

/-! ## Readers

A rollback rebuilds the lock from the set of holders, so it matters that a
row without a read lock has none. Reverts included, every call keeps that. -/

def ReadersInv (c : Cell) : Prop :=
  ∀ d, c.row = some d → getlocktype d.flags ≠ .readLock →
    d.readlockHolders = none

theorem readersInv_of_shaped {c : Cell}
    (hc : ∀ d, c.row = some d → Shaped d) : ReadersInv c := by
  intro d hd hl
  obtain ⟨l, hl'⟩ := shaped_iff_represents.mp (hc d hd)
  cases l with
  | free => exact hl'.2.2
  | shared => exact absurd hl'.1 hl
  | exclusive => exact hl'.2.2.2

theorem ReadersInv.dropReader {c c' : Cell} {d : Rowdata} {s : Int}
    (hc : ReadersInv c) (h : c.dropReader d s = some c')
    (hl : getlocktype d.flags = .readLock) : ReadersInv c' := by
  unfold Cell.dropReader at h
  split at h
  · exact absurd h (by simp)
  · split at h
    · injection h with h
      exact h ▸ hc
    · split at h <;> injection h with h <;> subst h <;> intro d' hd' hl' <;>
        injection hd' with hd' <;> subst hd'
      · rfl
      · exact absurd hl hl'

theorem ReadersInv.select {c c' : Cell} {lt : Locktype} {s : Int}
    (hc : ReadersInv c) (h : c.select lt s = some c') : ReadersInv c' := by
  unfold Cell.select at h
  cases hd : c.row with
  | none =>
      simp only [hd, Option.some.injEq] at h
      exact h ▸ hc
  | some d =>
      simp only [hd] at h
      split at h
      · split at h
        · exact absurd h (by simp)
        · injection h with h
          exact h ▸ hc
      · next hl =>
          injection h with h
          subst h
          intro d' hd' hl'
          injection hd' with hd'
          subst hd'
          exact absurd (getlocktype_setreadlock _ hl) hl'
      · next hl =>
          split at h
          · exact absurd h (by simp)
          · split at h <;> injection h with h
            · exact h ▸ hc
            · subst h
              intro d' hd' hl'
              injection hd' with hd'
              subst hd'
              exact absurd hl hl'
      · next hl =>
          injection h with h
          subst h
          intro d' hd' _
          injection hd' with hd'
          subst hd'
          exact hc d hd (by simp [hl])
      · injection h with h
        exact h ▸ hc

theorem ReadersInv.ifHolder {c : Cell} {s : Int} {f : Rowdata → Cell}
    (hc : ReadersInv c)
    (hf : ∀ d d', c.row = some d → getlocktype d.flags = .writeLock →
      (f d).row = some d' → d'.readlockHolders = d.readlockHolders) :
    ReadersInv (c.ifHolder s f) := by
  unfold Cell.ifHolder
  split
  · exact hc
  · next d hd =>
      split
      · next hw =>
          have hl := (writeLockedBy_iff.mp hw).1
          intro d' hd' _
          exact (hf d d' hd hl hd').trans (hc d hd (by simp [hl]))
      · exact hc

theorem ReadersInv.finish {c c' : Cell} {s : Int} {cmd : Enginecmd}
    (hc : ReadersInv c) (h : c.finish s cmd = some c') : ReadersInv c' := by
  cases hd : c.row with
  | none =>
      cases cmd <;> simp only [Cell.finish, Cell.commit, Cell.rollback,
        Cell.unlock, Cell.revert, Cell.ifHolder, hd, Option.some.injEq,
        reduceCtorEq] at h
      all_goals exact h ▸ hc
  | some d =>
      cases cmd with
      | commitCmd =>
          by_cases hw : Table.writeLockedBy d s = true
          · rcases commit_of_held hd hw h with ⟨_, rfl⟩ | ⟨_, rfl⟩
            · exact fun d' hd' => absurd hd' (by simp)
            · intro d' hd' _
              injection hd' with hd'
              rw [← hd']
              unfold Cell.installed
              split <;> rfl
          · rcases commit_of_not_held hd hw h with rfl | ⟨hl, hdrop⟩
            · exact hc
            · exact hc.dropReader hdrop hl
      | rollbackCmd =>
          rcases rollback_cases hd h with ⟨_, rfl⟩ |
            ⟨_, ⟨_, rfl⟩ | ⟨_, holders, _, rfl⟩⟩
          · exact hc
          · exact fun d' hd' => absurd hd' (by simp)
          · intro d' hd' hl'
            injection hd' with hd'
            subst hd'
            cases holders <;> simp at hl' ⊢
      | unlockCmd =>
          simp only [Cell.finish, Cell.unlock, hd] at h
          split at h
          · injection h with h
            exact h ▸ hc
          · next hl => exact hc.dropReader h (not_not.mp hl)
      | revertCmd =>
          injection h with h
          refine h ▸ hc.ifHolder fun d d' _ _ hd' => ?_
          simp only [] at hd'
          split at hd'
          · exact absurd hd' (by simp)
          · injection hd' with hd'
            rw [← hd']
      | noEngineCmd | newRow | uniqueIndex | updateRow | deleteRow
      | replaceDeleteRow | indexSearch | selectRows | searchReturn1 =>
          injection h with h
          exact h ▸ hc

theorem cellStep_readersInv {c c' : Cell} {op : CellOp} (hc : ReadersInv c)
    (h : cellStep c op = some c') : ReadersInv c' := by
  cases op with
  | newrow s row =>
      injection h with h
      subst h
      intro d hd _
      injection hd with hd
      rw [← hd]
  | select lt s => exact hc.select h
  | updaterow s row =>
      injection h with h
      refine h ▸ hc.ifHolder fun d d' hd _ hd' => ?_
      obtain rfl := Option.some.inj (hd.symm.trans hd')
      rfl
  | deleterow s =>
      injection h with h
      refine h ▸ hc.ifHolder fun d d' _ _ hd' => ?_
      injection hd' with hd'
      rw [← hd']
  | replacedeleterow s f =>
      injection h with h
      refine h ▸ hc.ifHolder fun d d' _ _ hd' => ?_
      injection hd' with hd'
      rw [← hd']
  | finish s cmd => exact hc.finish h

theorem step_readersInv {t t' : Table} {op : TableOp} {r : Int} (hsep : Sep t)
    (hc : ReadersInv (cell t r)) (h : t.step op = some t') :
    ReadersInv (cell t' r) :=
  run_induct (P := ReadersInv) (Q := fun _ => True)
    (fun _ _ _ _ hc hstep => cellStep_readersInv hc hstep)
    (fun _ _ => trivial) hc ((step_refines hsep h).2 r)

end Infinisql.Proofs
