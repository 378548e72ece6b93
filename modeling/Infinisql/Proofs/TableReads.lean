import Infinisql.Proofs.TableCells
import Infinisql.Spec.History

/-!
# What a select may return

The invariant that ties a row to its history has two sides. A row that is
not an insert holds, in `rows`, what was last committed: staging writes to
the shadow. A row that is an insert holds a write of its inserter, who has
it write-locked. The rest of `HistInv` is what a commit needs, namely that
the staged object is the last write.

So every read of a row that is not an insert is clean, and so is every read
under a lock, because a lock is only granted on a row that is not write
locked or that the caller already has. What is left is the `NOLOCK` select,
which neither asks for a lock nor looks at the insert flag. It returns the
uncommitted insert of another subtransaction, and the main theorem says
that this is the only dirty read there is.
-/

namespace Infinisql.Proofs

open Infinisql.Ref Infinisql.Spec Infinisql.Lib

/-- The write a commit of the row would install, if any. -/
def staged (c : Cell) (d : Rowdata) : Option (Option Bytes) :=
  match c.shadow with
  | .absent => none
  | .same => some (some d.row)
  | .copy sh => some (some sh.row)

/-- A present row and its history. -/
structure HistInv (c : Cell) (h : History) : Prop where
  inserted : ∀ {d}, c.row = some d → getinsertflag d.flags = true →
    getlocktype d.flags = .writeLock ∧ h.writer = d.writelockHolder ∧
      some d.row ∈ h.writes ∧ c.shadow ≠ .absent
  settled : ∀ {d}, c.row = some d → getinsertflag d.flags = false →
    h.committed = some d.row
  unlocked : ∀ {d}, c.row = some d → getlocktype d.flags ≠ .writeLock →
    c.shadow = .absent ∧ h.writes = [] ∧ getdeleteflag d.flags = false
  pending : ∀ {d}, c.row = some d → getlocktype d.flags = .writeLock →
    getdeleteflag d.flags = false → h.writes.head? = staged c d

theorem HistInv.of_row_none {c : Cell} {h : History} (hc : c.row = none) :
    HistInv c h where
  inserted hd := by simp [hc] at hd
  settled hd := by simp [hc] at hd
  unlocked hd := by simp [hc] at hd
  pending hd := by simp [hc] at hd

theorem HistInv.newrow {c : Cell} {h : History} {s : Int} {row : Bytes} :
    HistInv (c.newrow s row) (h.note c (.newrow s row)) where
  inserted hd _ := by
    injection hd with hd
    subst hd
    exact ⟨by simp, rfl, by simp [History.note], by simp [Cell.newrow]⟩
  settled hd hins := by
    injection hd with hd
    subst hd
    exact absurd hins (by simp)
  unlocked hd hl := by
    injection hd with hd
    subst hd
    exact absurd (by simp) hl
  pending hd _ _ := by
    injection hd with hd
    subst hd
    rfl

/-- A row that is as committed, with nothing pending. -/
theorem HistInv.of_settled {c : Cell} {h : History} {d : Rowdata}
    (hd : c.row = some d) (hshadow : c.shadow = .absent)
    (hins : getinsertflag d.flags = false)
    (hdel : getdeleteflag d.flags = false)
    (hcom : h.committed = some d.row) (hw : h.writes = []) : HistInv c h := by
  refine ⟨fun hd' hi => ?_, fun hd' _ => ?_, fun hd' _ => ?_,
    fun hd' _ _ => ?_⟩ <;> obtain rfl := Option.some.inj (hd.symm.trans hd')
  · rw [hins] at hi
    exact absurd hi (by simp)
  · exact hcom
  · exact ⟨hshadow, hw, hdel⟩
  · simp [staged, hshadow, hw]

/-- A row that nobody writes is settled. -/
theorem HistInv.insertflag_of_unlocked {c : Cell} {h : History} {d : Rowdata}
    (hc : HistInv c h) (hd : c.row = some d)
    (hl : getlocktype d.flags ≠ .writeLock) :
    getinsertflag d.flags = false := by
  cases hi : getinsertflag d.flags with
  | false => rfl
  | true => exact absurd (hc.inserted hd hi).1 hl

/-- The lock of a row that nobody writes may change at will. -/
theorem HistInv.relocked {c c' : Cell} {h : History} {d : Rowdata}
    (hc : HistInv c h) (hd : c.row = some d)
    (hl : getlocktype d.flags ≠ .writeLock) (hrel : Relocked c c') :
    HistInv c' h := by
  obtain ⟨h1, h2, h3⟩ := hc.unlocked hd hl
  have hi := hc.insertflag_of_unlocked hd hl
  obtain ⟨d', hd', hsame⟩ := hrel.rowSome hd
  refine .of_settled hd' (hrel.shadow.trans h1) (hsame.insertflag.trans hi)
    (hsame.deleteflag.trans h3) ?_ h2
  rw [hsame.row]
  exact hc.settled hd hi

/-- A select changes the lock of a row that nobody writes, or nothing. -/
theorem HistInv.select {c c' : Cell} {h : History} {lt : Locktype} {s : Int}
    (hc : HistInv c h) (hstep : c.select lt s = some c') : HistInv c' h := by
  have hrel := select_relocked hstep
  cases hd : c.row with
  | none => exact .of_row_none (hrel.rowNone hd)
  | some d =>
      by_cases hl : getlocktype d.flags = .writeLock
      · exact select_of_writeLock hd hl hstep ▸ hc
      · exact hc.relocked hd hl hrel

/-- A staging call by the holder, on its row; by anybody else, nothing. -/
theorem HistInv.ifHolder {c : Cell} {h : History} {s : Int} {w : Option Bytes}
    {f : Rowdata → Cell} (hc : HistInv c h)
    (hf : ∀ d, c.row = some d → Table.writeLockedBy d s = true →
      HistInv (f d) (h.write s w)) :
    HistInv (c.ifHolder s f)
      (if History.heldBy c s then h.write s w else h) := by
  unfold Cell.ifHolder History.heldBy
  cases hd : c.row with
  | none => simpa using hc
  | some d =>
      simp only []
      by_cases hw : Table.writeLockedBy d s = true
      · rw [if_pos hw, if_pos hw]
        exact hf d hd hw
      · rw [if_neg hw, if_neg hw]
        exact hc

theorem HistInv.updaterow {c : Cell} {h : History} {s : Int} {row : Bytes}
    (hc : HistInv c h) :
    HistInv (c.updaterow s row) (h.note c (.updaterow s row)) := by
  refine hc.ifHolder fun d hd hw => ?_
  obtain ⟨hl, hs⟩ := writeLockedBy_iff.mp hw
  refine ⟨fun hd' hi => ?_, fun hd' hi => ?_, fun hd' hn => ?_,
    fun hd' _ _ => ?_⟩
  · obtain rfl := Option.some.inj (hd.symm.trans hd')
    obtain ⟨_, _, h3, _⟩ := hc.inserted hd hi
    exact ⟨hl, hs.symm, List.mem_cons_of_mem _ h3, by simp⟩
  · exact hc.settled hd' hi
  · obtain rfl := Option.some.inj (hd.symm.trans hd')
    exact absurd hl hn
  · rfl

/-- Deleting sets flags on the row's object, which keeps its content. -/
theorem HistInv.flagDeleted {c : Cell} {h : History} {s : Int} {d : Rowdata}
    {fl : Flags} {f : Option ForwarderEntry} (hc : HistInv c h)
    (hd : c.row = some d) (hw : Table.writeLockedBy d s = true)
    (hlock : getlocktype fl = getlocktype d.flags)
    (hins : getinsertflag fl = getinsertflag d.flags)
    (hdel : getdeleteflag fl = true) :
    HistInv ⟨some { d with flags := fl }, c.shadow, f⟩ (h.write s none) := by
  obtain ⟨hl, hs⟩ := writeLockedBy_iff.mp hw
  refine ⟨fun hd' hi => ?_, fun hd' hi => ?_, fun hd' hn => ?_,
    fun hd' _ hn => ?_⟩ <;> injection hd' with hd' <;> subst hd'
  · rw [hins] at hi
    obtain ⟨_, _, h3, h4⟩ := hc.inserted hd hi
    exact ⟨hlock.trans hl, hs.symm, List.mem_cons_of_mem _ h3, h4⟩
  · rw [hins] at hi
    show h.committed = some d.row
    exact hc.settled hd hi
  · exact absurd (hlock.trans hl) hn
  · rw [hdel] at hn
    exact absurd hn (by simp)

theorem HistInv.deleterow {c : Cell} {h : History} {s : Int}
    (hc : HistInv c h) :
    HistInv (c.deleterow s) (h.note c (.deleterow s)) :=
  hc.ifHolder fun _ hd hw =>
    hc.flagDeleted hd hw (by simp) (by simp) (by simp)

theorem HistInv.replacedeleterow {c : Cell} {h : History} {s : Int}
    {f : ForwarderEntry} (hc : HistInv c h) :
    HistInv (c.replacedeleterow s f) (h.note c (.replacedeleterow s f)) :=
  hc.ifHolder fun _ hd hw =>
    hc.flagDeleted hd hw (by simp) (by simp) (by simp)

/-- A commit by the holder installs the last write; by a reader it drops the
reader, by anybody else it does nothing. -/
theorem HistInv.commit {c c' : Cell} {h : History} {s : Int}
    (hc : HistInv c h) (hstep : c.commit s = some c') :
    HistInv c' (h.note c (.finish s .commitCmd)) := by
  cases hd : c.row with
  | none => simp [Cell.commit, hd] at hstep
  | some d =>
      simp only [History.note, History.heldBy, hd]
      by_cases hw : Table.writeLockedBy d s = true
      · rw [if_pos hw]
        rcases commit_of_held hd hw hstep with ⟨_, rfl⟩ | ⟨hdel, rfl⟩
        · exact .of_row_none rfl
        · have hlast := hc.pending hd (writeLockedBy_iff.mp hw).1 hdel
          rw [hlast]
          unfold staged Cell.installed
          cases hsh : c.shadow with
          | absent =>
              have hi : getinsertflag d.flags = false := by
                by_contra hi
                exact (hc.inserted hd (by simpa using hi)).2.2.2 hsh
              have hcom : h.committed = some d.row := hc.settled hd hi
              exact .of_settled rfl rfl (by simp) (by simp) hcom rfl
          | same => exact .of_settled rfl rfl (by simp) (by simp) rfl rfl
          | copy sh => exact .of_settled rfl rfl (by simp) (by simp) rfl rfl
      · rw [if_neg hw]
        rcases commit_of_not_held hd hw hstep with rfl | ⟨hl, hdrop⟩
        · exact hc
        · exact hc.relocked hd (by simp [hl]) (dropReader_relocked hd hdrop)

/-- A rollback takes an insert out and settles any other row. -/
theorem HistInv.rollback {c c' : Cell} {h : History} {s : Int}
    (hc : HistInv c h) (hstep : c.rollback s = some c') :
    HistInv c' (h.note c (.finish s .rollbackCmd)) := by
  cases hd : c.row with
  | none =>
      simp only [Cell.rollback, hd, Option.some.injEq] at hstep
      exact .of_row_none (hstep ▸ hd)
  | some d =>
      simp only [History.note, History.heldBy, hd]
      rcases rollback_cases hd hstep with ⟨hbogus, rfl⟩ |
        ⟨hbogus, ⟨_, rfl⟩ | ⟨hi, holders, _, rfl⟩⟩
      · rw [if_neg fun hw => hbogus.1 (writeLockedBy_iff.mp hw).2]
        exact hc
      · exact .of_row_none rfl
      · have hcom := hc.settled hd hi
        have hwrites : (if Table.writeLockedBy d s = true then
            { h with writes := [] } else h).writes = [] := by
          split
          · rfl
          · next hw =>
              refine (hc.unlocked hd fun hl => hw ?_).2.1
              refine writeLockedBy_iff.mpr ⟨hl, ?_⟩
              by_contra hne
              exact hbogus ⟨hne, hl⟩
        refine .of_settled rfl rfl ?_ ?_ ?_ hwrites
        · cases holders <;> simp
        · cases holders <;> simp
        · split <;> exact hcom

/-! ## Tracked runs -/

theorem cellStep_histInv {c c' : Cell} {h : History} {op : CellOp}
    (hend : ∀ s cmd, op = .finish s cmd → cmd = .commitCmd ∨ cmd = .rollbackCmd)
    (hc : HistInv c h) (hstep : cellStep c op = some c') :
    HistInv c' (h.note c op) := by
  cases op with
  | newrow s row =>
      injection hstep with hstep
      exact hstep ▸ .newrow
  | select lt s => exact hc.select hstep
  | updaterow s row =>
      injection hstep with hstep
      exact hstep ▸ hc.updaterow
  | deleterow s =>
      injection hstep with hstep
      exact hstep ▸ hc.deleterow
  | replacedeleterow s f =>
      injection hstep with hstep
      exact hstep ▸ hc.replacedeleterow
  | finish s cmd =>
      rcases hend s cmd rfl with rfl | rfl
      · exact hc.commit hstep
      · exact hc.rollback hstep

/-- The store is separated and every row agrees with its history. -/
structure TrackedInv (x : Tracked) : Prop where
  sep : Sep x.table
  rows : ∀ r, HistInv (cell x.table r) (x.history r)

theorem trackedInv_new {i n : Int} : TrackedInv (.new i n) where
  sep := sep_new i n
  rows _ := .of_row_none rfl

/-- Notes follow a call on the store: selects note nothing, and any other
call reaches a cell at most once. -/
theorem run_cellOps_note {R : Cell → History → Prop} {c c' : Cell}
    {h : History} {r : Int} {op : TableOp}
    (hsel : ∀ {c c' : Cell} {lt s}, R c h → c.select lt s = some c' → R c' h)
    (hone : ∀ {cop c₁}, cop ∈ cellOps r op → cellStep c cop = some c₁ →
      R c₁ (h.note c cop))
    (hc : R c h) (hrun : run cellStep c (cellOps r op) = some c') :
    R c' ((cellOps r op).foldl (History.note c) h) := by
  rcases cellOps_cases r op with ⟨lt, s, hall⟩ | ⟨cop, hcop⟩
  · have hnote : ∀ ops : List CellOp, (∀ cop ∈ ops, cop = .select lt s) →
        ops.foldl (History.note c) h = h := by
      intro ops
      induction ops with
      | nil => exact fun _ => rfl
      | cons cop ops ih =>
          intro hops
          rw [hops cop List.mem_cons_self]
          exact ih fun b hb => hops b (List.mem_cons_of_mem _ hb)
    rw [hnote _ hall]
    refine run_induct (P := fun c => R c h)
      (Q := fun op => op = CellOp.select lt s) ?_ hall hc hrun
    rintro c op c' rfl hc hstep
    exact hsel hc hstep
  · rw [hcop] at hrun hone ⊢
    obtain ⟨c₁, h1, h2⟩ := run_cons.mp hrun
    injection h2 with h2
    exact h2 ▸ hone List.mem_cons_self h1

theorem step_trackedInv {x x' : Tracked} {op : TableOp}
    (hop : CommitOrRollback op) (hx : TrackedInv x)
    (h : x.step op = some x') : TrackedInv x' := by
  simp only [Tracked.step, Option.map_eq_some_iff] at h
  obtain ⟨t', h1, rfl⟩ := h
  obtain ⟨hsep, hcells⟩ := step_refines hx.sep h1
  refine ⟨hsep, fun r => run_cellOps_note (fun hc => hc.select) ?_
    (hx.rows r) (hcells r)⟩
  intro cop c₁ hcop hstep
  refine cellStep_histInv (fun s cmd h => ?_) (hx.rows r) hstep
  exact hop r s cmd (finish_of_mem_cellOps (h ▸ hcop))

/-! ## What is returned -/

theorem queueRow_hit {t t' : Table} {r s pc tc : Int} {lt : Locktype}
    {e : ReturnRow} (h : t.queueRow r lt s pc tc = some (some e, t')) :
    e.locktype = .pendingLock := by
  unfold Table.queueRow at h
  split at h
  · exact absurd h (by simp)
  · exact absurd h (by simp)
  · simp only [Option.some.injEq, Prod.mk.injEq] at h
    rw [← h.1]

/-- What a hit says about the row at `a`: its content, and under a lock that
nobody else writes it. -/
def HitOf (t : Table) (a : Addr) (lt : Locktype) (s : Int) (e : ReturnRow) :
    Prop :=
  e.row = (t.heap a).row ∧ (lt = .noLock ∨
    getlocktype (t.heap a).flags ≠ .writeLock ∨ (t.heap a).writelockHolder = s)

theorem selectNolock_hit {t t' : Table} {r s : Int} {a : Addr} {e : ReturnRow}
    (ha : t.rows r = some a) (h : t.selectNolock r s = some (some e, t')) :
    e.rowid = r ∧ HitOf t a .noLock s e := by
  unfold Table.selectNolock at h
  simp only [ha] at h
  have hhit : e = { rowid := r, row := (t.heap a).row, locktype := .noLock } →
      e.rowid = r ∧ HitOf t a .noLock s e := by
    rintro rfl
    exact ⟨rfl, rfl, .inl rfl⟩
  split at h
  · injection h with h
    injection h with h
    injection h with h
    exact hhit h.symm
  · split at h
    · exact absurd h (by simp)
    · split at h
      · simp at h
      · simp only [Option.some.injEq, Prod.mk.injEq] at h
        exact hhit h.1.symm
  · split at h
    · simp at h
    · simp only [Option.some.injEq, Prod.mk.injEq] at h
      exact hhit h.1.symm
  · simp at h

theorem selectReadlock_hit {t t' : Table} {r s pc tc : Int} {a : Addr}
    {e : ReturnRow} (ha : t.rows r = some a)
    (h : t.selectReadlock r s pc tc = some (some e, t'))
    (he : e.locktype ≠ .pendingLock) :
    e.rowid = r ∧ HitOf t a .readLock s e := by
  unfold Table.selectReadlock at h
  simp only [ha] at h
  rcases getlocktype_cases (t.heap a).flags with hl | hl | hl
  · simp only [hl, Option.some.injEq, Prod.mk.injEq] at h
    rw [← h.1]
    exact ⟨rfl, rfl, .inr (.inl (by simp [hl]))⟩
  · simp only [hl] at h
    split at h
    · exact absurd h (by simp)
    · split at h
      · simp at h
      · simp only [Option.some.injEq, Prod.mk.injEq] at h
        rw [← h.1]
        exact ⟨rfl, rfl, .inr (.inl (by simp [hl]))⟩
  · simp only [hl] at h
    split at h
    · simp at h
    · exact absurd (queueRow_hit h) he

theorem selectWritelock_hit {t t' : Table} {r s pc tc : Int} {a : Addr}
    {e : ReturnRow} (ha : t.rows r = some a)
    (h : t.selectWritelock r s pc tc = some (some e, t'))
    (he : e.locktype ≠ .pendingLock) :
    e.rowid = r ∧ HitOf t a .writeLock s e := by
  unfold Table.selectWritelock at h
  simp only [ha] at h
  rcases getlocktype_cases (t.heap a).flags with hl | hl | hl
  · simp only [hl, Option.some.injEq, Prod.mk.injEq] at h
    rw [← h.1]
    exact ⟨rfl, rfl, .inr (.inl (by simp [hl]))⟩
  · simp only [hl] at h
    exact absurd (queueRow_hit h) he
  · simp only [hl] at h
    split at h
    · next hs =>
        simp only [Option.some.injEq, Prod.mk.injEq] at h
        rw [← h.1]
        exact ⟨rfl, rfl, .inr (.inr hs)⟩
    · exact absurd (queueRow_hit h) he

theorem selectrow_absent {t : Table} {r s pc tc : Int} {lt : Locktype}
    {hit : Option ReturnRow} {t' : Table} (ha : t.rows r = none)
    (h : t.selectrow lt r s pc tc = some (hit, t')) :
    ∀ e ∈ hit, e.locktype = .notFoundLock := by
  intro e he
  cases lt <;>
    simp only [Table.selectrow, Table.selectNolock, Table.selectReadlock,
      Table.selectWritelock, ha, Option.some.injEq, Prod.mk.injEq] at h <;>
    rw [← h.1] at he
  case noLock | readLock | writeLock => rw [← Option.some.inj he]; rfl
  all_goals exact absurd he (by simp)

/-- A returned row with content: the row's own, and under a lock only if
nobody writes the row or the caller does. -/
theorem selectrow_hit {t t' : Table} {r s pc tc : Int} {lt : Locktype}
    {e : ReturnRow} (h : t.selectrow lt r s pc tc = some (some e, t'))
    (he : e.locktype ∈ [Locktype.noLock, .readLock, .writeLock]) :
    ∃ a, t.rows r = some a ∧ e.rowid = r ∧ HitOf t a lt s e := by
  have hpending : e.locktype ≠ .pendingLock := by
    intro hp
    simp [hp] at he
  cases ha : t.rows r with
  | none =>
      rw [selectrow_absent ha h e rfl] at he
      exact absurd he (by simp)
  | some a =>
      refine ⟨a, rfl, ?_⟩
      cases lt with
      | noLock => exact selectNolock_hit ha h
      | readLock => exact selectReadlock_hit ha h hpending
      | writeLock => exact selectWritelock_hit ha h hpending
      | notFoundLock | pendingLock | indexLock | indexPendingLock =>
          simp [Table.selectrow] at h

/-- A clean hit: on a settled row, or on the caller's own insert. -/
theorem HistInv.clean {t : Table} {r s : Int} {a : Addr} {h : History}
    {lt : Locktype} {e : ReturnRow} (hc : HistInv (cell t r) h)
    (ha : t.rows r = some a) (he : HitOf t a lt s e)
    (hno : lt = .noLock → getinsertflag (t.heap a).flags = true →
      (t.heap a).writelockHolder = s) : h.Clean s e.row := by
  obtain ⟨hrow, hlock⟩ := he
  rw [hrow]
  cases hi : getinsertflag (t.heap a).flags with
  | false => exact .inl (hc.settled (cell_row_some ha) hi)
  | true =>
      obtain ⟨h1, h2, h3, _⟩ := hc.inserted (cell_row_some ha) hi
      have hs : (t.heap a).writelockHolder = s := by
        rcases hlock with hl | hl | hl
        · exact hno hl hi
        · exact absurd h1 hl
        · exact hl
      exact .inr ⟨h2.trans hs, h3⟩

/-- A `NOLOCK` select leaves the table as it is. -/
theorem selectNolock_same {t t' : Table} {r s : Int} {hit : Option ReturnRow}
    (h : t.selectNolock r s = some (hit, t')) : t' = t := by
  unfold Table.selectNolock at h
  simp only [] at h
  split at h
  · simp_all
  · split at h
    · simp_all
    · split at h
      · exact absurd h (by simp)
      · split at h <;> simp_all
    · split at h <;> simp_all
    · simp_all

theorem selectrows_clean {lt : Locktype} {s pc tc : Int} {rs : List Int}
    {h : Int → History} : ∀ {t t' : Table} {hits : List ReturnRow}, Sep t →
      (∀ r, HistInv (cell t r) (h r)) →
      (lt = .noLock → ∀ r ∈ rs, ∀ a, t.rows r = some a →
        getinsertflag (t.heap a).flags = true →
        (t.heap a).writelockHolder = s) →
      t.selectrows lt s pc tc rs = some (hits, t') →
      ∀ e ∈ hits, e.locktype ∈ [Locktype.noLock, .readLock, .writeLock] →
        (h e.rowid).Clean s e.row := by
  induction rs with
  | nil =>
      intro t t' hits _ _ _ hsel e he
      simp only [Table.selectrows, Option.some.injEq, Prod.mk.injEq] at hsel
      rw [← hsel.1] at he
      exact absurd he List.not_mem_nil
  | cons r rs ih =>
      intro t t' hits hsep hinv hno hsel e he hlt
      unfold Table.selectrows at hsel
      split at hsel
      · exact absurd hsel (by simp)
      · next hit t₁ h1 =>
          split at hsel
          · exact absurd hsel (by simp)
          · next hits₁ t₂ h2 =>
              simp only [Option.some.injEq, Prod.mk.injEq] at hsel
              rw [← hsel.1, List.mem_append, Option.mem_toList] at he
              obtain ⟨hstep, hcell⟩ := selectrow_rowStep hsep h1
              rcases he with he | he
              · subst he
                obtain ⟨a, ha, hr, hhit⟩ := selectrow_hit h1 hlt
                rw [hr]
                exact (hinv r).clean ha hhit fun hl =>
                  hno hl r List.mem_cons_self a ha
              · refine ih (hstep.sep hsep) (fun r' => ?_) ?_ h2 e he hlt
                · by_cases hr : r' = r
                  · subst hr
                    exact (hinv r').select hcell
                  · rw [hstep.cell hsep hr]
                    exact hinv r'
                · intro hl r' hr'
                  subst hl
                  rw [selectNolock_same h1]
                  exact hno rfl r' (List.mem_cons_of_mem _ hr')

theorem step_cleanReads {x x' : Tracked} {op : TableOp} (hx : TrackedInv x)
    (h : x.step op = some x') (hok : x.SkipsInserts op) :
    x.CleanReads op := by
  intro hits t' hexec e he hlt
  cases op with
  | selectrows rs lt s pc tc =>
      simp only [Table.exec, Option.map_eq_some_iff, Prod.mk.injEq,
        TableReply.rows.injEq] at hexec
      obtain ⟨⟨hits₁, t₁⟩, h1, rfl, rfl⟩ := hexec
      refine selectrows_clean hx.sep hx.rows (fun hl => ?_) h1 e he hlt
      subst hl
      exact hok rs s pc tc rfl
  | newrow | updaterow | deleterow | replacedeleterow =>
      simp [Table.exec] at hexec
  | commitRollbackUnlock r s cmd =>
      simp only [Table.exec, Option.map_eq_some_iff, Prod.mk.injEq,
        reduceCtorEq, false_and, and_false, exists_false] at hexec

/-! ## The converse: such a read is dirty

For that an insert must not carry a content that was committed before under
its rowid, which is what a rowid handed out once is for. -/

/-- Nothing was committed under the rowid of a row being inserted. -/
def FreshInsert (c : Cell) (h : History) : Prop :=
  ∀ d, c.row = some d → getinsertflag d.flags = true → h.committed = none

/-- A call that keeps the insert flag keeps `FreshInsert`. -/
theorem FreshInsert.of_flags {c c' : Cell} {h h' : History}
    (hc : FreshInsert c h) (hcom : h'.committed = h.committed)
    (hrow : ∀ d', c'.row = some d' → getinsertflag d'.flags = true →
      ∃ d, c.row = some d ∧ getinsertflag d.flags = true) :
    FreshInsert c' h' := by
  intro d' hd' hi
  obtain ⟨d, hd, hi⟩ := hrow d' hd' hi
  exact hcom.trans (hc d hd hi)

theorem FreshInsert.relocked {c c' : Cell} {h : History}
    (hc : FreshInsert c h) (hrel : Relocked c c') : FreshInsert c' h := by
  refine hc.of_flags rfl fun d' hd' hi => ?_
  cases hd : c.row with
  | none =>
      rw [hrel.rowNone hd] at hd'
      exact absurd hd' (by simp)
  | some d =>
      obtain ⟨d₁, h1, hsame⟩ := hrel.rowSome hd
      obtain rfl := Option.some.inj (h1.symm.trans hd')
      exact ⟨d, rfl, hsame.insertflag ▸ hi⟩

theorem FreshInsert.ifHolder {c : Cell} {h : History} {s : Int}
    {w : Option Bytes} {f : Rowdata → Cell} (hc : FreshInsert c h)
    (hf : ∀ d d', c.row = some d → (f d).row = some d' →
      getinsertflag d'.flags = getinsertflag d.flags) :
    FreshInsert (c.ifHolder s f)
      (if History.heldBy c s then h.write s w else h) := by
  refine hc.of_flags (by split <;> rfl) fun d' hd' hi => ?_
  unfold Cell.ifHolder at hd'
  split at hd'
  · next hd =>
      rw [hd] at hd'
      exact absurd hd' (by simp)
  · next d hd =>
      refine ⟨d, hd, ?_⟩
      split at hd'
      · rw [← hf d d' hd hd']
        exact hi
      · obtain rfl := Option.some.inj (hd.symm.trans hd')
        exact hi

/-- After a commit by the holder the row is no insert, and otherwise it is
the row it was. -/
theorem FreshInsert.commit {c c' : Cell} {h : History} {s : Int}
    (hc : FreshInsert c h) (hstep : c.commit s = some c') :
    FreshInsert c' (h.note c (.finish s .commitCmd)) := by
  cases hd : c.row with
  | none => simp [Cell.commit, hd] at hstep
  | some d =>
      simp only [History.note, History.heldBy, hd]
      by_cases hw : Table.writeLockedBy d s = true
      · intro d' hd' hi
        rcases commit_of_held hd hw hstep with ⟨_, rfl⟩ | ⟨_, rfl⟩
        · exact absurd hd' (by simp)
        · injection hd' with hd'
          rw [← hd'] at hi
          unfold Cell.installed at hi
          split at hi <;> simp at hi
      · rw [if_neg hw]
        rcases commit_of_not_held hd hw hstep with rfl | ⟨_, hdrop⟩
        · exact hc
        · exact hc.relocked (dropReader_relocked hd hdrop)

/-- What a rollback leaves in the table is no insert, unless it was not the
caller's to roll back. -/
theorem FreshInsert.rollback {c c' : Cell} {h : History} {s : Int}
    (hc : FreshInsert c h) (hstep : c.rollback s = some c') :
    FreshInsert c' (h.note c (.finish s .rollbackCmd)) := by
  have hcom : (h.note c (.finish s .rollbackCmd)).committed = h.committed := by
    simp only [History.note]
    split <;> rfl
  cases hd : c.row with
  | none =>
      simp only [Cell.rollback, hd, Option.some.injEq] at hstep
      subst hstep
      exact hc.of_flags hcom fun d' hd' hi => ⟨d', hd', hi⟩
  | some d =>
      rcases rollback_cases hd hstep with ⟨_, rfl⟩ |
        ⟨_, ⟨_, rfl⟩ | ⟨_, holders, _, rfl⟩⟩
      · exact hc.of_flags hcom fun d' hd' hi => ⟨d', hd', hi⟩
      · exact fun d' hd' => absurd hd' (by simp)
      · intro d' hd' hi
        injection hd' with hd'
        rw [← hd'] at hi
        cases holders <;> simp at hi

theorem cellStep_freshInsert {c c' : Cell} {h : History} {op : CellOp}
    (hend : ∀ s cmd, op = .finish s cmd → cmd = .commitCmd ∨ cmd = .rollbackCmd)
    (hnew : ∀ s row, op = .newrow s row → h.committed = none)
    (hc : FreshInsert c h) (hstep : cellStep c op = some c') :
    FreshInsert c' (h.note c op) := by
  cases op with
  | newrow s row => exact fun _ _ _ => hnew s row rfl
  | select lt s => exact hc.relocked (select_relocked hstep)
  | updaterow s row =>
      injection hstep with hstep
      refine hstep ▸ hc.ifHolder fun d d' hd hd' => ?_
      obtain rfl := Option.some.inj (hd.symm.trans hd')
      rfl
  | deleterow s =>
      injection hstep with hstep
      refine hstep ▸ hc.ifHolder fun d d' hd hd' => ?_
      injection hd' with hd'
      simp [← hd']
  | replacedeleterow s f =>
      injection hstep with hstep
      refine hstep ▸ hc.ifHolder fun d d' hd hd' => ?_
      injection hd' with hd'
      simp [← hd']
  | finish s cmd =>
      rcases hend s cmd rfl with rfl | rfl
      · exact hc.commit hstep
      · exact hc.rollback hstep

theorem step_freshInsert {x x' : Tracked} {op : TableOp}
    (hop : CommitOrRollback op) (hfresh : x.FreshRowid op)
    (hx : TrackedInv x)
    (hins : ∀ r, FreshInsert (cell x.table r) (x.history r))
    (h : x.step op = some x') :
    ∀ r, FreshInsert (cell x'.table r) (x'.history r) := by
  simp only [Tracked.step, Option.map_eq_some_iff] at h
  obtain ⟨t', h1, rfl⟩ := h
  intro r
  refine run_cellOps_note (fun hc hsel => hc.relocked (select_relocked hsel))
    ?_ (hins r) ((step_refines hx.sep h1).2 r)
  intro cop c₁ hcop hstep
  refine cellStep_freshInsert (fun s cmd h => ?_) (fun s row h => ?_)
    (hins r) hstep
  · exact hop r s cmd (finish_of_mem_cellOps (h ▸ hcop))
  · exact hfresh r s row (newrow_of_mem_cellOps (h ▸ hcop))

/-- A `NOLOCK` select returns every row it names that the caller has not
locked, whatever its flags say. -/
theorem selectrows_nolock_mem {s pc tc : Int} {rs : List Int} {t t' : Table}
    {r : Int} {a : Addr} (ha : t.rows r = some a)
    (hl : getlocktype (t.heap a).flags = .writeLock)
    (hne : (t.heap a).writelockHolder ≠ s) : ∀ {hits : List ReturnRow},
      t.selectrows .noLock s pc tc rs = some (hits, t') → r ∈ rs →
      { rowid := r, row := (t.heap a).row, locktype := .noLock } ∈ hits := by
  induction rs with
  | nil => exact fun _ hr => absurd hr List.not_mem_nil
  | cons r₀ rs ih =>
      intro hits hsel hr
      unfold Table.selectrows at hsel
      split at hsel
      · exact absurd hsel (by simp)
      · next hit t₁ h1 =>
          have hsame : t₁ = t := selectNolock_same h1
          subst hsame
          split at hsel
          · exact absurd hsel (by simp)
          · next hits₁ t₂ h2 =>
              simp only [Option.some.injEq, Prod.mk.injEq] at hsel
              obtain ⟨rfl, rfl⟩ := hsel
              rw [List.mem_append]
              rcases List.mem_cons.mp hr with rfl | hr
              · refine .inl ?_
                simp only [Table.selectrow, Table.selectNolock, ha, hl, hne,
                  if_false, Option.some.injEq, Prod.mk.injEq, and_true] at h1
                rw [← h1]
                exact List.mem_singleton_self _
              · exact .inr (ih h2 hr)

theorem step_skipsInserts {x x' : Tracked} {op : TableOp}
    (hx : TrackedInv x)
    (hins : ∀ r, FreshInsert (cell x.table r) (x.history r))
    (h : x.step op = some x') (hclean : x.CleanReads op) :
    x.SkipsInserts op := by
  intro rs s pc tc hop r hr a ha hi
  subst hop
  by_contra hne
  simp only [Tracked.step, Table.step, Option.map_map,
    Option.map_eq_some_iff] at h
  obtain ⟨⟨reply, t'⟩, hexec, _⟩ := h
  simp only [Table.exec, Option.map_eq_some_iff, Prod.mk.injEq] at hexec
  obtain ⟨⟨hits, t₁⟩, h1, h2, h3⟩ := hexec
  obtain ⟨hl, hwriter, _⟩ := (hx.rows r).inserted (cell_row_some ha) hi
  have hmem := selectrows_nolock_mem ha hl hne h1 hr
  have hcl := hclean hits t₁ (by simp [Table.exec, h1]) _ hmem (by simp)
  rcases hcl with hcl | ⟨hcl, _⟩
  · rw [hins r _ (cell_row_some ha) hi] at hcl
    exact absurd hcl (by simp)
  · exact hne (hwriter.symm.trans hcl)

/-- No dirty reads, exactly. Over every run of a table whose transactions end
by commit or rollback: if no `NOLOCK` select names a row that another
subtransaction is inserting, every row returned is the last committed
content or a write of the caller; and where rowids are handed out once, the
selects have to be such for that to hold. -/
theorem cleanReads_of_skipsInserts {idarg nextrowid : Int}
    {ops : List TableOp} (hops : ∀ op ∈ ops, CommitOrRollback op) :
    (AllSteps Tracked.step Tracked.SkipsInserts (.new idarg nextrowid) ops →
      AllSteps Tracked.step Tracked.CleanReads (.new idarg nextrowid) ops) ∧
    (AllSteps Tracked.step Tracked.FreshRowid (.new idarg nextrowid) ops →
      (AllSteps Tracked.step Tracked.CleanReads (.new idarg nextrowid) ops ↔
        AllSteps Tracked.step Tracked.SkipsInserts (.new idarg nextrowid)
          ops)) := by
  have hclean : AllSteps Tracked.step Tracked.SkipsInserts
      (.new idarg nextrowid) ops →
      AllSteps Tracked.step Tracked.CleanReads (.new idarg nextrowid) ops :=
    AllSteps.imp_of_inv (fun x op x' hop hx h _ => step_trackedInv hop hx h)
      (fun x op x' _ hx h hok => step_cleanReads hx h hok) hops trackedInv_new
  refine ⟨hclean, fun hfresh => ⟨fun hreads => ?_, hclean⟩⟩
  have hboth := hfresh.and hreads
  refine AllSteps.imp_of_inv (J := fun x => TrackedInv x ∧
    ∀ r, FreshInsert (cell x.table r) (x.history r))
    (fun x op x' hop hx h hok => ?_) (fun x op x' _ hx h hok => ?_) hops
    ⟨trackedInv_new, fun _ _ hd => by simp [cell, Tracked.new, Table.new] at hd⟩
    hboth
  · exact ⟨step_trackedInv hop hx.1 h,
      step_freshInsert hop hok.1 hx.1 hx.2 h⟩
  · exact step_skipsInserts hx.1 hx.2 h hok.2

/-- Subtransaction 7 inserts row 1, and 8 selects it before the commit. -/
def dirtyRun : List TableOp :=
  [.newrow 1 7 [65], .selectrows [1] .noLock 8 1 1]

/-- The reply carries the insert, nothing was committed under the rowid, and
8 has written nothing. -/
theorem dirtyRun_not_cleanReads :
    ¬ (∀ idarg nextrowid ops, (∀ op ∈ ops, CommitOrRollback op) →
      AllSteps Tracked.step Tracked.CleanReads (.new idarg nextrowid) ops) := by
  intro h
  have hops : ∀ op ∈ dirtyRun, CommitOrRollback op := by
    intro op hop r s cmd heq
    subst heq
    simp [dirtyRun] at hop
  obtain ⟨_, h1⟩ := h 1 0 dirtyRun hops _ rfl
  obtain ⟨h2, _⟩ := h1 _ rfl
  rcases h2 _ _ rfl _ List.mem_cons_self (by decide) with hcl | ⟨hcl, _⟩
  · exact absurd hcl (by decide)
  · exact absurd hcl (by decide)

theorem cleanReads_of_skipsInserts_dirtyRun :
    (AllSteps Tracked.step Tracked.SkipsInserts (.new 1 0) dirtyRun →
      AllSteps Tracked.step Tracked.CleanReads (.new 1 0) dirtyRun) ∧
    (AllSteps Tracked.step Tracked.FreshRowid (.new 1 0) dirtyRun →
      (AllSteps Tracked.step Tracked.CleanReads (.new 1 0) dirtyRun ↔
        AllSteps Tracked.step Tracked.SkipsInserts (.new 1 0) dirtyRun)) := by
  refine cleanReads_of_skipsInserts fun op hop r s cmd heq => ?_
  subst heq
  simp [dirtyRun] at hop

end Infinisql.Proofs
