import Infinisql.Spec.Predecessors
import Infinisql.Proofs.NotNull
import Infinisql.Proofs.TableLocks
import Infinisql.Proofs.ReplicaMirror

/-!
# What carries a predecessor from a row to its record

The number goes from the row to what a search returns, from there to the
staged row, and from there to the record. `continueUpdate` and
`makeMessageDispatch` copy it. `selectrows` does not, `continueSelect` does
not, and `continueDelete` copies neither the number nor the rowid.

So the theorem is about the copies that are made: once a statement has its
rows with their numbers, the records have them too. The invariant behind it is
that a row staged to be changed is write-locked by its transaction until that
ends, and a row that is write-locked keeps its number whatever any other
transaction does.
-/

namespace Infinisql.Proofs

open Infinisql.Lib Infinisql.Ref Infinisql.Spec

/-! ## A row that is held -/

/-- The predecessor in a cell, if `q` holds the write lock on it. -/
def heldCell (c : Cell) (q : Int) : Option Int :=
  (c.row.filter (Table.writeLockedBy · q)).map (·.previoussubtransactionid)

theorem heldCell_eq_some {c : Cell} {q v : Int} :
    heldCell c q = some v ↔ ∃ d, c.row = some d ∧
      Table.writeLockedBy d q = true ∧ d.previoussubtransactionid = v := by
  rw [heldCell]
  simp only [Option.map_eq_some_iff, Option.filter_eq_some_iff]
  constructor
  · intro ⟨d, ⟨h1, h2⟩, h3⟩
    exact ⟨d, h1, h2, h3⟩
  · intro ⟨d, h1, h2, h3⟩
    exact ⟨d, ⟨h1, h2⟩, h3⟩

/-- Setting the delete flags changes neither the lock nor the number. -/
theorem heldCell_setFlags {c' : Cell} {d : Rowdata} {q v : Int} {fl : Flags}
    (hfl : getlocktype fl = getlocktype d.flags)
    (hw : Table.writeLockedBy d q = true)
    (hv : d.previoussubtransactionid = v)
    (hc : c'.row = some { d with flags := fl }) : heldCell c' q = some v := by
  obtain ⟨hlock, hholder⟩ := writeLockedBy_iff.mp hw
  refine heldCell_eq_some.mpr ⟨_, hc, writeLockedBy_iff.mpr ⟨?_, hholder⟩, hv⟩
  show getlocktype fl = _
  rw [hfl, hlock]

/-- Whatever is done to a row that is held, it stays held with its number,
unless its holder ends it. -/
theorem cellStep_latest {c c' : Cell} {q v : Int} {op : CellOp}
    (h : heldCell c q = some v) (hnew : ∀ s row, op ≠ .newrow s row)
    (hfin : ∀ s cmd, op = .finish s cmd → s ≠ q)
    (hs : cellStep c op = some c') : heldCell c' q = some v := by
  obtain ⟨d, hd, hw, hv⟩ := heldCell_eq_some.mp h
  obtain ⟨hlock, hholder⟩ := writeLockedBy_iff.mp hw
  cases op with
  | newrow s row => exact absurd rfl (hnew s row)
  | select lt s =>
      rw [select_of_writeLock hd hlock hs]
      exact h
  | updaterow s row =>
      injection hs with hs
      rw [← hs, Cell.updaterow, Cell.ifHolder, hd]
      dsimp only
      split
      · exact heldCell_eq_some.mpr ⟨d, rfl, hw, hv⟩
      · exact h
  | deleterow s =>
      injection hs with hs
      rw [← hs, Cell.deleterow, Cell.ifHolder, hd]
      dsimp only
      split
      · exact heldCell_setFlags (by simp) hw hv rfl
      · exact h
  | replacedeleterow s f =>
      injection hs with hs
      rw [← hs, Cell.replacedeleterow, Cell.ifHolder, hd]
      dsimp only
      split
      · exact heldCell_setFlags (by simp) hw hv rfl
      · exact h
  | finish s cmd =>
      have hne : s ≠ q := hfin s cmd rfl
      have hnot : ¬ Table.writeLockedBy d s = true := fun hws =>
        hne ((writeLockedBy_iff.mp hws).2.symm.trans hholder)
      have hread : getlocktype d.flags ≠ .readLock := by
        rw [hlock]
        simp
      have hsame : c' = c := by
        cases cmd with
        | commitCmd =>
            rcases commit_of_not_held hd hnot hs with hc | hc
            · exact hc
            · exact absurd hc.1 hread
        | rollbackCmd =>
            rcases rollback_cases hd hs with hc | hc
            · exact hc.2
            · refine absurd ⟨fun heq => ?_, hlock⟩ hc.1
              exact hne (heq.symm.trans hholder)
        | unlockCmd =>
            simp only [cellStep, Cell.finish, Cell.unlock, hd] at hs
            rw [if_pos hread] at hs
            injection hs with hs
            exact hs.symm
        | revertCmd =>
            injection hs with hs
            rw [← hs, Cell.revert, Cell.ifHolder, hd]
            exact if_neg hnot
        | _ =>
            injection hs with hs
            exact hs.symm
      rw [hsame]
      exact h

/-! ## A table -/

/-- Rows have objects of their own, and rowids that were given out. -/
structure Kept (t : Table) : Prop where
  sep : Sep t
  fresh : ∀ r, t.nextrowid < r → (cell t r).row = none

theorem selectrow_nextrowid {t t' : Table} {lt : Locktype}
    {r s pc tc : Int} {hit : Option ReturnRow}
    (h : t.selectrow lt r s pc tc = some (hit, t')) :
    t'.nextrowid = t.nextrowid := by
  have hqueue : ∀ {lt}, t.queueRow r lt s pc tc = some (hit, t') →
      t'.nextrowid = t.nextrowid := by
    intro lt h
    rw [Table.queueRow, Table.assignToLockQueue] at h
    grind
  cases lt with
  | noLock =>
      simp only [Table.selectrow, Table.selectNolock] at h
      grind
  | readLock =>
      simp only [Table.selectrow, Table.selectReadlock] at h
      grind [Table.setAt]
  | writeLock =>
      simp only [Table.selectrow, Table.selectWritelock] at h
      grind [Table.setAt]
  | _ =>
      simp only [Table.selectrow] at h
      grind

theorem selectrows_nextrowid {lt : Locktype} {s pc tc : Int} {rs : List Int} :
    ∀ {t t' : Table} {hits : List ReturnRow},
      t.selectrows lt s pc tc rs = some (hits, t') →
      t'.nextrowid = t.nextrowid := by
  induction rs with
  | nil =>
      intro t t' hits h
      simp only [Table.selectrows, Option.some.injEq, Prod.mk.injEq] at h
      rw [h.2]
  | cons r rs ih =>
      intro t t' hits h
      rw [Table.selectrows] at h
      split at h
      · exact absurd h (by simp)
      · next hit t₁ h1 =>
          split at h
          · exact absurd h (by simp)
          · next hits' t₂ h2 =>
              simp only [Option.some.injEq, Prod.mk.injEq] at h
              rw [← h.2, ih h2, selectrow_nextrowid h1]

theorem deleterow_nextrowid (t : Table) (r s : Int) :
    (t.deleterow r s).2.nextrowid = t.nextrowid := by
  unfold Table.deleterow
  grind [Table.setAt_fields]

theorem dropReader_nextrowid {t t' : Table} {a : Addr} {s : Int}
    (h : t.dropReader a s = some t') : t'.nextrowid = t.nextrowid := by
  rw [Table.dropReader] at h
  grind [Table.setAt_fields]

theorem installShadow_nextrowid (t : Table) (r : Int) (a : Addr) :
    (t.installShadow r a).nextrowid = t.nextrowid := by
  unfold Table.installShadow
  grind [Table.setAt_fields, Table.setShadow_fields, Table.setRow_fields,
    Table.delete_fields]

theorem finish_nextrowid {t t' : Table} {r s : Int} {cmd : Enginecmd}
    (h : t.commitRollbackUnlock r s cmd = some t') :
    t'.nextrowid = t.nextrowid := by
  cases cmd with
  | commitCmd =>
      simp only [Table.commitRollbackUnlock, Table.commitRow] at h
      grind [dropReader_nextrowid, installShadow_nextrowid,
        Table.setAt_fields, Table.setRow_fields, Table.delete_fields,
        Table.dropShadow_fields, Table.setForwarder_fields]
  | rollbackCmd =>
      simp only [Table.commitRollbackUnlock, Table.rollbackRow,
        Table.rollbackStaying] at h
      grind [Table.setAt_fields, Table.setRow_fields, Table.delete_fields,
        Table.setShadow_fields, Table.dropShadow_fields,
        Table.setForwarder_fields]
  | unlockCmd =>
      simp only [Table.commitRollbackUnlock, Table.unlockRow] at h
      grind [dropReader_nextrowid]
  | revertCmd =>
      simp only [Table.commitRollbackUnlock, Table.revertRow] at h
      grind [Table.setAt_fields, Table.setRow_fields, Table.setShadow_fields,
        Table.setForwarder_fields]
  | _ =>
      injection h with h
      rw [h]

theorem step_nextrowid {t t' : Table} {op : TableOp}
    (h : t.step op = some t') : t'.nextrowid = t.nextrowid := by
  cases op with
  | newrow r s row =>
      injection h with h
      simp [← h, Table.newrow]
  | selectrows rs lt s pc tc =>
      simp only [Table.step, Table.exec, Option.map_map,
        Option.map_eq_some_iff] at h
      obtain ⟨⟨hits, t₁⟩, h1, rfl⟩ := h
      exact selectrows_nextrowid h1
  | updaterow r s row =>
      injection h with h
      rw [← h]
      show (t.updaterow r s row).2.nextrowid = _
      unfold Table.updaterow
      grind [Table.alloc_fields, Table.setShadow_fields]
  | deleterow r s =>
      injection h with h
      rw [← h]
      exact deleterow_nextrowid t r s
  | replacedeleterow r s fr fe =>
      injection h with h
      rw [← h]
      show (t.replacedeleterow r s fr fe).2.nextrowid = _
      have hdelete := deleterow_nextrowid t r s
      unfold Table.replacedeleterow
      grind [Table.setAt_fields, Table.setForwarder_fields]
  | commitRollbackUnlock r s cmd =>
      simp only [Table.step, Table.exec, Option.map_map,
        Option.map_eq_some_iff] at h
      obtain ⟨t₁, h1, rfl⟩ := h
      exact finish_nextrowid h1

theorem step_kept {t t' : Table} {op : TableOp} (h : Kept t)
    (hnew : ∀ r s row, op = .newrow r s row → r ≤ t.nextrowid)
    (hs : t.step op = some t') : Kept t' := by
  obtain ⟨hsep, hcells⟩ := step_refines h.sep hs
  refine ⟨hsep, fun r hr => ?_⟩
  rw [step_nextrowid hs] at hr
  refine run_cellOps_induct (P := fun c => c.row = none) ?_ ?_
    (h.fresh r hr) (hcells r)
  · intro c c' lt s _ hc hsel
    exact (select_relocked hsel).rowNone hc
  · intro cop c₁ hmem hcop
    cases hrow : c₁.row with
    | none => rfl
    | some d =>
        obtain ⟨s, row, rfl⟩ := cellStep_row_none (h.fresh r hr) hcop hrow
        have := hnew r s row (newrow_of_mem_cellOps hmem)
        omega

theorem step_latest {t t' : Table} {op : TableOp} {r q v : Int} (h : Kept t)
    (hheld : heldCell (cell t r) q = some v)
    (hnew : ∀ s row, op ≠ .newrow r s row)
    (hfin : ∀ s cmd, op = .commitRollbackUnlock r s cmd → s ≠ q)
    (hs : t.step op = some t') : heldCell (cell t' r) q = some v := by
  refine run_cellOps_induct (P := fun c => heldCell c q = some v) ?_ ?_
    hheld ((step_refines h.sep hs).2 r)
  · intro c c' lt s _ hc hsel
    exact @cellStep_latest _ _ _ _ (.select lt s) hc (fun _ _ => by simp)
      (fun _ _ heq => absurd heq (by simp)) hsel
  · intro cop c₁ hmem hcop
    refine cellStep_latest hheld ?_ ?_ hcop
    · intro s row heq
      exact hnew s row (newrow_of_mem_cellOps (heq ▸ hmem))
    · intro s cmd heq
      exact hfin s cmd (finish_of_mem_cellOps (heq ▸ hmem))

/-! ## The invariant -/

variable {ld : LongDouble} {top : Topology} {schema : Int → List Field}
  {subs : Subtransactions} {s s' : Versions} {x : Int} {uur : UuRecord}

/-- The message is the NEWROW of a row that is to be replaced. -/
def Replaces (m : Sent) (uur : UuRecord) : Prop :=
  (∃ tableid row, m.cmd = .newrow tableid row) ∧ m.originalrowuur = some uur

theorem replacement_of_replaces {t : Tables} {m : Sent} (h : Replaces m uur) :
    ∃ n, replacement t m = some (uur, n) := by
  obtain ⟨⟨tableid, row, hcmd⟩, huur⟩ := h
  exact ⟨_, by rw [replacement, hcmd, huur]⟩

/-- A row that is staged to be changed: it is locked, its number is staged,
and so is its rowid, if that is not on its way. -/
structure Anchored (subs : Subtransactions) (s : Tables) (x : Int)
    (uur : UuRecord) (srow : StagedRow) : Prop where
  previous : heldPrevious s subs x uur = some srow.previoussubtransactionid
  deleted : srow.cmd = .delete → srow.originalrowid = uur.rowid
  kept : srow.cmd ≠ .delete → srow.newrowid = uur.rowid ∨
    ∃ m ∈ s.sent, m.transactionid = x ∧ Replaces m uur

structure AnchorInv (subs : Subtransactions) (s : Versions) : Prop where
  kept : ∀ e tableid, Kept (s.tables.store e tableid)
  anchored : ∀ x, s.ended x = false → ∀ uur srow,
    s.tables.stagedRows x uur = some srow → srow.cmd ≠ .nocommand →
    Anchored subs s.tables x uur srow

theorem kept_new (tableid n : Int) : Kept (.new tableid n) where
  sep := sep_new tableid n
  fresh _ _ := rfl

theorem anchorInv_new : AnchorInv subs Versions.new where
  kept _ tableid := kept_new tableid 0
  anchored _ _ _ _ h := absurd h (by simp [Versions.new, Tables.new])

theorem heldPrevious_eq_heldCell {t : Tables} :
    heldPrevious t subs x uur = heldCell
      (cell (t.store uur.engineid uur.tableid) uur.rowid)
      (subs.id x uur.engineid) := rfl

/-- A store changes, and the rows that are staged to be changed stay held. -/
theorem AnchorInv.setStore (h : AnchorInv subs s) {e tableid : Int} {t : Table}
    (hkept : Kept t)
    (hheld : ∀ x r v, s.ended x = false →
      StagedChange s.tables x ⟨r, tableid, e⟩ →
      heldCell (cell (s.tables.store e tableid) r) (subs.id x e) = some v →
      heldCell (cell t r) (subs.id x e) = some v) :
    AnchorInv subs { s with tables := s.tables.setStore e tableid t } := by
  constructor
  · intro e' tableid'
    simp only [Tables.setStore]
    by_cases he : e' = e
    · subst he
      rw [Function.update_self]
      by_cases htab : tableid' = tableid
      · subst htab
        rw [Function.update_self]
        exact hkept
      · rw [Function.update_of_ne htab]
        exact h.kept e' tableid'
    · rw [Function.update_of_ne he]
      exact h.kept e' tableid'
  · intro x hx uur srow hstaged hcmd
    have hold := h.anchored x hx uur srow hstaged hcmd
    refine ⟨?_, hold.deleted, hold.kept⟩
    have hprev := hold.previous
    rw [heldPrevious_eq_heldCell] at hprev ⊢
    obtain ⟨r, tableid', e'⟩ := uur
    simp only [Tables.setStore]
    by_cases he : e' = e
    · subst he
      rw [Function.update_self]
      by_cases htab : tableid' = tableid
      · subst htab
        rw [Function.update_self]
        exact hheld x r _ hx ⟨srow, hstaged, hcmd⟩ hprev
      · rw [Function.update_of_ne htab]
        exact hprev
    · rw [Function.update_of_ne he]
      exact hprev

theorem stagedRows_stage {t : Tables} {x' : Int} {uur' : UuRecord}
    {srow srow' : StagedRow}
    (h : (t.stage x uur srow).stagedRows x' uur' = some srow') :
    x' = x ∧ uur' = uur ∧ srow' = srow ∨
      t.stagedRows x' uur' = some srow' := by
  by_cases hx : x' = x
  · subst hx
    simp only [Tables.stage, Function.update_self] at h
    by_cases hu : uur' = uur
    · subst hu
      rw [Function.update_self] at h
      exact .inl ⟨rfl, rfl, (Option.some.inj h).symm⟩
    · rw [Function.update_of_ne hu] at h
      exact .inr h
  · simp only [Tables.stage, Function.update_of_ne hx] at h
    exact .inr h

theorem AnchorInv.stage (h : AnchorInv subs s) {srow : StagedRow}
    (hrow : s.ended x = false → srow.cmd ≠ .nocommand →
      Anchored subs s.tables x uur srow) :
    AnchorInv subs { s with tables := s.tables.stage x uur srow } := by
  refine ⟨h.kept, fun x' hx' uur' srow' hstaged hcmd => ?_⟩
  have hanchored : Anchored subs s.tables x' uur' srow' := by
    rcases stagedRows_stage hstaged with ⟨rfl, rfl, rfl⟩ | hstaged
    · exact hrow hx' hcmd
    · exact h.anchored x' hx' uur' srow' hstaged hcmd
  exact ⟨hanchored.previous, hanchored.deleted, hanchored.kept⟩

theorem AnchorInv.send (h : AnchorInv subs s) (sent : List Sent) :
    AnchorInv subs { s with tables := s.tables.send sent } := by
  refine ⟨h.kept, fun x hx uur srow hstaged hcmd => ?_⟩
  have hold := h.anchored x hx uur srow hstaged hcmd
  refine ⟨hold.previous, hold.deleted, fun hdel => ?_⟩
  rcases hold.kept hdel with hrow | ⟨m, hm, hmx, hreplaces⟩
  · exact .inl hrow
  · exact .inr ⟨m, List.mem_append_left _ hm, hmx, hreplaces⟩

theorem mem_eraseIdx_or_eq {α : Type} {l : List α} {n : Nat} {a : α}
    (ha : l[n]? = some a) : ∀ b ∈ l, b = a ∨ b ∈ l.eraseIdx n := by
  intro b hb
  obtain ⟨i, hi⟩ := List.getElem?_of_mem hb
  by_cases hin : i = n
  · rw [hin, ha] at hi
    exact .inl (Option.some.inj hi).symm
  · exact .inr (List.mem_eraseIdx_iff_getElem?.mpr ⟨i, hin, hi⟩)

/-- A message is gone that has done what it was for. -/
theorem AnchorInv.drop (h : AnchorInv subs s) (m : Sent) {l : List Sent}
    (hl : ∀ m' ∈ s.tables.sent, m' = m ∨ m' ∈ l)
    (hdone : ∀ uur srow, Replaces m uur →
      s.tables.stagedRows m.transactionid uur = some srow →
      srow.newrowid = uur.rowid) :
    AnchorInv subs { s with tables := { s.tables with sent := l } } := by
  refine ⟨h.kept, fun x hx uur srow hstaged hcmd => ?_⟩
  have hold := h.anchored x hx uur srow hstaged hcmd
  refine ⟨hold.previous, hold.deleted, fun hdel => ?_⟩
  rcases hold.kept hdel with hrow | ⟨m', hm', hmx, hreplaces⟩
  · exact .inl hrow
  · rcases hl m' hm' with rfl | hmem
    · exact .inl (hdone uur srow hreplaces (hmx ▸ hstaged))
    · exact .inr ⟨m', hmem, hmx, hreplaces⟩

/-! ## Each step -/

/-- A call on a store by a transaction that has ended, or on a row that it has
not staged to be changed, or that ends no row. -/
theorem AnchorInv.call (h : AnchorInv subs s) (e tableid : Int) (op : TableOp)
    {t : Table} (hnew : ∀ r q row, op ≠ .newrow r q row)
    (hfin : ∀ x r cmd, s.ended x = false →
      StagedChange s.tables x ⟨r, tableid, e⟩ →
      op ≠ .commitRollbackUnlock r (subs.id x e) cmd)
    (hs : (s.tables.store e tableid).step op = some t) :
    AnchorInv subs { s with tables := s.tables.setStore e tableid t } := by
  have hkept := h.kept e tableid
  refine h.setStore ?_ fun x r v hx hchange hheld => ?_
  · exact step_kept hkept (fun r q row heq => absurd heq (hnew r q row)) hs
  · refine step_latest hkept hheld (fun q row => hnew r q row) ?_ hs
    intro q cmd heq hq
    exact hfin x r cmd hx hchange (hq ▸ heq)

theorem AnchorInv.finishRow (h : AnchorInv subs s) {cmd : Enginecmd}
    (hfin : s.ended x = true ∨ ¬ StagedChange s.tables x uur)
    (hs : s.finishRow subs x uur cmd = some s') : AnchorInv subs s' := by
  obtain ⟨t, ht, rfl⟩ := Option.map_eq_some_iff.mp hs
  refine h.call uur.engineid uur.tableid (.commitRollbackUnlock uur.rowid
    (subs.id x uur.engineid) cmd) (fun _ _ _ => by simp) ?_ ?_
  · intro x' r cmd' hx' hchange heq
    injection heq with hr hsub hcmd
    obtain rfl : x = x' := subs.injective uur.engineid hsub
    rcases hfin with hended | hfree
    · exact absurd hx' (by rw [hended]; simp)
    · exact hfree (by rw [← hr] at hchange; exact hchange)
  · rw [Table.step, Table.exec, ht]
    rfl

/-- Rows staged one after another, where the stores stay as they are. -/
theorem AnchorInv.foldl {α : Type} {f : Tables → α → Tables} {xs : List α}
    {P : Tables → Prop}
    (hf : ∀ t, ∀ a ∈ xs, AnchorInv subs { s with tables := t } → P t →
      AnchorInv subs { s with tables := f t a } ∧ P (f t a)) :
    ∀ {t : Tables}, AnchorInv subs { s with tables := t } → P t →
      AnchorInv subs { s with tables := xs.foldl f t } := by
  induction xs with
  | nil => exact fun h _ => h
  | cons a xs ih =>
      intro t h hp
      obtain ⟨h1, hp1⟩ := hf t a List.mem_cons_self h hp
      exact ih (fun t b hb => hf t b (List.mem_cons_of_mem _ hb)) h1 hp1

theorem AnchorInv.stageSelected {t : Tables}
    (h : AnchorInv subs { s with tables := t }) (p : UuRecord × ReturnRow) :
    AnchorInv subs { s with tables := t.stageSelected x p } := by
  rw [Tables.stageSelected]
  split
  · exact h
  · exact h.stage (s := { s with tables := t }) fun _ hcmd =>
      absurd rfl hcmd

/-- The rows of a DELETE keep what they were staged with. -/
theorem AnchorInv.continueDelete (h : AnchorInv subs s)
    {rows : List (UuRecord × ReturnRow)} {t : Tables}
    (hok : Carried subs s (.statement (.continueDelete x rows)))
    (ht : rows.foldl (Tables.stageDeleted · x ·) s.tables = t) :
    AnchorInv subs { s with tables := t } := by
  rw [← ht]
  refine AnchorInv.foldl (P := fun t => t.store = s.tables.store ∧
    ∀ p ∈ rows, ∃ srow ∈ t.stagedRows x p.1, srow.originalrowid = p.1.rowid ∧
      heldPrevious t subs x p.1 = some srow.previoussubtransactionid) ?_ h
    ⟨rfl, hok⟩
  intro t p hp hinv ⟨hstore, hrows⟩
  obtain ⟨srow, hsrow, hrowid, hprev⟩ := hrows p hp
  have hsrow : t.stagedRows x p.1 = some srow := hsrow
  have hdeleted : t.stageDeleted x p = t.stage x p.1
      { srow with cmd := .delete, originalRow := p.2.row } := by
    rw [Tables.stageDeleted, hsrow]
    rfl
  rw [hdeleted]
  refine ⟨hinv.stage (s := { s with tables := t }) fun _ _ =>
    ⟨hprev, fun _ => hrowid, fun hcmd => absurd rfl hcmd⟩, hstore, ?_⟩
  intro p' hp'
  obtain ⟨srow', hsrow', hrowid', hprev'⟩ := hrows p' hp'
  have hsrow' : t.stagedRows x p'.1 = some srow' := hsrow'
  by_cases heq : p'.1 = p.1
  · refine ⟨{ srow with cmd := .delete, originalRow := p.2.row }, ?_, ?_, ?_⟩
    · rw [heq]
      simp [Tables.stage]
    · rw [heq]
      exact hrowid
    · rw [heq]
      exact hprev
  · refine ⟨srow', ?_, hrowid', hprev'⟩
    simp [Tables.stage, heq, hsrow']

/-- What an UPDATE makes of a row names it, or sends for the name. -/
theorem updatedRow_names {tableid : Int}
    {fields : List Field} {stagedRows : UuRecord → StagedRow}
    {setFields : Statement.SetFields} {p : UuRecord × ReturnRow}
    {q : UuRecord × Statement.Updated}
    (hq : q = updatedRow top tableid fields stagedRows setFields p) :
    q.1 = p.1 ∧ q.2.stagedRow.cmd = .update ∧
      q.2.stagedRow.previoussubtransactionid =
        p.2.previoussubtransactionid ∧
      (q.2.stagedRow.newrowid = p.1.rowid ∨
        ∃ m ∈ q.2.sent, ∃ tableid row, m.2 = .newrow tableid row) := by
  rw [hq, updatedRow]
  split
  · exact ⟨rfl, rfl, rfl, .inl rfl⟩
  · refine ⟨rfl, rfl, rfl, .inr ⟨_, List.mem_singleton_self _, ?_⟩⟩
    exact ⟨_, _, rfl⟩

theorem mem_continueUpdate {tableid : Int} {fields : List Field}
    {parameters : List Bytes} {stagedRows : UuRecord → StagedRow}
    {rows : List (UuRecord × ReturnRow)} :
    ∀ {assignments : Statement.Assignments} {setFields : Statement.SetFields}
      {staged : List (UuRecord × Statement.Updated)},
      Statement.continueUpdate ld top tableid fields parameters stagedRows
        assignments setFields rows = some staged →
      ∀ q ∈ staged, ∃ p ∈ rows, ∃ setFields,
        q = updatedRow top tableid fields stagedRows setFields p := by
  induction rows with
  | nil =>
      intro assignments setFields staged h q hq
      injection h with h
      rw [← h] at hq
      exact absurd hq (by simp)
  | cons p rest ih =>
      intro assignments setFields staged h q hq
      rw [Statement.continueUpdate] at h
      split at h
      · exact absurd h (by simp)
      · next updated assignments' setFields' hrow =>
          obtain ⟨staged', hrest, rfl⟩ := Option.map_eq_some_iff.mp h
          rcases List.mem_cons.mp hq with rfl | hq
          · exact ⟨p, List.mem_cons_self, setFields',
              (updateRow_eq_some hrow).2⟩
          · obtain ⟨p', hp', hmade⟩ := ih hrest q hq
            exact ⟨p', List.mem_cons_of_mem _ hp', hmade⟩

/-- A message of an UPDATE. -/
def updateSent (x : Int) (uur : UuRecord)
    (m : Int × Statement.SubtransactionCmd) : Sent where
  transactionid := x
  engineid := m.1
  cmd := m.2
  originalrowuur := some uur

theorem AnchorInv.stageUpdated {t : Tables}
    (h : AnchorInv subs { s with tables := t })
    {q : UuRecord × Statement.Updated} {p : UuRecord × ReturnRow}
    (hprev : heldPrevious t subs x p.1 =
      some p.2.previoussubtransactionid)
    (huur : q.1 = p.1)
    (hnumber : q.2.stagedRow.previoussubtransactionid =
      p.2.previoussubtransactionid)
    (hcmd : q.2.stagedRow.cmd = .update)
    (hrowid : q.2.stagedRow.newrowid = p.1.rowid ∨
      ∃ m ∈ q.2.sent, ∃ tableid row, m.2 = .newrow tableid row) :
    AnchorInv subs { s with tables := t.stageUpdated x q } := by
  have hsend := h.send (q.2.sent.map (updateSent x q.1))
  show AnchorInv subs { s with tables :=
    (t.send (q.2.sent.map (updateSent x q.1))).stage x q.1 q.2.stagedRow }
  refine hsend.stage fun _ _ => ⟨?_, ?_, fun _ => ?_⟩
  · rw [huur, hnumber]
    exact hprev
  · rw [hcmd]
    exact fun heq => absurd heq (by simp)
  · rcases hrowid with hrowid | ⟨m, hm, hnewrow⟩
    · exact .inl (by rw [hrowid, huur])
    · refine .inr ⟨_, List.mem_append_right _ (List.mem_map_of_mem hm), rfl,
        hnewrow, rfl⟩

theorem AnchorInv.update (h : AnchorInv subs s) {tableid : Int}
    {parameters : List Bytes} {assignments : Statement.Assignments}
    {rows : List (UuRecord × ReturnRow)} {status : Apistatus} {t : Tables}
    (hok : Carried subs s
      (.statement (.update x tableid parameters assignments rows)))
    (hs : s.tables.exec ld top schema subs.id
      (.update x tableid parameters assignments rows) = some (status, t)) :
    AnchorInv subs { s with tables := t } := by
  rw [Tables.exec] at hs
  split at hs
  · split at hs
    · exact absurd hs (by simp)
    · next staged hstaged =>
        split at hs
        · obtain ⟨_, rfl⟩ := Prod.mk.inj (Option.some.inj hs)
          refine AnchorInv.foldl
            (P := fun t => t.store = s.tables.store) ?_ h rfl
          intro t q hq hinv hstore
          obtain ⟨p, hp, setFields, hmade⟩ := mem_continueUpdate hstaged q hq
          obtain ⟨huur, hcmd, hnumber, hrowid⟩ :=
            updatedRow_names hmade
          refine ⟨hinv.stageUpdated ?_ huur hnumber hcmd hrowid, hstore⟩
          have hprev := hok p hp
          rw [heldPrevious] at hprev ⊢
          rw [hstore]
          exact hprev
        · exact absurd hs (by simp)
  · exact absurd hs (by simp)

/-! ## What arrives -/

theorem receive_sent (t : Tables) (ids : Int → Int → Int) (m : Sent)
    (l : List Sent) : { t with sent := l }.receive ids m =
      { t.receive ids m with sent := l } := by
  obtain ⟨y, e, cmd, original⟩ := m
  cases cmd <;> cases original <;> rfl

theorem kept_getnextrowid {t : Table} (h : Kept t) :
    Kept t.getnextrowid.2 where
  sep := ⟨h.sep.1, h.sep.2, h.sep.3, h.sep.4, h.sep.5⟩
  fresh r hr := h.fresh r (by simp only [Table.getnextrowid] at hr; omega)

theorem heldCell_newrow {t : Table} {r q : Int} {row : Bytes} :
    heldCell (cell (t.newrow r q row) r) q = some 0 := by
  rw [cell_newrow]
  exact heldCell_eq_some.mpr
    ⟨_, rfl, writeLockedBy_iff.mpr ⟨by simp, rfl⟩, rfl⟩

/-- A new row has a rowid that no row has. -/
theorem AnchorInv.newrow (h : AnchorInv subs s) (e tableid q : Int)
    (row : Bytes) {t : Table}
    (ht : (s.tables.store e tableid).getnextrowid.2.newrow
      ((s.tables.store e tableid).nextrowid + 1) q row = t) :
    AnchorInv subs { s with tables := s.tables.setStore e tableid t } := by
  have hold := h.kept e tableid
  have hkept := kept_getnextrowid hold
  have hstep : (s.tables.store e tableid).getnextrowid.2.step
      (.newrow ((s.tables.store e tableid).nextrowid + 1) q row) =
        some t := congrArg some ht
  refine h.setStore (step_kept hkept ?_ hstep) fun x r v _ _ hheld => ?_
  · intro r q' row' heq
    injection heq with hr
    exact hr ▸ Int.le_refl _
  · refine step_latest hkept hheld (fun q' row' heq => ?_)
      (fun _ _ heq => absurd heq (by simp)) hstep
    injection heq with hr
    obtain ⟨d, hd, _⟩ := heldCell_eq_some.mp hheld
    have hnone := hold.fresh r (by omega)
    rw [hd] at hnone
    exact absurd hnone (by simp)

theorem heldPrevious_setStore {t : Tables} {e tableid r : Int} {u : Table} :
    heldPrevious (t.setStore e tableid u) subs x ⟨r, tableid, e⟩ =
      heldCell (cell u r) (subs.id x e) := by
  rw [heldPrevious_eq_heldCell]
  simp only [Tables.setStore, Function.update_self]

/-- The reply to a NEWROW. -/
theorem AnchorInv.stageNewrow (h : AnchorInv subs s) (tableid : Int)
    (row : Bytes) {m : Sent} {rowid : Int}
    (hheld : heldPrevious s.tables subs m.transactionid
      ⟨rowid, tableid, m.engineid⟩ = some 0)
    (hok : ∀ uur, m.originalrowuur = some uur → rowid = uur.rowid) :
    AnchorInv subs
      { s with tables := s.tables.stageNewrow m tableid rowid row } := by
  rw [Tables.stageNewrow]
  split
  · exact h.stage fun _ _ =>
      ⟨hheld, fun hcmd => absurd hcmd (by simp), fun _ => .inl rfl⟩
  · next uur huur =>
      refine h.stage fun hx hcmd => ?_
      cases hstaged : s.tables.stagedRows m.transactionid uur with
      | none =>
          rw [hstaged] at hcmd
          exact absurd rfl hcmd
      | some srow =>
          rw [hstaged] at hcmd
          have hold := h.anchored _ hx uur srow hstaged hcmd
          exact ⟨hold.previous, hold.deleted, fun _ => .inl (hok uur huur)⟩

theorem sent_stageNewrow (t : Tables) (m : Sent) (tableid rowid : Int)
    (row : Bytes) : (t.stageNewrow m tableid rowid row).sent = t.sent := by
  rw [Tables.stageNewrow]
  split <;> rfl

theorem stagedRows_stageNewrow {t : Tables} {m : Sent} {tableid rowid : Int}
    {row : Bytes} {srow : StagedRow} (huur : m.originalrowuur = some uur)
    (hstaged : (t.stageNewrow m tableid rowid row).stagedRows m.transactionid
      uur = some srow) : srow.newrowid = rowid := by
  rw [Tables.stageNewrow, huur] at hstaged
  simp only [Tables.stage, Function.update_self, Option.some.injEq] at hstaged
  rw [← hstaged]

theorem AnchorInv.deliver (h : AnchorInv subs s) {n : Nat} {m : Sent}
    {t : Tables} (hm : s.tables.sent[n]? = some m)
    (hok : ∀ p ∈ replacement s.tables m, p.2 = p.1.rowid)
    (ht : { s.tables with sent := s.tables.sent.eraseIdx n }.receive subs.id
      m = t) : AnchorInv subs { s with tables := t } := by
  rw [receive_sent] at ht
  subst ht
  obtain ⟨y, e, cmd, original⟩ := m
  cases cmd with
  | newrow tableid row =>
      have hrow : ∀ uur, original = some uur →
          (s.tables.store e tableid).nextrowid + 1 = uur.rowid := by
        rintro uur rfl
        exact hok (uur, _) rfl
      have hnew := h.newrow e tableid (subs.id y e) row rfl
      have hinv := hnew.stageNewrow tableid row
        (m := ⟨y, e, .newrow tableid row, original⟩)
        (heldPrevious_setStore.trans heldCell_newrow) hrow
      refine hinv.drop ⟨y, e, .newrow tableid row, original⟩ ?_ ?_
      · rw [sent_stageNewrow]
        exact mem_eraseIdx_or_eq hm
      intro uur srow hreplaces hstaged
      rw [stagedRows_stageNewrow hreplaces.2 hstaged]
      exact hrow uur hreplaces.2
  | updaterow tableid rowid row =>
      have hinv := h.call e tableid (.updaterow rowid (subs.id y e) row)
        (fun _ _ _ => by simp) (fun _ _ _ _ _ => by simp) rfl
      refine hinv.drop _ (mem_eraseIdx_or_eq hm) fun uur srow hreplaces _ => ?_
      obtain ⟨⟨_, _, hcmd⟩, _⟩ := hreplaces
      exact absurd hcmd (by simp)
  | uniqueindex tableid rowid engineid fieldid val =>
      refine h.drop _ (mem_eraseIdx_or_eq hm) fun uur srow hreplaces _ => ?_
      obtain ⟨⟨_, _, hcmd⟩, _⟩ := hreplaces
      exact absurd hcmd (by simp)

theorem AnchorInv.setEnded (h : AnchorInv subs s) (x : Int) :
    AnchorInv subs (s.setEnded x) := by
  refine ⟨h.kept, fun x' hx' uur srow hstaged hcmd => ?_⟩
  have hrunning : s.ended x' = false := by
    by_cases heq : x' = x
    · rw [Versions.setEnded, heq] at hx'
      simp at hx'
    · simpa [Versions.setEnded, heq] using hx'
  have hold := h.anchored x' hrunning uur srow hstaged hcmd
  exact ⟨hold.previous, hold.deleted, hold.kept⟩

theorem step_statement {op : TablesOp} {t : Tables} (h : AnchorInv subs s)
    (hok : Carried subs s (.statement op)) (hop : op.inStatement = true)
    (hs : s.tables.step ld top schema subs.id op = some t) :
    AnchorInv subs { s with tables := t } := by
  obtain ⟨⟨status, t'⟩, hexec, rfl⟩ := Option.map_eq_some_iff.mp hs
  cases op with
  | selectrows => exact absurd hop (by simp [TablesOp.inStatement])
  | findStaged x uur =>
      obtain ⟨srow, _, heq⟩ := Option.map_eq_some_iff.mp hexec
      obtain ⟨_, rfl⟩ := Prod.mk.inj heq
      exact ⟨h.kept, fun x hx uur srow hstaged hcmd =>
        let hold := h.anchored x hx uur srow hstaged hcmd
        ⟨hold.previous, hold.deleted, hold.kept⟩⟩
  | continueSelect x rows =>
      rw [Tables.exec] at hexec
      split at hexec
      · obtain ⟨_, rfl⟩ := Prod.mk.inj (Option.some.inj hexec)
        exact AnchorInv.foldl (P := fun _ => True)
          (fun t p _ hinv _ => ⟨hinv.stageSelected p, trivial⟩) h trivial
      · exact absurd hexec (by simp)
  | continueDelete x rows =>
      rw [Tables.exec] at hexec
      split at hexec
      · obtain ⟨_, ht⟩ := Prod.mk.inj (Option.some.inj hexec)
        exact h.continueDelete hok ht
      · exact absurd hexec (by simp)
  | insert x tableid operands =>
      rw [Tables.exec] at hexec
      split at hexec
      · exact absurd hexec (by simp)
      · obtain ⟨_, rfl⟩ := Prod.mk.inj (Option.some.inj hexec)
        exact h
      · split at hexec
        · exact absurd hexec (by simp)
        · split at hexec
          · obtain ⟨_, rfl⟩ := Prod.mk.inj (Option.some.inj hexec)
            exact h.send _
          · exact absurd hexec (by simp)
  | update x tableid parameters assignments rows => exact h.update hok hexec
  | deliver n =>
      rw [Tables.exec] at hexec
      split at hexec
      · exact absurd hexec (by simp)
      · next m hm =>
          obtain ⟨_, ht⟩ := Prod.mk.inj (Option.some.inj hexec)
          exact h.deliver hm (hok m hm) ht
  | call e tableid op =>
      cases op with
      | deleterow r q =>
          obtain ⟨_, rfl⟩ := Prod.mk.inj (Option.some.inj hexec)
          exact h.call e tableid (.deleterow r q) (fun _ _ _ => by simp)
            (fun _ _ _ _ _ => by simp) rfl
      | replacedeleterow r q fr fe =>
          obtain ⟨_, rfl⟩ := Prod.mk.inj (Option.some.inj hexec)
          exact h.call e tableid (.replacedeleterow r q fr fe)
            (fun _ _ _ => by simp) (fun _ _ _ _ _ => by simp) rfl
      | _ => exact absurd hop (by simp [TablesOp.inStatement])

/-- One step keeps the invariant. -/
theorem step_anchorInv {op : VersionsOp} (h : AnchorInv subs s)
    (hok : Carried subs s op)
    (hs : s.step ld top schema subs op = some s') : AnchorInv subs s' := by
  cases op with
  | selectrows x e tableid rowids locktype pc tc workrow =>
      rw [Versions.step] at hs
      split at hs
      · exact absurd hs (by simp)
      · obtain ⟨⟨hits, t⟩, hselect, rfl⟩ := Option.map_eq_some_iff.mp hs
        have hinv := h.call e tableid
          (.selectrows rowids locktype (subs.id x e) pc tc)
          (fun _ _ _ => by simp) (fun _ _ _ _ _ => by simp)
          (by rw [Table.step, Table.exec, hselect]; rfl)
        exact ⟨hinv.kept, fun x hx uur srow hstaged hcmd =>
          let hold := hinv.anchored x hx uur srow hstaged hcmd
          ⟨hold.previous, hold.deleted, hold.kept⟩⟩
  | statement op =>
      rw [Versions.step] at hs
      split at hs
      · next hguard =>
          obtain ⟨t, ht, rfl⟩ := Option.map_eq_some_iff.mp hs
          exact step_statement h hok hguard.1 ht
      · exact absurd hs (by simp)
  | rollbackRow x uur =>
      rw [Versions.step] at hs
      split at hs
      · exact absurd hs (by simp)
      · exact h.finishRow (.inr hok) hs
  | commit x | rollback x =>
      rw [Versions.step] at hs
      split at hs
      · exact absurd hs (by simp)
      · obtain rfl := Option.some.inj hs
        exact h.setEnded x
  | finish x e tableid rowid cmd =>
      rw [Versions.step] at hs
      split at hs
      · next hended => exact h.finishRow (.inl hended) hs
      · exact absurd hs (by simp)

/-! ## Runs -/

/-- The record of a row that is held, and whose rowid is not on its way. -/
theorem Anchored.names {t : Tables} {srow : StagedRow} {r : DispatchRecord}
    (h : Anchored subs t x uur srow)
    (hsent : ∀ m ∈ t.sent, m.transactionid = x → replacement t m = none)
    (hr : Transaction.dispatchRecord uur srow = some r) :
    NamesPredecessor t uur r := by
  obtain ⟨d, hd, _, hv⟩ := heldCell_eq_some.mp h.previous
  have hrowid : srow.cmd ≠ .delete → srow.newrowid = uur.rowid := by
    intro hdel
    rcases h.kept hdel with hrow | ⟨m, hm, hmx, hreplaces⟩
    · exact hrow
    · obtain ⟨n, hn⟩ := replacement_of_replaces (t := t) hreplaces
      rw [hsent m hm hmx] at hn
      exact absurd hn (by simp)
  rw [Transaction.dispatchRecord] at hr
  cases hcmd : srow.cmd <;> rw [hcmd] at hr
  case nocommand => exact absurd hr (by simp)
  case insert =>
    obtain rfl := Option.some.inj hr
    exact ⟨hrowid (by rw [hcmd]; simp), d, hd, hv.symm⟩
  case update =>
    obtain rfl := Option.some.inj hr
    exact ⟨hrowid (by rw [hcmd]; simp), d, hd, hv.symm⟩
  case delete =>
    obtain rfl := Option.some.inj hr
    exact ⟨h.deleted hcmd, d, hd, hv.symm⟩

theorem cmd_of_dispatchRecord {srow : StagedRow} {r : DispatchRecord}
    (hr : Transaction.dispatchRecord uur srow = some r) :
    srow.cmd ≠ .nocommand := by
  intro hcmd
  rw [Transaction.dispatchRecord, hcmd] at hr
  exact absurd hr (by simp)

theorem records_staged {t : Transaction} {msg : MessageDispatch}
    (hmsg : t.makeMessageDispatch = some msg) :
    ∀ p ∈ msg.records, ∀ r ∈ p.2, ∃ x ∈ t.stagedRows,
      x.1.engineid = p.1 ∧ Transaction.dispatchRecord x.1 x.2 = some r := by
  intro p hp r hr
  rw [Transaction.makeMessageDispatch] at hmsg
  split at hmsg
  · exact absurd hmsg (by simp)
  · obtain rfl := Option.some.inj hmsg
    have hmem : (p.1, r) ∈ recordPairs
        (Transaction.dispatchRecords t.stagedRows) :=
      List.mem_flatMap.mpr ⟨p, hp, List.mem_map_of_mem hr⟩
    have hmem := (dispatchRecords_perm t.stagedRows).1.mem_iff.mp hmem
    obtain ⟨x, hx, hrecord⟩ := List.mem_filterMap.mp hmem
    obtain ⟨r', hr', heq⟩ := Option.map_eq_some_iff.mp hrecord
    obtain ⟨he, rfl⟩ := Prod.mk.inj heq
    exact ⟨x, hx, he, hr'⟩

/-- Where the invariant holds, a commit dispatches true records. -/
theorem dispatches_of_anchorInv {op : VersionsOp} (h : AnchorInv subs s)
    (hok : Carried subs s op)
    (hs : s.step ld top schema subs op = some s') : Dispatches s op := by
  cases op with
  | commit x =>
      intro t htx hlists msg hmsg
      refine ⟨records_staged hmsg, fun p hp r hr => ?_⟩
      have hrunning : s.ended x = false := by
        rw [Versions.step] at hs
        split at hs
        · exact absurd hs (by simp)
        · next hended => simpa using hended
      have hstaged : s.tables.stagedRows x p.1 = some p.2 :=
        htx ▸ (hlists p.1 p.2).mp hp
      exact (h.anchored x hrunning p.1 p.2 hstaged
        (cmd_of_dispatchRecord hr)).names hok hr
  | _ => trivial

instance decidableCarried (subs : Subtransactions) (s : Versions) :
    (op : VersionsOp) → Decidable (Carried subs s op)
  | .statement (.update x _ _ _ rows) =>
      inferInstanceAs (Decidable (∀ p ∈ rows, heldPrevious s.tables subs x p.1 =
        some p.2.previoussubtransactionid))
  | .statement (.continueDelete x rows) =>
      inferInstanceAs (Decidable (∀ p ∈ rows,
        ∃ srow ∈ s.tables.stagedRows x p.1, srow.originalrowid = p.1.rowid ∧
          heldPrevious s.tables subs x p.1 =
            some srow.previoussubtransactionid))
  | .statement (.deliver n) =>
      inferInstanceAs (Decidable (∀ m ∈ s.tables.sent[n]?,
        ∀ p ∈ replacement s.tables m, p.2 = p.1.rowid))
  | .commit x =>
      inferInstanceAs (Decidable (∀ m ∈ s.tables.sent, m.transactionid = x →
        replacement s.tables m = none))
  | .rollbackRow x uur =>
      inferInstanceAs (Decidable
        (¬ ∃ srow ∈ s.tables.stagedRows x uur, srow.cmd ≠ .nocommand))
  | .statement (.selectrows ..) | .statement (.findStaged ..)
  | .statement (.continueSelect ..) | .statement (.insert ..)
  | .statement (.call ..) | .selectrows .. | .rollback _ | .finish .. =>
      inferInstanceAs (Decidable True)

/-- Subtransactions that have the numbers of their transactions. -/
def sameNumbers : Subtransactions where
  id x _ := x
  injective _ _ _ h := h

/-- What a search returns of the row (1, 5), where the work row has the right
number in it. -/
def lockedRow : UuRecord × ReturnRow :=
  (⟨1, 1, 0⟩, { rowid := 1, previoussubtransactionid := 1
                row := rowOfInts 1 5, locktype := .writeLock })

/-- Transaction 1 inserts (1, 5) and commits, and transaction 2 finds it. -/
def insertThenFind : List VersionsOp :=
  [.statement (.insert 1 1 [integerOperand 1, integerOperand 5]),
    .statement (.deliver 0), .commit 1, .finish 1 0 1 1 .commitCmd,
    .selectrows 2 0 1 [1] .writeLock 0 0 1]

/-- It updates the second field. -/
def thenUpdate : List VersionsOp :=
  insertThenFind ++ [.statement (.update 2 1 []
    [(1, .operand (integerOperand 6))] [lockedRow]), .statement (.deliver 0)]

/-- Or it deletes the row. -/
def thenDelete : List VersionsOp :=
  insertThenFind ++ [.statement (.continueDelete 2 [lockedRow]),
    .statement (.call 0 1 (.deleterow 1 2))]

def runVersions (ops : List VersionsOp) : Option Versions :=
  run (Versions.step constantLongDouble onePartition (fun _ => twoInts)
    sameNumbers) Versions.new ops

/-- The record of the row, as transaction 2 would dispatch it. -/
def dispatched (s : Versions) : Option DispatchRecord :=
  (s.tables.stagedRows 2 ⟨1, 1, 0⟩).bind
    (Transaction.dispatchRecord ⟨1, 1, 0⟩)

/-- The deleted row, as transaction 2 has staged it. -/
def deletedRow : StagedRow := { cmd := .delete, originalRow := rowOfInts 1 5 }

end Infinisql.Proofs
