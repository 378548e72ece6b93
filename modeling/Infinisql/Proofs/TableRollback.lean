import Infinisql.Proofs.TableInvariant
import Infinisql.Spec.History

/-!
# A rollback restores what the lock found

Staging never touches the content a row has in `rows`; what it changes is
the shadow, the delete flags and the forwarder, and all of these are found
only on rows that are write-locked. So between the moment a subtransaction
gets the lock and its rollback the row's object keeps its content, and the
rollback takes away the rest. What has to be shown is that nobody else gets
at the row in between: every call by another subtransaction leaves the cell
of a write-locked row exactly as it is (`cellStep_other`).

The content a rollback has to restore is the one the row had before it was
locked, and the lock may be taken at any point of the run. `beforeLock`
computes it: the row's object in the last state in which the subtransaction
did not hold it, or in the first state if it held it from the start.

A row the subtransaction inserted is simply gone again, from both maps.
-/

namespace Infinisql.Proofs

open Infinisql.Ref Infinisql.Spec Infinisql.Lib

/-! ## A write-locked row and the others -/

theorem ifHolder_of_not_held {c : Cell} {d : Rowdata} {s : Int}
    {f : Rowdata → Cell} (hd : c.row = some d)
    (hw : Table.writeLockedBy d s = false) : c.ifHolder s f = c := by
  simp [Cell.ifHolder, hd, hw]

/-- Calls by others leave a write-locked row as it is. -/
theorem cellStep_other {c c' : Cell} {d : Rowdata} {s : Int} {op : CellOp}
    (hd : c.row = some d) (hw : Table.writeLockedBy d s = true)
    (hsub : CellOp.sub op ≠ s) (hnew : ∀ s row, op ≠ .newrow s row)
    (h : cellStep c op = some c') : c' = c := by
  obtain ⟨hl, hs⟩ := writeLockedBy_iff.mp hw
  have hother : ∀ {s'}, s' ≠ s → Table.writeLockedBy d s' = false := by
    intro s' hne
    simp [Table.writeLockedBy, hs, Ne.symm hne]
  cases op with
  | newrow s' row => exact absurd rfl (hnew s' row)
  | select lt s' => exact select_of_writeLock hd hl h
  | updaterow s' row =>
      injection h with h
      exact h.symm.trans (ifHolder_of_not_held hd (hother hsub))
  | deleterow s' =>
      injection h with h
      exact h.symm.trans (ifHolder_of_not_held hd (hother hsub))
  | replacedeleterow s' f =>
      injection h with h
      exact h.symm.trans (ifHolder_of_not_held hd (hother hsub))
  | finish s' cmd =>
      have hfalse : Table.writeLockedBy d s' = false := hother hsub
      cases cmd with
      | commitCmd =>
          rcases commit_of_not_held hd (by simp [hfalse]) h with h | ⟨h, _⟩
          · exact h
          · exact absurd (hl.symm.trans h) (by simp)
      | rollbackCmd =>
          rcases rollback_cases hd h with ⟨_, h⟩ | ⟨h, _⟩
          · exact h
          · exact absurd ⟨fun h => hsub (h.symm.trans hs), hl⟩ h
      | unlockCmd =>
          simp only [cellStep, Cell.finish, Cell.unlock, hd] at h
          rw [if_pos (by simp [hl])] at h
          injection h with h
          exact h.symm
      | revertCmd =>
          injection h with h
          exact h.symm.trans (ifHolder_of_not_held hd hfalse)
      | noEngineCmd | newRow | uniqueIndex | updateRow | deleteRow
      | replaceDeleteRow | indexSearch | selectRows | searchReturn1 =>
          injection h with h
          exact h.symm

/-- The version of a row, as far as staging leaves it alone. -/
structure SameContent (d d' : Rowdata) : Prop where
  row : d'.row = d.row
  previous : d'.previoussubtransactionid = d.previoussubtransactionid
  insertflag : getinsertflag d'.flags = getinsertflag d.flags

theorem SameContent.refl (d : Rowdata) : SameContent d d := ⟨rfl, rfl, rfl⟩

theorem SameContent.trans {d d' d'' : Rowdata} (h : SameContent d d')
    (h' : SameContent d' d'') : SameContent d d'' :=
  ⟨h'.row.trans h.row, h'.previous.trans h.previous,
    h'.insertflag.trans h.insertflag⟩

/-- What the holder may call between locking and ending: everything but an
end command. -/
def CellOp.NotFinish (op : CellOp) : Prop := ∀ s cmd, op ≠ .finish s cmd

/-- The holder's own calls keep the lock and the content. -/
theorem cellStep_held {c c' : Cell} {d : Rowdata} {s : Int} {op : CellOp}
    (hd : c.row = some d) (hw : Table.writeLockedBy d s = true)
    (hfin : CellOp.sub op = s → CellOp.NotFinish op)
    (hnew : ∀ s row, op ≠ .newrow s row) (h : cellStep c op = some c') :
    ∃ d', c'.row = some d' ∧ Table.writeLockedBy d' s = true ∧
      SameContent d d' := by
  by_cases hsub : CellOp.sub op = s
  · obtain ⟨hl, hs⟩ := writeLockedBy_iff.mp hw
    cases op with
    | newrow s' row => exact absurd rfl (hnew s' row)
    | finish s' cmd => exact absurd rfl (hfin hsub s' cmd)
    | select lt s' =>
        exact ⟨d, select_of_writeLock hd hl h ▸ hd, hw, .refl d⟩
    | updaterow s' row =>
        obtain rfl : s' = s := hsub
        injection h with h
        refine ⟨d, ?_, hw, .refl d⟩
        rw [← h]
        simp [Cell.updaterow, Cell.ifHolder, hd, hw]
    | deleterow s' =>
        obtain rfl : s' = s := hsub
        injection h with h
        refine ⟨{ d with flags := setdeleteflag d.flags }, ?_, ?_, rfl, rfl, ?_⟩
        · rw [← h]
          simp [Cell.deleterow, Cell.ifHolder, Cell.setFlags, hd, hw]
        · exact writeLockedBy_iff.mpr ⟨by simp [hl], hs⟩
        · simp
    | replacedeleterow s' f =>
        obtain rfl : s' = s := hsub
        injection h with h
        refine ⟨{ d with
          flags := setreplacedeleteflag (setdeleteflag d.flags) }, ?_, ?_, rfl,
          rfl, ?_⟩
        · rw [← h]
          simp [Cell.replacedeleterow, Cell.ifHolder, Cell.setFlags, hd, hw]
        · exact writeLockedBy_iff.mpr ⟨by simp [hl], hs⟩
        · simp
  · exact ⟨d, cellStep_other hd hw hsub hnew h ▸ hd, hw, .refl d⟩

/-! ## Calls on the store -/

/-- `s` makes no end command, and no rowid in use is inserted again. -/
def LocksAndStages (s : Int) (t : Table) (op : TableOp) : Prop :=
  (op.sub = s → ∀ r s cmd, op ≠ .commitRollbackUnlock r s cmd) ∧
    NewrowOnFree t op

/-- `s` keeps a row it has write-locked, and the row keeps its content. -/
theorem step_held {t t' : Table} {s r : Int} {op : TableOp} {d : Rowdata}
    (hsep : Sep t) (hok : LocksAndStages s t op)
    (hd : (cell t r).row = some d) (hw : Table.writeLockedBy d s = true)
    (h : t.step op = some t') :
    ∃ d', (cell t' r).row = some d' ∧ Table.writeLockedBy d' s = true ∧
      SameContent d d' := by
  have hcop : ∀ {c c' : Cell} {cop : CellOp}, cop ∈ cellOps r op →
      (∃ d', c.row = some d' ∧ Table.writeLockedBy d' s = true ∧
        SameContent d d') → cellStep c cop = some c' →
      ∃ d', c'.row = some d' ∧ Table.writeLockedBy d' s = true ∧
        SameContent d d' := by
    rintro c c' cop hmem ⟨d', hd', hw', hsame⟩ hstep
    have hfin : CellOp.sub cop = s → CellOp.NotFinish cop := by
      rintro hsub s' cmd rfl
      exact hok.1 ((sub_of_mem_cellOps hmem).symm.trans hsub) r s' cmd
        (finish_of_mem_cellOps hmem)
    have hnew : ∀ s row, cop ≠ .newrow s row := by
      rintro s' row rfl
      have hfree := (hok.2 r s' row (newrow_of_mem_cellOps hmem)).1
      exact absurd ((cell_row_none hfree).symm.trans hd) (by simp)
    obtain ⟨d'', h1, h2, h3⟩ := cellStep_held hd' hw' hfin hnew hstep
    exact ⟨d'', h1, h2, hsame.trans h3⟩
  exact run_cellOps_induct (fun hmem hc hsel => hcop hmem hc hsel)
    (fun hmem hstep => hcop hmem ⟨d, hd, hw, .refl d⟩ hstep)
    ⟨d, hd, hw, .refl d⟩ ((step_refines hsep h).2 r)

theorem run_held {t t' : Table} {s r : Int} {ops : List TableOp} {d : Rowdata}
    (hsep : Sep t) (hok : AllSteps Table.step (LocksAndStages s) t ops)
    (hd : (cell t r).row = some d) (hw : Table.writeLockedBy d s = true)
    (h : run Table.step t ops = some t') :
    ∃ d', (cell t' r).row = some d' ∧ Table.writeLockedBy d' s = true ∧
      SameContent d d' := by
  refine (hok.run_induct (P := fun t => Sep t ∧ ∃ d', (cell t r).row = some d' ∧
    Table.writeLockedBy d' s = true ∧ SameContent d d') ?_
    ⟨hsep, d, hd, hw, .refl d⟩ h).2
  rintro t op t' hok ⟨hsep, d', hd', hw', hsame⟩ hstep
  obtain ⟨d'', h1, h2, h3⟩ := step_held hsep hok hd' hw' hstep
  exact ⟨(step_refines hsep hstep).1, d'', h1, h2, hsame.trans h3⟩

/-! ## What the lock found -/

/-- The object of row `r` in the last state of the run before `s` holds its
write lock; in the first one, if `s` holds it from the start. -/
def beforeLock (s r : Int) : Table → List TableOp → Option Rowdata
  | t, [] => (cell t r).row
  | t, op :: ops =>
      if History.heldBy (cell t r) s then (cell t r).row
      else
        match t.step op with
        | none => none
        | some t' =>
            if History.heldBy (cell t' r) s then (cell t r).row
            else beforeLock s r t' ops

theorem heldBy_iff {c : Cell} {s : Int} : History.heldBy c s = true ↔
    ∃ d, c.row = some d ∧ Table.writeLockedBy d s = true := by
  unfold History.heldBy
  cases c.row <;> simp

/-- Staging does not move the lock. -/
theorem ifHolder_writeLockedBy {c : Cell} {s s' : Int} {f : Rowdata → Cell}
    {d' : Rowdata}
    (hf : ∀ d d', c.row = some d → (f d).row = some d' →
      getlocktype d'.flags = getlocktype d.flags ∧
        d'.writelockHolder = d.writelockHolder)
    (hd' : (c.ifHolder s' f).row = some d')
    (hw' : Table.writeLockedBy d' s = true) : History.heldBy c s = true := by
  rw [heldBy_iff]
  unfold Cell.ifHolder at hd'
  split at hd'
  · exact ⟨d', hd', hw'⟩
  · next d hd =>
      split at hd'
      · obtain ⟨h1, h2⟩ := hf d d' hd hd'
        obtain ⟨h3, h4⟩ := writeLockedBy_iff.mp hw'
        exact ⟨d, hd, writeLockedBy_iff.mpr ⟨h1 ▸ h3, h2 ▸ h4⟩⟩
      · exact ⟨d', hd', hw'⟩

theorem dropReader_not_writeLock {c c' : Cell} {d d' : Rowdata} {s : Int}
    (hd : c.row = some d) (hl : getlocktype d.flags = .readLock)
    (h : c.dropReader d s = some c') (hd' : c'.row = some d') :
    getlocktype d'.flags ≠ .writeLock := by
  unfold Cell.dropReader at h
  split at h
  · exact absurd h (by simp)
  · split at h
    · injection h with h
      obtain rfl := Option.some.inj (hd.symm.trans (h ▸ hd'))
      simp [hl]
    · split at h <;> injection h with h <;> rw [← h] at hd' <;>
        injection hd' with hd' <;> rw [← hd']
      · simp
      · simp [hl]

/-- An end command leaves no write lock where it changes anything. -/
theorem finish_writeLockedBy {c c' : Cell} {s s' : Int} {cmd : Enginecmd}
    {d' : Rowdata} (h : c.finish s' cmd = some c') (hd' : c'.row = some d')
    (hw' : Table.writeLockedBy d' s = true) : History.heldBy c s = true := by
  have hl' := (writeLockedBy_iff.mp hw').1
  have hsame : c' = c → History.heldBy c s = true :=
    fun heq => heldBy_iff.mpr ⟨d', heq ▸ hd', hw'⟩
  cases hd : c.row with
  | none =>
      cases cmd <;> simp only [Cell.finish, Cell.commit, Cell.rollback,
        Cell.unlock, Cell.revert, Cell.ifHolder, hd, Option.some.injEq,
        reduceCtorEq] at h
      all_goals exact hsame h.symm
  | some d =>
      cases cmd with
      | commitCmd =>
          by_cases hw : Table.writeLockedBy d s' = true
          · rcases commit_of_held hd hw h with ⟨_, rfl⟩ | ⟨_, rfl⟩
            · exact absurd hd' (by simp)
            · injection hd' with hd'
              rw [← hd'] at hl'
              unfold Cell.installed at hl'
              split at hl' <;> simp at hl'
          · rcases commit_of_not_held hd hw h with heq | ⟨hl, hdrop⟩
            · exact hsame heq
            · exact absurd hl' (dropReader_not_writeLock hd hl hdrop hd')
      | rollbackCmd =>
          rcases rollback_cases hd h with ⟨_, heq⟩ |
            ⟨_, ⟨_, rfl⟩ | ⟨_, holders, _, rfl⟩⟩
          · exact hsame heq
          · exact absurd hd' (by simp)
          · injection hd' with hd'
            rw [← hd'] at hl'
            cases holders <;> simp at hl'
      | unlockCmd =>
          simp only [Cell.finish, Cell.unlock, hd] at h
          split at h
          · injection h with h
            exact hsame h.symm
          · next hl =>
              exact absurd hl' (dropReader_not_writeLock hd (not_not.mp hl) h
                hd')
      | revertCmd =>
          injection h with h
          simp only [Cell.revert, Cell.ifHolder, hd] at h
          split at h
          · rw [← h] at hd'
            simp only [] at hd'
            split at hd'
            · exact absurd hd' (by simp)
            · injection hd' with hd'
              rw [← hd'] at hl'
              exact absurd hl' (by simp)
          · exact hsame h.symm
      | noEngineCmd | newRow | uniqueIndex | updateRow | deleteRow
      | replaceDeleteRow | indexSearch | selectRows | searchReturn1 =>
          injection h with h
          exact hsame h.symm

/-- A call that gives `s` a write lock is an insert or a select. -/
theorem cellStep_locks {c c' : Cell} {s : Int} {op : CellOp} {d' : Rowdata}
    (hnot : ¬ History.heldBy c s = true) (hd' : c'.row = some d')
    (hw' : Table.writeLockedBy d' s = true) (h : cellStep c op = some c') :
    (∃ s row, op = .newrow s row) ∨ ∃ lt s, op = .select lt s := by
  cases op with
  | newrow s' row => exact .inl ⟨s', row, rfl⟩
  | select lt s' => exact .inr ⟨lt, s', rfl⟩
  | updaterow s' row =>
      injection h with h
      refine absurd (ifHolder_writeLockedBy ?_ (h ▸ hd') hw') hnot
      intro d d' hd hd'
      obtain rfl := Option.some.inj (hd.symm.trans hd')
      exact ⟨rfl, rfl⟩
  | deleterow s' =>
      injection h with h
      refine absurd (ifHolder_writeLockedBy ?_ (h ▸ hd') hw') hnot
      intro d d' hd hd'
      injection hd' with hd'
      exact hd' ▸ ⟨by simp, rfl⟩
  | replacedeleterow s' f =>
      injection h with h
      refine absurd (ifHolder_writeLockedBy ?_ (h ▸ hd') hw') hnot
      intro d d' hd hd'
      injection hd' with hd'
      exact hd' ▸ ⟨by simp, rfl⟩
  | finish s' cmd => exact absurd (finish_writeLockedBy h hd' hw') hnot

theorem Relocked.trans {c c' c'' : Cell} (h : Relocked c c')
    (h' : Relocked c' c'') : Relocked c c'' where
  shadow := h'.shadow.trans h.shadow
  forwarder := h'.forwarder.trans h.forwarder
  rowNone hn := h'.rowNone (h.rowNone hn)
  rowSome hd := by
    obtain ⟨d', hd', h1⟩ := h.rowSome hd
    obtain ⟨d'', hd'', h2⟩ := h'.rowSome hd'
    exact ⟨d'', hd'', h2.row.trans h1.row, h2.previous.trans h1.previous,
      h2.insertflag.trans h1.insertflag, h2.deleteflag.trans h1.deleteflag,
      h2.replaceflag.trans h1.replaceflag⟩

theorem run_select_relocked {c c' : Cell} {lt : Locktype} {s : Int}
    {ops : List CellOp} (hall : ∀ op ∈ ops, op = .select lt s)
    (hrun : run cellStep c ops = some c') : Relocked c c' := by
  refine run_induct (P := Relocked c) (Q := fun op => op = CellOp.select lt s)
    ?_ hall (.refl c) hrun
  rintro c cop c' rfl hrel hsel
  exact hrel.trans (select_relocked hsel)

/-- The step that gets the lock: an insert, or a select on a row nobody had
write-locked. -/
theorem step_locks {t t' : Table} {s r : Int} {op : TableOp} {d' : Rowdata}
    (hsep : Sep t) (hc : StagingInv (cell t r))
    (hnot : ¬ History.heldBy (cell t r) s = true)
    (hd' : (cell t' r).row = some d')
    (hw' : Table.writeLockedBy d' s = true) (h : t.step op = some t') :
    ((∃ row, op = .newrow r s row) ∧ getinsertflag d'.flags = true) ∨
      ∃ d, (cell t r).row = some d ∧ SameContent d d' ∧
        getinsertflag d.flags = false := by
  have hrun : run cellStep (cell t r) (cellOps r op) = some (cell t' r) :=
    (step_refines hsep h).2 r
  have hkind : (∃ s' row, op = .newrow r s' row) ∨
      ∃ lt s', ∀ cop ∈ cellOps r op, cop = .select lt s' := by
    rcases cellOps_cases r op with hsel | ⟨cop, hcop⟩
    · exact .inr hsel
    · rw [hcop] at hrun
      obtain ⟨c₁, h1, h2⟩ := run_cons.mp hrun
      injection h2 with h2
      rcases cellStep_locks hnot hd' hw' (h2 ▸ h1) with
        ⟨s', row, rfl⟩ | ⟨lt, s', rfl⟩
      · exact .inl ⟨s', row, newrow_of_mem_cellOps
          (hcop ▸ List.mem_cons_self)⟩
      · exact .inr ⟨lt, s', by simp [hcop]⟩
  rcases hkind with ⟨s', row, rfl⟩ | ⟨lt, s', hall⟩
  · injection h with h
    rw [← h, cell_newrow] at hd'
    injection hd' with hd'
    obtain rfl : s' = s := by
      rw [← hd'] at hw'
      exact (writeLockedBy_iff.mp hw').2
    exact .inl ⟨⟨row, rfl⟩, by simp [← hd']⟩
  · have hrel := run_select_relocked hall hrun
    cases hd : (cell t r).row with
    | none => exact absurd ((hrel.rowNone hd).symm.trans hd') (by simp)
    | some d =>
        obtain ⟨d₁, h1, hsame⟩ := hrel.rowSome hd
        obtain rfl := Option.some.inj (h1.symm.trans hd')
        have hl : getlocktype d.flags ≠ .writeLock := by
          intro hl
          have hkeep : cell t' r = cell t r := by
            refine run_induct (P := fun c => c = cell t r) (Q := fun op =>
              op = CellOp.select lt s') ?_ hall rfl hrun
            rintro c cop c' rfl hc hsel
            exact (select_of_writeLock (hc ▸ hd) hl hsel).trans hc
          exact hnot (heldBy_iff.mpr ⟨d₁, hkeep ▸ h1, hw'⟩)
        exact .inr ⟨d, rfl, ⟨hsame.row, hsame.previous, hsame.insertflag⟩,
          (hc.unlocked hd hl).2.1⟩

/-- A row `s` holds was its insert, in the run or before, or it is no insert
and has the content the lock found. -/
theorem held_cases {s r : Int} {ops : List TableOp} {t' : Table}
    {d' : Rowdata} (hd' : (cell t' r).row = some d')
    (hw' : Table.writeLockedBy d' s = true) : ∀ {t : Table}, Sep t →
      StagingInv (cell t r) →
      AllSteps Table.step (LocksAndStages s) t ops →
      run Table.step t ops = some t' →
      (getinsertflag d'.flags = true ∧ ((∃ row, .newrow r s row ∈ ops) ∨
          ∃ d, (cell t r).row = some d ∧ Table.writeLockedBy d s = true ∧
            getinsertflag d.flags = true)) ∨
        (getinsertflag d'.flags = false ∧
          ∃ d, beforeLock s r t ops = some d ∧ SameContent d d') := by
  induction ops with
  | nil =>
      intro t _ _ _ h
      injection h with h
      subst h
      cases hi : getinsertflag d'.flags with
      | true => exact .inl ⟨rfl, .inr ⟨d', hd', hw', hi⟩⟩
      | false => exact .inr ⟨rfl, d', hd', .refl d'⟩
  | cons op ops ih =>
      intro t hsep hc hok h
      obtain ⟨t₁, h1, h2⟩ := run_cons.mp h
      obtain ⟨hok1, hok2⟩ := hok t₁ h1
      have hsep1 := (step_refines hsep h1).1
      have hc1 := step_stagingInv hsep hok1.2 hc h1
      by_cases hheld : History.heldBy (cell t r) s = true
      · obtain ⟨d, hd, hw⟩ := heldBy_iff.mp hheld
        obtain ⟨d'', h3, _, hsame⟩ := run_held hsep hok hd hw h
        obtain rfl := Option.some.inj (h3.symm.trans hd')
        cases hi : getinsertflag d''.flags with
        | true => exact .inl ⟨rfl, .inr ⟨d, hd, hw, hsame.insertflag ▸ hi⟩⟩
        | false => exact .inr ⟨rfl, d, by rw [beforeLock, if_pos hheld, hd],
            hsame⟩
      · by_cases hheld1 : History.heldBy (cell t₁ r) s = true
        · obtain ⟨d₁, hd1, hw1⟩ := heldBy_iff.mp hheld1
          obtain ⟨d'', h3, _, hsame⟩ := run_held hsep1 hok2 hd1 hw1 h2
          obtain rfl := Option.some.inj (h3.symm.trans hd')
          rcases step_locks hsep hc hheld hd1 hw1 h1 with
            ⟨⟨row, rfl⟩, hi⟩ | ⟨d, hd, hs, hi⟩
          · exact .inl ⟨hsame.insertflag.trans hi,
              .inl ⟨row, List.mem_cons_self⟩⟩
          · refine .inr ⟨(hs.trans hsame).insertflag.trans hi, d, ?_,
              hs.trans hsame⟩
            rw [beforeLock, if_neg hheld, h1]
            simp only [hheld1, if_true]
            exact hd
        · have hbefore : beforeLock s r t (op :: ops) =
              beforeLock s r t₁ ops := by
            rw [beforeLock, if_neg hheld, h1]
            simp only [hheld1]
            rfl
          rw [hbefore]
          refine (ih hsep1 hc1 hok2 h2).imp (fun h => ⟨h.1, ?_⟩) id
          rcases h.2 with ⟨row, hmem⟩ | ⟨d, hd, hw, _⟩
          · exact .inl ⟨row, List.mem_cons_of_mem _ hmem⟩
          · exact absurd (heldBy_iff.mpr ⟨d, hd, hw⟩) hheld1

/-! ## What was staged -/

/-- The row a call of `s` stages something on. -/
def stagedBy (s : Int) : TableOp → List Int
  | .newrow r s' _ | .updaterow r s' _ | .deleterow r s'
  | .replacedeleterow r s' _ _ => if s' = s then [r] else []
  | _ => []

/-- `s` stages on rows it has write-locked, inserts aside. -/
def StagesHeld (s : Int) (t : Table) (op : TableOp) : Prop :=
  ∀ r ∈ stagedBy s op, (∀ row, op ≠ .newrow r s row) →
    History.heldBy (cell t r) s = true

/-- `s` inserted row `r`: in the run, or before it. -/
def InsertedBy (s r : Int) (t : Table) (ops : List TableOp) : Prop :=
  (∃ row, .newrow r s row ∈ ops) ∨
    ∃ d, (cell t r).row = some d ∧ Table.writeLockedBy d s = true ∧
      getinsertflag d.flags = true

theorem newrow_inserts {t t₁ : Table} {r s : Int} {row : Bytes}
    (h : t.step (.newrow r s row) = some t₁) :
    ∃ d, (cell t₁ r).row = some d ∧ Table.writeLockedBy d s = true ∧
      getinsertflag d.flags = true := by
  injection h with h
  rw [← h, cell_newrow]
  exact ⟨_, rfl, writeLockedBy_iff.mpr ⟨by simp, rfl⟩, by simp⟩

theorem InsertedBy.insertflag {s r : Int} {ops : List TableOp} {t' : Table} :
    ∀ {t : Table}, InsertedBy s r t ops → Sep t →
      AllSteps Table.step (LocksAndStages s) t ops →
      run Table.step t ops = some t' →
      ∃ d, (cell t' r).row = some d ∧ Table.writeLockedBy d s = true ∧
        getinsertflag d.flags = true := by
  have hheld : ∀ {t : Table} {ops : List TableOp}, (∃ d, (cell t r).row =
      some d ∧ Table.writeLockedBy d s = true ∧
      getinsertflag d.flags = true) → Sep t →
      AllSteps Table.step (LocksAndStages s) t ops →
      run Table.step t ops = some t' →
      ∃ d, (cell t' r).row = some d ∧ Table.writeLockedBy d s = true ∧
        getinsertflag d.flags = true := by
    rintro t ops ⟨d, hd, hw, hi⟩ hsep hok h
    obtain ⟨d', hd', hw', hsame⟩ := run_held hsep hok hd hw h
    exact ⟨d', hd', hw', hsame.insertflag.trans hi⟩
  induction ops with
  | nil =>
      rintro t (⟨row, hmem⟩ | hins) hsep hok h
      · exact absurd hmem List.not_mem_nil
      · exact hheld hins hsep hok h
  | cons op ops ih =>
      rintro t (⟨row, hmem⟩ | hins) hsep hok h
      · obtain ⟨t₁, h1, h2⟩ := run_cons.mp h
        have hsep1 := (step_refines hsep h1).1
        have hok1 := (hok t₁ h1).2
        rcases List.mem_cons.mp hmem with rfl | hmem
        · exact hheld (newrow_inserts h1) hsep1 hok1 h2
        · exact ih (.inl ⟨row, hmem⟩) hsep1 hok1 h2
      · exact hheld hins hsep hok h

theorem staged_held {s r : Int} {ops : List TableOp} {t' : Table} :
    ∀ {t : Table}, r ∈ ops.flatMap (stagedBy s) → Sep t →
      AllSteps Table.step (LocksAndStages s) t ops →
      AllSteps Table.step (StagesHeld s) t ops →
      run Table.step t ops = some t' →
      ∃ d, (cell t' r).row = some d ∧ Table.writeLockedBy d s = true := by
  induction ops with
  | nil => exact fun hr => absurd hr List.not_mem_nil
  | cons op ops ih =>
      intro t hr hsep hok hheld h
      obtain ⟨t₁, h1, h2⟩ := run_cons.mp h
      obtain ⟨hok1, hok2⟩ := hok t₁ h1
      obtain ⟨hheld1, hheld2⟩ := hheld t₁ h1
      have hsep1 := (step_refines hsep h1).1
      rw [List.flatMap_cons, List.mem_append] at hr
      rcases hr with hr | hr
      · have hnow : ∃ d, (cell t₁ r).row = some d ∧
            Table.writeLockedBy d s = true := by
          by_cases hnew : ∃ row, op = .newrow r s row
          · obtain ⟨row, rfl⟩ := hnew
            obtain ⟨d, hd, hw, _⟩ := newrow_inserts h1
            exact ⟨d, hd, hw⟩
          · obtain ⟨d, hd, hw⟩ := heldBy_iff.mp
              (hheld1 r hr fun row heq => hnew ⟨row, heq⟩)
            obtain ⟨d', hd', hw', _⟩ := step_held hsep hok1 hd hw h1
            exact ⟨d', hd', hw'⟩
        obtain ⟨d, hd, hw⟩ := hnow
        obtain ⟨d', hd', hw', _⟩ := run_held hsep1 hok2 hd hw h2
        exact ⟨d', hd', hw'⟩
      · exact ih hr hsep1 hok2 hheld2 h2

/-! ## The rollbacks -/

def rollbacks (s : Int) (rs : List Int) : List TableOp :=
  rs.map fun r => .commitRollbackUnlock r s .rollbackCmd

/-- The row is gone from both maps. -/
def Gone (c : Cell) : Prop := c.row = none ∧ c.shadow = .absent

/-- The row is there, unlocked, with the content of `d` and nothing staged. -/
def Restored (d : Rowdata) (c : Cell) : Prop :=
  ∃ d', c.row = some d' ∧ d'.row = d.row ∧
    d'.previoussubtransactionid = d.previoussubtransactionid ∧
    d'.flags = 0#8 ∧ InShape .free d' ∧ c.shadow = .absent ∧
    c.forwarder = none

theorem rollback_inserted {c c' : Cell} {s : Int} {d : Rowdata}
    (hd : c.row = some d) (hw : Table.writeLockedBy d s = true)
    (hi : getinsertflag d.flags = true) (h : c.rollback s = some c') :
    Gone c' := by
  rcases rollback_cases hd h with ⟨hbogus, _⟩ |
    ⟨_, ⟨_, rfl⟩ | ⟨hn, _⟩⟩
  · exact absurd (writeLockedBy_iff.mp hw).2 hbogus.1
  · exact ⟨rfl, rfl⟩
  · rw [hi] at hn
    exact absurd hn (by simp)

theorem Gone.rollback {c c' : Cell} {s : Int} (hc : Gone c)
    (h : c.rollback s = some c') : Gone c' := by
  simp only [Cell.rollback, hc.1, Option.some.injEq] at h
  exact h ▸ hc

/-- No holders are left of a row that is not read-locked. -/
theorem rollback_unstages {c c' : Cell} {s : Int} {d : Rowdata}
    (hc : StagingInv c) (hr : ReadersInv c) (hd : c.row = some d)
    (hown : ¬ (d.writelockHolder ≠ s ∧ getlocktype d.flags = .writeLock))
    (hl : getlocktype d.flags ≠ .readLock)
    (hi : getinsertflag d.flags = false) (h : c.rollback s = some c') :
    Restored d c' := by
  have hc' := hc.rollback h
  rcases rollback_cases hd h with ⟨hbogus, _⟩ |
    ⟨_, ⟨hn, _⟩ | ⟨_, holders, hh, hc₁⟩⟩
  · exact absurd hbogus hown
  · rw [hi] at hn
    exact absurd hn (by simp)
  · unfold Table.rollbackHolders at hh
    rw [if_neg hl, hr d hd hl] at hh
    obtain rfl := Option.some.inj hh
    subst hc₁
    refine ⟨_, rfl, rfl, rfl, rfl, ⟨by simp, rfl, rfl⟩, rfl, ?_⟩
    by_contra hf
    exact absurd (hc'.forwarded rfl hf) (by simp)

theorem Restored.rollback {c c' : Cell} {s : Int} {d : Rowdata}
    (hc : Restored d c) (h : c.rollback s = some c') : Restored d c' := by
  obtain ⟨d', hd, h1, h2, h3, hfree, h4, h5⟩ := hc
  have hstaging : StagingInv c := stagingInv_of_settled hd h4 (by simp [h3])
    (by simp [h3]) (by simp [h3]) h5
  have hreaders : ReadersInv c := by
    intro d'' hd'' _
    obtain rfl := Option.some.inj (hd.symm.trans hd'')
    exact hfree.2.2
  obtain ⟨d'', h6, h7, h8, h9⟩ := rollback_unstages hstaging hreaders hd
    (by simp [h3]) (by simp [h3]) (by simp [h3]) h
  exact ⟨d'', h6, h7.trans h1, h8.trans h2, h9⟩

/-- A row that no rollback would take for read-locked. -/
def Quiet (c : Cell) : Prop :=
  ∀ d, c.row = some d → getlocktype d.flags ≠ .readLock ∧
    d.readlockHolders = none

theorem Quiet.rollback {c c' : Cell} {s : Int} (hc : Quiet c)
    (h : c.rollback s = some c') : Quiet c' := by
  cases hd : c.row with
  | none =>
      simp only [Cell.rollback, hd, Option.some.injEq] at h
      exact h ▸ hc
  | some d =>
      obtain ⟨hl, hr⟩ := hc d hd
      rcases rollback_cases hd h with ⟨_, rfl⟩ |
        ⟨_, ⟨_, rfl⟩ | ⟨_, holders, hh, rfl⟩⟩
      · exact hc
      · exact fun d' hd' => absurd hd' (by simp)
      · unfold Table.rollbackHolders at hh
        rw [if_neg hl, hr] at hh
        obtain rfl := Option.some.inj hh
        intro d' hd'
        injection hd' with hd'
        subst hd'
        exact ⟨by simp, rfl⟩

/-- A rollback dereferences nothing but the holders of a read-locked row. -/
theorem rollback_defined {t : Table} {s r : Int} (hq : Quiet (cell t r)) :
    ∃ t', t.step (.commitRollbackUnlock r s .rollbackCmd) = some t' := by
  have hdef : ∃ t', t.rollbackRow r s = some t' := by
    unfold Table.rollbackRow
    cases ha : t.rows r with
    | none => exact ⟨t, rfl⟩
    | some a =>
        have hl := (hq _ (cell_row_some ha)).1
        simp only []
        split
        · exact ⟨_, rfl⟩
        · split
          · exact ⟨_, rfl⟩
          · unfold Table.rollbackStaying Table.rollbackHolders
            simp only [hl, if_false]
            exact ⟨_, rfl⟩
  obtain ⟨t', ht'⟩ := hdef
  exact ⟨t', by simp [Table.step, Table.exec, Table.commitRollbackUnlock, ht']⟩

theorem rollback_cell {t t' : Table} {s r : Int} (hsep : Sep t)
    (h : t.step (.commitRollbackUnlock r s .rollbackCmd) = some t') :
    (cell t r).rollback s = some (cell t' r) := by
  have hrun : run cellStep (cell t r)
      (cellOps r (.commitRollbackUnlock r s .rollbackCmd)) =
      some (cell t' r) := (step_refines hsep h).2 r
  rw [cellOps, if_pos rfl] at hrun
  obtain ⟨c₁, h1, h2⟩ := run_cons.mp hrun
  injection h2 with h2
  exact h2 ▸ h1

theorem rollback_cell_other {t t' : Table} {s r r' : Int} (hsep : Sep t)
    (hne : r' ≠ r)
    (h : t.step (.commitRollbackUnlock r s .rollbackCmd) = some t') :
    cell t' r' = cell t r' := by
  have hrun : run Table.step t [.commitRollbackUnlock r s .rollbackCmd] =
      some t' := run_cons.mpr ⟨_, h, rfl⟩
  exact run_cell_of_not_named hsep (by simpa [TableOp.rowids] using hne) hrun

theorem rollbacks_defined {s : Int} {rs : List Int} : ∀ {t : Table}, Sep t →
    (∀ r ∈ rs, Quiet (cell t r)) →
    ∃ t', run Table.step t (rollbacks s rs) = some t' := by
  induction rs with
  | nil => exact fun _ _ => ⟨_, rfl⟩
  | cons r rs ih =>
      intro t hsep hq
      obtain ⟨t₁, h1⟩ := rollback_defined (s := s) (hq r List.mem_cons_self)
      obtain ⟨t', h2⟩ := ih (t := t₁) (step_refines hsep h1).1 fun r' hr' => by
        by_cases hne : r' = r
        · subst hne
          exact (hq r' List.mem_cons_self).rollback (rollback_cell hsep h1)
        · rw [rollback_cell_other hsep hne h1]
          exact hq r' (List.mem_cons_of_mem _ hr')
      exact ⟨t', run_cons.mpr ⟨t₁, h1, h2⟩⟩

/-- What the first rollback of a row establishes, the others keep. -/
theorem rollbacks_cell {P Q : Cell → Prop} {s r : Int} {rs : List Int}
    (h0 : ∀ c c', P c → c.rollback s = some c' → Q c')
    (h1 : ∀ c c', Q c → c.rollback s = some c' → Q c') :
    ∀ {t t' : Table}, Sep t → run Table.step t (rollbacks s rs) = some t' →
      (r ∈ rs ∧ P (cell t r)) ∨ Q (cell t r) → Q (cell t' r) := by
  induction rs with
  | nil =>
      rintro t t' _ h (⟨hr, _⟩ | hp)
      · exact absurd hr List.not_mem_nil
      · injection h with h
        exact h ▸ hp
  | cons r₀ rs ih =>
      intro t t' hsep h hp
      obtain ⟨t₁, h2, h3⟩ := run_cons.mp h
      refine ih (step_refines hsep h2).1 h3 ?_
      by_cases hne : r = r₀
      · subst hne
        have hroll := rollback_cell hsep h2
        rcases hp with ⟨_, hp⟩ | hp
        · exact .inr (h0 _ _ hp hroll)
        · exact .inr (h1 _ _ hp hroll)
      · rw [rollback_cell_other hsep hne h2]
        refine hp.imp (fun h => ⟨?_, h.2⟩) id
        exact (List.mem_cons.mp h.1).resolve_left hne

theorem rollbacks_other {t t' : Table} {s r : Int} {rs : List Int}
    (hsep : Sep t) (hr : r ∉ rs)
    (h : run Table.step t (rollbacks s rs) = some t') :
    cell t' r = cell t r := by
  refine run_cell_of_not_named hsep (fun op hop => ?_) h
  obtain ⟨r', hr', rfl⟩ := List.mem_map.mp hop
  simp only [TableOp.rowids, List.mem_singleton]
  rintro rfl
  exact hr hr'

theorem rowids_of_stagedBy {s r : Int} {op : TableOp}
    (h : r ∈ stagedBy s op) : r ∈ op.rowids := by
  cases op <;> simp only [stagedBy] at h <;>
    first | exact absurd h List.not_mem_nil | skip
  all_goals
    split at h
    · exact h
    · exact absurd h List.not_mem_nil

theorem Gone.pointers {t : Table} {r : Int} (h : Gone (cell t r)) :
    t.rows r = none ∧ t.shadowRows r = none := by
  refine ⟨?_, shadowRows_of_absent h.2⟩
  simpa [cell] using h.1

theorem Restored.pointers {t : Table} {r : Int} {d : Rowdata}
    (h : Restored d (cell t r)) : ∃ a, t.rows r = some a ∧
      (t.heap a).row = d.row ∧
      (t.heap a).previoussubtransactionid = d.previoussubtransactionid ∧
      (t.heap a).flags = 0#8 ∧ InShape .free (t.heap a) ∧
      t.shadowRows r = none ∧ t.forwarderMap r = none := by
  obtain ⟨d', hd, h1, h2, h3, h4, h5, h6⟩ := h
  simp only [cell, Option.map_eq_some_iff] at hd
  obtain ⟨a, ha, rfl⟩ := hd
  exact ⟨a, ha, h1, h2, h3, h4, shadowRows_of_absent h5, h6⟩

/-- A rollback of everything it staged on undoes a subtransaction. Start from
any table that satisfies the lock invariant; let `s` lock rows, insert, and
stage updates, deletes and replacing deletes on rows it has write-locked,
with anybody else calling anything in between; then roll back each row `s`
staged on. The inserted rows are gone, every other staged row is back as the
lock found it, and all other rows are as the others left them. -/
theorem rollback_restores {t₀ t₁ : Table} {s : Int} {ops : List TableOp}
    {rs : List Int} (hinv : LockInv t₀)
    (hok : AllSteps Table.step (LocksAndStages s) t₀ ops)
    (hheld : AllSteps Table.step (StagesHeld s) t₀ ops)
    (hrun : run Table.step t₀ ops = some t₁)
    (hrs : ∀ r, r ∈ rs ↔ r ∈ ops.flatMap (stagedBy s)) :
    ∃ t₂, run Table.step t₁ (rollbacks s rs) = some t₂ ∧
      (∀ r ∈ rs, InsertedBy s r t₀ ops →
        t₂.rows r = none ∧ t₂.shadowRows r = none) ∧
      (∀ r ∈ rs, ¬ InsertedBy s r t₀ ops →
        ∃ d a, beforeLock s r t₀ ops = some d ∧ t₂.rows r = some a ∧
          (t₂.heap a).row = d.row ∧
          (t₂.heap a).previoussubtransactionid = d.previoussubtransactionid ∧
          (t₂.heap a).flags = 0#8 ∧ InShape .free (t₂.heap a) ∧
          t₂.shadowRows r = none ∧ t₂.forwarderMap r = none) ∧
      (∀ r, r ∉ rs → cell t₂ r = cell t₁ r) ∧
      (∀ r, (∀ op ∈ ops, r ∉ op.rowids) → cell t₂ r = cell t₀ r) := by
  have hsep1 : Sep t₁ := (run_refines hinv.sep hrun).1
  have hcells : ∀ r, StagingInv (cell t₁ r) ∧ ReadersInv (cell t₁ r) := by
    intro r
    refine (hok.run_induct (P := fun t => Sep t ∧ StagingInv (cell t r) ∧
      ReadersInv (cell t r)) ?_ ⟨hinv.sep, (hinv.cells r).toStagingInv,
        readersInv_of_shaped fun _ => (hinv.cells r).shape⟩ hrun).2
    rintro t op t' hop ⟨hsep, hs, hr⟩ hstep
    exact ⟨(step_refines hsep hstep).1, step_stagingInv hsep hop.2 hs hstep,
      step_readersInv hsep hr hstep⟩
  -- the rows to roll back are still write-locked by `s`
  have hlocked : ∀ r ∈ rs, ∃ d, (cell t₁ r).row = some d ∧
      Table.writeLockedBy d s = true := fun r hr =>
    staged_held ((hrs r).mp hr) hinv.sep hok hheld hrun
  have hquiet : ∀ r ∈ rs, Quiet (cell t₁ r) := by
    intro r hr d hd
    obtain ⟨d', hd', hw⟩ := hlocked r hr
    obtain rfl := Option.some.inj (hd.symm.trans hd')
    have hl := (writeLockedBy_iff.mp hw).1
    exact ⟨by simp [hl], (hcells r).2 d hd (by simp [hl])⟩
  obtain ⟨t₂, hroll⟩ := rollbacks_defined (s := s) hsep1 hquiet
  refine ⟨t₂, hroll, fun r hr hins => ?_, fun r hr hins => ?_,
    fun r hr => rollbacks_other hsep1 hr hroll, fun r hr => ?_⟩
  · have hgone : Gone (cell t₂ r) := by
      refine rollbacks_cell (P := fun c => ∃ d, c.row = some d ∧
        Table.writeLockedBy d s = true ∧ getinsertflag d.flags = true) ?_
        (fun c c' hc h => hc.rollback h) hsep1 hroll
        (.inl ⟨hr, hins.insertflag hinv.sep hok hrun⟩)
      rintro c c' ⟨d, hd, hw, hi⟩ h
      exact rollback_inserted hd hw hi h
    exact hgone.pointers
  · obtain ⟨d', hd', hw⟩ := hlocked r hr
    rcases held_cases hd' hw hinv.sep (hinv.cells r).toStagingInv hok hrun with
      ⟨_, hins'⟩ | ⟨hi, d, hd, hsame⟩
    · exact absurd hins' hins
    · have hrest : Restored d' (cell t₂ r) := by
        refine rollbacks_cell (P := fun c => c = cell t₁ r) ?_
          (fun c c' hc h => hc.rollback h) hsep1 hroll (.inl ⟨hr, rfl⟩)
        rintro c c' rfl h
        obtain ⟨hl, hs⟩ := writeLockedBy_iff.mp hw
        exact rollback_unstages (hcells r).1 (hcells r).2 hd'
          (fun hbogus => hbogus.1 hs) (by simp [hl]) hi h
      obtain ⟨a, h1, h2, h3, h4⟩ := hrest.pointers
      exact ⟨d, a, hd, h1, h2.trans hsame.row, h3.trans hsame.previous, h4⟩
  · have hr' : r ∉ rs := by
      intro hmem
      obtain ⟨op, hop, hr'⟩ := List.mem_flatMap.mp ((hrs r).mp hmem)
      exact hr op hop (rowids_of_stagedBy hr')
    rw [rollbacks_other hsep1 hr' hroll,
      run_cell_of_not_named hinv.sep hr hrun]

/-- Subtransaction 7 commits row 1; 8 locks it, updates it, inserts row 2 and
deletes row 1 towards a replacement. -/
def stagingRun : List TableOp :=
  [.newrow 1 7 [65], .commitRollbackUnlock 1 7 .commitCmd,
    .selectrows [1] .writeLock 8 1 1, .updaterow 1 8 [66],
    .newrow 2 8 [67], .replacedeleterow 1 8 5 6]

theorem stagingRun_locksAndStages :
    AllSteps Table.step (LocksAndStages 8) (.new 1 0) stagingRun := by
  refine .cons rfl ⟨?_, ?_⟩ (.cons rfl ⟨?_, ?_⟩ (.cons rfl ⟨?_, ?_⟩
    (.cons rfl ⟨?_, ?_⟩ (.cons rfl ⟨?_, ?_⟩ (.cons rfl ⟨?_, ?_⟩ trivial)))))
  all_goals
    first
      | (intro hs; exact absurd hs (by decide))
      | (intro hs r s cmd heq; cases heq)
      | (intro r s row heq; cases heq <;> exact ⟨rfl, rfl⟩)

theorem stagingRun_stagesHeld :
    AllSteps Table.step (StagesHeld 8) (.new 1 0) stagingRun := by
  refine .cons rfl ?_ (.cons rfl ?_ (.cons rfl ?_ (.cons rfl ?_
    (.cons rfl ?_ (.cons rfl ?_ trivial)))))
  case refine_5 => exact fun r hr hne => absurd rfl (by
    rw [List.mem_singleton.mp hr] at hne
    exact hne [67])
  all_goals
    intro r hr _
    first
      | exact absurd hr List.not_mem_nil
      | (rw [List.mem_singleton.mp hr]; decide)

/-- Rolled back, row 2 is gone and row 1 is back as committed by 7. -/
theorem rollback_restores_stagingRun :
    ∃ t₁, run Table.step (.new 1 0) stagingRun = some t₁ ∧
      ∃ t₂, run Table.step t₁ (rollbacks 8 [1, 2]) = some t₂ ∧
        (∀ r ∈ [1, 2], InsertedBy 8 r (.new 1 0) stagingRun →
          t₂.rows r = none ∧ t₂.shadowRows r = none) ∧
        (∀ r ∈ [1, 2], ¬ InsertedBy 8 r (.new 1 0) stagingRun →
          ∃ d a, beforeLock 8 r (.new 1 0) stagingRun = some d ∧
            t₂.rows r = some a ∧ (t₂.heap a).row = d.row ∧
            (t₂.heap a).previoussubtransactionid =
              d.previoussubtransactionid ∧
            (t₂.heap a).flags = 0#8 ∧ InShape .free (t₂.heap a) ∧
            t₂.shadowRows r = none ∧ t₂.forwarderMap r = none) ∧
        (∀ r, r ∉ [1, 2] → cell t₂ r = cell t₁ r) ∧
        (∀ r, (∀ op ∈ stagingRun, r ∉ op.rowids) →
          cell t₂ r = cell (.new 1 0) r) :=
  ⟨_, rfl, rollback_restores lockInv_new stagingRun_locksAndStages
    stagingRun_stagesHeld rfl (by
      intro r
      simp [stagingRun, stagedBy]
      tauto)⟩

end Infinisql.Proofs
