import Infinisql.Proofs.UpdateIndex
import Infinisql.Proofs.TableCells

/-!
# Updates that move the row

When an update changes the field that a table is partitioned by, the row gets
a new address: it is inserted at the new engine and deleted at the old one,
with the delete committed in a second round of messages. Its index entries
follow. A changed field is an add for the new address and a delete for the
old one, and since the two name different rows the order does not matter, and
neither does trailing space. An unchanged field has its entry repointed.

Two things go wrong. A null entry is repointed to the new rowid at the old
engine, because the call passes `engineid` where it should pass
`newengineid`. And the second round drains the lock queue of the row it has
deleted, which does not return while an open subtransaction waits there.
-/

namespace Infinisql.Proofs

open Infinisql.Ref Infinisql.Lib

/-! ## One field -/

/-- No entry of the row. -/
def Absent (I : Int → Index) (row : NonLockingIndexEntry) : Prop :=
  ∀ p, entriesAt I p row = []

/-- An unchanged field is repointed to where the row and its value are. -/
def Repoints (top : Topology) (sRow : StagedRow) (n : Nat) (f : Field)
    (original new : FieldValue) : Prop :=
  Transaction.changed original new = false →
    place top n f original = place top n f new ∧
      (original.isnull = true → sRow.newengineid = sRow.originalengineid)

instance (top : Topology) (sRow : StagedRow) (n : Nat) (f : Field)
    (original new : FieldValue) :
    Decidable (Repoints top sRow n f original new) :=
  inferInstanceAs (Decidable (_ → _ ∧ (_ → _)))

/-- The address that a repointed entry gets is the row's own, unless it is a
null entry and the row went to another engine. -/
theorem replaced_eq_iff {sRow : StagedRow} {v : FieldValue} :
    replaced sRow v = newAddress sRow ↔
      (v.isnull = true → sRow.newengineid = sRow.originalengineid) := by
  unfold replaced newAddress
  cases v.isnull with
  | true => simp [eq_comm]
  | false => simp

/-- One field of an update that moves the row. -/
theorem updateField_moved {top : Topology} {subs : Int → Int}
    {tableid : Int} {n : Nat} {f : Field} {sRow : StagedRow}
    {original new : FieldValue} {I₀ I : Int → Index} (hf : Indexed f)
    (hmade : MadeFor f I₀) (hmoved : oldAddress sRow ≠ newAddress sRow)
    (hagrees : Agrees I₀ (oldAddress sRow) (place top n f original))
    (hfresh : Absent I₀ (newAddress sRow))
    (hstaged : StagedFor top subs f (newAddress sRow) original new I₀ I) :
    ∃ I', run (applyIndexAt subs .commitCmd) I
        (Transaction.updateField top tableid sRow true n f original new) =
        some I' ∧
      (Absent I' (oldAddress sRow) ∧
          Agrees I' (newAddress sRow) (place top n f new) ↔
        Repoints top sRow n f original new) := by
  cases hc : Transaction.changed original new with
  | true =>
      obtain ⟨I', h1, h2⟩ :=
        run_addDelete tableid hf hmade hagrees hstaged hc
      refine ⟨I', ?_, ?_⟩
      · rw [Transaction.updateField, hc, if_pos rfl]
        exact h1
      · have hright : Repoints top sRow n f original new := by
          intro h
          exact absurd (hc.symm.trans h) (by simp)
        refine iff_of_true ⟨fun p => ?_, fun p => ?_⟩ hright
        · rw [h2, hagrees]
          by_cases hp : p = place top n f original
          · simp [hp]
          · simp [hp, hmoved]
        · rw [h2, hfresh p]
          by_cases hp : p = place top n f new
          · simp [hp, Ne.symm hmoved, added_nil]
          · simp [hp, Ne.symm hmoved]
  | false =>
      have heq : I = I₀ := stagedFor_eq hstaged fun h => by simp [hc] at h
      subst heq
      have hown := hagrees (place top n f original)
      rw [if_pos rfl] at hown
      obtain ⟨I', h1, _, h2⟩ := replaceItem_moves top subs tableid n hf hmade
        hmoved hown (hfresh _)
      refine ⟨I', ?_, ?_⟩
      · simp only [Transaction.updateField, hc, Bool.false_eq_true, if_false,
          if_true]
        exact run_cons.mpr ⟨I', h1, rfl⟩
      · have hnew : ∀ p, entriesAt I' p (newAddress sRow) =
            if p = place top n f original ∧
                replaced sRow original = newAddress sRow then [0] else [] := by
          intro p
          rw [h2, hfresh p]
          by_cases hr : replaced sRow original = newAddress sRow
          · simp [hr]
          · simp [hr, Ne.symm hr]
        have hold : replaced sRow original = newAddress sRow →
            Absent I' (oldAddress sRow) := by
          intro hr p
          rw [h2, hagrees p, hr]
          by_cases hp : p = place top n f original
          · simp [hp, hmoved]
          · simp [hp]
        simp only [Repoints, hc, forall_const, ← replaced_eq_iff]
        constructor
        · rintro ⟨_, hag⟩
          have h3 := hag (place top n f new)
          rw [hnew, if_pos rfl] at h3
          split at h3
          · next hp => exact ⟨hp.1.symm, hp.2⟩
          · exact absurd h3 (by simp)
        · rintro ⟨hp, hr⟩
          refine ⟨hold hr, fun p => ?_⟩
          rw [hnew, hp]
          simp [hr]

/-! ## The row store -/

theorem installShadow_lockQueue {t : Table} {r : Int} {a : Addr} :
    (t.installShadow r a).lockQueue = t.lockQueue := by
  unfold Table.installShadow
  split
  · rfl
  · dsimp only
    split <;> rfl

/-- The commit of the inserted row leaves the old row of the same store as it
is, and its queue. -/
theorem commitRow_other {t t' : Table} {r r' s : Int} {a a' : Addr}
    (hsep : Sep t) (ha : t.rows r = some a)
    (hw : Table.writeLockedBy (t.heap a) s = true)
    (hd : getdeleteflag (t.heap a).flags = false) (hne : r' ≠ r)
    (ha' : t.rows r' = some a') (h : t.commitRow r s = some t') :
    t'.rows r' = some a' ∧ t'.heap a' = t.heap a' ∧
      t'.lockQueue = t.lockQueue := by
  have hstep := (commitRow_rowStep hsep h).1
  refine ⟨(hstep.rows r' hne).trans ha',
    hstep.heap_other hsep hne (.inl ha'), ?_⟩
  have hl : getlocktype (t.heap a).flags ≠ .readLock := by
    rw [(writeLockedBy_iff.mp hw).1]
    simp
  simp only [Table.commitRow, ha, if_neg hl, hw, hd, Bool.not_true,
    Bool.false_eq_true, if_false, Option.some.injEq] at h
  rw [← h, installShadow_lockQueue]
  rfl

/-- Nobody with an open subtransaction waits for the row. -/
def NoWaiter (c : Cluster) (tableid : Int) (row : NonLockingIndexEntry) :
    Prop :=
  ∀ t, storeAt c tableid row.engineid = some t → ∀ w ∈ t.lockQueue row.rowid,
    w.subtransactionid ∉ (c row.engineid).subTransactions

/-- The commit of a row that the subtransaction has deleted: it returns
unless someone waits. -/
theorem applyRow_delete {t : Table} {r s : Int} {a : Addr}
    {subTransactions : Finset Int} (ha : t.rows r = some a)
    (hw : Table.writeLockedBy (t.heap a) s = true)
    (hd : getdeleteflag (t.heap a).flags = true) :
    (∃ t', SubTransaction.applyRow s .commitCmd subTransactions r t =
      some t') ↔ ∀ w ∈ t.lockQueue r, w.subtransactionid ∉ subTransactions := by
  have hl : getlocktype (t.heap a).flags ≠ .readLock := by
    rw [(writeLockedBy_iff.mp hw).1]
    simp
  have hcommit : ∃ t₁, t.commitRow r s = some t₁ ∧ t₁.rows r = none ∧
      t₁.lockQueue = t.lockQueue := by
    simp only [Table.commitRow, ha, if_neg hl, hw, hd, Bool.not_true,
      Bool.false_eq_true, if_false, if_true]
    refine ⟨_, rfl, ?_, ?_⟩
    · simp
    · have hdrop : ∀ t : Table, (t.dropShadow r).lockQueue = t.lockQueue := by
        intro t
        unfold Table.dropShadow
        split <;> rfl
      rw [hdrop]
      split <;> rfl
  obtain ⟨t₁, h1, hrow, hqueue⟩ := hcommit
  simp only [SubTransaction.applyRow, Table.commitRollbackUnlock, h1, hrow,
    Option.isSome_none, Bool.false_and, Bool.false_eq_true, if_false,
    Table.drainRowLockQueue, hqueue]
  split
  · next hany =>
      obtain ⟨w, hw, hopen⟩ := List.any_eq_true.mp hany
      simp only [reduceCtorEq, exists_false, false_iff]
      exact fun h => h w hw (of_decide_eq_true hopen)
  · next hany =>
      simp only [Option.some.injEq, exists_eq', true_iff]
      intro w hw hopen
      exact hany (List.any_eq_true.mpr ⟨w, hw, decide_eq_true hopen⟩)

/-! ## The commit -/

theorem commit_moved {top : Topology} {schema : Int → List Field}
    {subs : Int → Int} {uur : UuRecord} {sRow : StagedRow} {c : Cluster}
    (hcmd : sRow.cmd = .update)
    (hmoved : Transaction.StagedRow.moved sRow = true) :
    Transaction.commit top schema subs [(uur, sRow)] c =
      (run (applyAt subs .commitCmd) c
        ((sRow.newengineid, Transaction.rowItem uur.tableid sRow.newrowid) ::
          Transaction.updateItems top (schema uur.tableid) uur sRow
            true)).bind fun c' =>
        applyAt subs .commitCmd c'
          (uur.engineid, Transaction.rowItem uur.tableid uur.rowid) := by
  rw [commit_single]
  simp only [Transaction.rowItems, hcmd, hmoved, if_true, run]
  simp

/-- An update that moves the row, staged: the new row is inserted and the old
one deleted, and no index knows the new address. -/
structure StagedReplace (top : Topology) (fields : List Field)
    (subs : Int → Int) (uur : UuRecord) (sRow : StagedRow)
    (c₀ c : Cluster) : Prop extends
    StagedUpdate top fields subs uur sRow c₀ c where
  moved : oldAddress sRow ≠ newAddress sRow
  fresh : EachIndexed fields fun n _ =>
    Absent (indexAt c₀ uur.tableid n) (newAddress sRow)
  inserted : Held c subs uur.tableid (newAddress sRow) false
  deleted : Held c subs uur.tableid (oldAddress sRow) true
  sep : ∀ e t, storeAt c uur.tableid e = some t → Sep t

/-- After the first round the old row is as it was: deleted by its holder,
with the same queue. -/
theorem deleted_afterwards {top : Topology} {fields : List Field}
    {subs : Int → Int} {uur : UuRecord} {sRow : StagedRow} {c₀ c c₁ : Cluster}
    {t t' : Table} {a : Addr}
    (h : StagedReplace top fields subs uur sRow c₀ c)
    (hs : storeAt c uur.tableid (newAddress sRow).engineid = some t)
    (ha : t.rows (newAddress sRow).rowid = some a)
    (hw : Table.writeLockedBy (t.heap a)
      (subs (newAddress sRow).engineid) = true)
    (hd : getdeleteflag (t.heap a).flags = false)
    (hcommit : t.commitRow (newAddress sRow).rowid
      (subs (newAddress sRow).engineid) = some t')
    (hstore : ∀ e, storeAt c₁ uur.tableid e =
      if e = (newAddress sRow).engineid then some t'
      else storeAt c uur.tableid e) :
    ∃ t₂ a₂, storeAt c₁ uur.tableid uur.engineid = some t₂ ∧
      t₂.rows uur.rowid = some a₂ ∧
      Table.writeLockedBy (t₂.heap a₂) (subs uur.engineid) = true ∧
      getdeleteflag (t₂.heap a₂).flags = true ∧
      (NoWaiter c uur.tableid (oldAddress sRow) ↔
        ∀ w ∈ t₂.lockQueue uur.rowid,
          w.subtransactionid ∉ (c uur.engineid).subTransactions) := by
  have hdel := h.deleted
  have hmoved := h.moved
  rw [h.address] at hdel hmoved ⊢
  obtain ⟨t₀, a₀, hs₀, ha₀, hw₀, hd₀⟩ := hdel
  have hwaiter : NoWaiter c uur.tableid ⟨uur.rowid, uur.engineid⟩ ↔
      ∀ w ∈ t₀.lockQueue uur.rowid,
        w.subtransactionid ∉ (c uur.engineid).subTransactions := by
    constructor
    · exact fun h => h t₀ hs₀
    · intro h t₁ ht₁
      obtain rfl := Option.some.inj (hs₀.symm.trans ht₁)
      exact h
  rw [hwaiter, hstore]
  by_cases he : uur.engineid = (newAddress sRow).engineid
  · rw [if_pos he]
    dsimp only at hs₀
    rw [he] at hs₀
    obtain rfl := Option.some.inj (hs.symm.trans hs₀)
    have hne : uur.rowid ≠ (newAddress sRow).rowid := by
      intro hr
      refine hmoved ?_
      rw [hr, he]
    obtain ⟨h1, h2, h3⟩ :=
      commitRow_other (h.sep _ _ hs) ha hw hd hne ha₀ hcommit
    exact ⟨t', a₀, rfl, h1, h2 ▸ hw₀, h2 ▸ hd₀, h3 ▸ Iff.rfl⟩
  · rw [if_neg he]
    exact ⟨t₀, a₀, hs₀, ha₀, hw₀, hd₀, Iff.rfl⟩

def twoPartitions : Topology := ⟨2, fun bytes => (bytes.headD 0).toNat⟩

def movedRow (n : Nat) (v : FieldValue) : Bytes :=
  (makerow pairFields [{ value := BitVec.ofNat 128 n }, v]).getD []

def movedStore (v : FieldValue) (e : Int) : Table :=
  (run Table.step (.new 1 0) (if e = 0 then [.newrow 1 7 (movedRow 2 v)]
    else
      [.newrow 1 7 (movedRow 1 v), .commitRollbackUnlock 1 7 .commitCmd,
        .selectrows [1] .writeLock 7 0 0, .replacedeleterow 1 7 1 0])).getD
    (.new 1 0)

def movedIndex (put : Index → Option Index) : Nat → Int → Index
  | 0 => indexWith .unique .int 1 (·.replaceUnique 1 1 (.integer 1))
  | _ => indexWith .nonunique .varchar 1 put

def movedStaged (put : Index → Option Index) : Nat → Int → Index
  | 0 => Function.update (movedIndex put 0) 0
      ((((movedIndex put 0 0).uniqueIndex ⟨0, 2, ⟨1, 0, 7⟩⟩
        { value := 2#128 }).map fun reply => reply.2.2).getD
          (movedIndex put 0 0))
  | n + 1 => movedIndex put (n + 1)

def movedUpdate (v : FieldValue) : StagedRow :=
  { cmd := .update, originalRow := movedRow 1 v, originalrowid := 1
    originalengineid := 1, newRow := movedRow 2 v, newrowid := 1
    newengineid := 0, locktype := .writeLock }

def movedCluster (v : FieldValue) (put : Index → Option Index) : Cluster :=
  clusterOf (movedStore v) (movedStaged put)

theorem sep_movedStore (v : FieldValue) (e : Int) : Sep (movedStore v e) := by
  unfold movedStore
  cases h : run Table.step (.new 1 0) (if e = 0 then
    [.newrow 1 7 (movedRow 2 v)]
    else [.newrow 1 7 (movedRow 1 v), .commitRollbackUnlock 1 7 .commitCmd,
      .selectrows [1] .writeLock 7 0 0, .replacedeleterow 1 7 1 0]) with
  | none => exact sep_new 1 0
  | some t => exact (run_refines (sep_new 1 0) h).1

theorem stagedReplace_moved {v : FieldValue} {put : Index → Option Index}
    (hplace : place twoPartitions 0 ⟨.int, 0, .unique⟩
      (valueOf pairFields (movedUpdate v).originalRow 0) =
        (1, some (.integer 1)))
    (hput : (∀ e, Made .nonunique .varchar
        (indexWith .nonunique .varchar 1 put e)) ∧
      ∀ p r, entriesAt (indexWith .nonunique .varchar 1 put) p r =
        if p = place twoPartitions 1 ⟨.varchar, 0, .nonunique⟩
          (valueOf pairFields (movedUpdate v).originalRow 1) ∧
          r = ⟨1, 1⟩ then [0] else [])
    (hstaged : EachIndexed pairFields fun n f =>
      StagedFor twoPartitions (fun _ => 7) f ⟨1, 0⟩
        (valueOf pairFields (movedUpdate v).originalRow n)
        (valueOf pairFields (movedUpdate v).newRow n)
        (movedIndex put n) (movedStaged put n))
    (hinserted : Held (movedCluster v put) (fun _ => 7) 1 ⟨1, 0⟩ false)
    (hdeleted : Held (movedCluster v put) (fun _ => 7) 1 ⟨1, 1⟩ true) :
    StagedReplace twoPartitions pairFields (fun _ => 7) ⟨1, 1, 1⟩
      (movedUpdate v) (clusterOf (movedStore v) (movedIndex put))
      (movedCluster v put) := by
  obtain ⟨hmade, hentries⟩ := indexWith_unique 1 1 ⟨1, 1⟩
  exact {
    cmd := rfl
    address := rfl
    table := fun e => ⟨_, rfl⟩
    typed := eachIndexed_pair (by decide) (by decide)
    made := eachIndexed_pair hmade hput.1
    agrees := eachIndexed_pair
      (fun p => (hentries p ⟨1, 1⟩).trans (by simp [hplace]))
      (fun p => (hput.2 p ⟨1, 1⟩).trans (by simp))
    staged := hstaged
    moved := by simp [oldAddress, newAddress, movedUpdate]
    fresh := eachIndexed_pair
      (fun p => (hentries p ⟨1, 0⟩).trans (by simp))
      (fun p => (hput.2 p ⟨1, 0⟩).trans (by simp))
    inserted := hinserted
    deleted := hdeleted
    sep := fun e t ht => Option.some.inj ht ▸ sep_movedStore v e }

/-- The entry of "a". -/
def putA (i : Index) : Option Index :=
  i.insertNonuniqueEntry (.str [97]) 1 1

/-- The null entry. -/
def putNull (i : Index) : Option Index := some (i.insertNullEntry 1 1)

theorem indexWith_null (e : Int) (row : NonLockingIndexEntry) :
    (∀ e', Made .nonunique .varchar (indexWith .nonunique .varchar e
      (fun i => some (i.insertNullEntry row.rowid row.engineid)) e')) ∧
      ∀ p r, entriesAt (indexWith .nonunique .varchar e
          fun i => some (i.insertNullEntry row.rowid row.engineid)) p r =
        if p = (e, none) ∧ r = row then [0] else [] := by
  have hb := insertNullEntry_becomes (Index.makeindex .nonunique .varchar) row
  have hupdate : indexWith .nonunique .varchar e
      (fun i => some (i.insertNullEntry row.rowid row.engineid)) =
      Function.update (fun _ => Index.makeindex .nonunique .varchar) e
        ((Index.makeindex .nonunique .varchar).insertNullEntry row.rowid
          row.engineid) := by
    funext e'
    unfold indexWith
    by_cases he : e' = e
    · simp [he]
    · simp [he]
  have hmade : MadeFor ⟨.varchar, 0, .nonunique⟩
      (fun _ => Index.makeindex .nonunique .varchar) :=
    fun _ => made_makeindex _ _
  rw [hupdate]
  refine ⟨hmade.update hb.same, fun p r => ?_⟩
  rw [Becomes.puts_null hb, entriesAt_makeindex]
  by_cases hp : p = (e, none)
  · simp [hp, NullAt, Index.makeindex]
  · simp [hp]

end Infinisql.Proofs
