import Infinisql.Proofs.CommitItems
import Infinisql.Proofs.RowValues

/-!
# Updates in place

A committed row has one entry for each indexed field, at the place of the
field's value. An update that leaves the row where it is adds the entry of a
changed field and then deletes the old one. The commit decides whether a
field changed by comparing the two versions as they are stored; an entry is
kept under the trimmed value. Where the two tests disagree the index goes
wrong. A string that only gained or lost trailing space counts as changed,
and then the delete removes the entry that the add has just put under the
same key.

So the commit leaves index and row in agreement exactly when, for every
indexed field, the comparison tells the two values apart exactly if their
places differ.
-/

namespace Infinisql.Proofs

open Infinisql.Ref Infinisql.Lib

/-! ## Agreement -/

/-- Exactly one entry of the row in the field's indexes: a committed one, at
this place. -/
def Agrees (I : Int → Index) (row : NonLockingIndexEntry) (p : Place) : Prop :=
  ∀ p', entriesAt I p' row = if p' = p then [0] else []

theorem Agrees.iff_eq {I : Int → Index} {row : NonLockingIndexEntry}
    {p p' : Place} (h : Agrees I row p) : Agrees I row p' ↔ p = p' := by
  constructor
  · intro h'
    have h1 := h p
    rw [h' p, if_pos rfl] at h1
    by_contra hne
    rw [if_neg hne] at h1
    exact absurd h1 (by simp)
  · rintro rfl
    exact h

/-- The comparison of the stored values tells them apart exactly if their
places differ. -/
def TellsApart (top : Topology) (n : Nat) (f : Field)
    (original new : FieldValue) : Prop :=
  Transaction.changed original new = true ↔
    place top n f original ≠ place top n f new

instance (top : Topology) (n : Nat) (f : Field) (original new : FieldValue) :
    Decidable (TellsApart top n f original new) :=
  inferInstanceAs (Decidable (_ ↔ _))

theorem place_isSome (top : Topology) (n : Nat) {f : Field} (v : FieldValue)
    (hf : Indexed f) : (place top n f v).2.isSome = !v.isnull := by
  unfold place
  cases hn : v.isnull with
  | true => rfl
  | false =>
      obtain ⟨key, hkey⟩ := key_isSome
        (Transaction.trimField f v) hf.type
      simp [hkey]

/-- The add of a changed field, from the indexes before anything was staged.
In a unique index it does not meet the old entry. -/
theorem run_add {top : Topology} {subs : Int → Int} (tableid : Int)
    {n : Nat} {f : Field} {old row : NonLockingIndexEntry}
    {original new : FieldValue} {I₀ I : Int → Index} (hf : Indexed f)
    (hmade : MadeFor f I₀)
    (hagrees : Agrees I₀ old (place top n f original))
    (hstaged : StagedFor top subs f row original new I₀ I)
    (hc : Transaction.changed original new = true) :
    (f.indextype.isunique = true → original.isnull = false →
      place top n f original ≠ place top n f new) ∧
    ∃ I', applyIndexAt subs .commitCmd I (Transaction.addItem top tableid n f
        row.rowid row.engineid new) = some I' ∧ MadeFor f I' ∧
      Sets I₀ I' (place top n f new) row
        (added f new (entriesAt I₀ (place top n f new) row)) := by
  by_cases hs : f.indextype.isunique = true ∧ new.isnull = false
  · obtain ⟨hu, hn⟩ := hs
    obtain ⟨hmade', hfree, hsets⟩ :=
      stagedFor_sets n hf hmade hstaged hu hc hn
    have hown : entriesAt I (place top n f new) row =
        [subs (place top n f new).1] := by
      rw [hsets, if_pos ⟨rfl, rfl⟩]
    obtain ⟨I', h1, h2, h3⟩ := addItem_sets top subs tableid n hf hmade'
      (fun _ _ => hown)
    refine ⟨fun _ _ heq => ?_, I', h1, h2, fun p r => ?_⟩
    · have h := hagrees (place top n f original)
      rw [if_pos rfl, heq, hfree] at h
      exact absurd h (by simp)
    · rw [h3]
      split
      · simp [added, hu]
      · next h => rw [hsets, if_neg h]
  · have heq : I = I₀ := stagedFor_eq hstaged fun h => hs ⟨h.1, h.2.2⟩
    subst heq
    obtain ⟨I', h1, h2, h3⟩ := addItem_sets top subs tableid n hf hmade
      (fun hn hu => absurd ⟨hu, hn⟩ hs)
    refine ⟨fun hu ho heq => ?_, I', h1, h2, h3⟩
    have h1 := place_isSome top n original hf
    have h2 := place_isSome top n new hf
    rw [heq, h2, ho] at h1
    exact hs ⟨hu, by simpa using h1⟩

/-- The two items of a changed field, add and then delete. -/
theorem run_addDelete {top : Topology} {subs : Int → Int} (tableid : Int)
    {n : Nat} {f : Field} {old row : NonLockingIndexEntry}
    {original new : FieldValue} {I₀ I : Int → Index} (hf : Indexed f)
    (hmade : MadeFor f I₀)
    (hagrees : Agrees I₀ old (place top n f original))
    (hstaged : StagedFor top subs f row original new I₀ I)
    (hc : Transaction.changed original new = true) :
    ∃ I', run (applyIndexAt subs .commitCmd) I
        [Transaction.addItem top tableid n f row.rowid row.engineid new,
          Transaction.deleteItem top tableid n f old.rowid old.engineid
            original] = some I' ∧
      ∀ p r, entriesAt I' p r =
        if p = place top n f original ∧ r = old then []
        else if p = place top n f new ∧ r = row then
          added f new (entriesAt I₀ p r)
        else entriesAt I₀ p r := by
  obtain ⟨hne, I₁, h1, hmade₁, hadd⟩ :=
    run_add tableid hf hmade hagrees hstaged hc
  have hown : f.indextype.isunique = true → original.isnull = false →
      entriesAt I₁ (place top n f original) old ≠ [] := by
    intro hu ho
    rw [hadd, if_neg (fun h => hne hu ho h.1), hagrees, if_pos rfl]
    simp
  obtain ⟨I', h2, _, hdel⟩ :=
    deleteItem_sets top subs tableid n hf hmade₁ hown
  refine ⟨I', run_cons.mpr ⟨I₁, h1, run_cons.mpr ⟨I', h2, rfl⟩⟩,
    fun p r => ?_⟩
  rw [hdel, hadd]
  split
  · rfl
  · split
    · next h => rw [h.1, h.2]
    · rfl

/-- One field of an update in place. -/
theorem updateField_agrees {top : Topology} {subs : Int → Int}
    {tableid : Int} {n : Nat} {f : Field} {sRow : StagedRow}
    {original new : FieldValue} {I₀ I : Int → Index} (hf : Indexed f)
    (hmade : MadeFor f I₀) (hmoved : Transaction.StagedRow.moved sRow = false)
    (hagrees : Agrees I₀ (oldAddress sRow) (place top n f original))
    (hstaged : StagedFor top subs f (newAddress sRow) original new I₀ I) :
    ∃ I', run (applyIndexAt subs .commitCmd) I
        (Transaction.updateField top tableid sRow false n f original new) =
        some I' ∧
      (Agrees I' (newAddress sRow) (place top n f new) ↔
        TellsApart top n f original new) := by
  have hsame : (oldAddress sRow) = (newAddress sRow) := by
    simpa [Transaction.StagedRow.moved, oldAddress, newAddress] using hmoved
  unfold TellsApart
  cases hc : Transaction.changed original new with
  | false =>
      have heq : I = I₀ := stagedFor_eq hstaged fun h => by simp [hc] at h
      subst heq
      refine ⟨I, by simp [Transaction.updateField, hc], ?_⟩
      rw [← hsame, hagrees.iff_eq]
      simp
  | true =>
      obtain ⟨I', h1, h2⟩ :=
        run_addDelete tableid hf hmade hagrees hstaged hc
      refine ⟨I', ?_, ?_⟩
      · rw [Transaction.updateField, hc, if_pos rfl]
        exact h1
      · rw [hsame] at h2 hagrees
        simp only [true_iff]
        constructor
        · intro h heq
          have h' := h (place top n f new)
          rw [h2, if_pos ⟨heq.symm, rfl⟩, if_pos rfl] at h'
          exact absurd h' (by simp)
        · intro hne p
          rw [h2, hagrees]
          by_cases hp : p = place top n f original
          · simp [hp, hne]
          · by_cases hp' : p = place top n f new
            · simp [hp', Ne.symm hne, added_nil]
            · simp [hp, hp']

/-! ## The commit of an update -/

/-- Every field with an index. -/
def EachIndexed (fields : List Field) (P : Nat → Field → Prop) : Prop :=
  ∀ n f, fields[n]? = some f → f.indextype ≠ .none → P n f

/-- The row is there, write-locked by the transaction's subtransaction, and
staged as deleted or not. -/
def Held (c : Cluster) (subs : Int → Int) (tableid : Int)
    (row : NonLockingIndexEntry) (deleted : Bool) : Prop :=
  ∃ t a, storeAt c tableid row.engineid = some t ∧
    t.rows row.rowid = some a ∧
    Table.writeLockedBy (t.heap a) (subs row.engineid) = true ∧
    getdeleteflag (t.heap a).flags = deleted

/-- An update of a committed row, staged. `c₀` is the cluster with index and
row in agreement, `c` the cluster at the commit. -/
structure StagedUpdate (top : Topology) (fields : List Field)
    (subs : Int → Int) (uur : UuRecord) (sRow : StagedRow)
    (c₀ c : Cluster) : Prop where
  cmd : sRow.cmd = .update
  address : oldAddress sRow = ⟨uur.rowid, uur.engineid⟩
  table : HasTable c uur.tableid
  typed : EachIndexed fields fun _ f => f.type ≠ .nofieldtype
  made : EachIndexed fields fun n f => MadeFor f (indexAt c₀ uur.tableid n)
  agrees : EachIndexed fields fun n f =>
    Agrees (indexAt c₀ uur.tableid n) (oldAddress sRow)
      (place top n f (valueOf fields sRow.originalRow n))
  staged : EachIndexed fields fun n f =>
    StagedFor top subs f (newAddress sRow)
      (valueOf fields sRow.originalRow n) (valueOf fields sRow.newRow n)
      (indexAt c₀ uur.tableid n) (indexAt c uur.tableid n)

theorem addItem_onField {top : Topology} {tableid : Int} {n : Nat}
    {f : Field} {rowid engineid : Int} {v : FieldValue} :
    OnField tableid n
      (Transaction.addItem top tableid n f rowid engineid v) := by
  unfold Transaction.addItem
  split
  · exact ⟨rfl, rfl, rfl⟩
  · dsimp only
    split <;> exact ⟨rfl, rfl, rfl⟩

theorem deleteItem_onField {top : Topology} {tableid : Int} {n : Nat}
    {f : Field} {rowid engineid : Int} {v : FieldValue} :
    OnField tableid n
      (Transaction.deleteItem top tableid n f rowid engineid v) := by
  unfold Transaction.deleteItem
  dsimp only
  split <;> exact ⟨rfl, rfl, rfl⟩

theorem replaceItem_onField {top : Topology} {tableid : Int} {n : Nat}
    {f : Field} {sRow : StagedRow} {v : FieldValue} :
    OnField tableid n
      (Transaction.replaceItem top tableid n f sRow v) := by
  unfold Transaction.replaceItem
  dsimp only
  split <;> exact ⟨rfl, rfl, rfl⟩

theorem updateField_onField {top : Topology} {tableid : Int} {n : Nat}
    {f : Field} {sRow : StagedRow} {moved : Bool}
    {original new : FieldValue} :
    ∀ item ∈ Transaction.updateField top tableid sRow moved n f original new,
      OnField tableid n item := by
  unfold Transaction.updateField
  intro item hitem
  split at hitem
  · rcases List.mem_pair.mp hitem with rfl | rfl
    · exact addItem_onField
    · exact deleteItem_onField
  · split at hitem
    · rw [List.mem_singleton.mp hitem]
      exact replaceItem_onField
    · exact absurd hitem (by simp)

/-- The commit of a row that the subtransaction holds and does not delete. -/
theorem applyRow_commit {t : Table} {r s : Int} {a : Addr}
    {subTransactions : Finset Int} (ha : t.rows r = some a)
    (hw : Table.writeLockedBy (t.heap a) s = true)
    (hd : getdeleteflag (t.heap a).flags = false) :
    ∃ t', SubTransaction.applyRow s .commitCmd subTransactions r t =
      some t' ∧ t.commitRow r s = some t' := by
  have hl : getlocktype (t.heap a).flags ≠ .readLock := by
    intro hl
    simp [Table.writeLockedBy, hl] at hw
  have hcommit : t.commitRow r s = some ((t.setAt a { t.heap a with
      readlockHolders := none }).installShadow r a) := by
    simp only [Table.commitRow, ha, if_neg hl, hw, hd]
    rfl
  refine ⟨_, ?_, hcommit⟩
  have hrow : (((t.setAt a { t.heap a with
      readlockHolders := none }).installShadow r a).rows r).isSome := by
    unfold Table.installShadow
    dsimp only
    split
    · simp [ha]
    · split
      · simp [ha]
      · simp
  simp only [SubTransaction.applyRow, Table.commitRollbackUnlock, hcommit]
  simp [hrow]

/-- The commit of one staged row, item by item. -/
theorem commit_single {top : Topology} {schema : Int → List Field}
    {subs : Int → Int} {uur : UuRecord} {sRow : StagedRow} {c : Cluster} :
    Transaction.commit top schema subs [(uur, sRow)] c =
      (run (applyAt subs .commitCmd) c
        (Transaction.rowItems top (schema uur.tableid) uur sRow).1).bind
        fun c' => run (applyAt subs .commitCmd) c'
          (Transaction.rowItems top (schema uur.tableid) uur sRow).2 := by
  simp only [Transaction.commit, Transaction.commitMsgs, deliver_addRofs,
    List.map_cons, List.map_nil, List.flatMap_cons, List.flatMap_nil,
    List.append_nil]

theorem commit_inPlace {top : Topology} {schema : Int → List Field}
    {subs : Int → Int} {uur : UuRecord} {sRow : StagedRow} {c : Cluster}
    (hcmd : sRow.cmd = .update)
    (hmoved : Transaction.StagedRow.moved sRow = false) :
    Transaction.commit top schema subs [(uur, sRow)] c =
      run (applyAt subs .commitCmd) c
        ((uur.engineid, Transaction.rowItem uur.tableid uur.rowid) ::
          Transaction.updateItems top (schema uur.tableid) uur sRow
            false) := by
  rw [commit_single]
  simp only [Transaction.rowItems, hcmd, hmoved, Bool.false_eq_true, if_false]
  exact Option.bind_fun_some _

/-- An integer or a character field never goes wrong. -/
theorem tellsApart_of_narrow {top : Topology} {n : Nat} {f : Field}
    {original new : FieldValue} (ho : Narrow f.type original)
    (hn : Narrow f.type new)
    (hf : f.type = .int ∨ f.type = .uint ∨ f.type = .char) :
    TellsApart top n f original new := by
  have htrim : ∀ v, Transaction.trimField f v = v := by
    intro v
    unfold Transaction.trimField
    rcases hf with hf | hf | hf <;> rw [hf]
  have hplace : ∀ v, place top n f v = if v.isnull then
      (Transaction.nullEngineid top n, none)
      else (Transaction.getEngineid top f v, v.key f.type) := by
    intro v
    simp only [place, htrim]
  have hkeySome : ∀ v : FieldValue, v.key f.type ≠ none := by
    intro v
    rcases hf with hf | hf | hf <;> rw [hf] <;> simp [FieldValue.key]
  have hlt : ∀ {v : FieldValue}, Narrow f.type v →
      v.value.toNat < 2 ^ 64 := by
    intro v hv
    refine Nat.lt_of_lt_of_le hv.value (Nat.pow_le_pow_right (by omega) ?_)
    rcases hf with hf | hf | hf <;> rw [hf] <;> decide
  have hsame : original.isnull = new.isnull → original.value = new.value →
      original = new := by
    intro h1 h2
    have h3 := ho.str.trans hn.str.symm
    cases original
    cases new
    simp_all
  have hchanged : Transaction.changed original new = true ↔
      original ≠ new := by
    have hfloat : original.value.floating = new.value.floating ↔
        original.value = new.value := by
      rw [floating_of_lt (hlt ho), floating_of_lt (hlt hn)]
      constructor
      · exact fun h => BitVec.eq_of_toNat_eq (by exact_mod_cast h)
      · exact fun h => by rw [h]
    rw [← not_iff_not]
    simp only [Transaction.changed, ho.str, hn.str, Bool.or_eq_true,
      bne_iff_ne, hfloat, ne_eq, not_true_eq_false, or_false, not_or,
      not_not]
    exact ⟨fun h => hsame h.2 h.1, fun h => by simp [h]⟩
  have hinj : place top n f original = place top n f new →
      original = new := by
    intro h
    rw [hplace, hplace] at h
    cases h1 : original.isnull <;> cases h2 : new.isnull <;>
      simp only [h1, h2, Bool.false_eq_true, if_false, if_true,
        Prod.mk.injEq] at h
    · exact hsame (h1.trans h2.symm) (key_injective hf ho hn h.2)
    · exact absurd h.2 (hkeySome original)
    · exact absurd h.2.symm (hkeySome new)
    · exact hsame (h1.trans h2.symm)
        ((ho.null h1).trans (hn.null h2).symm)
  rw [TellsApart, hchanged]
  exact ⟨fun hne h => hne (hinj h), fun hne h => hne (by rw [h])⟩

/-- A string field goes wrong where the change is one of trailing space. -/
theorem tellsApart_string_iff {top : Topology} {n : Nat} {f : Field}
    {original new : FieldValue} (hf : f.type = .charx ∨ f.type = .varchar)
    (ho : original.value = 0#128 ∧ original.isnull = false)
    (hn : new.value = 0#128 ∧ new.isnull = false) :
    TellsApart top n f original new ↔
      (trimspace original.str = trimspace new.str →
        original.str = new.str) := by
  have htrim : ∀ v : FieldValue,
      Transaction.trimField f v = v.trim := by
    intro v
    unfold Transaction.trimField
    rcases hf with hf | hf <;> rw [hf]
  have hplace : ∀ v : FieldValue, v.isnull = false → place top n f v =
      (Transaction.getEngineid top f v.trim,
        some (.str (trimspace v.str))) := by
    intro v hv
    rw [place, if_neg (by simp [hv])]
    simp only [htrim]
    rcases hf with hf | hf <;> rw [hf] <;> rfl
  have hengine : trimspace original.str = trimspace new.str →
      Transaction.getEngineid top f original.trim =
        Transaction.getEngineid top f new.trim := by
    intro heq
    unfold Transaction.getEngineid
    rcases hf with hf | hf <;> rw [hf] <;> simp [heq]
  have hchanged : Transaction.changed original new = true ↔
      original.str ≠ new.str := by
    simp [Transaction.changed, ho, hn]
  rw [TellsApart, hchanged, hplace _ ho.2, hplace _ hn.2]
  by_cases heq : trimspace original.str = trimspace new.str
  · simp [heq, hengine heq]
  · have hne : original.str ≠ new.str := fun h => heq (by rw [h])
    simp [heq, hne]

/-! ## One engine

A cluster for the examples: one partition, and a row (1, "a") with a unique
INT and a nonunique VARCHAR field, held by subtransaction 7. -/

def onePartition : Topology := ⟨1, fun _ => 0⟩

def pairFields : List Field :=
  [⟨.int, 0, .unique⟩, ⟨.varchar, 0, .nonunique⟩]

def pairRow (n : Nat) (s : Bytes) : Bytes :=
  (makerow pairFields [{ value := BitVec.ofNat 128 n }, { str := s }]).getD []

/-- New indexes, with something put into the one at engine `e`. -/
def indexWith (it : Indextype) (ft : Fieldtype) (e : Int)
    (put : Index → Option Index) : Int → Index := fun e' =>
  let i := Index.makeindex it ft
  if e' = e then (put i).getD i else i

def pairIndex : Nat → Int → Index
  | 0 => indexWith .unique .int 0 (·.replaceUnique 1 0 (.integer 1))
  | _ => indexWith .nonunique .varchar 0
      (·.insertNonuniqueEntry (.str [97]) 1 0)

/-- The row committed, locked by 7, and updated. -/
def pairStore (newRow : Bytes) : Table :=
  (run Table.step (.new 1 0)
    [.newrow 1 7 (pairRow 1 [97]), .commitRollbackUnlock 1 7 .commitCmd,
      .selectrows [1] .writeLock 7 0 0, .updaterow 1 7 newRow]).getD
    (.new 1 0)

def clusterOf (store : Int → Table) (index : Nat → Int → Index) : Cluster :=
  fun e =>
    { tables := fun tableid =>
        if tableid = 1 then
          some { store := store e, index := fun n => index n e }
        else none
      subTransactions := {7}
      nextsubtransactionid := 7 }

def pairUpdate (newRow : Bytes) : StagedRow :=
  { cmd := .update, originalRow := pairRow 1 [97], originalrowid := 1
    newRow := newRow, newrowid := 1, locktype := .writeLock }

/-- A field with a unique and a field with a nonunique index. -/
theorem eachIndexed_pair {P : Nat → Field → Prop}
    (h0 : P 0 ⟨.int, 0, .unique⟩) (h1 : P 1 ⟨.varchar, 0, .nonunique⟩) :
    EachIndexed pairFields P := by
  intro n f hf _
  match n with
  | 0 => exact Option.some.inj hf ▸ h0
  | 1 => exact Option.some.inj hf ▸ h1
  | n + 2 => exact absurd hf (by simp [pairFields])

theorem entriesAt_makeindex {it : Indextype} {ft : Fieldtype} {p : Place}
    {row : NonLockingIndexEntry} :
    entriesAt (fun _ => Index.makeindex it ft) p row = [] := by
  obtain ⟨e, k⟩ := p
  cases k with
  | none => rfl
  | some key => exact entriesOf_makeindex

/-- One entry put there is the only one. -/
theorem indexWith_sets {it : Indextype} {ft : Fieldtype} {e : Int}
    {key : Key} {row : NonLockingIndexEntry} {put : Index → Option Index}
    {i' : Index} {F : Key → NonLockingIndexEntry → List Int}
    (hput : put (Index.makeindex it ft) = some i')
    (h : Becomes (Index.makeindex it ft) i' F
      (NullAt (Index.makeindex it ft)))
    (hF : ∀ k r, F k r = if k = key ∧ r = row then [0] else []) :
    (∀ e', Made it ft (indexWith it ft e put e')) ∧
      ∀ p r, entriesAt (indexWith it ft e put) p r =
        if p = (e, some key) ∧ r = row then [0] else [] := by
  have hupdate : indexWith it ft e put =
      Function.update (fun _ => Index.makeindex it ft) e i' := by
    funext e'
    unfold indexWith
    by_cases he : e' = e
    · simp [he, hput]
    · simp [he]
  have hputs : Puts (fun _ => Index.makeindex it ft)
      (Function.update (fun _ => Index.makeindex it ft) e i')
      (e, some key) fun r => if r = row then [0] else [] := by
    refine Becomes.puts h fun k r => ?_
    rw [hF]
    by_cases hk : k = key
    · simp [hk]
    · simp [hk, entriesOf_makeindex]
  rw [hupdate]
  constructor
  · intro e'
    by_cases he : e' = e
    · rw [he, Function.update_self]
      exact h.same.made (made_makeindex it ft)
    · rw [Function.update_of_ne he]
      exact made_makeindex it ft
  · intro p r
    rw [hputs, entriesAt_makeindex]
    by_cases hp : p = (e, some key)
    · simp [hp]
    · simp [hp]

theorem indexWith_unique (e n : Int) (row : NonLockingIndexEntry) :
    (∀ e', Made .unique .int (indexWith .unique .int e
      (·.replaceUnique row.rowid row.engineid (.integer n)) e')) ∧
      ∀ p r, entriesAt (indexWith .unique .int e
          (·.replaceUnique row.rowid row.engineid (.integer n))) p r =
        if p = (e, some (.integer n)) ∧ r = row then [0] else [] := by
  obtain ⟨m, q, hon⟩ := uniqueOn_of_made (made_makeindex .unique .int) rfl
    (by decide)
  have hmap := hon.maptype
  have hassign := hon.assign (.integer n)
    (some ⟨row.rowid, row.engineid, 0⟩)
  obtain ⟨i', h1, _⟩ := hassign
  obtain ⟨rfl, rfl⟩ : LockingMap.uniqueIntIndex = m ∧
      LockQueueMap.intLockQueue = q := by
    simpa using Option.some.inj hmap
  refine indexWith_sets h1 (hon.assign_becomes h1) fun k r => ?_
  by_cases hr : r = row
  · subst hr
    simp [entriesOf_makeindex, rowOf]
  · have hne : ¬ rowOf ⟨row.rowid, row.engineid, 0⟩ = r :=
      fun h => hr h.symm
    simp [entriesOf_makeindex, hr, hne]

theorem indexWith_nonunique (e : Int) (s : Bytes)
    (row : NonLockingIndexEntry) :
    (∀ e', Made .nonunique .varchar (indexWith .nonunique .varchar e
      (·.insertNonuniqueEntry (.str s) row.rowid row.engineid) e')) ∧
      ∀ p r, entriesAt (indexWith .nonunique .varchar e
          (·.insertNonuniqueEntry (.str s) row.rowid row.engineid)) p r =
        if p = (e, some (.str (trimspace s))) ∧ r = row then [0]
        else [] := by
  obtain ⟨m, hon⟩ := nonuniqueOn_of_made
    (made_makeindex .nonunique .varchar) (by decide) rfl (by decide)
  have hkey : FieldValue.key { str := s }
      (Index.makeindex .nonunique .varchar).fieldtype = some (.str s) := rfl
  obtain ⟨i', h1, hb⟩ := insertNonuniqueEntry_becomes hon hkey row
  refine indexWith_sets h1 hb fun k r => ?_
  rw [entriesOf_makeindex, List.nil_append]
  rfl

theorem agrees_pairIndex : EachIndexed pairFields fun n f =>
    MadeFor f (pairIndex n) ∧ Agrees (pairIndex n) ⟨1, 0⟩
      (place onePartition n f (valueOf pairFields (pairRow 1 [97]) n)) := by
  refine eachIndexed_pair ?_ ?_
  · obtain ⟨hmade, hentries⟩ := indexWith_unique 0 1 ⟨1, 0⟩
    have hplace : place onePartition 0 ⟨.int, 0, .unique⟩
        (valueOf pairFields (pairRow 1 [97]) 0) = (0, some (.integer 1)) := by
      decide
    rw [hplace]
    exact ⟨hmade, fun p => (hentries p ⟨1, 0⟩).trans (by simp)⟩
  · obtain ⟨hmade, hentries⟩ := indexWith_nonunique 0 [97] ⟨1, 0⟩
    have hplace : place onePartition 1 ⟨.varchar, 0, .nonunique⟩
        (valueOf pairFields (pairRow 1 [97]) 1) =
          (0, some (.str (trimspace [97]))) := by
      decide
    rw [hplace]
    exact ⟨hmade, fun p => (hentries p ⟨1, 0⟩).trans (by simp)⟩

/-- With the new value of the unique field staged. -/
def pairStaged (val : FieldValue) : Nat → Int → Index
  | 0 => Function.update (pairIndex 0) 0
      ((((pairIndex 0 0).uniqueIndex ⟨0, 1, ⟨1, 0, 7⟩⟩ val).map
        fun reply => reply.2.2).getD (pairIndex 0 0))
  | n + 1 => pairIndex (n + 1)

theorem stagedUpdate_pair :
    StagedUpdate onePartition pairFields (fun _ => 7) ⟨1, 1, 0⟩
      (pairUpdate (pairRow 2 [98]))
      (clusterOf (fun _ => pairStore (pairRow 2 [98])) pairIndex)
      (clusterOf (fun _ => pairStore (pairRow 2 [98]))
        (pairStaged { value := 2#128 })) where
  cmd := rfl
  address := rfl
  table e := ⟨_, rfl⟩
  typed := eachIndexed_pair (by decide) (by decide)
  made n f hf hi := (agrees_pairIndex n f hf hi).1
  agrees n f hf hi := (agrees_pairIndex n f hf hi).2
  staged := eachIndexed_pair
    (by
      rw [StagedFor, if_pos (by decide)]
      exact ⟨⟨0, 1, ⟨1, 0, 7⟩⟩, _, _, by decide, rfl, rfl⟩)
    (by
      rw [StagedFor, if_neg (by decide)]
      rfl)

def spaceCluster : Cluster :=
  clusterOf (fun _ => pairStore (pairRow 1 [97, 32])) pairIndex

end Infinisql.Proofs
