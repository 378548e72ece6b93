import Infinisql.Proofs.CommitDispatch
import Infinisql.Proofs.InsertIndex
import Infinisql.Proofs.RowRoundTrip
import Infinisql.Spec.Changes

/-!
# Does a replica get what the primary does?

What `handledispatch` derives from the row strings is compared, change by
change, with what the commit changes on the primary. An index item goes to the
partition that the value as it is hashes to, and its entry names that partition
as the row's. So it mirrors the primary's only where the row is there itself,
the value has no trailing space, and a null belongs there too. An update is
mirrored if it leaves the row where it is and the member that its field's type
names tells every change. The row of a deletion is looked for in the string
that the dispatch leaves empty.

Nothing makes up for what is missing. The changes derived for a row are never
more than the primary's, so if all of them together are the same multiset, they
are as many for each row. Then each is one of the primary's and the other way
around, which carries what is special about the one kind over to the other.
-/

namespace Infinisql.Proofs

open Infinisql.Ref Infinisql.Spec

/-! ## The statement -/

/-- A staged row, as the statements of a transaction leave it. -/
structure WellStaged (fields : List Field) (uur : UuRecord)
    (sRow : StagedRow) : Prop where
  new : sRow.cmd = .insert ∨ sRow.cmd = .update →
    ∃ vals, makerow fields vals = some sRow.newRow
  original : sRow.cmd = .update →
    ∃ vals, makerow fields vals = some sRow.originalRow
  inserted : sRow.cmd = .insert →
    sRow.newrowid = uur.rowid ∧ sRow.newengineid = uur.engineid
  there : sRow.cmd = .update ∨ sRow.cmd = .delete →
    sRow.originalrowid = uur.rowid ∧ sRow.originalengineid = uur.engineid

/-- The messages that the dispatch of a transaction leads to change what its
commit changes, in whatever order the partitions are gone through. Without a
dispatch there is nothing to change. -/
def Mirrors (top : Topology) (schemata : Int → Int → List Field)
    (agent : ReplicaAgent) (sourceAddr : AddressStruct) (t : Transaction) :
    Prop :=
  match t.makeMessageDispatch with
  | none => commitChanges top (schemata t.domainid) t.stagedRows = []
  | some msg => ∀ records, records.Perm msg.records →
      ∃ h, agent.handledispatch top schemata sourceAddr
          { msg with records := records } = some h ∧
        (h.msgs.flatMap applyChanges).Perm
          (commitChanges top (schemata t.domainid) t.stagedRows)

/-- A value whose entry is where its row is, in every way of telling. -/
structure WithItsRow (top : Topology) (n : Nat) (f : Field) (engineid : Int)
    (v : FieldValue) : Prop where
  trimmed : Transaction.trimField f v = v
  hashed : getPartitionid top f v = engineid
  null : v.isnull = true → Transaction.nullEngineid top n = engineid

/-- A staged row that the replica is told of. -/
def Mirrored (top : Topology) (fields : List Field) (uur : UuRecord)
    (sRow : StagedRow) : Prop :=
  match sRow.cmd with
  | .nocommand => True
  | .insert => EachIndexed fields fun n f =>
      WithItsRow top n f uur.engineid (valueOf fields sRow.newRow n)
  | .update =>
      Transaction.StagedRow.moved sRow = false ∧ EachIndexed fields fun n f =>
        let original := valueOf fields sRow.originalRow n
        let new := valueOf fields sRow.newRow n
        ReplicaAgent.aredifferent f new original =
            Transaction.changed original new ∧
          (Transaction.changed original new = true →
            WithItsRow top n f uur.engineid original ∧
              WithItsRow top n f uur.engineid new)
  | .delete => fields = []

/-! ## Values of a row string -/

/-- A null has nothing beside it. -/
theorem valueOf_null {fields : List Field} {row : Bytes} {n : Nat}
    (h : (valueOf fields row n).isnull = true) :
    valueOf fields row n = { isnull := true } := by
  have hread : ∀ (f : Field) (pos : Nat),
      (unmakefield f row pos).1.isnull = false := by
    intro f pos
    rw [unmakefield]
    cases f.type <;> rfl
  cases hn : fields[n]? with
  | none =>
      have hdefault : valueOf fields row n = {} := by
        rw [valueOf, List.getD_eq_getElem?_getD,
          List.getElem?_eq_none (by simpa using hn)]
        rfl
      rw [hdefault] at h
      exact absurd h (by simp)
  | some f =>
      rcases unmakefields_cases row 0 hn with hv | hv | ⟨pos, hv⟩
      · rw [valueOf, unmakerow, hv] at h
        exact absurd h (by simp)
      · rw [valueOf, unmakerow, hv]
      · rw [valueOf, unmakerow, hv, hread] at h
        exact absurd h (by simp)

/-- Only a `FLOAT` has more than 64 bits. -/
theorem valueOf_lt {fields : List Field} (row : Bytes) {n : Nat} {f : Field}
    (hn : fields[n]? = some f) (hf : f.type ≠ .float) :
    (valueOf fields row n).value.toNat < 2 ^ 64 := by
  have hread : ∀ pos k, k ≤ 8 →
      (FieldInput.ofBytes (readBytes row pos k)).toNat < 2 ^ 64 := by
    intro pos k hk
    have hlen : (readBytes row pos k).length ≤ k := List.length_take_le ..
    exact Nat.lt_of_lt_of_le (ofBytes_lt (by omega))
      (Nat.pow_le_pow_right (by omega) (by omega))
  have hzero : (0#128).toNat < 2 ^ 64 := by decide
  rcases unmakefields_cases row 0 hn with hv | hv | ⟨pos, hv⟩
  · rw [valueOf, unmakerow, hv]
    exact hzero
  · rw [valueOf, unmakerow, hv]
    exact hzero
  · rw [valueOf, unmakerow, hv, unmakefield]
    cases ht : f.type with
    | float => exact absurd ht hf
    | int => exact hread pos 8 (by omega)
    | uint => exact hread pos 8 (by omega)
    | bool => exact hread pos 1 (by omega)
    | char => exact hread pos 1 (by omega)
    | charx => exact hzero
    | varchar => exact hzero
    | nofieldtype => exact hzero

/-- What the replica sees the primary sees too. -/
theorem changed_of_aredifferent {fields : List Field} {original new : Bytes}
    {n : Nat} {f : Field} (hn : fields[n]? = some f)
    (h : ReplicaAgent.aredifferent f (valueOf fields new n)
      (valueOf fields original n) = true) :
    Transaction.changed (valueOf fields original n)
      (valueOf fields new n) = true := by
  have hvalue : f.type ≠ .float →
      (valueOf fields new n).value ≠ (valueOf fields original n).value →
      Transaction.changed (valueOf fields original n)
        (valueOf fields new n) = true := by
    intro hf hne
    have h1 := valueOf_lt original hn hf
    have h2 := valueOf_lt new hn hf
    have hfloat : (valueOf fields original n).value.floating ≠
        (valueOf fields new n).value.floating := by
      rw [floating_of_lt h1, floating_of_lt h2]
      intro heq
      exact hne (BitVec.eq_of_toNat_eq (by omega))
    simp [Transaction.changed, hfloat]
  rw [ReplicaAgent.aredifferent] at h
  cases ht : f.type with
  | int =>
      rw [ht, bne_iff_ne] at h
      exact hvalue (by simp [ht]) fun heq => h (by rw [heq])
  | uint =>
      rw [ht, bne_iff_ne] at h
      exact hvalue (by simp [ht]) fun heq => h (by rw [heq])
  | bool =>
      rw [ht, bne_iff_ne] at h
      exact hvalue (by simp [ht]) fun heq => h (by rw [heq])
  | char =>
      rw [ht, bne_iff_ne] at h
      exact hvalue (by simp [ht]) fun heq => h (by rw [heq])
  | float =>
      rw [ht, bne_iff_ne] at h
      simp [Transaction.changed, Ne.symm h]
  | charx =>
      rw [ht, bne_iff_ne] at h
      simp [Transaction.changed, Ne.symm h]
  | varchar =>
      rw [ht, bne_iff_ne] at h
      simp [Transaction.changed, Ne.symm h]
  | nofieldtype =>
      rw [ht] at h
      exact absurd h (by simp)

/-- A row string that was made can be read. -/
theorem unmakerow_makerow {fields : List Field} {row : Bytes}
    (h : ∃ vals, makerow fields vals = some row) :
    ReplicaAgent.unmakerow fields row = some (unmakerow fields row) := by
  obtain ⟨vals, hrow⟩ := h
  rw [ReplicaAgent.unmakerow, if_neg]
  rintro ⟨rfl, hne⟩
  obtain ⟨hlen, _, hle⟩ := makerow_eq_some hrow
  cases fields with
  | nil => exact hne rfl
  | cons f fields =>
      cases vals with
      | nil => exact absurd hlen (by simp)
      | cons v vals =>
          have hpos := fieldsize_pos f v
          rw [List.zipWith_cons_cons, List.sum_cons, List.length_nil] at hle
          omega

/-! ## The fields with an index -/

theorem flatMap_forFields {β : Type} (fields : List Field)
    (items : Nat → Field → List (Int × RowOrField))
    (g : Int × RowOrField → List β) :
    (Transaction.forFields fields items).flatMap g =
      ReplicaAgent.forIndices fields fun n f => (items n f).flatMap g := by
  rw [Transaction.forFields, ReplicaAgent.forIndices, List.flatMap_assoc]
  refine List.flatMap_congr fun n _ => ?_
  cases fields[n]? with
  | none => rfl
  | some f =>
      dsimp only
      split
      · rfl
      · rfl

theorem map_forIndices {α β : Type} (fields : List Field)
    (items : Nat → Field → List α) (g : α → β) :
    (ReplicaAgent.forIndices fields items).map g =
      ReplicaAgent.forIndices fields fun n f => (items n f).map g := by
  rw [ReplicaAgent.forIndices, ReplicaAgent.forIndices, List.map_flatMap]
  refine List.flatMap_congr fun n _ => ?_
  cases fields[n]? with
  | none => rfl
  | some f =>
      dsimp only
      split
      · rfl
      · rfl

theorem forIndices_congr {α : Type} {fields : List Field}
    {items items' : Nat → Field → List α}
    (h : EachIndexed fields fun n f => items n f = items' n f) :
    ReplicaAgent.forIndices fields items =
      ReplicaAgent.forIndices fields items' := by
  refine List.flatMap_congr fun n _ => ?_
  cases hn : fields[n]? with
  | none => rfl
  | some f =>
      dsimp only
      split
      · rfl
      · next hindex => exact h n f hn hindex

theorem forIndices_perm {α : Type} {fields : List Field}
    {items items' : Nat → Field → List α}
    (h : EachIndexed fields fun n f => (items n f).Perm (items' n f)) :
    (ReplicaAgent.forIndices fields items).Perm
      (ReplicaAgent.forIndices fields items') := by
  refine List.Perm.flatMap_left _ fun n _ => ?_
  cases hn : fields[n]? with
  | none => exact List.Perm.refl _
  | some f =>
      dsimp only
      split
      · exact List.Perm.refl _
      · next hindex => exact h n f hn hindex

theorem mem_forIndices {α : Type} {fields : List Field}
    {items : Nat → Field → List α} {a : α} :
    a ∈ ReplicaAgent.forIndices fields items ↔
      ∃ n f, fields[n]? = some f ∧ f.indextype ≠ .none ∧ a ∈ items n f := by
  rw [ReplicaAgent.forIndices, List.mem_flatMap]
  constructor
  · rintro ⟨n, _, ha⟩
    cases hn : fields[n]? with
    | none =>
        rw [hn] at ha
        exact absurd ha (List.not_mem_nil)
    | some f =>
        rw [hn] at ha
        dsimp only at ha
        split at ha
        · exact absurd ha (List.not_mem_nil)
        · next hindex => exact ⟨n, f, hn, hindex, ha⟩
  · rintro ⟨n, f, hn, hindex, ha⟩
    have hlt : n < fields.length := (List.getElem?_eq_some_iff.mp hn).1
    refine ⟨n, List.mem_range.mpr hlt, ?_⟩
    rw [hn]
    dsimp only
    rw [if_neg hindex]
    exact ha

/-- Lists that are each no longer than another's are no longer in all, and
where they are as long in all each is as long. -/
theorem length_flatMap_le {α β γ : Type} {f : α → List β} {g : α → List γ} :
    ∀ {l : List α}, (∀ a ∈ l, (f a).length ≤ (g a).length) →
      (l.flatMap f).length ≤ (l.flatMap g).length ∧
      ((l.flatMap f).length = (l.flatMap g).length →
        ∀ a ∈ l, (f a).length = (g a).length) := by
  intro l
  induction l with
  | nil => exact fun _ => ⟨Nat.le_refl _, fun _ _ ha => absurd ha (by simp)⟩
  | cons b l ih =>
      intro h
      have hb := h b List.mem_cons_self
      obtain ⟨hle, heach⟩ := ih fun a ha => h a (List.mem_cons_of_mem b ha)
      simp only [List.flatMap_cons, List.length_append]
      refine ⟨by omega, fun heq a ha => ?_⟩
      rcases List.mem_cons.mp ha with rfl | ha
      · omega
      · exact heach (by omega) a ha

theorem forIndices_eq {α : Type} (fields : List Field)
    (items : Nat → Field → List α) : ReplicaAgent.forIndices fields items =
      (List.range fields.length).flatMap (fieldItems fields items) := rfl

theorem length_forIndices_le {α β : Type} {fields : List Field}
    (items : Nat → Field → List α) (items' : Nat → Field → List β)
    (h : EachIndexed fields fun n f =>
      (items n f).length ≤ (items' n f).length) :
    (ReplicaAgent.forIndices fields items).length ≤
      (ReplicaAgent.forIndices fields items').length ∧
    ((ReplicaAgent.forIndices fields items).length =
        (ReplicaAgent.forIndices fields items').length →
      EachIndexed fields fun n f =>
        (items n f).length = (items' n f).length) := by
  have hone : ∀ n ∈ List.range fields.length,
      (fieldItems fields items n).length ≤
        (fieldItems fields items' n).length := by
    intro n _
    unfold fieldItems
    cases hn : fields[n]? with
    | none => exact Nat.le_refl _
    | some f =>
        dsimp only
        split
        · exact Nat.le_refl _
        · next hindex => exact h n f hn hindex
  obtain ⟨hle, heach⟩ := length_flatMap_le hone
  rw [forIndices_eq, forIndices_eq]
  refine ⟨hle, fun heq n f hn hindex => ?_⟩
  have hlt : n < fields.length := (List.getElem?_eq_some_iff.mp hn).1
  have hthis := heach heq n (List.mem_range.mpr hlt)
  rw [fieldItems, fieldItems, hn] at hthis
  dsimp only at hthis
  rw [if_neg hindex, if_neg hindex] at hthis
  exact hthis

theorem length_forIndices_two {α : Type} {fields : List Field}
    {items : Nat → Field → List α} (h : ∀ n f, (items n f).length ≤ 2) :
    (ReplicaAgent.forIndices fields items).length ≤
      (ReplicaAgent.forIndices fields fun _ _ =>
        [(true, ()), (false, ())]).length :=
  (length_forIndices_le _ _ fun n f _ _ => h n f).1

/-! ## The changes of a staged row -/

/-- The entries of a field that the primary adds or removes, by their values,
where the row stays. -/
def primaryValues (fields : List Field) (sRow : StagedRow) (n : Nat) :
    List (Bool × FieldValue) :=
  let original := valueOf fields sRow.originalRow n
  let new := valueOf fields sRow.newRow n
  match sRow.cmd with
  | .nocommand => []
  | .insert => [(true, new)]
  | .update =>
      if Transaction.changed original new then [(true, new), (false, original)]
      else []
  | .delete => [(false, original)]

/-- Those that the replica derives. -/
def replicaValues (fields : List Field) (sRow : StagedRow) (n : Nat)
    (f : Field) : List (Bool × FieldValue) :=
  let original := valueOf fields sRow.originalRow n
  let new := valueOf fields sRow.newRow n
  match sRow.cmd with
  | .insert => [(true, new)]
  | .update =>
      if ReplicaAgent.aredifferent f new original then
        [(false, original), (true, new)]
      else []
  | .nocommand | .delete => []

def primaryEntry (top : Topology) (uur : UuRecord) (n : Nat) (f : Field)
    (a : Bool × FieldValue) : Change :=
  .entry (place top n f a.2).1 uur.tableid n a.1 (Transaction.trimField f a.2)
    uur.rowid uur.engineid

def replicaEntry (top : Topology) (uur : UuRecord) (n : Nat) (f : Field)
    (a : Bool × FieldValue) : Change :=
  .entry (getPartitionid top f a.2) uur.tableid n a.1 a.2 uur.rowid
    (getPartitionid top f a.2)

/-- What happens to the row. -/
def rowVersion (uur : UuRecord) (sRow : StagedRow) : List Change :=
  match sRow.cmd with
  | .nocommand => []
  | .insert | .update =>
      [.row uur.engineid uur.tableid uur.rowid (some sRow.newRow)]
  | .delete => [.row uur.engineid uur.tableid uur.rowid none]

/-- The changes of a staged row that the replica derives. -/
def replicaChanges (top : Topology) (fields : List Field) (uur : UuRecord)
    (sRow : StagedRow) : List Change :=
  match Transaction.dispatchRecord uur sRow with
  | none => []
  | some r => recordChange uur.engineid r ::
      ((ReplicaAgent.recordIndices top fields r).getD []).map indexChange

theorem trimField_null (f : Field) :
    Transaction.trimField f { isnull := true } = { isnull := true } := by
  rw [Transaction.trimField]
  cases f.type <;> rfl

theorem itemChanges_addItem {top : Topology} {uur : UuRecord} {n : Nat}
    {f : Field} {sRow : StagedRow} {v : FieldValue}
    (hv : v.isnull = true → v = { isnull := true })
    (hnew : sRow.newrowid = uur.rowid ∧ sRow.newengineid = uur.engineid) :
    itemChanges sRow (Transaction.addItem top uur.tableid n f uur.rowid
        uur.engineid v) =
      [primaryEntry top uur n f (true, v)] := by
  rw [Transaction.addItem, primaryEntry, place]
  cases hnull : v.isnull with
  | true =>
      obtain rfl := hv hnull
      rw [trimField_null]
      rfl
  | false =>
      cases hunique : f.indextype.isunique with
      | true => simp [itemChanges, hnew.1, hnew.2]
      | false => simp [itemChanges]

theorem itemChanges_deleteItem {top : Topology} {uur : UuRecord} {n : Nat}
    {f : Field} {sRow : StagedRow} {v : FieldValue}
    (hv : v.isnull = true → v = { isnull := true }) :
    itemChanges sRow (Transaction.deleteItem top uur.tableid n f uur.rowid
        uur.engineid v) =
      [primaryEntry top uur n f (false, v)] := by
  rw [Transaction.deleteItem, primaryEntry, place]
  cases hnull : v.isnull with
  | true =>
      obtain rfl := hv hnull
      rw [trimField_null]
      rfl
  | false => simp [itemChanges]

/-- Where the row stays, the primary changes the row and these entries. -/
theorem stagedChanges_eq {top : Topology} {fields : List Field}
    {uur : UuRecord} {sRow : StagedRow} (h : WellStaged fields uur sRow)
    (hstays : sRow.cmd = .update →
      Transaction.StagedRow.moved sRow = false) :
    stagedChanges top fields uur sRow =
      rowVersion uur sRow ++ ReplicaAgent.forIndices fields fun n f =>
        (primaryValues fields sRow n).map (primaryEntry top uur n f) := by
  rw [stagedChanges, Transaction.rowItems, rowVersion]
  cases hcmd : sRow.cmd with
  | nocommand =>
      simp only [primaryValues, hcmd, List.map_nil, List.nil_append,
        List.append_nil, List.flatMap_cons, List.flatMap_nil, itemChanges,
        Transaction.rowItem, ↓reduceIte, rowChange]
      refine (List.eq_nil_iff_forall_not_mem.mpr fun a ha => ?_).symm
      obtain ⟨_, _, _, _, hmem⟩ := mem_forIndices.mp ha
      exact absurd hmem (List.not_mem_nil)
  | insert =>
      have hnew := h.inserted hcmd
      simp only [List.append_nil, List.flatMap_cons,
        Transaction.insertItems, flatMap_forFields]
      congr 1
      · simp only [itemChanges, Transaction.rowItem, ↓reduceIte, rowChange,
          hcmd, hnew, and_self]
      · refine forIndices_congr fun n f _ _ => ?_
        simp only [primaryValues, hcmd, List.flatMap_nil, List.append_nil,
          List.map_cons, List.map_nil]
        exact itemChanges_addItem valueOf_null hnew
  | delete =>
      simp only [List.append_nil, List.flatMap_cons,
        Transaction.deleteItems, flatMap_forFields]
      congr 1
      · simp only [itemChanges, Transaction.rowItem, ↓reduceIte, rowChange,
          hcmd]
      · refine forIndices_congr fun n f _ _ => ?_
        simp only [primaryValues, hcmd, List.flatMap_nil, List.append_nil,
          List.map_cons, List.map_nil]
        exact itemChanges_deleteItem valueOf_null
  | update =>
      have hmoved := hstays hcmd
      obtain ⟨hrow, hengine⟩ := h.there (.inl hcmd)
      obtain ⟨hsamerow, hsameengine⟩ : sRow.originalrowid = sRow.newrowid ∧
          sRow.originalengineid = sRow.newengineid := by
        simpa [Transaction.StagedRow.moved] using hmoved
      have hnew : sRow.newrowid = uur.rowid ∧
          sRow.newengineid = uur.engineid :=
        ⟨hsamerow ▸ hrow, hsameengine ▸ hengine⟩
      simp only [hmoved, Bool.false_eq_true, ↓reduceIte, List.append_nil,
        List.flatMap_cons, Transaction.updateItems, flatMap_forFields]
      congr 1
      · simp only [itemChanges, Transaction.rowItem, ↓reduceIte, rowChange,
          hcmd, hnew, and_self]
      · refine forIndices_congr fun n f _ _ => ?_
        simp only [primaryValues, hcmd, Transaction.updateField]
        show (if Transaction.changed (valueOf fields sRow.originalRow n)
            (valueOf fields sRow.newRow n) then
          [Transaction.addItem top uur.tableid n f sRow.newrowid
              sRow.newengineid (valueOf fields sRow.newRow n),
            Transaction.deleteItem top uur.tableid n f sRow.originalrowid
              sRow.originalengineid (valueOf fields sRow.originalRow n)]
          else []).flatMap (itemChanges sRow) = _
        cases Transaction.changed (valueOf fields sRow.originalRow n)
            (valueOf fields sRow.newRow n) with
        | false => rfl
        | true =>
            simp only [↓reduceIte, List.flatMap_cons, List.flatMap_nil,
              List.append_nil, List.map_cons, List.map_nil, hnew.1, hnew.2,
              hrow, hengine]
            rw [itemChanges_addItem valueOf_null hnew,
              itemChanges_deleteItem valueOf_null]
            rfl

/-- A row that moves changes in two places, and so does every entry. -/
theorem length_stagedChanges_moved {top : Topology} {fields : List Field}
    {uur : UuRecord} {sRow : StagedRow} (hcmd : sRow.cmd = .update)
    (hmoved : Transaction.StagedRow.moved sRow = true) :
    (stagedChanges top fields uur sRow).length = 2 +
      (ReplicaAgent.forIndices fields fun _ _ =>
        [(true, ()), (false, ())]).length := by
  have hrow : ∀ partition tableid rowid,
      (itemChanges sRow (partition, Transaction.rowItem tableid rowid)).length =
        1 := by
    intro partition tableid rowid
    show (rowChange sRow partition (Transaction.rowItem tableid rowid)).length =
      1
    rw [rowChange, hcmd]
    dsimp only
    split <;> rfl
  have hone : ∀ {n : Nat} {f : Field} {rowid engineid : Int}
      {v : FieldValue}, (itemChanges sRow
        (Transaction.addItem top uur.tableid n f rowid engineid v)).length =
          1 ∧
      (itemChanges sRow
        (Transaction.deleteItem top uur.tableid n f rowid engineid v)).length =
          1 := by
    intro n f rowid engineid v
    rw [Transaction.addItem, Transaction.deleteItem]
    cases v.isnull <;> cases f.indextype.isunique <;> exact ⟨rfl, rfl⟩
  have htwo : ∀ {n : Nat} {f : Field} {v : FieldValue}, (itemChanges sRow
      (Transaction.replaceItem top uur.tableid n f sRow v)).length = 2 := by
    intro n f v
    rw [Transaction.replaceItem]
    cases v.isnull <;> rfl
  have hfields : (ReplicaAgent.forIndices fields fun n f =>
      (Transaction.updateField top uur.tableid sRow true n f
        ((unmakerow fields sRow.originalRow).getD n {})
        ((unmakerow fields sRow.newRow).getD n {})).flatMap
          (itemChanges sRow)).length =
      (ReplicaAgent.forIndices fields fun _ _ =>
        [(true, ()), (false, ())]).length := by
    rw [ReplicaAgent.forIndices, ReplicaAgent.forIndices, List.length_flatMap,
      List.length_flatMap]
    congr 1
    refine List.map_congr_left fun n _ => ?_
    cases fields[n]? with
    | none => rfl
    | some f =>
        dsimp only
        split
        · rfl
        · rw [Transaction.updateField]
          split
          · rw [List.flatMap_cons, List.flatMap_cons, List.flatMap_nil,
              List.append_nil, List.length_append, hone.1, hone.2]
            rfl
          · rw [if_pos rfl, List.flatMap_cons, List.flatMap_nil,
              List.append_nil, htwo]
            rfl
  rw [stagedChanges, Transaction.rowItems, hcmd]
  dsimp only
  rw [if_pos hmoved, List.flatMap_append, List.flatMap_cons, List.flatMap_cons,
    List.flatMap_nil, List.append_nil, Transaction.updateItems,
    flatMap_forFields, List.length_append, List.length_append, hrow, hrow,
    hfields]
  omega

/-! ## What the replica derives -/

theorem dispatchRecord_tableid {uur : UuRecord} {sRow : StagedRow}
    {r : DispatchRecord} (h : Transaction.dispatchRecord uur sRow = some r) :
    r.tableid = uur.tableid := by
  rw [Transaction.dispatchRecord] at h
  split at h
  · exact absurd h (by simp)
  · rw [← Option.some.inj h]
  · rw [← Option.some.inj h]
  · rw [← Option.some.inj h]

/-- The row of a deletion is looked for in an empty string. -/
theorem recordIndices_delete {top : Topology} {fields : List Field}
    {uur : UuRecord} {sRow : StagedRow} {r : DispatchRecord}
    (hcmd : sRow.cmd = .delete)
    (h : Transaction.dispatchRecord uur sRow = some r) :
    (ReplicaAgent.recordIndices top fields r).isSome = true ↔ fields = [] := by
  rw [Transaction.dispatchRecord, hcmd] at h
  obtain rfl := Option.some.inj h
  rw [ReplicaAgent.recordIndices]
  dsimp only
  rw [Option.isSome_map, ReplicaAgent.unmakerow]
  by_cases hfields : fields = []
  · simp [hfields]
  · simp [hfields]

/-- For a row that stays, and can be read where it is deleted, the replica
changes the row and these entries. -/
theorem replicaChanges_eq {top : Topology} {fields : List Field}
    {uur : UuRecord} {sRow : StagedRow} (h : WellStaged fields uur sRow)
    (hstays : sRow.cmd = .update →
      Transaction.StagedRow.moved sRow = false)
    (hdelete : sRow.cmd = .delete → fields = []) :
    replicaChanges top fields uur sRow =
      rowVersion uur sRow ++ ReplicaAgent.forIndices fields fun n f =>
        (replicaValues fields sRow n f).map (replicaEntry top uur n f) := by
  rw [replicaChanges, Transaction.dispatchRecord, rowVersion]
  cases hcmd : sRow.cmd with
  | nocommand =>
      refine (List.eq_nil_iff_forall_not_mem.mpr fun a ha => ?_).symm
      obtain ⟨n, f, _, _, hmem⟩ := mem_forIndices.mp ha
      simp only [replicaValues, hcmd, List.map_nil] at hmem
      exact absurd hmem (List.not_mem_nil)
  | insert =>
      obtain ⟨hrow, _⟩ := h.inserted hcmd
      simp only [ReplicaAgent.recordIndices,
        unmakerow_makerow (h.new (.inl hcmd)), Option.map_some,
        Option.getD_some, map_forIndices, recordChange, hrow,
        reduceCtorEq, ↓reduceIte, List.singleton_append]
      congr 1
      refine forIndices_congr fun n f _ _ => ?_
      simp only [replicaValues, hcmd, List.map_cons, List.map_nil]
      rfl
  | update =>
      have hmoved := hstays hcmd
      obtain ⟨hrow, _⟩ := h.there (.inl hcmd)
      obtain ⟨hsamerow, _⟩ : sRow.originalrowid = sRow.newrowid ∧
          sRow.originalengineid = sRow.newengineid := by
        simpa [Transaction.StagedRow.moved] using hmoved
      have hnewrow : sRow.newrowid = uur.rowid := hsamerow ▸ hrow
      simp only [ReplicaAgent.recordIndices,
        unmakerow_makerow (h.new (.inr hcmd)),
        unmakerow_makerow (h.original hcmd), Option.bind_some,
        Option.map_some, Option.getD_some, map_forIndices, recordChange,
        hnewrow, reduceCtorEq, ↓reduceIte, List.singleton_append]
      congr 1
      refine forIndices_congr fun n f _ _ => ?_
      simp only [replicaValues, hcmd]
      show (if ReplicaAgent.aredifferent f (valueOf fields sRow.newRow n)
        (valueOf fields sRow.originalRow n) = true then _ else []).map _ = _
      split
      · rfl
      · rfl
  | delete =>
      obtain ⟨hrow, _⟩ := h.there (.inr hcmd)
      obtain rfl := hdelete hcmd
      simp only [ReplicaAgent.recordIndices, recordChange, hrow, ↓reduceIte]
      rfl

/-! ## The messages -/

theorem any_key_iff {msgs : ApplyMsgs} {p : Int} :
    (msgs.any (·.1 = p)) = true ↔ p ∈ msgs.map Prod.fst := by
  rw [List.any_eq_true, List.mem_map]
  constructor
  · rintro ⟨x, hx, hp⟩
    exact ⟨x, hx, of_decide_eq_true hp⟩
  · rintro ⟨x, hx, hp⟩
    exact ⟨x, hx, decide_eq_true hp⟩

/-- An item goes into one message. -/
theorem pushed_perm {item : Int × ApplyIndex} : ∀ {msgs : ApplyMsgs},
    (msgs.map Prod.fst).Nodup → item.1 ∈ msgs.map Prod.fst →
    ((msgs.map fun (p, m) =>
        if p = item.1 then (p, { m with indices := m.indices ++ [item.2] })
        else (p, m)).flatMap applyChanges).Perm
      (msgs.flatMap applyChanges ++ [indexChange item]) := by
  intro msgs
  induction msgs with
  | nil => exact fun _ h => absurd h (List.not_mem_nil)
  | cons x msgs ih =>
      intro hnodup hmem
      obtain ⟨p, m⟩ := x
      obtain ⟨i, x⟩ := item
      rw [List.map_cons] at hnodup hmem
      obtain ⟨hnew, hrest⟩ := List.nodup_cons.mp hnodup
      rw [List.map_cons, List.flatMap_cons, List.flatMap_cons,
        List.append_assoc]
      by_cases hp : p = i
      · subst hp
        have hsame : (msgs.map fun (q, m) =>
            if q = p then (q, { m with indices := m.indices ++ [x] })
            else (q, m)) = msgs := by
          refine (List.map_congr_left fun y hy => ?_).trans (List.map_id msgs)
          have hne : y.1 ≠ p := fun heq =>
            hnew (List.mem_map.mpr ⟨y, hy, heq⟩)
          exact if_neg hne
        have hthis : applyChanges (p, { m with indices := m.indices ++ [x] }) =
            applyChanges (p, m) ++ [indexChange (p, x)] := by
          rw [applyChanges, applyChanges, List.map_append, List.append_assoc]
          rfl
        rw [hsame]
        dsimp only
        rw [if_pos rfl, hthis, List.append_assoc]
        exact List.perm_append_comm.append_left _
      · rcases List.mem_cons.mp hmem with heq | hmem
        · exact absurd heq.symm hp
        · dsimp only
          rw [if_neg hp]
          exact (ih hrest hmem).append_left _

theorem keys_map_pushed (item : Int × ApplyIndex) (msgs : ApplyMsgs) :
    (msgs.map fun (p, m) =>
        if p = item.1 then (p, { m with indices := m.indices ++ [item.2] })
        else (p, m)).map Prod.fst = msgs.map Prod.fst := by
  rw [List.map_map]
  refine List.map_congr_left fun x _ => ?_
  dsimp only [Function.comp]
  split <;> rfl

theorem pushIndices_perm : ∀ {items : List (Int × ApplyIndex)}
    {msgs msgs' : ApplyMsgs}, (msgs.map Prod.fst).Nodup →
      ReplicaAgent.pushIndices items msgs = some msgs' →
      (msgs'.flatMap applyChanges).Perm
        (msgs.flatMap applyChanges ++ items.map indexChange) ∧
      msgs'.map Prod.fst = msgs.map Prod.fst := by
  intro items
  induction items with
  | nil =>
      intro msgs msgs' _ h
      obtain rfl := Option.some.inj h
      rw [List.map_nil, List.append_nil]
      exact ⟨List.Perm.refl _, rfl⟩
  | cons item items ih =>
      intro msgs msgs' hnodup h
      obtain ⟨msgs₁, h1, h2⟩ := Option.bind_eq_some_iff.mp h
      rw [ReplicaAgent.pushIndex] at h1
      split at h1
      · next hkey =>
        obtain rfl := Option.some.inj h1
        have hkeys := keys_map_pushed item msgs
        obtain ⟨hperm, hsame⟩ := ih (by rw [hkeys]; exact hnodup) h2
        refine ⟨hperm.trans ?_, hsame.trans hkeys⟩
        have hone := pushed_perm hnodup (any_key_iff.mp hkey)
        refine (hone.append_right _).trans ?_
        rw [List.append_assoc]
        exact List.Perm.refl _
      · exact absurd h1 (by simp)

/-- The entries that a record changes. -/
def entryChanges (top : Topology) (schema : Int → List Field)
    (r : DispatchRecord) : List Change :=
  ((ReplicaAgent.recordIndices top (schema r.tableid) r).getD []).map
    indexChange

theorem pushRecords_perm {top : Topology} {schema : Int → List Field} :
    ∀ {records : List DispatchRecord} {msgs msgs' : ApplyMsgs},
      (msgs.map Prod.fst).Nodup →
      ReplicaAgent.pushRecords top schema records msgs = some msgs' →
      (∀ r ∈ records,
        (ReplicaAgent.recordIndices top (schema r.tableid) r).isSome) ∧
      (msgs'.flatMap applyChanges).Perm
        (msgs.flatMap applyChanges ++
          records.flatMap (entryChanges top schema)) ∧
      msgs'.map Prod.fst = msgs.map Prod.fst := by
  intro records
  induction records with
  | nil =>
      intro msgs msgs' _ h
      obtain rfl := Option.some.inj h
      rw [List.flatMap_nil, List.append_nil]
      exact ⟨fun _ hr => absurd hr (List.not_mem_nil), List.Perm.refl _, rfl⟩
  | cons r records ih =>
      intro msgs msgs' hnodup h
      obtain ⟨items, h1, h2⟩ := Option.bind_eq_some_iff.mp h
      obtain ⟨msgs₁, h3, h4⟩ := Option.bind_eq_some_iff.mp h2
      obtain ⟨hpush, hkeys⟩ := pushIndices_perm hnodup h3
      obtain ⟨hreads, hperm, hsame⟩ := ih (hkeys ▸ hnodup) h4
      refine ⟨fun q hq => ?_, ?_, hsame.trans hkeys⟩
      · rcases List.mem_cons.mp hq with rfl | hq
        · rw [h1]
          rfl
        · exact hreads q hq
      · rw [List.flatMap_cons, entryChanges, h1, Option.getD_some,
          ← List.append_assoc]
        exact hperm.trans (hpush.append_right _)

/-- What the records of a partition change. -/
def partitionChanges (top : Topology) (schema : Int → List Field)
    (x : Int × List DispatchRecord) : List Change :=
  x.2.flatMap fun r => recordChange x.1 r :: entryChanges top schema r

theorem makeMsgs_perm {top : Topology} {schema : Int → List Field}
    {new : Int → MessageApply} (hnew : ∀ p, (new p).indices = []) :
    ∀ {records : List (Int × List DispatchRecord)} {msgs msgs' : ApplyMsgs},
      (msgs.map Prod.fst ++ records.map Prod.fst).Nodup →
      ReplicaAgent.makeMsgs top schema new records msgs = some msgs' →
      (∀ x ∈ records, ∀ r ∈ x.2,
        (ReplicaAgent.recordIndices top (schema r.tableid) r).isSome) ∧
      (msgs'.flatMap applyChanges).Perm
        (msgs.flatMap applyChanges ++
          records.flatMap (partitionChanges top schema)) := by
  intro records
  induction records with
  | nil =>
      intro msgs msgs' _ h
      obtain rfl := Option.some.inj h
      rw [List.flatMap_nil, List.append_nil]
      exact ⟨fun _ hx => absurd hx (List.not_mem_nil), List.Perm.refl _⟩
  | cons x records ih =>
      intro msgs msgs' hnodup h
      obtain ⟨p, rs⟩ := x
      obtain ⟨msgs₁, h1, h2⟩ := Option.bind_eq_some_iff.mp h
      have hfree : p ∉ msgs.map Prod.fst := fun hp =>
        (List.nodup_append.mp hnodup).2.2 p hp p List.mem_cons_self rfl
      have hset : ReplicaAgent.setRows new p rs msgs =
          msgs ++ [(p, { new p with rows := rs })] := by
        rw [ReplicaAgent.setRows, if_neg]
        rw [any_key_iff]
        exact hfree
      rw [hset] at h1
      have hassoc : (msgs ++ [(p, { new p with rows := rs })]).map Prod.fst ++
          records.map Prod.fst =
            msgs.map Prod.fst ++ ((p, rs) :: records).map Prod.fst := by simp
      rw [← hassoc] at hnodup
      obtain ⟨hreads, hpush, hkeys⟩ :=
        pushRecords_perm (List.nodup_append.mp hnodup).1 h1
      rw [← hkeys] at hnodup
      obtain ⟨hrest, hperm⟩ := ih hnodup h2
      refine ⟨fun y hy => ?_, ?_⟩
      · rcases List.mem_cons.mp hy with rfl | hy
        · exact hreads
        · exact hrest y hy
      · have hthis : ([(p, { new p with rows := rs })] : ApplyMsgs).flatMap
            applyChanges = rs.map (recordChange p) := by
          rw [List.flatMap_singleton, applyChanges, hnew, List.map_nil,
            List.append_nil]
        rw [List.flatMap_append, hthis, List.append_assoc] at hpush
        rw [List.flatMap_cons, ← List.append_assoc]
        exact hperm.trans ((hpush.trans
          ((List.map_append_flatMap_perm _ _ _).append_left _)).append_right _)

/-! ## The records -/

/-- The records of a dispatch, each with its partition. -/
def recordPairs (records : List (Int × List DispatchRecord)) :
    List (Int × DispatchRecord) :=
  records.flatMap fun x => x.2.map fun r => (x.1, r)

theorem pushRecord_perm {e : Int} {r : DispatchRecord} :
    ∀ records, (recordPairs (Transaction.pushRecord e r records)).Perm
        (recordPairs records ++ [(e, r)]) ∧
      ∀ p, p ∈ (Transaction.pushRecord e r records).map Prod.fst ↔
        p ∈ records.map Prod.fst ∨ p = e := by
  intro records
  induction records with
  | nil => exact ⟨List.Perm.refl _, fun p => by simp [Transaction.pushRecord]⟩
  | cons x records ih =>
      obtain ⟨p, rs⟩ := x
      rw [Transaction.pushRecord]
      split
      · next hp =>
        subst hp
        constructor
        · simp only [recordPairs, List.flatMap_cons, List.map_append,
            List.map_cons, List.map_nil, List.append_assoc]
          exact List.perm_append_comm.append_left _
        · intro q
          simp only [List.map_cons, List.mem_cons]
          tauto
      · obtain ⟨hperm, hkeys⟩ := ih
        constructor
        · simp only [recordPairs, List.flatMap_cons, List.append_assoc]
          exact hperm.append_left _
        · intro q
          simp only [List.map_cons, List.mem_cons, hkeys]
          tauto

theorem nodup_pushRecord {e : Int} {r : DispatchRecord} :
    ∀ {records}, (records.map Prod.fst).Nodup →
      ((Transaction.pushRecord e r records).map Prod.fst).Nodup := by
  intro records
  induction records with
  | nil => exact fun _ => List.nodup_singleton _
  | cons x records ih =>
      intro h
      obtain ⟨p, rs⟩ := x
      rw [Transaction.pushRecord]
      split
      · exact h
      · next hp =>
        obtain ⟨hnew, hrest⟩ := List.nodup_cons.mp h
        refine List.nodup_cons.mpr ⟨fun hmem => ?_, ih hrest⟩
        rcases (pushRecord_perm _).2 p |>.mp hmem with hmem | heq
        · exact hnew hmem
        · exact hp heq

/-- The record of a staged row, with its partition. -/
def stagedRecord (x : UuRecord × StagedRow) : Option (Int × DispatchRecord) :=
  (Transaction.dispatchRecord x.1 x.2).map fun r => (x.1.engineid, r)

theorem dispatchRecords_perm (stagedRows : List (UuRecord × StagedRow)) :
    (recordPairs (Transaction.dispatchRecords stagedRows)).Perm
        (stagedRows.filterMap stagedRecord) ∧
      ((Transaction.dispatchRecords stagedRows).map Prod.fst).Nodup := by
  rw [Transaction.dispatchRecords]
  induction stagedRows using List.reverseRecOn with
  | nil => exact ⟨List.Perm.refl _, List.nodup_nil⟩
  | append_singleton stagedRows x ih =>
      obtain ⟨hperm, hnodup⟩ := ih
      rw [List.foldl_append, List.foldl_cons, List.foldl_nil,
        List.filterMap_append, Transaction.addRecord]
      cases hr : Transaction.dispatchRecord x.1 x.2 with
      | none =>
          have hnone : [x].filterMap stagedRecord = [] := by
            simp [stagedRecord, hr]
          rw [hnone, List.append_nil]
          exact ⟨hperm, hnodup⟩
      | some r =>
          have hone : [x].filterMap stagedRecord = [(x.1.engineid, r)] := by
            simp [stagedRecord, hr]
          rw [hone]
          exact ⟨(pushRecord_perm _).1.trans (hperm.append_right _),
            nodup_pushRecord hnodup⟩

/-- All that the messages of a dispatch change. -/
theorem handledispatch_perm {top : Topology}
    {schemata : Int → Int → List Field} {agent : ReplicaAgent}
    {sourceAddr : AddressStruct} {t : Transaction} {msg : MessageDispatch}
    (hmsg : t.makeMessageDispatch = some msg)
    {records : List (Int × List DispatchRecord)}
    (hrecords : records.Perm msg.records) {h : Handled}
    (hhandled : agent.handledispatch top schemata sourceAddr
      { msg with records := records } = some h) :
    (∀ x ∈ t.stagedRows, ∀ r, Transaction.dispatchRecord x.1 x.2 = some r →
      (ReplicaAgent.recordIndices top (schemata t.domainid x.1.tableid)
        r).isSome) ∧
    (h.msgs.flatMap applyChanges).Perm (t.stagedRows.flatMap fun x =>
      replicaChanges top (schemata t.domainid x.1.tableid) x.1 x.2) := by
  obtain ⟨hpairs, hnodup⟩ := dispatchRecords_perm t.stagedRows
  rw [Transaction.makeMessageDispatch] at hmsg
  split at hmsg
  · exact absurd hmsg (by simp)
  obtain rfl := Option.some.inj hmsg
  obtain ⟨msgs, hmake, rfl⟩ := Option.map_eq_some_iff.mp hhandled
  have hkeys : (([] : ApplyMsgs).map Prod.fst ++
      records.map Prod.fst).Nodup := (hrecords.map _).nodup_iff.mpr hnodup
  obtain ⟨hreads, hperm⟩ := makeMsgs_perm (fun _ => rfl) hkeys hmake
  have hall : (recordPairs records).Perm
      (t.stagedRows.filterMap stagedRecord) :=
    (hrecords.flatMap_right _).trans hpairs
  constructor
  · intro x hx r hr
    have hmem : (x.1.engineid, r) ∈ recordPairs records :=
      hall.mem_iff.mpr (List.mem_filterMap.mpr
        ⟨x, hx, by rw [stagedRecord, hr]; rfl⟩)
    obtain ⟨y, hy, hpair⟩ := List.mem_flatMap.mp hmem
    obtain ⟨q, hq, heq⟩ := List.mem_map.mp hpair
    obtain rfl : q = r := (Prod.mk.inj heq).2
    have hthis := hreads y hy q hq
    rw [dispatchRecord_tableid hr] at hthis
    exact hthis
  · have hflat : records.flatMap
        (partitionChanges top (schemata t.domainid)) =
          (recordPairs records).flatMap fun y =>
            recordChange y.1 y.2 ::
              entryChanges top (schemata t.domainid) y.2 := by
      rw [recordPairs, List.flatMap_assoc]
      refine List.flatMap_congr fun x _ => ?_
      rw [List.flatMap_map]
      rfl
    have hstaged : ∀ stagedRows : List (UuRecord × StagedRow),
        ((stagedRows.filterMap stagedRecord).flatMap fun y =>
          recordChange y.1 y.2 ::
            entryChanges top (schemata t.domainid) y.2) =
          stagedRows.flatMap fun x => replicaChanges top
            (schemata t.domainid x.1.tableid) x.1 x.2 := by
      intro stagedRows
      induction stagedRows with
      | nil => rfl
      | cons x stagedRows ih =>
          rw [List.flatMap_cons, ← ih, replicaChanges]
          cases hr : Transaction.dispatchRecord x.1 x.2 with
          | none =>
              have hnone : stagedRecord x = none := by
                rw [stagedRecord, hr]
                rfl
              rw [List.filterMap_cons_none hnone]
              rfl
          | some r =>
              have hsome : stagedRecord x = some (x.1.engineid, r) := by
                rw [stagedRecord, hr]
                rfl
              rw [List.filterMap_cons_some hsome, List.flatMap_cons,
                entryChanges, dispatchRecord_tableid hr]
    rw [hflat] at hperm
    refine hperm.trans ?_
    rw [List.flatMap_nil, List.nil_append, ← hstaged]
    exact hall.flatMap_right _

/-! ## When every item has a message -/

theorem pushIndices_some : ∀ {items : List (Int × ApplyIndex)}
    (msgs : ApplyMsgs), (∀ item ∈ items, item.1 ∈ msgs.map Prod.fst) →
      ∃ msgs', ReplicaAgent.pushIndices items msgs = some msgs' ∧
        msgs'.map Prod.fst = msgs.map Prod.fst := by
  intro items
  induction items with
  | nil => exact fun _ _ => ⟨_, rfl, rfl⟩
  | cons item items ih =>
      intro msgs h
      have hkeys := keys_map_pushed item msgs
      obtain ⟨msgs', hpush, hsame⟩ := ih (msgs.map fun (p, m) =>
        if p = item.1 then (p, { m with indices := m.indices ++ [item.2] })
        else (p, m)) (by
          rw [hkeys]
          exact fun i hi => h i (List.mem_cons_of_mem item hi))
      refine ⟨msgs', ?_, hsame.trans hkeys⟩
      rw [ReplicaAgent.pushIndices, ReplicaAgent.pushIndex,
        if_pos (any_key_iff.mpr (h item List.mem_cons_self)),
        Option.bind_some]
      exact hpush

theorem pushRecords_some {top : Topology} {schema : Int → List Field} :
    ∀ {records : List DispatchRecord} (msgs : ApplyMsgs),
      (∀ r ∈ records, ∃ items,
        ReplicaAgent.recordIndices top (schema r.tableid) r = some items ∧
          ∀ item ∈ items, item.1 ∈ msgs.map Prod.fst) →
      ∃ msgs', ReplicaAgent.pushRecords top schema records msgs =
        some msgs' := by
  intro records
  induction records with
  | nil => exact fun _ _ => ⟨_, rfl⟩
  | cons r records ih =>
      intro msgs h
      obtain ⟨items, hitems, hkeys⟩ := h r List.mem_cons_self
      obtain ⟨msgs₁, hpush, hsame⟩ := pushIndices_some msgs hkeys
      obtain ⟨msgs', hrest⟩ := ih msgs₁ fun q hq => by
        rw [hsame]
        exact h q (List.mem_cons_of_mem r hq)
      refine ⟨msgs', ?_⟩
      rw [ReplicaAgent.pushRecords, hitems, Option.bind_some, hpush,
        Option.bind_some, hrest]

theorem mem_keys_setRows (new : Int → MessageApply) (p : Int)
    (records : List DispatchRecord) (msgs : ApplyMsgs) :
    p ∈ (ReplicaAgent.setRows new p records msgs).map Prod.fst := by
  rw [ReplicaAgent.setRows]
  split
  · next hp =>
    obtain ⟨x, hx, heq⟩ := List.mem_map.mp (any_key_iff.mp hp)
    refine List.mem_map.mpr ⟨_, List.mem_map_of_mem hx, ?_⟩
    dsimp only
    rw [if_pos heq]
    exact heq
  · simp

theorem makeMsgs_some {top : Topology} {schema : Int → List Field}
    {new : Int → MessageApply} :
    ∀ {records : List (Int × List DispatchRecord)} (msgs : ApplyMsgs),
      (∀ x ∈ records, ∀ r ∈ x.2, ∃ items,
        ReplicaAgent.recordIndices top (schema r.tableid) r = some items ∧
          ∀ item ∈ items, item.1 = x.1) →
      ∃ msgs', ReplicaAgent.makeMsgs top schema new records msgs =
        some msgs' := by
  intro records
  induction records with
  | nil => exact fun _ _ => ⟨_, rfl⟩
  | cons x records ih =>
      intro msgs h
      obtain ⟨p, rs⟩ := x
      have hkeys : ∀ r ∈ rs, ∃ items,
          ReplicaAgent.recordIndices top (schema r.tableid) r = some items ∧
            ∀ item ∈ items,
              item.1 ∈ (ReplicaAgent.setRows new p rs msgs).map Prod.fst := by
        intro r hr
        obtain ⟨items, hitems, hhere⟩ := h _ List.mem_cons_self r hr
        refine ⟨items, hitems, fun item hi => ?_⟩
        rw [hhere item hi]
        exact mem_keys_setRows new p rs msgs
      obtain ⟨msgs₁, hpush⟩ := pushRecords_some _ hkeys
      obtain ⟨msgs', hrest⟩ := ih msgs₁
        fun y hy => h y (List.mem_cons_of_mem _ hy)
      refine ⟨msgs', ?_⟩
      rw [ReplicaAgent.makeMsgs, hpush, Option.bind_some, hrest]

/-! ## Row by row -/

theorem length_replicaValues_le {fields : List Field} {sRow : StagedRow}
    {n : Nat} {f : Field} (hn : fields[n]? = some f) :
    (replicaValues fields sRow n f).length ≤
      (primaryValues fields sRow n).length := by
  rw [replicaValues, primaryValues]
  cases sRow.cmd with
  | nocommand => exact Nat.le_refl _
  | insert => exact Nat.le_refl _
  | delete => exact Nat.zero_le _
  | update =>
      dsimp only
      cases hdiffer : ReplicaAgent.aredifferent f
          (valueOf fields sRow.newRow n)
          (valueOf fields sRow.originalRow n) with
      | true =>
          rw [changed_of_aredifferent hn hdiffer]
          exact Nat.le_refl _
      | false => exact Nat.zero_le _

/-- A record that can be read derives no more than two changes a field. -/
theorem length_replicaChanges_update (top : Topology) {fields : List Field}
    {uur : UuRecord} {sRow : StagedRow} (h : WellStaged fields uur sRow)
    (hcmd : sRow.cmd = .update) :
    (replicaChanges top fields uur sRow).length ≤ 1 +
      (ReplicaAgent.forIndices fields fun _ _ =>
        [(true, ()), (false, ())]).length := by
  rw [replicaChanges, Transaction.dispatchRecord, hcmd]
  simp only [ReplicaAgent.recordIndices, unmakerow_makerow (h.new (.inr hcmd)),
    unmakerow_makerow (h.original hcmd), Option.bind_some, Option.map_some,
    Option.getD_some, map_forIndices, List.length_cons]
  rw [Nat.add_comm]
  refine Nat.add_le_add_left (length_forIndices_two fun n f => ?_) 1
  rw [List.length_map]
  split
  · exact Nat.le_refl _
  · exact Nat.zero_le _

/-- The replica derives no more changes for a row than the primary makes. If
as many, the row stays, and they are as many for each field. -/
theorem length_replicaChanges_le {top : Topology} {fields : List Field}
    {uur : UuRecord} {sRow : StagedRow} (h : WellStaged fields uur sRow)
    (hdelete : sRow.cmd = .delete → fields = []) :
    (replicaChanges top fields uur sRow).length ≤
      (stagedChanges top fields uur sRow).length ∧
    ((replicaChanges top fields uur sRow).length =
        (stagedChanges top fields uur sRow).length →
      (sRow.cmd = .update → Transaction.StagedRow.moved sRow = false) ∧
      EachIndexed fields fun n f => (replicaValues fields sRow n f).length =
        (primaryValues fields sRow n).length) := by
  by_cases hstays : sRow.cmd = .update →
      Transaction.StagedRow.moved sRow = false
  · rw [stagedChanges_eq h hstays, replicaChanges_eq h hstays hdelete,
      List.length_append, List.length_append]
    have hfield : EachIndexed fields fun n f =>
        ((replicaValues fields sRow n f).map
          (replicaEntry top uur n f)).length ≤
        ((primaryValues fields sRow n).map
          (primaryEntry top uur n f)).length := by
      intro n f hn _
      simp only [List.length_map]
      exact length_replicaValues_le hn
    obtain ⟨hle, heach⟩ := length_forIndices_le _ _ hfield
    refine ⟨by omega, fun heq => ⟨hstays, fun n f hn hindex => ?_⟩⟩
    have hthis := heach (by omega) n f hn hindex
    simp only [List.length_map] at hthis
    exact hthis
  · push Not at hstays
    obtain ⟨hcmd, hmoved⟩ := hstays
    have hless := length_replicaChanges_update top h hcmd
    rw [length_stagedChanges_moved hcmd (by simpa using hmoved)]
    exact ⟨by omega, fun heq => absurd heq (by omega)⟩

/-- The values of a row that is mirrored, where the row is. -/
theorem withItsRow_of_mirrored {top : Topology} {fields : List Field}
    {uur : UuRecord} {sRow : StagedRow}
    (h : Mirrored top fields uur sRow) {n : Nat} {f : Field}
    (hn : fields[n]? = some f) (hindex : f.indextype ≠ .none)
    {a : Bool × FieldValue} (ha : a ∈ replicaValues fields sRow n f) :
    WithItsRow top n f uur.engineid a.2 := by
  rw [Mirrored] at h
  rw [replicaValues] at ha
  cases hcmd : sRow.cmd with
  | nocommand =>
      rw [hcmd] at ha
      exact absurd ha (List.not_mem_nil)
  | delete =>
      rw [hcmd] at ha
      exact absurd ha (List.not_mem_nil)
  | insert =>
      rw [hcmd] at h ha
      obtain rfl := List.mem_singleton.mp ha
      exact h n f hn hindex
  | update =>
      rw [hcmd] at h ha
      obtain ⟨hsame, hvalues⟩ := h.2 n f hn hindex
      dsimp only at ha
      split at ha
      · next hdiffer =>
        obtain ⟨horiginal, hnew⟩ := hvalues (hsame ▸ hdiffer)
        rcases List.mem_cons.mp ha with rfl | ha
        · exact horiginal
        · obtain rfl := List.mem_singleton.mp ha
          exact hnew
      · exact absurd ha (List.not_mem_nil)

theorem replicaEntry_eq {top : Topology} {uur : UuRecord} {n : Nat} {f : Field}
    {a : Bool × FieldValue} (h : WithItsRow top n f uur.engineid a.2) :
    replicaEntry top uur n f a = primaryEntry top uur n f a := by
  have hplace : (place top n f a.2).1 = uur.engineid := by
    rw [place]
    split
    · next hnull => exact h.null hnull
    · dsimp only
      rw [h.trimmed]
      exact h.hashed
  rw [replicaEntry, primaryEntry, hplace, h.hashed, h.trimmed]

/-- A row that is mirrored changes the same on both sides. -/
theorem replicaChanges_perm {top : Topology} {fields : List Field}
    {uur : UuRecord} {sRow : StagedRow} (h : WellStaged fields uur sRow)
    (hm : Mirrored top fields uur sRow) :
    (replicaChanges top fields uur sRow).Perm
      (stagedChanges top fields uur sRow) := by
  have hstays : sRow.cmd = .update →
      Transaction.StagedRow.moved sRow = false := by
    intro hcmd
    rw [Mirrored, hcmd] at hm
    exact hm.1
  have hdelete : sRow.cmd = .delete → fields = [] := by
    intro hcmd
    rw [Mirrored, hcmd] at hm
    exact hm
  rw [stagedChanges_eq h hstays, replicaChanges_eq h hstays hdelete]
  refine List.Perm.append_left _ (forIndices_perm fun n f hn hindex => ?_)
  show ((replicaValues fields sRow n f).map (replicaEntry top uur n f)).Perm
    ((primaryValues fields sRow n).map (primaryEntry top uur n f))
  have hentries : (replicaValues fields sRow n f).map
      (replicaEntry top uur n f) =
        (replicaValues fields sRow n f).map (primaryEntry top uur n f) :=
    List.map_congr_left fun a ha =>
      replicaEntry_eq (withItsRow_of_mirrored hm hn hindex ha)
  rw [hentries]
  refine List.Perm.map _ ?_
  rw [replicaValues, primaryValues]
  cases hcmd : sRow.cmd with
  | nocommand => exact List.Perm.refl _
  | insert => exact List.Perm.refl _
  | delete =>
      rw [hdelete hcmd] at hn
      exact absurd hn (by simp)
  | update =>
      rw [Mirrored, hcmd] at hm
      obtain ⟨hsame, _⟩ := hm.2 n f hn hindex
      dsimp only at hsame ⊢
      rw [hsame]
      split
      · exact List.Perm.swap _ _ _
      · exact List.Perm.refl _

/-! ## All rows together -/

section

variable {top : Topology} {schema : Int → List Field}
  {stagedRows : List (UuRecord × StagedRow)}

/-- Every staged row stays, can be read where it is deleted, and has as many
entries on one side as on the other. -/
structure Even (schema : Int → List Field)
    (stagedRows : List (UuRecord × StagedRow)) : Prop where
  staged : ∀ x ∈ stagedRows, WellStaged (schema x.1.tableid) x.1 x.2
  stays : ∀ x ∈ stagedRows, x.2.cmd = .update →
    Transaction.StagedRow.moved x.2 = false
  deletes : ∀ x ∈ stagedRows, x.2.cmd = .delete → schema x.1.tableid = []
  values : ∀ x ∈ stagedRows, EachIndexed (schema x.1.tableid) fun n f =>
    (replicaValues (schema x.1.tableid) x.2 n f).length =
      (primaryValues (schema x.1.tableid) x.2 n).length

/-- An entry that the replica derives for some row. -/
theorem entry_of_replica (he : Even schema stagedRows) {c : Change}
    {partition tableid rowid engineid : Int} {n : Nat} {isadd : Bool}
    {v : FieldValue}
    (hc : c = .entry partition tableid n isadd v rowid engineid)
    (hmem : c ∈ stagedRows.flatMap fun x =>
      replicaChanges top (schema x.1.tableid) x.1 x.2) :
    ∃ f, (schema tableid)[n]? = some f ∧
      partition = getPartitionid top f v ∧
        engineid = getPartitionid top f v := by
  obtain ⟨x, hx, hc'⟩ := List.mem_flatMap.mp hmem
  rw [replicaChanges_eq (he.staged x hx) (he.stays x hx) (he.deletes x hx)]
    at hc'
  rcases List.mem_append.mp hc' with hrow | hentry
  · rw [rowVersion, hc] at hrow
    cases hcmd : x.2.cmd <;> rw [hcmd] at hrow <;> simp at hrow
  · obtain ⟨m, f, hf, _, hmap⟩ := mem_forIndices.mp hentry
    obtain ⟨a, _, ha⟩ := List.mem_map.mp hmap
    rw [hc, replicaEntry] at ha
    injection ha with h1 h2 h3 _ h5 _ h7
    subst h2 h3 h5
    exact ⟨f, hf, h1.symm, h7.symm⟩

/-- An entry that the primary changes for some row. -/
theorem entry_of_primary (he : Even schema stagedRows) {c : Change}
    {partition tableid rowid engineid : Int} {n : Nat} {isadd : Bool}
    {v : FieldValue}
    (hc : c = .entry partition tableid n isadd v rowid engineid)
    (hmem : c ∈ commitChanges top schema stagedRows) :
    ∃ f, (schema tableid)[n]? = some f ∧ Transaction.trimField f v = v := by
  obtain ⟨x, hx, hc'⟩ := List.mem_flatMap.mp hmem
  rw [stagedChanges_eq (he.staged x hx) (he.stays x hx)] at hc'
  rcases List.mem_append.mp hc' with hrow | hentry
  · rw [rowVersion, hc] at hrow
    cases hcmd : x.2.cmd <;> rw [hcmd] at hrow <;> simp at hrow
  · obtain ⟨m, f, hf, _, hmap⟩ := mem_forIndices.mp hentry
    obtain ⟨a, _, ha⟩ := List.mem_map.mp hmap
    rw [hc, primaryEntry] at ha
    injection ha with _ h2 h3 _ h5 _ _
    subst h2 h3 h5
    exact ⟨f, hf, trimField_trimField f a.2⟩

/-- Where the changes are the same, each value that both sides have is where
its row is. -/
theorem withItsRow_of_perm (he : Even schema stagedRows)
    (hperm : (stagedRows.flatMap fun x =>
      replicaChanges top (schema x.1.tableid) x.1 x.2).Perm
        (commitChanges top schema stagedRows))
    {x : UuRecord × StagedRow} (hx : x ∈ stagedRows) {n : Nat} {f : Field}
    (hn : (schema x.1.tableid)[n]? = some f) (hindex : f.indextype ≠ .none)
    {a : Bool × FieldValue}
    (hreplica : a ∈ replicaValues (schema x.1.tableid) x.2 n f)
    (hprimary : a ∈ primaryValues (schema x.1.tableid) x.2 n) :
    WithItsRow top n f x.1.engineid a.2 := by
  have h1 : replicaEntry top x.1 n f a ∈ stagedRows.flatMap fun x =>
      replicaChanges top (schema x.1.tableid) x.1 x.2 := by
    refine List.mem_flatMap.mpr ⟨x, hx, ?_⟩
    rw [replicaChanges_eq (he.staged x hx) (he.stays x hx) (he.deletes x hx)]
    exact List.mem_append_right _ (mem_forIndices.mpr
      ⟨n, f, hn, hindex, List.mem_map_of_mem hreplica⟩)
  have h2 : primaryEntry top x.1 n f a ∈
      commitChanges top schema stagedRows := by
    refine List.mem_flatMap.mpr ⟨x, hx, ?_⟩
    rw [stagedChanges_eq (he.staged x hx) (he.stays x hx)]
    exact List.mem_append_right _ (mem_forIndices.mpr
      ⟨n, f, hn, hindex, List.mem_map_of_mem hprimary⟩)
  obtain ⟨g, hg, htrim⟩ := entry_of_primary he rfl (hperm.mem_iff.mp h1)
  obtain rfl : f = g := Option.some.inj (hn.symm.trans hg)
  obtain ⟨g, hg, hplace, hengine⟩ :=
    entry_of_replica he rfl (hperm.mem_iff.mpr h2)
  obtain rfl : f = g := Option.some.inj (hn.symm.trans hg)
  rw [htrim] at hplace hengine
  refine ⟨htrim, hengine.symm, fun hnull => ?_⟩
  rw [place, if_pos hnull] at hplace
  exact hplace.trans hengine.symm

/-- The same changes in all are the same changes row by row. -/
theorem mirrored_of_perm (he : Even schema stagedRows)
    (hperm : (stagedRows.flatMap fun x =>
      replicaChanges top (schema x.1.tableid) x.1 x.2).Perm
        (commitChanges top schema stagedRows))
    {x : UuRecord × StagedRow} (hx : x ∈ stagedRows) :
    Mirrored top (schema x.1.tableid) x.1 x.2 := by
  have hvalues := he.values x hx
  rw [Mirrored]
  cases hcmd : x.2.cmd with
  | nocommand => trivial
  | delete => exact he.deletes x hx hcmd
  | insert =>
      intro n f hn hindex
      refine withItsRow_of_perm he hperm hx hn hindex
        (a := (true, valueOf (schema x.1.tableid) x.2.newRow n)) ?_ ?_
      · rw [replicaValues, hcmd]
        exact List.mem_singleton_self _
      · rw [primaryValues, hcmd]
        exact List.mem_singleton_self _
  | update =>
      refine ⟨he.stays x hx hcmd, fun n f hn hindex => ?_⟩
      have hlength : (replicaValues (schema x.1.tableid) x.2 n f).length =
          (primaryValues (schema x.1.tableid) x.2 n).length :=
        hvalues n f hn hindex
      have hmem := withItsRow_of_perm he hperm hx hn hindex
        (a := (false, valueOf (schema x.1.tableid) x.2.originalRow n))
      have hmem' := withItsRow_of_perm he hperm hx hn hindex
        (a := (true, valueOf (schema x.1.tableid) x.2.newRow n))
      rw [replicaValues, primaryValues, hcmd] at hlength hmem hmem'
      dsimp only at hlength hmem hmem' ⊢
      cases hdiffer : ReplicaAgent.aredifferent f
          (valueOf (schema x.1.tableid) x.2.newRow n)
          (valueOf (schema x.1.tableid) x.2.originalRow n) with
      | true =>
          have hchanged := changed_of_aredifferent hn hdiffer
          rw [hdiffer, hchanged] at hmem hmem'
          rw [hchanged]
          exact ⟨rfl, fun _ => ⟨hmem (by simp) (by simp),
            hmem' (by simp) (by simp)⟩⟩
      | false =>
          cases hchanged : Transaction.changed
              (valueOf (schema x.1.tableid) x.2.originalRow n)
              (valueOf (schema x.1.tableid) x.2.newRow n) with
          | true =>
              rw [hdiffer, hchanged] at hlength
              exact absurd hlength (by simp)
          | false => exact ⟨rfl, fun h => absurd h (by simp)⟩

/-- As many changes in all are as many for each row. -/
theorem even_of_perm
    (hstaged : ∀ x ∈ stagedRows, WellStaged (schema x.1.tableid) x.1 x.2)
    (hdeletes : ∀ x ∈ stagedRows, x.2.cmd = .delete →
      schema x.1.tableid = [])
    (hperm : (stagedRows.flatMap fun x =>
      replicaChanges top (schema x.1.tableid) x.1 x.2).Perm
        (commitChanges top schema stagedRows)) :
    Even schema stagedRows := by
  have heach : ∀ x ∈ stagedRows,
      (replicaChanges top (schema x.1.tableid) x.1 x.2).length =
        (stagedChanges top (schema x.1.tableid) x.1 x.2).length :=
    (length_flatMap_le fun x hx => (length_replicaChanges_le
      (hstaged x hx) (hdeletes x hx)).1).2 hperm.length_eq
  have hrow := fun x hx => (length_replicaChanges_le (hstaged x hx)
    (hdeletes x hx)).2 (heach x hx)
  exact ⟨hstaged, fun x hx => (hrow x hx).1, hdeletes,
    fun x hx => (hrow x hx).2⟩

end

/-! ## The transactions that are mirrored -/

/-- A record of a mirrored row derives index items for its own partition. -/
theorem recordIndices_of_mirrored {top : Topology} {fields : List Field}
    {x : UuRecord × StagedRow} (h : WellStaged fields x.1 x.2)
    (hm : Mirrored top fields x.1 x.2) {r : DispatchRecord}
    (hr : Transaction.dispatchRecord x.1 x.2 = some r) :
    ∃ items, ReplicaAgent.recordIndices top fields r = some items ∧
      ∀ item ∈ items, item.1 = x.1.engineid := by
  have hstays : x.2.cmd = .update →
      Transaction.StagedRow.moved x.2 = false := by
    intro hcmd
    rw [Mirrored, hcmd] at hm
    exact hm.1
  have hdelete : x.2.cmd = .delete → fields = [] := by
    intro hcmd
    rw [Mirrored, hcmd] at hm
    exact hm
  have hsome : (ReplicaAgent.recordIndices top fields r).isSome = true := by
    cases hcmd : x.2.cmd with
    | delete => exact (recordIndices_delete hcmd hr).mpr (hdelete hcmd)
    | nocommand =>
        rw [dispatchRecord_eq_none.mpr hcmd] at hr
        exact absurd hr (by simp)
    | insert =>
        rw [Transaction.dispatchRecord, hcmd] at hr
        obtain rfl := Option.some.inj hr
        simp only [ReplicaAgent.recordIndices,
          unmakerow_makerow (h.new (.inl hcmd)), Option.map_some,
          Option.isSome_some]
    | update =>
        rw [Transaction.dispatchRecord, hcmd] at hr
        obtain rfl := Option.some.inj hr
        simp only [ReplicaAgent.recordIndices,
          unmakerow_makerow (h.new (.inr hcmd)),
          unmakerow_makerow (h.original hcmd), Option.bind_some,
          Option.map_some, Option.isSome_some]
  obtain ⟨items, hitems⟩ := Option.isSome_iff_exists.mp hsome
  refine ⟨items, hitems, fun item hi => ?_⟩
  have hmem : indexChange item ∈ replicaChanges top fields x.1 x.2 := by
    simp only [replicaChanges, hr, hitems, Option.getD_some]
    exact List.mem_cons_of_mem _ (List.mem_map_of_mem hi)
  rw [replicaChanges_eq h hstays hdelete] at hmem
  rcases List.mem_append.mp hmem with hrow | hentry
  · rw [rowVersion, indexChange] at hrow
    cases hcmd : x.2.cmd <;> rw [hcmd] at hrow <;> simp at hrow
  · obtain ⟨n, f, hn, hindex, hmap⟩ := mem_forIndices.mp hentry
    obtain ⟨a, ha, heq⟩ := List.mem_map.mp hmap
    rw [replicaEntry, indexChange] at heq
    injection heq with h1
    exact h1.symm.trans (withItsRow_of_mirrored hm hn hindex ha).hashed

/-- Two partitions, and every value belongs to 0. -/
def firstOfTwo : Topology := ⟨2, fun _ => 0⟩

/-- Tables of one integer with an index. -/
def numberSchemata (_ _ : Int) : List Field := [⟨.int, 8, .unique⟩]

/-- Row 1 is inserted at a partition, with the number 7. -/
def numberInsert (engineid : Int) : UuRecord × StagedRow :=
  (⟨1, 1, engineid⟩,
    { cmd := .insert, newRow := [0, 7, 0, 0, 0, 0, 0, 0, 0], newrowid := 1
      newengineid := engineid })

def numberTransaction (engineid : Int) : Transaction :=
  { transactionid := 1, domainid := 1
    engineToSubTransactionids := [(engineid, 1)]
    stagedRows := [numberInsert engineid] }

theorem numberInsert_staged (engineid : Int) :
    ∀ x ∈ (numberTransaction engineid).stagedRows,
      WellStaged (numberSchemata 1 x.1.tableid) x.1 x.2 := by
  intro x hx
  obtain rfl := List.mem_singleton.mp hx
  constructor
  case new =>
    intro _
    refine ⟨[{ value := 7#128 }], ?_⟩
    show makerow [⟨.int, 8, .unique⟩] [{ value := 7#128 }] =
      some [0, 7, 0, 0, 0, 0, 0, 0, 0]
    decide
  case original => exact fun h => absurd h (by simp [numberInsert])
  case inserted => exact fun _ => ⟨rfl, rfl⟩
  case there => exact fun h => absurd h (by simp [numberInsert])

end Infinisql.Proofs
