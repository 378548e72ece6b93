import Infinisql.Proofs.IndexShape
import Infinisql.Ref.Commit

/-!
# The entries of a row

A unique index has a map with one entry for a key, a nonunique one has a
multimap, and the null entries are in a set beside either. `entriesOf` reads
all three alike: for a key and a row's address, the list of the
subtransaction ids of the entries under that key that refer to that row. A
committed entry has id 0, so "exactly one entry, committed" is `[0]`, and
"none" is `[]`.

Each kind of item is then one equation about `entriesOf`, for every key and
every row, and one about the null set. The equations do not mention the type
of the index. What they need is that the index was made for the field, and
that the key is of the field's type.
-/

namespace Infinisql.Proofs

open Infinisql.Ref Infinisql.Lib

/-! ## Reading an index -/

/-- The address an entry refers to. -/
def rowOf (e : LockingIndexEntry) : NonLockingIndexEntry :=
  ⟨e.rowid, e.engineid⟩

/-- The pairs of a nonunique index. -/
def multimap (i : Index) : List (Key × NonLockingIndexEntry) :=
  match i.indexmaptype.nonLockingMap with
  | none => []
  | some m => (i.nonlocking m).getD []

/-- The entries under a key that refer to a row. -/
def entriesOf (i : Index) (key : Key) (row : NonLockingIndexEntry) :
    List Int :=
  if i.isunique then
    ((entries i key).toList.filter fun e => rowOf e = row).map
      (·.subtransactionid)
  else List.replicate ((multimap i).count (key, row)) 0

/-- Is the row among the nulls? -/
def NullAt (i : Index) (row : NonLockingIndexEntry) : Prop :=
  (row.rowid, row.engineid) ∈ i.nulls

/-! ## Nonunique indexes -/

/-- The pointer of a nonunique index: the one multimap is there. -/
structure NonuniqueOn (m : NonLockingMap) (i : Index) : Prop where
  maptype : i.indexmaptype.nonLockingMap = some m
  unique : i.isunique = false
  fieldtype : fieldtypeOf i.indexmaptype = i.fieldtype
  nonlocking : ∃ entries, i.nonlocking m = some entries

theorem nonuniqueOn_of_made {it : Indextype} {ft : Fieldtype} {i : Index}
    (h : Made it ft i) (hit : it ≠ .none) (hu : it.isunique = false)
    (hft : ft ≠ .nofieldtype) : ∃ m, NonuniqueOn m i := by
  have hmap : ∃ m, (it.indexmaptype ft).nonLockingMap = some m := by
    cases ft with
    | nofieldtype => exact absurd rfl hft
    | int | uint | bool | float | char | charx | varchar =>
        cases it <;> simp [Indextype.isunique] at hu hit <;> exact ⟨_, rfl⟩
  obtain ⟨m, hm⟩ := hmap
  refine ⟨m, ?_, h.isunique.trans hu, ?_, ?_⟩
  · rw [h.indexmaptype]
    exact hm
  · rw [h.indexmaptype, h.fieldtype]
    exact fieldtypeOf_indexmaptype hit
  · rw [← Option.isSome_iff_exists, h.nonlocking]
    simp [Index.makeindex, hm]

theorem NonuniqueOn.multimap_eq {m : NonLockingMap} {i : Index}
    (h : NonuniqueOn m i) : i.nonlocking m = some (multimap i) := by
  obtain ⟨es, hes⟩ := h.nonlocking
  simp [multimap, h.maptype, hes]

/-- The overload for a key of the field's type goes through the index's own
pointer. -/
theorem NonuniqueOn.nonuniqueMap_eq {m : NonLockingMap} {i : Index}
    {val : FieldValue} {key : Key} (h : NonuniqueOn m i)
    (hkey : val.key i.fieldtype = some key) :
    Index.nonuniqueMap key.trim = m := by
  have hmap := h.maptype
  rw [← h.fieldtype] at hkey
  cases ht : i.indexmaptype <;>
    simp only [ht, Indexmaptype.nonLockingMap, fieldtypeOf, FieldValue.key,
      Option.some.injEq, reduceCtorEq] at hmap hkey
  all_goals
    subst hmap
    subst hkey
    rfl

theorem NonuniqueOn.mapNonunique {m : NonLockingMap} {i : Index}
    {val : FieldValue} {key : Key} {f} (h : NonuniqueOn m i)
    (hkey : val.key i.fieldtype = some key) :
    ∃ i', i.mapNonunique key.trim f = some i' ∧ SamePointers i i' ∧
      multimap i' = f (multimap i) ∧ i'.nulls = i.nulls := by
  have hmap : i.mapNonunique key.trim f =
      some (i.setNonlocking m (f (multimap i))) := by
    rw [Index.mapNonunique, h.nonuniqueMap_eq hkey, h.multimap_eq]
  refine ⟨_, hmap, mapNonunique_samePointers hmap, ?_, rfl⟩
  have hmt : (i.setNonlocking m (f (multimap i))).indexmaptype.nonLockingMap =
      some m := h.maptype
  rw [multimap.eq_def (i.setNonlocking _ _), hmt]
  simp [Index.setNonlocking]

theorem SamePointers.made {it : Indextype} {ft : Fieldtype} {i i' : Index}
    (h : SamePointers i i') (hm : Made it ft i) : Made it ft i' :=
  SamePointers.trans hm h

/-- A new index is empty. -/
theorem entriesOf_makeindex {it : Indextype} {ft : Fieldtype} {key : Key}
    {row : NonLockingIndexEntry} :
    entriesOf (Index.makeindex it ft) key row = [] := by
  have hentries : entries (Index.makeindex it ft) key = none := by
    cases hm : (Index.makeindex it ft).indexmaptype.lockingMap with
    | none => simp [entries, hm]
    | some mq =>
        simp only [entries, hm]
        simp only [Index.makeindex]
        split <;> rfl
  have hmultimap : multimap (Index.makeindex it ft) = [] := by
    cases hm : (Index.makeindex it ft).indexmaptype.nonLockingMap with
    | none => simp [multimap, hm]
    | some m =>
        simp only [multimap, hm]
        simp only [Index.makeindex]
        split <;> rfl
  simp [entriesOf, hentries, hmultimap]

/-! ## Counting in the multimap -/

theorem count_deleted {l : List (Key × NonLockingIndexEntry)} {key k : Key}
    {row r : NonLockingIndexEntry} :
    (l.filter fun e => ¬ (e.1 = key ∧ e.2 = row)).count (k, r) =
      if k = key ∧ r = row then 0 else l.count (k, r) := by
  split
  · next h =>
      rw [List.count_eq_zero]
      intro hmem
      have hp := (List.mem_filter.mp hmem).2
      simp [h.1, h.2] at hp
  · next h => exact List.count_filter (decide_eq_true h)

theorem count_replaced {l : List (Key × NonLockingIndexEntry)} {key k : Key}
    {old new r : NonLockingIndexEntry} (hne : old ≠ new) :
    (l.map fun e => if e.1 = key ∧ e.2 = old then (e.1, new) else e).count
        (k, r) =
      (if k = key ∧ r = old then 0 else l.count (k, r)) +
        if k = key ∧ r = new then l.count (key, old) else 0 := by
  induction l with
  | nil => simp
  | cons e l ih =>
      obtain ⟨k', r'⟩ := e
      rw [List.map_cons, List.count_cons, ih, List.count_cons,
        List.count_cons]
      by_cases h1 : k' = key ∧ r' = old
      · obtain ⟨rfl, rfl⟩ := h1
        by_cases h2 : k = k' ∧ r = r'
        · obtain ⟨rfl, rfl⟩ := h2
          simp [hne, Ne.symm hne]
        · by_cases h3 : k = k' ∧ r = new
          · obtain ⟨rfl, rfl⟩ := h3
            simp [hne, Ne.symm hne]
            omega
          · have h4 : ¬ ((k', new) = (k, r)) := by
              rintro h
              injection h with h5 h6
              exact h3 ⟨h5.symm, h6.symm⟩
            have h5 : ¬ ((k', r') = (k, r)) := by
              rintro h
              injection h with h5 h6
              exact h2 ⟨h5.symm, h6.symm⟩
            simp [h2, h3, h4, h5]
      · by_cases h2 : (k', r') = (key, old)
        · injection h2 with h3 h4
          exact absurd ⟨h3, h4⟩ h1
        · by_cases h3 : (k', r') = (k, r)
          · injection h3 with h4 h5
            subst h4 h5
            simp [h1, h2]
            omega
          · simp [h1, h2, h3]

/-! ## What an item does

`Adds i i'` and the rest say what has become of the entries of every row and
of the nulls, and that the index is still the one that was made. -/

/-- The entries of each row under each key are given by `f`, and the nulls by
`g`. -/
structure Becomes (i i' : Index)
    (f : Key → NonLockingIndexEntry → List Int)
    (g : NonLockingIndexEntry → Prop) : Prop where
  same : SamePointers i i'
  entries : ∀ key row, entriesOf i' key row = f key row
  nulls : ∀ row, NullAt i' row ↔ g row

theorem entriesOf_of_unique {m : LockingMap} {q : LockQueueMap} {i : Index}
    (h : UniqueOn m q i) (key : Key) (row : NonLockingIndexEntry) :
    entriesOf i key row = ((entries i key).toList.filter
      fun e => rowOf e = row).map (·.subtransactionid) := by
  rw [entriesOf, if_pos h.unique]

theorem entriesOf_of_nonunique {m : NonLockingMap} {i : Index}
    (h : NonuniqueOn m i) (key : Key) (row : NonLockingIndexEntry) :
    entriesOf i key row =
      List.replicate ((multimap i).count (key, row)) 0 := by
  rw [entriesOf, h.unique]
  simp

theorem NonuniqueOn.of_samePointers {m : NonLockingMap} {i i' : Index}
    (h : NonuniqueOn m i) (hsame : SamePointers i i') : NonuniqueOn m i' where
  maptype := hsame.indexmaptype ▸ h.maptype
  unique := hsame.isunique.trans h.unique
  fieldtype := by
    rw [hsame.indexmaptype, hsame.fieldtype]
    exact h.fieldtype
  nonlocking := by
    rw [← Option.isSome_iff_exists, hsame.nonlocking]
    exact Option.isSome_iff_exists.mpr h.nonlocking

theorem insertNullEntry_becomes (i : Index) (row : NonLockingIndexEntry) :
    Becomes i (i.insertNullEntry row.rowid row.engineid) (entriesOf i)
      fun r => r = row ∨ NullAt i r where
  same := ⟨rfl, rfl, rfl, rfl, fun _ => rfl, fun _ => rfl, fun _ => rfl⟩
  entries _ _ := rfl
  nulls r := by
    obtain ⟨_, _⟩ := r
    obtain ⟨_, _⟩ := row
    simp [NullAt, Index.insertNullEntry]

theorem deleteNullEntry_becomes (i : Index) (row : NonLockingIndexEntry) :
    Becomes i (i.deleteNullEntry row.rowid row.engineid) (entriesOf i)
      fun r => r ≠ row ∧ NullAt i r where
  same := ⟨rfl, rfl, rfl, rfl, fun _ => rfl, fun _ => rfl, fun _ => rfl⟩
  entries _ _ := rfl
  nulls r := by
    obtain ⟨_, _⟩ := r
    obtain ⟨_, _⟩ := row
    simp [NullAt, Index.deleteNullEntry]

theorem replaceNull_becomes (i : Index) (old new : NonLockingIndexEntry) :
    Becomes i
      (i.replaceNull old.rowid old.engineid new.rowid new.engineid)
      (entriesOf i) fun r => r = new ∨ r ≠ old ∧ NullAt i r where
  same := ⟨rfl, rfl, rfl, rfl, fun _ => rfl, fun _ => rfl, fun _ => rfl⟩
  entries _ _ := rfl
  nulls r := by
    obtain ⟨_, _⟩ := r
    obtain ⟨_, _⟩ := old
    obtain ⟨_, _⟩ := new
    simp [NullAt, Index.replaceNull]

/-- An assignment in the one map of a unique index. -/
theorem UniqueOn.assign_becomes {m : LockingMap} {q : LockQueueMap}
    {i i' : Index} {key : Key} {entry : Option LockingIndexEntry}
    (h : UniqueOn m q i) (hassign : i.assign m key entry = some i') :
    Becomes i i' (fun k row =>
        if k = key then (entry.toList.filter fun e => rowOf e = row).map
          (·.subtransactionid)
        else entriesOf i k row) (NullAt i) := by
  obtain ⟨i₁, h1, hsame, hon, hent, hnulls⟩ := h.assign key entry
  obtain rfl := Option.some.inj (hassign.symm.trans h1)
  refine ⟨hsame, fun k row => ?_, fun row => ?_⟩
  · rw [entriesOf_of_unique hon, hent]
    by_cases hk : k = key
    · rw [hk, Function.update_self, if_pos rfl]
    · rw [Function.update_of_ne hk, if_neg hk, entriesOf_of_unique h]
  · rw [NullAt, hnulls]
    rfl

theorem deleteUniqueEntry_becomes {m : LockingMap} {q : LockQueueMap}
    {i : Index} {val : FieldValue} {key : Key} (h : UniqueOn m q i)
    (hkey : val.key i.fieldtype = some key) :
    ∃ i', i.deleteUniqueEntry key = some i' ∧
      Becomes i i' (fun k row =>
        if k = key.trim then [] else entriesOf i k row) (NullAt i) := by
  obtain ⟨i', h1, _⟩ := h.assign key.trim none
  exact ⟨i', (assignUnique_eq h hkey).trans h1, h.assign_becomes h1⟩

theorem replaceUnique_becomes {m : LockingMap} {q : LockQueueMap}
    {i : Index} {val : FieldValue} {key : Key} (h : UniqueOn m q i)
    (hkey : val.key i.fieldtype = some key) (new : NonLockingIndexEntry) :
    ∃ i', i.replaceUnique new.rowid new.engineid key = some i' ∧
      Becomes i i' (fun k row =>
        if k = key.trim then (if row = new then [0] else [])
        else entriesOf i k row) (NullAt i) := by
  obtain ⟨i', h1, _⟩ := h.assign key.trim
    (some ⟨new.rowid, new.engineid, 0⟩)
  refine ⟨i', (assignUnique_eq h hkey).trans h1, ?_⟩
  have hb := h.assign_becomes h1
  refine ⟨hb.same, fun k row => ?_, hb.nulls⟩
  rw [hb.entries]
  by_cases hr : row = new
  · subst hr
    simp [rowOf]
  · have hne : ¬ rowOf ⟨new.rowid, new.engineid, 0⟩ = row :=
      fun h => hr h.symm
    simp [hr, hne]

/-- The commit of an entry staged by the caller for `row`. -/
theorem commitStaged_becomes {m : LockingMap} {q : LockQueueMap}
    {i : Index} {val : FieldValue} {key : Key} {s : Int}
    {row : NonLockingIndexEntry} (h : UniqueOn m q i)
    (hkey : val.key i.fieldtype = some key)
    (hstaged : entriesOf i key row = [s]) :
    ∃ i', i.commitRollback key s .commitCmd = some i' ∧
      Becomes i i' (fun k r =>
        if k = key then (if r = row then [0] else [])
        else entriesOf i k r) (NullAt i) := by
  rw [commitRollback_commit h hkey, Index.commitEntry]
  have he : ∃ e, entries i key = some e ∧ rowOf e = row ∧
      e.subtransactionid = s := by
    rw [entriesOf_of_unique h] at hstaged
    cases he : entries i key with
    | none => simp [he] at hstaged
    | some e =>
        simp only [he, Option.toList_some, List.filter_cons,
          List.filter_nil] at hstaged
        split at hstaged
        · next hr =>
            refine ⟨e, rfl, by simpa using hr, ?_⟩
            simpa using hstaged
        · exact absurd hstaged (by simp)
  obtain ⟨e, he, hr, hs⟩ := he
  rcases h.ifOwner key s fun e => some { e with subtransactionid := 0 } with
    ⟨e', he', _, heq⟩ | ⟨hnot, _⟩
  · obtain rfl := Option.some.inj (he.symm.trans he')
    obtain ⟨i', h1, _⟩ := h.assign key
      (some { e with subtransactionid := 0 })
    refine ⟨i', heq.trans h1, ?_⟩
    have hb := h.assign_becomes h1
    refine ⟨hb.same, fun k r => ?_, hb.nulls⟩
    rw [hb.entries]
    by_cases hrr : r = row
    · subst hrr
      simp [← hr, rowOf]
    · have hne : ¬ rowOf { e with subtransactionid := 0 } = r :=
        fun h => hrr (h.symm.trans hr)
      simp [hrr, hne]
  · exact absurd ⟨e, he, hs⟩ hnot

theorem insertNonuniqueEntry_becomes {m : NonLockingMap} {i : Index}
    {val : FieldValue} {key : Key} (h : NonuniqueOn m i)
    (hkey : val.key i.fieldtype = some key) (row : NonLockingIndexEntry) :
    ∃ i', i.insertNonuniqueEntry key row.rowid row.engineid = some i' ∧
      Becomes i i' (fun k r => entriesOf i k r ++
        if k = key.trim ∧ r = row then [0] else []) (NullAt i) := by
  obtain ⟨i', h1, hsame, hmm, hnulls⟩ := h.mapNonunique
    (f := fun es => es ++ [(key.trim, row)]) hkey
  refine ⟨i', h1, hsame, fun k r => ?_, fun r => by rw [NullAt, hnulls]; rfl⟩
  rw [entriesOf_of_nonunique (h.of_samePointers hsame), hmm,
    entriesOf_of_nonunique h, List.count_append, List.replicate_add]
  by_cases hkr : k = key.trim ∧ r = row
  · simp [hkr]
  · have hne : ¬ ((key.trim, row) = (k, r)) := by
      rintro h
      injection h with h2 h3
      exact hkr ⟨h2.symm, h3.symm⟩
    simp [hkr, hne]

theorem deleteNonuniqueEntry_becomes {m : NonLockingMap} {i : Index}
    {val : FieldValue} {key : Key} (h : NonuniqueOn m i)
    (hkey : val.key i.fieldtype = some key) (row : NonLockingIndexEntry) :
    ∃ i', i.deleteNonuniqueEntry key row.rowid row.engineid = some i' ∧
      Becomes i i' (fun k r =>
        if k = key.trim ∧ r = row then [] else entriesOf i k r)
        (NullAt i) := by
  obtain ⟨i', h1, hsame, hmm, hnulls⟩ := h.mapNonunique
    (f := fun es => es.filter fun e => ¬ (e.1 = key.trim ∧ e.2 = row)) hkey
  refine ⟨i', h1, hsame, fun k r => ?_, fun r => by rw [NullAt, hnulls]; rfl⟩
  rw [entriesOf_of_nonunique (h.of_samePointers hsame), hmm, count_deleted,
    entriesOf_of_nonunique h]
  split <;> rfl

theorem replaceNonunique_becomes {m : NonLockingMap} {i : Index}
    {val : FieldValue} {key : Key} (h : NonuniqueOn m i)
    (hkey : val.key i.fieldtype = some key)
    {old new : NonLockingIndexEntry} (hne : old ≠ new) :
    ∃ i', i.replaceNonunique old.rowid old.engineid new.rowid new.engineid
        key = some i' ∧
      Becomes i i' (fun k r =>
        (if k = key.trim ∧ r = old then [] else entriesOf i k r) ++
          if k = key.trim ∧ r = new then entriesOf i key.trim old else [])
        (NullAt i) := by
  obtain ⟨i', h1, hsame, hmm, hnulls⟩ := h.mapNonunique
    (f := fun es => es.map fun e =>
      if e.1 = key.trim ∧ e.2 = old then (e.1, new) else e) hkey
  refine ⟨i', h1, hsame, fun k r => ?_, fun r => by rw [NullAt, hnulls]; rfl⟩
  rw [entriesOf_of_nonunique (h.of_samePointers hsame), hmm,
    count_replaced hne, List.replicate_add, entriesOf_of_nonunique h,
    entriesOf_of_nonunique h]
  congr 1 <;> split <;> rfl

end Infinisql.Proofs
