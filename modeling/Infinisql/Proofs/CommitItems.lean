import Infinisql.Proofs.Delivery

/-!
# The items of one field

A value of a field has a place: the engine its entry is kept at, and there
the key, or the null set. `entriesAt` reads the indexes of a field by place,
and an item of a commit is then an assignment. It changes what is at one
place and leaves every other place alone. The three lemmas of this file say
which place and what is put there: an add puts one committed entry of the
row there, a delete takes the row's entries away, and a replace does both,
for the row's new and old address.

What has to hold before is little. A commit of a staged entry finds the
entry it staged. A delete or a replace in a unique index takes away whatever
is under the key, so it is only an assignment for this row where the entry is
the row's own.
-/

namespace Infinisql.Proofs

open Infinisql.Ref Infinisql.Lib

/-! ## Places -/

/-- An engine, and a key there. No key is the null set. -/
abbrev Place := Int × Option Key

/-- The place of a value of field `n`. -/
def place (top : Topology) (n : Nat) (f : Field) (v : FieldValue) : Place :=
  if v.isnull then (Transaction.nullEngineid top n, none)
  else
    let val := Transaction.trimField f v
    (Transaction.getEngineid top f val, val.key f.type)

/-- The entries of a row under a key or among the nulls. -/
def entriesIn (i : Index) (k : Option Key) (row : NonLockingIndexEntry) :
    List Int :=
  match k with
  | none => if (row.rowid, row.engineid) ∈ i.nulls then [0] else []
  | some key => entriesOf i key row

def entriesAt (I : Int → Index) (p : Place) (row : NonLockingIndexEntry) :
    List Int :=
  entriesIn (I p.1) p.2 row

instance (i : Index) (row : NonLockingIndexEntry) :
    Decidable (NullAt i row) :=
  inferInstanceAs (Decidable (_ ∈ i.nulls))

theorem entriesAt_none (I : Int → Index) (e : Int)
    (row : NonLockingIndexEntry) :
    entriesAt I (e, none) row = if NullAt (I e) row then [0] else [] := rfl

/-- The indexes differ at one place, where `f` gives the entries. -/
def Puts (I I' : Int → Index) (p : Place)
    (f : NonLockingIndexEntry → List Int) : Prop :=
  ∀ p' r, entriesAt I' p' r = if p' = p then f r else entriesAt I p' r

/-- The indexes differ in the entries of one row at one place. -/
def Sets (I I' : Int → Index) (p : Place) (row : NonLockingIndexEntry)
    (es : List Int) : Prop :=
  ∀ p' r, entriesAt I' p' r =
    if p' = p ∧ r = row then es else entriesAt I p' r

theorem Puts.sets {I I' : Int → Index} {p : Place}
    {row : NonLockingIndexEntry} {es : List Int}
    (h : Puts I I' p fun r => if r = row then es else entriesAt I p r) :
    Sets I I' p row es := by
  intro p' r
  rw [h p' r]
  by_cases hp : p' = p
  · subst hp
    by_cases hr : r = row <;> simp [hr]
  · simp [hp]

theorem trimField_isnull (f : Field) (v : FieldValue) :
    (Transaction.trimField f v).isnull = v.isnull := by
  unfold Transaction.trimField
  split <;> rfl

theorem trimField_key_trim {f : Field} {v : FieldValue} {key : Key}
    (h : (Transaction.trimField f v).key f.type = some key) :
    key.trim = key := by
  unfold Transaction.trimField at h
  cases ht : f.type <;>
    simp only [ht, FieldValue.key, Option.some.injEq, reduceCtorEq] at h <;>
    subst h <;> simp [Key.trim, FieldValue.trim]

theorem place_null {top : Topology} {n : Nat} {f : Field} {v : FieldValue}
    (h : v.isnull = true) :
    place top n f v = (Transaction.nullEngineid top n, none) := by
  rw [place, if_pos h]

/-- The entries of one row at a place are another row's now. -/
def Moves (I I' : Int → Index) (p : Place) (old new : NonLockingIndexEntry) :
    Prop :=
  ∀ p' r, entriesAt I' p' r =
    if p' = p ∧ r = new then [0] else if p' = p ∧ r = old then []
    else entriesAt I p' r

theorem Puts.moves {I I' : Int → Index} {p : Place}
    {old new : NonLockingIndexEntry}
    (h : Puts I I' p fun r => if r = new then [0] else
      if r = old then [] else entriesAt I p r) :
    Moves I I' p old new := by
  intro p' r
  rw [h p' r]
  by_cases hp : p' = p
  · subst hp
    by_cases hr : r = new
    · simp [hr]
    · by_cases hr' : r = old <;> simp [hr, hr']
  · simp [hp]

/-! ## An index is still the one that was made -/

/-- The field has an index, of a type there are keys for. -/
structure Indexed (f : Field) : Prop where
  index : f.indextype ≠ .none
  type : f.type ≠ .nofieldtype

/-- At every engine. -/
def MadeFor (f : Field) (I : Int → Index) : Prop :=
  ∀ e, Made f.indextype f.type (I e)

theorem MadeFor.update {f : Field} {I : Int → Index} {e : Int} {i' : Index}
    (h : MadeFor f I) (hi : SamePointers (I e) i') :
    MadeFor f (Function.update I e i') := by
  intro e'
  by_cases he : e' = e
  · subst he
    rw [Function.update_self]
    exact hi.made (h e')
  · rw [Function.update_of_ne he]
    exact h e'

/-- The place of a value that is not null, as the items spell it. -/
theorem place_some (top : Topology) (n : Nat) {f : Field} {v : FieldValue}
    {I : Int → Index} (hf : Indexed f) (hmade : MadeFor f I)
    (hn : v.isnull = false) :
    ∃ e key, place top n f v = (e, some key) ∧
      Transaction.getEngineid top f (Transaction.trimField f v) = e ∧
      key.trim = key ∧ (Transaction.trimField f v).isnull = false ∧
      (Transaction.trimField f v).key (I e).fieldtype = some key := by
  obtain ⟨key, hkey⟩ := key_isSome
    (Transaction.trimField f v) hf.type
  refine ⟨_, key, ?_, rfl, trimField_key_trim hkey,
    (trimField_isnull f v).trans hn, ?_⟩
  · rw [place, if_neg (by simp [hn])]
    simp only [hkey]
  · rw [(hmade _).fieldtype]
    exact hkey

/-- The one drained queue. No entry is touched. -/
theorem drainIndexLockQueue_becomes {m : LockingMap} {q : LockQueueMap}
    {i : Index} {val : FieldValue} {key : Key} (h : UniqueOn m q i)
    (hkey : val.key i.fieldtype = some key) :
    ∃ i', i.drainIndexLockQueue val = some i' ∧
      Becomes i i' (entriesOf i) (NullAt i) := by
  have hq : Index.queueMap key = q := by
    have hmap := h.maptype
    have hkey' := hkey
    rw [← h.fieldtype] at hkey'
    cases ht : i.indexmaptype <;>
      simp only [ht, Indexmaptype.lockingMap, fieldtypeOf, FieldValue.key,
        Option.some.injEq, Prod.mk.injEq, reduceCtorEq] at hmap hkey'
    all_goals
      obtain ⟨_, rfl⟩ := hmap
      subst hkey'
      rfl
  obtain ⟨queue, hqueue⟩ := h.lockQueue
  have hdrain : i.drainIndexLockQueue val = some { i with
      lockQueue := Function.update i.lockQueue q
        (some (Function.update queue key [])) } := by
    simp only [Index.drainIndexLockQueue, hkey, hq, hqueue]
  refine ⟨_, hdrain, ⟨rfl, rfl, rfl, rfl, fun _ => rfl, fun _ => rfl,
    fun q' => ?_⟩, fun _ _ => rfl, fun _ => Iff.rfl⟩
  by_cases hqq : q' = q
  · simp [hqq, hqueue]
  · simp [hqq]

/-! ## From one index to the field -/

theorem entriesAt_update {I : Int → Index} {e : Int} {i' : Index}
    {p : Place} {r : NonLockingIndexEntry} :
    entriesAt (Function.update I e i') p r =
      if p.1 = e then entriesIn i' p.2 r else entriesAt I p r := by
  unfold entriesAt
  split
  · next he => rw [he, Function.update_self]
  · next he => rw [Function.update_of_ne he]

/-- A change under one key. -/
theorem Becomes.puts {I : Int → Index} {e : Int} {i' : Index} {key : Key}
    {F : Key → NonLockingIndexEntry → List Int}
    {f : NonLockingIndexEntry → List Int}
    (h : Becomes (I e) i' F (NullAt (I e)))
    (hF : ∀ k r, F k r = if k = key then f r else entriesOf (I e) k r) :
    Puts I (Function.update I e i') (e, some key) f := by
  rintro ⟨e', k⟩ r
  rw [entriesAt_update]
  by_cases he : e' = e
  · subst he
    rw [if_pos rfl]
    cases k with
    | none =>
        have hn := h.nulls r
        unfold NullAt at hn
        rw [if_neg (by simp)]
        simp only [entriesIn, entriesAt, hn]
    | some k =>
        rw [entriesIn, h.entries, hF]
        by_cases hk : k = key
        · rw [if_pos hk, if_pos (by rw [hk])]
        · rw [if_neg hk, if_neg (by simp [hk])]
          rfl
  · rw [if_neg he, if_neg (by simp [he])]

/-- A change of the null set. -/
theorem Becomes.puts_null {I : Int → Index} {e : Int} {i' : Index}
    {G : NonLockingIndexEntry → Prop} [DecidablePred G]
    (h : Becomes (I e) i' (entriesOf (I e)) G) :
    Puts I (Function.update I e i') (e, none)
      fun r => if G r then [0] else [] := by
  rintro ⟨e', k⟩ r
  rw [entriesAt_update]
  by_cases he : e' = e
  · subst he
    rw [if_pos rfl]
    cases k with
    | none =>
        have hn := h.nulls r
        unfold NullAt at hn
        rw [if_pos rfl]
        simp only [entriesIn, hn]
    | some k =>
        rw [entriesIn, h.entries, if_neg (by simp)]
        rfl
  · rw [if_neg he, if_neg (by simp [he])]

/-! ## The items -/

/-- A unique index has one row under a key. -/
theorem entriesOf_other {m : LockingMap} {q : LockQueueMap} {i : Index}
    {key : Key} {row r : NonLockingIndexEntry} (h : UniqueOn m q i)
    (hrow : entriesOf i key row ≠ []) (hne : r ≠ row) :
    entriesOf i key r = [] := by
  rw [entriesOf_of_unique h] at hrow ⊢
  cases he : entries i key with
  | none => rfl
  | some e =>
      simp only [he, Option.toList_some] at hrow ⊢
      have hr : rowOf e = row := by
        by_contra hr
        simp [hr] at hrow
      have hne' : ¬ rowOf e = r := fun h => hne (h.symm.trans hr)
      simp [hne']

theorem applyIndexAt_eq {subs : Int → Int} {cmd : Enginecmd}
    {I : Int → Index} {e : Int} {rof : RowOrField} {i' : Index}
    (h : SubTransaction.applyIndex (subs e) cmd rof (I e) = some i') :
    applyIndexAt subs cmd I (e, rof) = some (Function.update I e i') := by
  rw [applyIndexAt, h]
  rfl

/-- What an add makes of the entries of a row. A multimap gets one more, the
null set and a unique index have one. -/
def added (f : Field) (v : FieldValue) (entries : List Int) : List Int :=
  if v.isnull || f.indextype.isunique then [0] else entries ++ [0]

theorem added_nil (f : Field) (v : FieldValue) : added f v [] = [0] := by
  unfold added
  split <;> rfl

/-- An add. In a unique index it is the commit of the staged entry. -/
theorem addItem_sets (top : Topology) (subs : Int → Int) (tableid : Int)
    (n : Nat) {f : Field} {I : Int → Index} {v : FieldValue}
    {row : NonLockingIndexEntry} (hf : Indexed f) (hmade : MadeFor f I)
    (hstaged : v.isnull = false → f.indextype.isunique = true →
      entriesAt I (place top n f v) row = [subs (place top n f v).1]) :
    ∃ I', applyIndexAt subs .commitCmd I (Transaction.addItem top tableid n f
        row.rowid row.engineid v) = some I' ∧ MadeFor f I' ∧
      Sets I I' (place top n f v) row
        (added f v (entriesAt I (place top n f v) row)) := by
  cases hn : v.isnull with
  | true =>
      have hb := insertNullEntry_becomes
        (I (Transaction.nullEngineid top n)) row
      refine ⟨_, ?_, hmade.update hb.same, ?_⟩
      · simp [Transaction.addItem, hn, applyIndexAt,
          SubTransaction.applyIndex, SubTransaction.applyEntry]
      · rw [place_null hn]
        refine Puts.sets fun p r => (hb.puts_null p r).trans ?_
        simp only [entriesAt_none]
        by_cases hr : r = row
        · simp [hr, added, hn]
        · simp only [hr, false_or, if_false]
  | false =>
      obtain ⟨e, key, hplace, he, htrim, hnull, hft⟩ :=
        place_some top n hf hmade hn
      rw [hplace] at hstaged ⊢
      cases hu : f.indextype.isunique with
      | true =>
          obtain ⟨m, q, hon⟩ := uniqueOn_of_made (hmade e) hu hf.type
          have hbefore : entriesOf (I e) key row = [subs e] := hstaged hn hu
          obtain ⟨i₁, h1, hb₁⟩ := commitStaged_becomes hon hft hbefore
          have hft₁ := hb₁.same.fieldtype ▸ hft
          obtain ⟨i₂, h2, hb₂⟩ := drainIndexLockQueue_becomes
            (hon.of_samePointers hb₁.same) hft₁
          have happ : SubTransaction.applyIndex (subs e) .commitCmd
              { tableid := tableid, fieldid := n
                fieldVal := Transaction.trimField f v } (I e) = some i₂ := by
            simp [SubTransaction.applyIndex, SubTransaction.applyStaged,
              hnull, hft, h1, h2]
          have hb : Becomes (I e) i₂ _ (NullAt (I e)) :=
            ⟨hb₁.same.trans hb₂.same, hb₂.entries,
              fun r => (hb₂.nulls r).trans (hb₁.nulls r)⟩
          refine ⟨_, ?_, hmade.update hb.same,
            Puts.sets (hb.puts fun k r => ?_)⟩
          · simp only [Transaction.addItem, hn, hu, he]
            exact applyIndexAt_eq happ
          · rw [hb₁.entries]
            by_cases hk : k = key
            · subst hk
              simp only [if_true]
              split
              · simp [added, hu]
              · next hr =>
                  refine (entriesOf_other hon ?_ hr).symm
                  rw [hbefore]
                  simp
            · simp only [hk, if_false]
      | false =>
          obtain ⟨m, hon⟩ :=
            nonuniqueOn_of_made (hmade e) hf.index hu hf.type
          obtain ⟨i', h1, hb⟩ := insertNonuniqueEntry_becomes hon hft row
          rw [htrim] at hb
          have happ : SubTransaction.applyIndex (subs e) .commitCmd
              { tableid := tableid, fieldid := n, isnotaddunique := true
                engineid := row.engineid, rowid := row.rowid
                fieldVal := Transaction.trimField f v } (I e) = some i' := by
            simp [SubTransaction.applyIndex, SubTransaction.applyEntry,
              hnull, hft, hon.unique, h1]
          refine ⟨_, ?_, hmade.update hb.same,
            Puts.sets (hb.puts fun k r => ?_)⟩
          · simp only [Transaction.addItem, hn, hu, he]
            exact applyIndexAt_eq happ
          · by_cases hk : k = key
            · subst hk
              by_cases hr : r = row
              · subst hr
                simp [added, hn, hu]
                rfl
              · simp only [hr, and_false, if_false, List.append_nil, if_true]
                rfl
            · simp [hk]

/-- A delete: the row's entries go. -/
theorem deleteItem_sets (top : Topology) (subs : Int → Int) (tableid : Int)
    (n : Nat) {f : Field} {I : Int → Index} {v : FieldValue}
    {row : NonLockingIndexEntry} (hf : Indexed f) (hmade : MadeFor f I)
    (hown : f.indextype.isunique = true → v.isnull = false →
      entriesAt I (place top n f v) row ≠ []) :
    ∃ I', applyIndexAt subs .commitCmd I (Transaction.deleteItem top tableid
        n f row.rowid row.engineid v) = some I' ∧ MadeFor f I' ∧
      Sets I I' (place top n f v) row [] := by
  cases hn : v.isnull with
  | true =>
      have hb := deleteNullEntry_becomes
        (I (Transaction.nullEngineid top n)) row
      refine ⟨_, ?_, hmade.update hb.same, ?_⟩
      · simp [Transaction.deleteItem, hn, applyIndexAt,
          SubTransaction.applyIndex, SubTransaction.applyEntry]
      · rw [place_null hn]
        refine Puts.sets fun p r => (hb.puts_null p r).trans ?_
        simp only [entriesAt_none]
        by_cases hr : r = row
        · simp [hr]
        · simp only [hr, ne_eq, not_false_eq_true, true_and, if_false]
  | false =>
      obtain ⟨e, key, hplace, he, htrim, hnull, hft⟩ :=
        place_some top n hf hmade hn
      rw [hplace] at hown ⊢
      cases hu : f.indextype.isunique with
      | true =>
          obtain ⟨m, q, hon⟩ := uniqueOn_of_made (hmade e) hu hf.type
          obtain ⟨i', h1, hb⟩ := deleteUniqueEntry_becomes hon hft
          rw [htrim] at hb
          have happ : SubTransaction.applyIndex (subs e) .commitCmd
              { tableid := tableid, fieldid := n, isnotaddunique := true
                deleteindexentry := true, engineid := row.engineid
                rowid := row.rowid
                fieldVal := Transaction.trimField f v } (I e) = some i' := by
            simp [SubTransaction.applyIndex, SubTransaction.applyEntry,
              hnull, hft, hon.unique, h1]
          refine ⟨_, ?_, hmade.update hb.same,
            Puts.sets (hb.puts fun k r => ?_)⟩
          · simp only [Transaction.deleteItem, hn, he]
            exact applyIndexAt_eq happ
          · by_cases hk : k = key
            · subst hk
              simp only [if_true]
              split
              · rfl
              · next hr => exact (entriesOf_other hon (hown hu hn) hr).symm
            · simp only [hk, if_false]
      | false =>
          obtain ⟨m, hon⟩ :=
            nonuniqueOn_of_made (hmade e) hf.index hu hf.type
          obtain ⟨i', h1, hb⟩ := deleteNonuniqueEntry_becomes hon hft row
          rw [htrim] at hb
          have happ : SubTransaction.applyIndex (subs e) .commitCmd
              { tableid := tableid, fieldid := n, isnotaddunique := true
                deleteindexentry := true, engineid := row.engineid
                rowid := row.rowid
                fieldVal := Transaction.trimField f v } (I e) = some i' := by
            simp [SubTransaction.applyIndex, SubTransaction.applyEntry,
              hnull, hft, hon.unique, h1]
          refine ⟨_, ?_, hmade.update hb.same,
            Puts.sets (hb.puts fun k r => ?_)⟩
          · simp only [Transaction.deleteItem, hn, he]
            exact applyIndexAt_eq happ
          · by_cases hk : k = key
            · subst hk
              simp only [true_and, if_true]
              rfl
            · simp only [hk, false_and, if_false]

/-- The addresses of an updated row, as its index entries spell them. -/
def oldAddress (sRow : StagedRow) : NonLockingIndexEntry :=
  ⟨sRow.originalrowid, sRow.originalengineid⟩

def newAddress (sRow : StagedRow) : NonLockingIndexEntry :=
  ⟨sRow.newrowid, sRow.newengineid⟩

/-- Where a replace puts the entry. The null entry keeps the old engine. -/
def replaced (sRow : StagedRow) (v : FieldValue) : NonLockingIndexEntry :=
  ⟨sRow.newrowid,
    if v.isnull then sRow.originalengineid else sRow.newengineid⟩

/-- A replace: the old address has no entry, the new one has it. -/
theorem replaceItem_moves (top : Topology) (subs : Int → Int) (tableid : Int)
    (n : Nat) {f : Field} {I : Int → Index} {v : FieldValue}
    {sRow : StagedRow} (hf : Indexed f) (hmade : MadeFor f I)
    (hne : oldAddress sRow ≠ newAddress sRow)
    (hown : entriesAt I (place top n f v) (oldAddress sRow) = [0])
    (hfree : entriesAt I (place top n f v) (newAddress sRow) = []) :
    ∃ I', applyIndexAt subs .commitCmd I (Transaction.replaceItem top tableid
        n f sRow v) = some I' ∧ MadeFor f I' ∧
      Moves I I' (place top n f v) (oldAddress sRow) (replaced sRow v) := by
  cases hn : v.isnull with
  | true =>
      have hb := replaceNull_becomes (I (Transaction.nullEngineid top n))
        (oldAddress sRow) (replaced sRow v)
      refine ⟨_, ?_, hmade.update hb.same, ?_⟩
      · simp [Transaction.replaceItem, hn, applyIndexAt, replaced, oldAddress,
          SubTransaction.applyIndex, SubTransaction.applyReplace]
      · rw [place_null hn]
        refine Puts.moves fun p r => (hb.puts_null p r).trans ?_
        simp only [entriesAt_none]
        by_cases hr : r = replaced sRow v
        · simp [hr]
        · by_cases hr' : r = oldAddress sRow
          · simp [hr']
          · simp only [hr, hr', ne_eq, not_false_eq_true, true_and, false_or,
              if_false]
  | false =>
      obtain ⟨e, key, hplace, he, htrim, hnull, hft⟩ :=
        place_some top n hf hmade hn
      rw [hplace] at hown hfree ⊢
      have hown : entriesOf (I e) key (oldAddress sRow) = [0] := hown
      have hfree : entriesOf (I e) key (newAddress sRow) = [] := hfree
      have hto : replaced sRow v = newAddress sRow := by
        rw [replaced, hn]
        rfl
      rw [hto]
      cases hu : f.indextype.isunique with
      | true =>
          obtain ⟨m, q, hon⟩ := uniqueOn_of_made (hmade e) hu hf.type
          obtain ⟨i', h1, hb⟩ := replaceUnique_becomes hon hft
            (newAddress sRow)
          rw [htrim] at hb
          refine ⟨Function.update I e i', ?_, hmade.update hb.same,
            Puts.moves (hb.puts fun k r => ?_)⟩
          · simp only [Transaction.replaceItem, hn, he]
            refine applyIndexAt_eq ?_
            simp only [SubTransaction.applyIndex, SubTransaction.applyReplace,
              hnull, hft, hon.unique]
            exact h1
          · by_cases hk : k = key
            · subst hk
              simp only [if_true]
              split
              · rfl
              · split
                · rfl
                · next hr =>
                    refine (entriesOf_other hon ?_ hr).symm
                    rw [hown]
                    simp
            · simp only [hk, if_false]
      | false =>
          obtain ⟨m, hon⟩ :=
            nonuniqueOn_of_made (hmade e) hf.index hu hf.type
          obtain ⟨i', h1, hb⟩ := replaceNonunique_becomes hon hft hne
          rw [htrim] at hb
          refine ⟨Function.update I e i', ?_, hmade.update hb.same,
            Puts.moves (hb.puts fun k r => ?_)⟩
          · simp only [Transaction.replaceItem, hn, he]
            refine applyIndexAt_eq ?_
            simp only [SubTransaction.applyIndex, SubTransaction.applyReplace,
              hnull, hft, hon.unique]
            exact h1
          · by_cases hk : k = key
            · subst hk
              simp only [true_and, if_true, hown]
              by_cases hr : r = newAddress sRow
              · subst hr
                simp [Ne.symm hne, hfree]
              · simp only [hr, if_false, List.append_nil]
                rfl
            · simp only [hk, false_and, if_false, List.append_nil]

/-! ## What was staged

Before the commit the update has staged the new values of the unique fields
that it changed, each under the address the row will have. -/

/-- What the statement left of a field's indexes, the reply to `UNIQUEINDEX`
having been `INDEXLOCK`. -/
def StagedFor (top : Topology) (subs : Int → Int) (f : Field)
    (row : NonLockingIndexEntry) (original new : FieldValue)
    (I₀ I : Int → Index) : Prop :=
  if f.indextype.isunique && Transaction.changed original new &&
      !new.isnull then
    let val := Transaction.trimField f new
    let e := Transaction.getEngineid top f val
    ∃ queueEntry val' i',
      queueEntry.entry = ⟨row.rowid, row.engineid, subs e⟩ ∧
      (I₀ e).uniqueIndex queueEntry val = some (.indexLock, val', i') ∧
      I = Function.update I₀ e i'
  else I = I₀

/-- One `UNIQUEINDEX` that was answered with `INDEXLOCK`: nothing was there,
and now the subtransaction's entry is. -/
theorem uniqueIndex_sets {top : Topology} {subs : Int → Int} (n : Nat)
    {f : Field} {row : NonLockingIndexEntry} {v val' : FieldValue} {e : Int}
    {queueEntry : LockQueueIndexEntry} {I₀ : Int → Index} {i' : Index}
    (hf : Indexed f) (hmade : MadeFor f I₀)
    (hu : f.indextype.isunique = true) (hn : v.isnull = false)
    (he : Transaction.getEngineid top f (Transaction.trimField f v) = e)
    (hentry : queueEntry.entry = ⟨row.rowid, row.engineid, subs e⟩)
    (hreply : (I₀ e).uniqueIndex queueEntry (Transaction.trimField f v) =
      some (.indexLock, val', i')) :
    MadeFor f (Function.update I₀ e i') ∧
      (∀ r, entriesAt I₀ (place top n f v) r = []) ∧
      Sets I₀ (Function.update I₀ e i') (place top n f v) row
        [subs (place top n f v).1] := by
  obtain ⟨e', key, hplace, he', htrim, hnull, hft⟩ :=
    place_some top n hf hmade hn
  obtain rfl : e' = e := he'.symm.trans he
  obtain ⟨m, q, hon⟩ := uniqueOn_of_made (hmade e') hu hf.type
  obtain ⟨_, _, _, heq⟩ := uniqueIndex_eq queueEntry hon hft
  have hkey : stageKey (I₀ e').indexmaptype key = key := by
    unfold stageKey
    split
    · rfl
    · exact htrim
  rw [heq, hkey] at hreply
  obtain ⟨⟨lt, i₁⟩, hstage, hout⟩ := Option.map_eq_some_iff.mp hreply
  obtain ⟨rfl, -, rfl⟩ : lt = .indexLock ∧ _ ∧ i₁ = i' := by
    simpa using hout
  obtain ⟨lt, i₂, h1, hsame, hon', hnulls, hcase⟩ := hon.stage key queueEntry
  obtain ⟨rfl, rfl⟩ : lt = .indexLock ∧ i₂ = i₁ := by
    simpa using h1.symm.trans hstage
  rcases hcase with ⟨-, hfree, hent⟩ | ⟨h, _⟩ | ⟨h, _⟩
  · have hfree' : ∀ r, entriesOf (I₀ e') key r = [] := by
      intro r
      rw [entriesOf_of_unique hon, hfree]
      rfl
    have hb : Becomes (I₀ e') i₂ (fun k r => if k = key then
        (if r = row then [subs e'] else []) else entriesOf (I₀ e') k r)
        (NullAt (I₀ e')) := by
      refine ⟨hsame, fun k r => ?_, fun r => by rw [NullAt, hnulls]; rfl⟩
      rw [entriesOf_of_unique hon', entriesOf_of_unique hon, hent]
      by_cases hk : k = key
      · rw [hk, Function.update_self, if_pos rfl, hentry]
        by_cases hr : r = row
        · subst hr
          simp [rowOf]
        · have hne : ¬ rowOf ⟨row.rowid, row.engineid, subs e'⟩ = r :=
            fun h => hr h.symm
          simp [hr, hne]
      · rw [Function.update_of_ne hk, if_neg hk]
    rw [hplace]
    refine ⟨hmade.update hsame, hfree', Puts.sets (hb.puts fun k r => ?_)⟩
    simp only [entriesAt, entriesIn, hfree']
  · exact absurd h (by simp)
  · exact absurd h (by simp)

theorem stagedFor_sets {top : Topology} {subs : Int → Int} (n : Nat)
    {f : Field} {row : NonLockingIndexEntry} {original new : FieldValue}
    {I₀ I : Int → Index} (hf : Indexed f) (hmade : MadeFor f I₀)
    (h : StagedFor top subs f row original new I₀ I)
    (hu : f.indextype.isunique = true)
    (hc : Transaction.changed original new = true)
    (hn : new.isnull = false) :
    MadeFor f I ∧ (∀ r, entriesAt I₀ (place top n f new) r = []) ∧
      Sets I₀ I (place top n f new) row [subs (place top n f new).1] := by
  rw [StagedFor, if_pos (by simp [hu, hc, hn])] at h
  obtain ⟨queueEntry, val', i', hentry, hreply, rfl⟩ := h
  exact uniqueIndex_sets n hf hmade hu hn rfl hentry hreply

theorem stagedFor_eq {top : Topology} {subs : Int → Int} {f : Field}
    {row : NonLockingIndexEntry} {original new : FieldValue}
    {I₀ I : Int → Index} (h : StagedFor top subs f row original new I₀ I)
    (hnot : ¬ (f.indextype.isunique = true ∧
      Transaction.changed original new = true ∧ new.isnull = false)) :
    I = I₀ := by
  rw [StagedFor, if_neg] at h
  · exact h
  · intro hs
    refine hnot ?_
    simpa [and_assoc] using hs

end Infinisql.Proofs
