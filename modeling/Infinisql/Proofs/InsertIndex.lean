import Infinisql.Ref.Insert
import Infinisql.Proofs.Routing
import Infinisql.Proofs.UpdateIndex

/-!
# Inserted rows and their index entries

An INSERT stages the values of the statement, and its commit commits the
values of the row. Between the two lies the row string. A field of any other
type comes back from it as it was, and so does a `VARCHAR`. A `CHARX` string
comes back padded, which does not matter because keys are trimmed, or cut,
which does: then the staged key is one and the committed key another. The
staged one stays locked, and the row has no entry.

The commit of a key that was never staged is not an error anywhere. It finds
nothing of its own under the key and leaves the index as it is.
-/

namespace Infinisql.Proofs

open Infinisql.Ref Infinisql.Lib

/-! ## A commit that finds nothing -/

theorem commitUnstaged {m : LockingMap} {q : LockQueueMap} {i : Index}
    {val : FieldValue} {key : Key} {s : Int} (h : UniqueOn m q i)
    (hkey : val.key i.fieldtype = some key)
    (hnot : ∀ r, s ∉ entriesOf i key r) :
    i.commitRollback key s .commitCmd = some i := by
  rw [commitRollback_commit h hkey, Index.commitEntry]
  rcases h.ifOwner key s fun e => some { e with subtransactionid := 0 } with
    ⟨e, he, hs, _⟩ | ⟨_, heq⟩
  · refine absurd ?_ (hnot (rowOf e))
    rw [entriesOf_of_unique h, he]
    simp [hs]
  · exact heq

/-- The item of a unique entry that was not staged: no entry changes. -/
theorem addItem_unstaged {top : Topology} {subs : Int → Int} (tableid : Int)
    (n : Nat) {f : Field} {I : Int → Index} {v : FieldValue}
    {row : NonLockingIndexEntry} (hf : Indexed f) (hmade : MadeFor f I)
    (hu : f.indextype.isunique = true) (hn : v.isnull = false)
    (hnot : ∀ r, subs (place top n f v).1 ∉ entriesAt I (place top n f v) r) :
    ∃ I', applyIndexAt subs .commitCmd I (Transaction.addItem top tableid n f
        row.rowid row.engineid v) = some I' ∧
      ∀ p r, entriesAt I' p r = entriesAt I p r := by
  obtain ⟨e, key, hplace, he, htrim, hnull, hft⟩ :=
    place_some top n hf hmade hn
  rw [hplace] at hnot
  obtain ⟨m, q, hon⟩ := uniqueOn_of_made (hmade e) hu hf.type
  have h1 := commitUnstaged hon hft hnot
  obtain ⟨i₂, h2, hb⟩ := drainIndexLockQueue_becomes hon hft
  have happ : SubTransaction.applyIndex (subs e) .commitCmd
      { tableid := tableid, fieldid := n
        fieldVal := Transaction.trimField f v } (I e) = some i₂ := by
    simp [SubTransaction.applyIndex, SubTransaction.applyStaged, hnull, hft,
      h1, h2]
  refine ⟨Function.update I e i₂, ?_, fun p r => ?_⟩
  · simp only [Transaction.addItem, hn, hu, he]
    exact applyIndexAt_eq happ
  · have hputs := hb.puts (f := fun r => entriesOf (I e) key r) fun k r => by
      split
      · next hk => rw [hk]
      · rfl
    rw [hputs p r]
    split
    · next hp => rw [hp]; rfl
    · rfl

/-! ## One field of an insert -/

/-- The transaction has nothing staged in the field's indexes. -/
def NoneStaged (subs : Int → Int) (I : Int → Index) : Prop :=
  ∀ p r, subs p.1 ∉ entriesAt I p r

/-- What the statement left of a field's indexes: the entry of a value that
is unique and not null, and nothing of any other. -/
def InsertStaged (top : Topology) (subs : Int → Int) (f : Field)
    (row : NonLockingIndexEntry) (v : FieldValue) (I₀ I : Int → Index) :
    Prop :=
  if f.indextype.isunique && !v.isnull then
    let val := Transaction.trimField f v
    let e := Transaction.getEngineid top f val
    ∃ queueEntry val' i',
      queueEntry.entry = ⟨row.rowid, row.engineid, subs e⟩ ∧
      (I₀ e).uniqueIndex queueEntry val = some (.indexLock, val', i') ∧
      I = Function.update I₀ e i'
  else I = I₀

variable {top : Topology} {subs : Int → Int} {tableid : Int} {n : Nat}
  {f : Field} {row : NonLockingIndexEntry} {v w : FieldValue}
  {I₀ I : Int → Index}

/-- The entries of a unique field before the commit: what was staged. -/
theorem InsertStaged.entriesAt (hf : Indexed f) (hmade : MadeFor f I₀)
    (hfresh : ∀ p, entriesAt I₀ p row = [])
    (h : InsertStaged top subs f row v I₀ I)
    (hu : f.indextype.isunique = true) :
    MadeFor f I ∧ ∀ p r, Proofs.entriesAt I p r =
      if v.isnull = false ∧ p = place top n f v ∧ r = row then [subs p.1]
      else Proofs.entriesAt I₀ p r := by
  cases hn : v.isnull with
  | true =>
      rw [InsertStaged, if_neg (by simp [hn])] at h
      subst h
      exact ⟨hmade, by simp⟩
  | false =>
      rw [InsertStaged, if_pos (by simp [hu, hn])] at h
      obtain ⟨queueEntry, val', i', hentry, hreply, rfl⟩ := h
      obtain ⟨h1, _, h3⟩ :=
        uniqueIndex_sets n hf hmade hu hn rfl hentry hreply
      refine ⟨h1, fun p r => (h3 p r).trans ?_⟩
      by_cases hp : p = place top n f v ∧ r = row
      · rw [if_pos hp, if_pos ⟨rfl, hp⟩, hp.1]
      · rw [if_neg hp, if_neg fun h => hp h.2]

/-- A value has the place of a null only if it is one. -/
theorem isnull_of_place_eq (hf : Indexed f)
    (h : place top n f v = place top n f w) : v.isnull = w.isnull := by
  have hsome := fun x : FieldValue => place_isSome top n x hf
  have h2 : (place top n f v).2.isSome = (place top n f w).2.isSome := by
    rw [h]
  rw [hsome, hsome] at h2
  simpa using h2

/-- What an add leaves, where nothing else of the transaction is staged. -/
theorem agrees_of_sets {I' : Int → Index} {p : Place} (hzero : ∀ e, subs e ≠ 0)
    (hsets : Sets I I' p row [0])
    (hother : ∀ p' r, ¬ (p' = p ∧ r = row) →
      entriesAt I p' r = entriesAt I₀ p' r)
    (hfresh : ∀ p, entriesAt I₀ p row = []) (hnone : NoneStaged subs I₀) :
    Agrees I' row p ∧ NoneStaged subs I' := by
  refine ⟨fun p' => ?_, fun p' r => ?_⟩
  · rw [hsets]
    by_cases hp : p' = p
    · rw [if_pos ⟨hp, rfl⟩, if_pos hp]
    · rw [if_neg fun h => hp h.1, if_neg hp, hother p' row fun h => hp h.1,
        hfresh]
  · rw [hsets]
    by_cases hp : p' = p ∧ r = row
    · rw [if_pos hp, List.mem_singleton]
      exact hzero p'.1
    · rw [if_neg hp, hother p' r hp]
      exact hnone p' r

/-- The outcome for one field is right exactly if the field is not unique, or
the row's value `w` has the place of the statement's value `v`. -/
theorem addItem_insert_iff (tableid : Int) (w : FieldValue) (hf : Indexed f)
    (hmade : MadeFor f I₀) (hzero : ∀ e, subs e ≠ 0)
    (hfresh : ∀ p, entriesAt I₀ p row = []) (hnone : NoneStaged subs I₀)
    (hstaged : InsertStaged top subs f row v I₀ I) :
    ∃ I', applyIndexAt subs .commitCmd I (Transaction.addItem top tableid n f
        row.rowid row.engineid w) = some I' ∧
      (Agrees I' row (place top n f w) ∧ NoneStaged subs I' ↔
        (f.indextype.isunique = true → place top n f v = place top n f w)) := by
  cases hu : f.indextype.isunique with
  | false =>
      rw [InsertStaged, if_neg (by simp [hu])] at hstaged
      subst hstaged
      obtain ⟨I', h1, _, h3⟩ := @addItem_sets top subs tableid n f I w row
        hf hmade fun _ h => absurd (hu.symm.trans h) (by simp)
      rw [hfresh, added_nil] at h3
      exact ⟨I', h1, iff_of_true (agrees_of_sets hzero h3
        (fun _ _ _ => rfl) hfresh hnone) (by simp)⟩
  | true =>
  obtain ⟨hmadeI, hent⟩ := hstaged.entriesAt (n := n) hf hmade hfresh hu
  simp only [forall_const]
  by_cases hp : place top n f v = place top n f w
  · have hnull := isnull_of_place_eq hf hp
    obtain ⟨I', h1, _, h3⟩ := @addItem_sets top subs tableid n f I w row
      hf hmadeI fun hw _ => by
        rw [hent, if_pos ⟨hnull.trans hw, hp.symm, rfl⟩]
    have hadded : ∀ es, added f w es = [0] := by
      intro es
      rw [added, hu, Bool.or_true, if_pos rfl]
    rw [hadded] at h3
    refine ⟨I', h1, iff_of_true (agrees_of_sets hzero h3 ?_ hfresh hnone) hp⟩
    intro p r hpr
    rw [hent, if_neg]
    rintro ⟨_, h, hr⟩
    exact hpr ⟨h.trans hp, hr⟩
  · cases hw : w.isnull with
    | true =>
        -- The row's value is a null, so the statement's was not.
        obtain ⟨I', h1, _, h3⟩ := @addItem_sets top subs tableid n f I w row
          hf hmadeI fun h => absurd (hw.symm.trans h) (by simp)
        have hv : v.isnull = false := by
          cases hv : v.isnull with
          | false => rfl
          | true => exact absurd ((place_null hv).trans (place_null hw).symm) hp
        refine ⟨I', h1, iff_of_false (fun h => ?_) hp⟩
        have h4 := h.1 (place top n f v)
        rw [h3, if_neg fun h => hp h.1, hent, if_pos ⟨hv, rfl, rfl⟩,
          if_neg hp] at h4
        exact absurd h4 (by simp)
    | false =>
        have hold : ∀ r, entriesAt I (place top n f w) r =
            entriesAt I₀ (place top n f w) r := by
          intro r
          rw [hent, if_neg]
          rintro ⟨_, h, _⟩
          exact hp h.symm
        obtain ⟨I', h1, h2⟩ := @addItem_unstaged top subs tableid n f I w
          row hf hmadeI hu hw fun r => by
            rw [hold]
            exact hnone _ r
        refine ⟨I', h1, iff_of_false (fun h => ?_) hp⟩
        have h4 := h.1 (place top n f w)
        rw [h2, hold, hfresh, if_pos rfl] at h4
        exact absurd h4 (by simp)

/-! ## The messages of the statement -/

/-- One partition is replaced by one with the same rows. -/
theorem sameRows_withTable {c : Cluster} {e : Int} {p p' : Partition}
    (hp : (c e).tables tableid = some p) (hstore : p'.store = p.store) :
    SameRows c (Function.update c e (withTable (c e) tableid p')) := by
  refine ⟨fun t e' => ?_, fun e' => ?_⟩
  · by_cases he : e' = e
    · subst he
      by_cases ht : t = tableid
      · subst ht
        rw [storeAt, storeAt, Function.update_self, hp]
        simp [withTable, hstore]
      · simp [storeAt, withTable, Function.update_of_ne ht]
    · rw [storeAt, storeAt, Function.update_of_ne he]
  · by_cases he : e' = e
    · subst he
      rw [Function.update_self]
      rfl
    · rw [Function.update_of_ne he]

/-- One `UNIQUEINDEX`, as the fields' indexes see it. -/
theorem uniqueIndex_indexAt {c : Cluster} {s e rowid engineid pendingcmdid
    tacmdentrypoint : Int} {locktype : Locktype} {engine : Engine}
    {val : FieldValue}
    (h : SubTransaction.uniqueIndex s (c e) tableid n rowid engineid
      pendingcmdid tacmdentrypoint val = some (locktype, engine)) :
    SameRows c (Function.update c e engine) ∧ ∃ queueEntry val' i',
      queueEntry.entry = ⟨rowid, engineid, s⟩ ∧
      (indexAt c tableid n e).uniqueIndex queueEntry val =
        some (locktype, val', i') ∧
      ∀ m, indexAt (Function.update c e engine) tableid m =
        if m = n then Function.update (indexAt c tableid n) e i'
        else indexAt c tableid m := by
  rw [SubTransaction.uniqueIndex] at h
  split at h
  · exact absurd h (by simp)
  · next p hp =>
  dsimp only at h
  split at h
  · exact absurd h (by simp)
  · next lt val' i' hreply =>
  injection h with h
  injection h with hlt hengine
  subst hlt
  have hengine' : engine = withTable (c e) tableid
      { p with index := Function.update p.index n i' } := hengine.symm
  rw [hengine']
  refine ⟨sameRows_withTable hp rfl,
    { pendingcmdid := pendingcmdid, tacmdentrypoint := tacmdentrypoint
      entry := ⟨rowid, engineid, s⟩ }, val', i', rfl, ?_, fun m => ?_⟩
  · rw [indexAt, hp]
    exact hreply
  · rw [indexAt_withTable, if_pos rfl]
    by_cases hm : m = n
    · subst hm
      rw [if_pos rfl]
      congr 1
      exact Function.update_self ..
    · have hsame : Function.update p.index n i' m =
          indexAt c tableid m e := by
        rw [Function.update_of_ne hm, indexAt, hp]
      rw [if_neg hm]
      dsimp only
      rw [hsame, Function.update_eq_self]

/-- All of them, answered with `INDEXLOCK`: each field has its own staged. -/
theorem stageUnique_indexAt {rowid engineid pendingcmdid : Int}
    {uniqueIndices : List (Nat × LockFieldValue)} :
    ∀ {c c' : Cluster} {locktypes : List Locktype},
      (uniqueIndices.map Prod.fst).Nodup →
      Statement.stageUnique subs tableid rowid engineid pendingcmdid
        uniqueIndices c = some (locktypes, c') →
      Statement.stagingStatus locktypes = .ok →
      SameRows c c' ∧
      (∀ m, m ∉ uniqueIndices.map Prod.fst →
        indexAt c' tableid m = indexAt c tableid m) ∧
      ∀ m val, (m, val) ∈ uniqueIndices → ∃ queueEntry val' i',
        queueEntry.entry = ⟨rowid, engineid, subs val.engineid⟩ ∧
        (indexAt c tableid m val.engineid).uniqueIndex queueEntry
          val.fieldVal = some (.indexLock, val', i') ∧
        indexAt c' tableid m =
          Function.update (indexAt c tableid m) val.engineid i' := by
  induction uniqueIndices with
  | nil =>
      intro c c' locktypes _ h _
      injection h with h
      injection h with _ h
      subst h
      exact ⟨.refl c, fun _ _ => rfl, by simp⟩
  | cons head rest ih =>
      intro c c' locktypes hnd h hok
      obtain ⟨n, lockFieldValue⟩ := head
      rw [List.map_cons, List.nodup_cons] at hnd
      rw [Statement.stageUnique] at h
      dsimp only at h
      split at h
      · exact absurd h (by simp)
      · next locktype engine h1 =>
      obtain ⟨⟨locktypes', c''⟩, h2, h3⟩ := Option.map_eq_some_iff.mp h
      injection h3 with h3 h4
      subst h4
      obtain ⟨rfl, hok'⟩ : locktype = .indexLock ∧
          Statement.stagingStatus locktypes' = .ok := by
        rw [← h3] at hok
        cases locktype <;> simp_all [Statement.stagingStatus]
      obtain ⟨hrows₁, queueEntry, val', i', hentry, hreply, hindex₁⟩ :=
        uniqueIndex_indexAt h1
      obtain ⟨hrows, hother, hmine⟩ := ih hnd.2 h2 hok'
      refine ⟨hrows₁.trans hrows, fun m hm => ?_, fun m val hm => ?_⟩
      · rw [List.map_cons, List.mem_cons, not_or] at hm
        rw [hother m hm.2, hindex₁, if_neg hm.1]
      · rcases List.mem_cons.mp hm with heq | hm'
        · injection heq with hmn hval
          subst hmn hval
          refine ⟨queueEntry, val', i', hentry, hreply, ?_⟩
          rw [hother m hnd.1, hindex₁, if_pos rfl]
        · have hne : m ≠ n := by
            rintro rfl
            exact hnd.1 (List.mem_map.mpr ⟨_, hm', rfl⟩)
          obtain ⟨queueEntry, val', i', h5, h6, h7⟩ := hmine m val hm'
          rw [hindex₁, if_neg hne] at h6 h7
          exact ⟨queueEntry, val', i', h5, h6, h7⟩
/-! ## What the row keeps of a value -/

theorem trimspace_append_spaces (s : Bytes) (k : Nat) :
    trimspace (s ++ List.replicate k space) = trimspace s := by
  induction k with
  | zero => rw [List.replicate_zero, List.append_nil]
  | succ k ih =>
      rw [List.replicate_succ', ← List.append_assoc, trimspace,
        List.rdropWhile_concat_pos _ _ _ (by simp)]
      exact ih

/-- A cut that leaves the trimmed string whole is not seen after trimming. -/
theorem trimspace_take {k : Nat} (s : Bytes) :
    (trimspace s).length ≤ k → trimspace (s.take k) = trimspace s := by
  induction s using List.reverseRecOn with
  | nil => intro _; rw [List.take_nil]
  | append_singleton s b ih =>
      intro h
      by_cases hk : (s ++ [b]).length ≤ k
      · rw [List.take_of_length_le hk]
      · rw [List.length_append, List.length_singleton] at hk
        by_cases hb : b = space
        · have htrim : trimspace (s ++ [b]) = trimspace s :=
            List.rdropWhile_concat_pos _ _ _ (by simp [hb])
          rw [htrim] at h ⊢
          rw [List.take_append_of_le_length (by omega)]
          exact ih h
        · have htrim : trimspace (s ++ [b]) = s ++ [b] :=
            List.rdropWhile_concat_neg _ _ _ (by simp [hb])
          rw [htrim, List.length_append, List.length_singleton] at h
          omega

/-- A `CHARX` string as the row has it, trimmed, is the value trimmed exactly
if that is no longer than the field. -/
theorem trimspace_fieldbytes_iff (hf : f.type = .charx) :
    trimspace (fieldbytes f v) = trimspace v.str ↔
      (trimspace v.str).length ≤ f.length := by
  constructor
  · intro h
    rw [← h]
    refine Nat.le_trans (List.rdropWhile_prefix _ _).length_le ?_
    rw [length_fieldbytes_charx hf]
  · intro h
    rw [fieldbytes, hf]
    dsimp only
    rw [trimspace_take _ (by rw [trimspace_append_spaces]; exact h),
      trimspace_append_spaces]

/-- A value of any other type has the key of its copy in the row. -/
theorem key_stored (hv : v.isnull = false) (hf : f.type ≠ .charx) :
    (stored f v).key f.type = v.key f.type := by
  rw [stored, hv, if_neg (by simp)]
  cases ht : f.type with
  | charx => exact absurd ht hf
  | float =>
      have hsign : (FieldInput.ofBytes (v.value.toBytes 16)).getLsbD 79 =
          v.value.getLsbD 79 := getLsbD_ofBytes_toBytes v.value (by omega)
      simp only [FieldValue.key, FieldInput.floating, hsign,
        extractLsb'_ofBytes_toBytes v.value (show 0 + 64 ≤ 8 * 16 by omega),
        extractLsb'_ofBytes_toBytes v.value (show 64 + 15 ≤ 8 * 16 by omega)]
  | int =>
      simp only [FieldValue.key, FieldInput.integer,
        setWidth_ofBytes_toBytes v.value (show 64 ≤ 8 * 8 by omega)]
  | uint =>
      simp only [FieldValue.key, FieldInput.uinteger,
        setWidth_ofBytes_toBytes v.value (show 64 ≤ 8 * 8 by omega)]
  | bool =>
      simp only [FieldValue.key, FieldInput.boolean,
        setWidth_ofBytes_toBytes v.value (show 8 ≤ 8 * 1 by omega)]
  | char =>
      simp only [FieldValue.key, FieldInput.character,
        setWidth_ofBytes_toBytes v.value (show 8 ≤ 8 * 1 by omega)]
  | varchar => rfl
  | nofieldtype => rfl

/-- The place of a value that is not null, spelled out for each kind. -/
theorem place_eq (hv : v.isnull = false) :
    place top n f v =
      (Transaction.getEngineid top f (Transaction.trimField f v),
        (Transaction.trimField f v).key f.type) := by
  rw [place, if_neg (by simp [hv])]

/-- The statement's value and the row's copy of it have one place, unless the
string was cut. -/
theorem place_stored_iff (hv : v.isnull = false) :
    place top n f v = place top n f (stored f v) ↔
      (f.type = .charx → (trimspace v.str).length ≤ f.length) := by
  have hs : (stored f v).isnull = false := (stored_isnull f v).trans hv
  rw [place_eq hv, place_eq hs]
  by_cases hf : f.type = .charx
  · have hstr : (stored f v).str = fieldbytes f v := by
      rw [stored, hv, if_neg (by simp), hf]
    have hkey : ∀ w : FieldValue, (Transaction.trimField f w).key f.type =
        some (.str (trimspace w.str)) := by
      intro w
      rw [Transaction.trimField, hf]
      rfl
    rw [hkey, hkey, hstr, ← trimspace_fieldbytes_iff hf]
    constructor
    · intro h _
      injection h with _ h
      injection h with h
      injection h with h
      exact h.symm
    · intro h
      have h := h hf
      obtain ⟨_, h1⟩ := hashed_trimField (.inl hf) v
      obtain ⟨_, h2⟩ := hashed_trimField (.inl hf) (stored f v)
      rw [getEngineid_congr (h1.trans (h.symm.trans (hstr ▸ h2.symm))), h]
  · refine iff_of_true ?_ fun h => absurd h hf
    by_cases hvar : f.type = .varchar
    · have hsame : Transaction.trimField f (stored f v) =
          { str := trimspace v.str } := by
        rw [Transaction.trimField, stored, hv, if_neg (by simp), hvar]
        rfl
      rw [getEngineid_congr (v := Transaction.trimField f v)
        (w := Transaction.trimField f (stored f v))]
      · rw [hsame, Transaction.trimField, hvar]
        rfl
      · obtain ⟨_, h1⟩ := hashed_trimField (.inr hvar) v
        obtain ⟨_, h2⟩ := hashed_trimField (.inr hvar) (stored f v)
        rw [h1, h2, stored, hv, if_neg (by simp), hvar]
    · rw [trimField_of_not_string ⟨hf, hvar⟩, trimField_of_not_string ⟨hf, hvar⟩,
        key_stored hv hf]
      refine congrArg (·, v.key f.type) (getEngineid_congr ?_)
      refine (hashed_stored_of_routed hv ?_).symm
      rw [Routed]
      split
      · next h => exact absurd h hf
      · next h => exact absurd h hvar
      · trivial
/-- The null byte of field `n` is the last byte of the row string: the field
is the last one, and `makerow` had no zeros to add. -/
def NullAtEnd (fields : List Field) (vs : List FieldValue) (n : Nat) : Prop :=
  n + 1 = fields.length ∧
    makerow fields vs = some (List.zipWith makefield fields vs).flatten

/-- The statement's value and the value of the row share their place: a null
is not the end of the row, and a `CHARX` string is trimmed no longer than its
field. -/
def KeyKept (fields : List Field) (vs : List FieldValue) (n : Nat) (f : Field)
    (v : FieldValue) : Prop :=
  if v.isnull then ¬ NullAtEnd fields vs n
  else f.type = .charx → (trimspace v.str).length ≤ f.length

theorem nullAtEnd_iff {fields : List Field} {vs : List FieldValue}
    {row : Bytes} (hrow : makerow fields vs = some row)
    (hf : fields[n]? = some f) (hv : vs[n]? = some v)
    (hnull : v.isnull = true) :
    NullAtEnd fields vs n ↔ row.length ≤ fieldOffset fields vs n + 1 := by
  obtain ⟨hlen, ⟨tail, heq⟩, _⟩ := makerow_eq_some hrow
  have hget : (List.zipWith makefield fields vs)[n]? = some [1] := by
    rw [List.getElem?_zipWith, hf, hv]
    show some (makefield f v) = _
    rw [makefield, if_pos hnull]
  obtain ⟨hn, hget⟩ := List.getElem?_eq_some_iff.mp hget
  have hcount : (List.zipWith makefield fields vs).length = fields.length := by
    rw [List.length_zipWith, ← hlen, Nat.min_self]
  have hsplit : (List.zipWith makefield fields vs).flatten.length =
      fieldOffset fields vs n + 1 +
        ((List.zipWith makefield fields vs).drop (n + 1)).flatten.length := by
    conv_lhs => rw [← List.take_append_drop n (List.zipWith makefield fields vs),
      List.drop_eq_getElem_cons hn, hget]
    rw [List.flatten_append, List.flatten_cons, List.length_append,
      List.length_append, fieldOffset, List.length_singleton]
    omega
  rw [NullAtEnd, hrow, Option.some.injEq, heq, List.length_append]
  constructor
  · rintro ⟨hlast, htail⟩
    have hzero : tail = [] := List.append_right_eq_self.mp htail
    rw [hsplit, List.drop_of_length_le (by omega), hzero]
    simp
  · intro h
    have htail : tail = [] := List.eq_nil_of_length_eq_zero (by omega)
    refine ⟨?_, by rw [htail, List.append_nil]⟩
    by_contra hne
    have hn' : n + 1 < (List.zipWith makefield fields vs).length := by omega
    rw [List.drop_eq_getElem_cons hn', List.flatten_cons, List.length_append,
      List.getElem_zipWith] at hsplit
    have := length_makefield_pos fields[n + 1] vs[n + 1]
    omega

/-- What `KeyKept` is for. -/
theorem place_valueOf_iff {fields : List Field} {vs : List FieldValue}
    {row : Bytes} (hrow : makerow fields vs = some row)
    (hsize : ∀ v ∈ vs, v.str.length < 2 ^ 64)
    (hf : fields[n]? = some f) (hv : vs[n]? = some v) (hindexed : Indexed f) :
    place top n f v = place top n f (valueOf fields row n) ↔
      KeyKept fields vs n f v := by
  rw [KeyKept]
  cases hnull : v.isnull with
  | false =>
      have htold : Told f v := fun h => absurd (hnull.symm.trans h) (by simp)
      rw [if_neg (by simp), valueOf_makerow hrow hsize hf hv htold]
      exact place_stored_iff hnull
  | true =>
      rw [if_pos rfl, nullAtEnd_iff hrow hf hv hnull,
        valueOf_makerow_eq hrow hsize hf hv]
      split
      · next hend =>
          refine iff_of_false (fun h => ?_) (fun h => h hend)
          have h := isnull_of_place_eq hindexed h
          rw [hnull] at h
          exact absurd h (by simp)
      · next hend =>
          refine iff_of_true ?_ hend
          rw [place_null hnull, place_null ((stored_isnull f v).trans hnull)]
/-! ## The statement -/

/-- `NEWROW`: the indexes are as they were, and the row is there, held. -/
theorem newrow_held {c : Cluster} {s e rowid : Int} {row : Bytes}
    {engine : Engine} (ht : HasTable c tableid)
    (h : SubTransaction.newrow s (c e) tableid row = some (rowid, engine)) :
    HasTable (Function.update c e engine) tableid ∧
      (∀ m, indexAt (Function.update c e engine) tableid m =
        indexAt c tableid m) ∧
      ∃ t a, storeAt (Function.update c e engine) tableid e = some t ∧
        t.rows rowid = some a ∧ Table.writeLockedBy (t.heap a) s = true ∧
        getdeleteflag (t.heap a).flags = false := by
  rw [SubTransaction.newrow] at h
  split at h
  · exact absurd h (by simp)
  · next p hp =>
  injection h with h
  injection h with hrowid hengine
  subst hrowid
  let t' := p.store.getnextrowid.2.newrow p.store.getnextrowid.1 s row
  have hengine : engine = withTable (c e) tableid { p with store := t' } :=
    hengine.symm
  rw [hengine]
  refine ⟨fun e' => ?_, fun m => ?_, t', p.store.nextAddr, ?_, ?_, ?_, ?_⟩
  · by_cases he : e' = e
    · subst he
      rw [Function.update_self]
      exact ⟨{ p with store := t' },
        by simp only [withTable, Function.update_self]⟩
    · rw [Function.update_of_ne he]
      exact ht e'
  · have hsame : p.index m = indexAt c tableid m e := by rw [indexAt, hp]
    rw [indexAt_withTable, if_pos rfl]
    dsimp only
    rw [hsame, Function.update_eq_self]
  · rw [storeAt, Function.update_self]
    simp only [withTable, Function.update_self]
    rfl
  · simp [t', Table.newrow, Table.getnextrowid]
  · simp [t', Table.newrow, Table.getnextrowid, Table.writeLockedBy]
  · simp [t', Table.newrow, Table.getnextrowid]

theorem trimField_trimField (f : Field) (v : FieldValue) :
    Transaction.trimField f (Transaction.trimField f v) =
      Transaction.trimField f v := by
  rw [Transaction.trimField, Transaction.trimField]
  cases f.type <;> simp [FieldValue.trim]

/-- The padding of the caller's vector goes again when the value is trimmed. -/
theorem trimField_padField (f : Field) (v : FieldValue) :
    Transaction.trimField f (Statement.padField f v) =
        Transaction.trimField f v ∧
      (Statement.padField f v).isnull = v.isnull := by
  rw [Statement.padField]
  split
  · next h =>
      rw [Bool.and_eq_true, decide_eq_true_eq] at h
      refine ⟨?_, rfl⟩
      rw [Transaction.trimField, Transaction.trimField, h.2]
      simp only [FieldValue.trim, trimspace_append_spaces]
  · exact ⟨rfl, rfl⟩

/-- The row is made of the values, and the vector that is left has them up to
trailing space. -/
theorem makeNewrow_values {fields : List Field} {values : List FieldValue}
    {new : Statement.Newrow}
    (h : Statement.makeNewrow top fields values = some new) :
    makerow fields values = some new.newrow ∧
      ∀ (n : Nat) (f : Field) (v : FieldValue), fields[n]? = some f →
        values[n]? = some v →
        ∃ w, new.insertValues[n]? = some w ∧ w.isnull = v.isnull ∧
          Transaction.trimField f w = Transaction.trimField f v := by
  rw [Statement.makeNewrow] at h
  split at h
  · next row f₀ v₀ hrow hf₀ hv₀ =>
      injection h with h
      subst h
      refine ⟨hrow, fun n f v hf hv => ?_⟩
      have hpad : (List.zipWith Statement.padField fields values)[n]? =
          some (Statement.padField f v) := by
        rw [List.getElem?_zipWith, hf, hv]
      obtain ⟨h1, h2⟩ := trimField_padField f v
      cases n with
      | zero =>
          rw [List.head?_eq_getElem?] at hf₀ hv₀
          obtain rfl := Option.some.inj (hf₀.symm.trans hf)
          obtain rfl := Option.some.inj (hv₀.symm.trans hpad)
          refine ⟨_, rfl, ?_, ?_⟩
          · exact (trimField_isnull f₀ _).trans h2
          · exact (trimField_trimField f₀ _).trans h1
      | succ n =>
          refine ⟨Statement.padField f v, ?_, h2, h1⟩
          rw [List.getElem?_cons_succ, List.getElem?_tail, hpad]
  · exact absurd h (by simp)

/-- The unique entries that are staged, field by field. -/
theorem mem_uniqueValues {fields : List Field} {vs : List FieldValue}
    {val : LockFieldValue} :
    (n, val) ∈ Statement.uniqueValues top fields vs ↔
      ∃ f v, fields[n]? = some f ∧ vs[n]? = some v ∧
        f.indextype.isunique = true ∧ v.isnull = false ∧
        val = { locktype := .indexLock
                engineid := Transaction.getEngineid top f
                  (Transaction.trimField f v)
                fieldVal := Transaction.trimField f v } := by
  rw [Statement.uniqueValues, List.mem_filterMap]
  constructor
  · rintro ⟨m, _, h⟩
    split at h
    · next f v hf hv =>
        split at h
        · next hu =>
            rw [Bool.and_eq_true, Bool.not_eq_true'] at hu
            injection h with h
            injection h with hm hval
            subst hm
            exact ⟨f, v, hf, hv, hu.1, hu.2, hval.symm⟩
        · exact absurd h (by simp)
    · exact absurd h (by simp)
  · rintro ⟨f, v, hf, hv, hu, hnull, rfl⟩
    refine ⟨n, List.mem_range.mpr (List.getElem?_eq_some_iff.mp hf).1, ?_⟩
    rw [hf, hv]
    dsimp only
    rw [if_pos (by simp [hu, hnull])]
    rfl

/-- The entry of one field, if it is staged. -/
def uniqueValue (top : Topology) (fields : List Field) (vs : List FieldValue)
    (n : Nat) : Option (Nat × LockFieldValue) :=
  match fields[n]?, vs[n]? with
  | some f, some v =>
      if f.indextype.isunique && !v.isnull then
        some (n, { locktype := .indexLock
                   engineid := (Transaction.getengine top f v).1
                   fieldVal := (Transaction.getengine top f v).2 })
      else none
  | _, _ => none

theorem uniqueValues_eq (fields : List Field) (vs : List FieldValue) :
    Statement.uniqueValues top fields vs =
      (List.range fields.length).filterMap (uniqueValue top fields vs) := rfl

theorem uniqueValue_fst {fields : List Field} {vs : List FieldValue} {m : Nat}
    (h : n ∈ (uniqueValue top fields vs m).map Prod.fst) : m = n := by
  unfold uniqueValue at h
  split at h
  · split at h
    · exact Option.some.inj h
    · exact absurd h (by simp)
  · exact absurd h (by simp)

theorem uniqueValues_nodup (fields : List Field) (vs : List FieldValue) :
    ((Statement.uniqueValues top fields vs).map Prod.fst).Nodup := by
  rw [uniqueValues_eq, List.map_filterMap]
  refine List.Nodup.filterMap (fun m m' n h h' => ?_) List.nodup_range
  exact (uniqueValue_fst h).trans (uniqueValue_fst h').symm

/-- An INSERT that succeeded: its row is there and held, and each indexed
field has its own staged. -/
structure InsertDone (top : Topology) (fields : List Field)
    (subs : Int → Int) (tableid : Int) (values : List FieldValue)
    (c₀ : Cluster) (ins : Statement.Inserted) : Prop where
  cmd : ins.sRow.cmd = .insert
  uur : ins.uur.tableid = tableid
  newRow : makerow fields values = some ins.sRow.newRow
  table : HasTable ins.cluster tableid
  held : Held ins.cluster subs tableid ⟨ins.uur.rowid, ins.uur.engineid⟩ false
  staged : ∀ (n : Nat) (f : Field) (v : FieldValue), fields[n]? = some f →
    values[n]? = some v →
    InsertStaged top subs f ⟨ins.uur.rowid, ins.uur.engineid⟩ v
      (indexAt c₀ tableid n) (indexAt ins.cluster tableid n)

theorem insertDone {fields : List Field} {values : List FieldValue}
    {pendingcmdid : Int} {c₀ : Cluster} {ins : Statement.Inserted}
    (ht : HasTable c₀ tableid)
    (hins : Statement.insert top fields subs tableid pendingcmdid values c₀ =
      some ins) (hok : ins.status = .ok) :
    InsertDone top fields subs tableid values c₀ ins := by
  rw [Statement.insert] at hins
  split at hins
  · exact absurd hins (by simp)
  · next new hnew =>
  dsimp only at hins
  split at hins
  · exact absurd hins (by simp)
  · next rowid engine hrow =>
  obtain ⟨⟨locktypes, c'⟩, hstage, heq⟩ := Option.map_eq_some_iff.mp hins
  subst heq
  obtain ⟨hnewRow, hvalues⟩ := makeNewrow_values hnew
  obtain ⟨ht₁, hindex₁, t, a, hstore, ha, hw, hd⟩ := newrow_held ht hrow
  obtain ⟨hrows, hother, hmine⟩ :=
    stageUnique_indexAt (uniqueValues_nodup fields new.insertValues) hstage hok
  refine ⟨rfl, rfl, hnewRow, hrows.hasTable ht₁,
    ⟨t, a, ?_, ha, hw, hd⟩, fun n f v hf hv => ?_⟩
  · exact (hrows.store tableid new.newrowengineid).trans hstore
  · obtain ⟨w, hget, hnull, htrim⟩ := hvalues n f v hf hv
    rw [InsertStaged]
    split
    · next hu =>
        rw [Bool.and_eq_true, Bool.not_eq_true'] at hu
        obtain ⟨queueEntry, val', i', h1, h2, h3⟩ := hmine n
          { locktype := .indexLock
            engineid := Transaction.getEngineid top f
              (Transaction.trimField f w)
            fieldVal := Transaction.trimField f w }
          (mem_uniqueValues.mpr ⟨f, w, hf, hget, hu.1, hnull.trans hu.2, rfl⟩)
        rw [htrim] at h1 h2 h3
        rw [hindex₁] at h2 h3
        exact ⟨queueEntry, val', i', h1, h2, h3⟩
    · next hu =>
        rw [← hindex₁ n]
        refine hother n fun hmem => hu ?_
        obtain ⟨⟨m, val⟩, hval, hm⟩ := List.mem_map.mp hmem
        obtain rfl : m = n := hm
        obtain ⟨f', w', hf', hget', hu', hnull', _⟩ := mem_uniqueValues.mp hval
        obtain rfl := Option.some.inj (hf.symm.trans hf')
        obtain rfl := Option.some.inj (hget.symm.trans hget')
        rw [Bool.and_eq_true, Bool.not_eq_true']
        exact ⟨hu', hnull.symm.trans hnull'⟩

/-- Values that were accepted are no longer than their operands. -/
theorem insertValues_size {fields : List Field} {operands : List Bytes} :
    ∀ {values : List FieldValue},
      Statement.insertValues fields operands = some (.ok values) →
      (∀ o ∈ operands, o.length < 2 ^ 64) →
      ∀ v ∈ values, v.str.length < 2 ^ 64 := by
  induction operands generalizing fields with
  | nil =>
      intro values h _ v hv
      rw [Statement.insertValues] at h
      injection h with h
      injection h with h
      rw [← h] at hv
      exact absurd hv (by simp)
  | cons o operands ih =>
      intro values h hsize v hv
      cases fields with
      | nil => exact absurd h (by simp [Statement.insertValues])
      | cons f fields =>
          rw [Statement.insertValues] at h
          split at h
          · exact absurd h (by simp)
          · obtain ⟨rest, hrest, heq⟩ := Option.map_eq_some_iff.mp h
            cases rest with
            | error status => exact absurd heq (by simp [Except.map])
            | ok values' =>
                injection heq with heq
                rw [← heq] at hv
                rcases List.mem_cons.mp hv with rfl | hv
                · have ho := hsize o List.mem_cons_self
                  have hle : (insertValue f o).str.length ≤ o.length := by
                    rw [insertValue]
                    split
                    · exact Nat.zero_le _
                    · dsimp only
                      split <;> first
                        | exact Nat.zero_le _
                        | (rw [List.length_drop]; omega)
                  omega
                · exact ih hrest
                    (fun o ho => hsize o (List.mem_cons_of_mem _ ho)) v hv

/-! ## The commit -/

def charFields : List Field := [⟨.charx, 1, .unique⟩]

def charCluster : Cluster :=
  clusterOf (fun _ => .new 1 0) fun _ _ => .makeindex .unique .charx

/-- An operand of the VALUES list that is a string. -/
def stringOperand (str : Bytes) : Bytes := 97 :: str

def charInsert (str : Bytes) : Option Statement.Inserted :=
  Statement.insert onePartition charFields (fun _ => 7) 1 0 [{ str := str }]
    charCluster

theorem eachIndexed_char {P : Nat → Field → Prop}
    (h : P 0 ⟨.charx, 1, .unique⟩) : EachIndexed charFields P := by
  intro n f hf _
  match n with
  | 0 => exact Option.some.inj hf ▸ h
  | n + 1 => exact absurd hf (by simp [charFields])

theorem charCluster_indexAt (n : Nat) :
    indexAt charCluster 1 n = fun _ => .makeindex .unique .charx := rfl

end Infinisql.Proofs
