import Infinisql.Ref.Index

/-!
# The pointers of an index

`makeindex` decides once which pointers of an index are null, and nothing
after it changes that. `Made` says that an index still has the types and the
pointers that `makeindex` gave it. Under it the switches over `indexmaptype`
all go the same way: for a unique index of any type there is one locking map
and one lock queue, and each function below is, whatever the type, the same
few steps on that map. The lemmas of this file are these equations. After
them no proof looks at the 21 map types again, except where two of them
differ.
-/

namespace Infinisql.Proofs

open Infinisql.Ref

/-! ## What no function changes -/

/-- The same types, and the same null pointers. -/
structure SamePointers (i i' : Index) : Prop where
  indextype : i'.indextype = i.indextype
  fieldtype : i'.fieldtype = i.fieldtype
  isunique : i'.isunique = i.isunique
  indexmaptype : i'.indexmaptype = i.indexmaptype
  locking : ∀ m, (i'.locking m).isSome = (i.locking m).isSome
  nonlocking : ∀ m, (i'.nonlocking m).isSome = (i.nonlocking m).isSome
  lockQueue : ∀ q, (i'.lockQueue q).isSome = (i.lockQueue q).isSome

theorem SamePointers.refl (i : Index) : SamePointers i i :=
  ⟨rfl, rfl, rfl, rfl, fun _ => rfl, fun _ => rfl, fun _ => rfl⟩

theorem SamePointers.trans {i i' i'' : Index} (h : SamePointers i i')
    (h' : SamePointers i' i'') : SamePointers i i'' where
  indextype := h'.indextype.trans h.indextype
  fieldtype := h'.fieldtype.trans h.fieldtype
  isunique := h'.isunique.trans h.isunique
  indexmaptype := h'.indexmaptype.trans h.indexmaptype
  locking m := (h'.locking m).trans (h.locking m)
  nonlocking m := (h'.nonlocking m).trans (h.nonlocking m)
  lockQueue q := (h'.lockQueue q).trans (h.lockQueue q)

/-- The index is one that `makeindex` made for a field of type `ft`. -/
def Made (it : Indextype) (ft : Fieldtype) (i : Index) : Prop :=
  SamePointers (Index.makeindex it ft) i

theorem made_makeindex (it : Indextype) (ft : Fieldtype) :
    Made it ft (Index.makeindex it ft) := .refl _

theorem assign_some {i i' : Index} {m : LockingMap} {key : Key}
    {entry : Option LockingIndexEntry} (h : i.assign m key entry = some i') :
    ∃ entries, i.locking m = some entries ∧
      i' = i.setLocking m (Function.update entries key entry) := by
  unfold Index.assign at h
  cases hm : i.locking m with
  | none => simp [hm] at h
  | some entries =>
      simp only [hm, Option.some.injEq] at h
      exact ⟨entries, rfl, h.symm⟩

theorem assign_samePointers {i i' : Index} {m : LockingMap} {key : Key}
    {entry : Option LockingIndexEntry} (h : i.assign m key entry = some i') :
    SamePointers i i' := by
  obtain ⟨entries, hm, rfl⟩ := assign_some h
  refine ⟨rfl, rfl, rfl, rfl, fun m' => ?_, fun _ => rfl, fun _ => rfl⟩
  by_cases hmm : m' = m
  · simp [Index.setLocking, hmm, hm]
  · simp [Index.setLocking, hmm]

theorem push_samePointers {i i' : Index} {q : LockQueueMap} {key : Key}
    {queueEntry : LockQueueIndexEntry}
    (h : i.push q key queueEntry = some i') :
    SamePointers i i' ∧ i'.locking = i.locking := by
  unfold Index.push at h
  cases hq : i.lockQueue q with
  | none => simp [hq] at h
  | some queue =>
      simp only [hq, Option.some.injEq] at h
      subst h
      refine ⟨⟨rfl, rfl, rfl, rfl, fun _ => rfl, fun _ => rfl,
        fun q' => ?_⟩, rfl⟩
      by_cases hqq : q' = q
      · simp [hqq, hq]
      · simp [hqq]

theorem mapNonunique_some {i i' : Index} {key : Key} {f}
    (h : i.mapNonunique key f = some i') :
    ∃ entries, i.nonlocking (Index.nonuniqueMap key) = some entries ∧
      i' = i.setNonlocking (Index.nonuniqueMap key) (f entries) := by
  unfold Index.mapNonunique at h
  cases hm : i.nonlocking (Index.nonuniqueMap key) with
  | none => simp [hm] at h
  | some entries =>
      simp only [hm, Option.some.injEq] at h
      exact ⟨entries, rfl, h.symm⟩

theorem mapNonunique_samePointers {i i' : Index} {key : Key} {f}
    (h : i.mapNonunique key f = some i') : SamePointers i i' := by
  obtain ⟨entries, hm, rfl⟩ := mapNonunique_some h
  refine ⟨rfl, rfl, rfl, rfl, fun _ => rfl, fun m' => ?_, fun _ => rfl⟩
  by_cases hmm : m' = Index.nonuniqueMap key
  · simp [Index.setNonlocking, hmm, hm]
  · simp [Index.setNonlocking, hmm]

theorem stage_samePointers {i i' : Index} {m : LockingMap} {q : LockQueueMap}
    {key : Key} {queueEntry : LockQueueIndexEntry} {lt : Locktype}
    (h : i.stage m q key queueEntry = some (lt, i')) : SamePointers i i' := by
  unfold Index.stage at h
  split at h
  · exact absurd h (by simp)
  · split at h
    · simp only [Option.map_eq_some_iff, Prod.mk.injEq] at h
      obtain ⟨i₁, h1, _, rfl⟩ := h
      exact assign_samePointers h1
    · split at h
      · simp only [Option.map_eq_some_iff, Prod.mk.injEq] at h
        obtain ⟨i₁, h1, _, rfl⟩ := h
        exact (push_samePointers h1).1
      · simp only [Option.some.injEq, Prod.mk.injEq] at h
        exact h.2 ▸ .refl i

theorem uniqueIndex_samePointers {i i' : Index} {val val' : FieldValue}
    {queueEntry : LockQueueIndexEntry} {lt : Locktype}
    (h : i.uniqueIndex queueEntry val = some (lt, val', i')) :
    SamePointers i i' := by
  unfold Index.uniqueIndex at h
  cases ht : i.indexmaptype <;>
    simp only [ht, Option.map_eq_some_iff, Option.some.injEq,
      Prod.mk.injEq, Prod.exists] at h
  all_goals first
    | exact h.2.2 ▸ .refl i
    | (obtain ⟨_, _, h1, _, _, rfl⟩ := h
       exact stage_samePointers h1)

theorem ifOwner_samePointers {i i' : Index} {m : LockingMap} {key : Key}
    {s : Int} {f : LockingIndexEntry → Option LockingIndexEntry}
    (h : i.ifOwner m key s f = some i') : SamePointers i i' := by
  unfold Index.ifOwner at h
  split at h
  · exact absurd h (by simp)
  · split at h
    · injection h with h
      exact h ▸ .refl i
    · split at h
      · injection h with h
        exact h ▸ .refl i
      · exact assign_samePointers h

theorem commitRollbackFixed_samePointers {i i' : Index}
    {ut ot : Indexmaptype} {um om : LockingMap} {key : Key} {s : Int}
    {cmd : Enginecmd}
    (h : i.commitRollbackFixed ut ot um om key s cmd = some i') :
    SamePointers i i' := by
  unfold Index.commitRollbackFixed at h
  split at h <;> repeat' split at h
  all_goals first
    | exact ifOwner_samePointers h
    | (injection h with h
       exact h ▸ .refl i)

theorem commitRollbackString_samePointers {i i' : Index} {key : Key}
    {s : Int} {cmd : Enginecmd}
    (h : i.commitRollbackString key s cmd = some i') :
    SamePointers i i' := by
  have hkeep : some i = some i' → SamePointers i i' := by
    intro h
    injection h with h
    exact h ▸ .refl i
  cases cmd with
  | commitCmd =>
      unfold Index.commitRollbackString at h
      dsimp only at h
      split at h <;> first
        | exact ifOwner_samePointers h
        | exact hkeep h
  | rollbackCmd =>
      cases ht : i.indexmaptype with
      | unorderedcharx =>
          unfold Index.commitRollbackString at h
          simp only [ht] at h
          split at h
          · exact absurd h (by simp)
          · split at h
            · exact hkeep h
            · split at h
              · exact hkeep h
              · split at h
                · exact absurd h (by simp)
                · next i₁ h1 =>
                    exact (assign_samePointers h1).trans
                      (ifOwner_samePointers h)
      | uniquecharx | uniquevarchar | unorderedvarchar =>
          unfold Index.commitRollbackString at h
          simp only [ht] at h
          exact ifOwner_samePointers h
      | _ =>
          unfold Index.commitRollbackString at h
          simp only [ht] at h
          exact hkeep h
  | _ => exact hkeep h

theorem commitRollback_samePointers {i i' : Index} {key : Key} {s : Int}
    {cmd : Enginecmd} (h : i.commitRollback key s cmd = some i') :
    SamePointers i i' := by
  cases key with
  | str v => exact commitRollbackString_samePointers h
  | integer | uinteger | boolean | floating | character =>
      exact commitRollbackFixed_samePointers h

theorem assignUnique_samePointers {i i' : Index} {key : Key}
    {entry : Option LockingIndexEntry}
    (h : i.assignUnique key entry = some i') : SamePointers i i' := by
  unfold Index.assignUnique at h
  split at h
  all_goals first
    | exact assign_samePointers h
    | (injection h with h
       exact h ▸ .refl i)

/-! ## The one map of a unique index -/

theorem key_isSome (val : FieldValue) {ft : Fieldtype}
    (h : ft ≠ .nofieldtype) : ∃ key, val.key ft = some key := by
  cases ft with
  | nofieldtype => exact absurd rfl h
  | int | uint | bool | float | char | charx | varchar => exact ⟨_, rfl⟩

/-- The field type whose indexes have this map type. -/
def fieldtypeOf : Indexmaptype → Fieldtype
  | .noindexmaptype => .nofieldtype
  | .uniqueint | .nonuniqueint | .unorderedint => .int
  | .uniqueuint | .nonuniqueuint | .unordereduint => .uint
  | .uniquebool | .nonuniquebool | .unorderedbool => .bool
  | .uniquefloat | .nonuniquefloat | .unorderedfloat => .float
  | .uniquechar | .nonuniquechar | .unorderedchar => .char
  | .uniquecharx | .nonuniquecharx | .unorderedcharx => .charx
  | .uniquevarchar | .nonuniquevarchar | .unorderedvarchar => .varchar

theorem fieldtypeOf_indexmaptype {it : Indextype} {ft : Fieldtype}
    (hit : it ≠ .none) : fieldtypeOf (it.indexmaptype ft) = ft := by
  cases it with
  | none => exact absurd rfl hit
  | unique | nonunique | unordered | uniquenotnull | nonuniquenotnull
  | unorderednotnull => cases ft <;> rfl

theorem lockingMap_isSome {it : Indextype} {ft : Fieldtype}
    (hu : it.isunique = true) (hft : ft ≠ .nofieldtype) :
    ∃ m q, (it.indexmaptype ft).lockingMap = some (m, q) := by
  cases ft with
  | nofieldtype => exact absurd rfl hft
  | int | uint | bool | float | char | charx | varchar =>
      cases it <;> simp [Indextype.isunique] at hu <;> exact ⟨_, _, rfl⟩

/-- The pointers of a unique index: `m` and `q` are there, and `m` is the
only locking map. -/
structure UniqueOn (m : LockingMap) (q : LockQueueMap) (i : Index) : Prop where
  maptype : i.indexmaptype.lockingMap = some (m, q)
  unique : i.isunique = true
  fieldtype : fieldtypeOf i.indexmaptype = i.fieldtype
  locking : ∃ entries, i.locking m = some entries
  lockQueue : ∃ queue, i.lockQueue q = some queue
  only : ∀ m', m' ≠ m → i.locking m' = none

theorem uniqueOn_of_made {it : Indextype} {ft : Fieldtype} {i : Index}
    (h : Made it ft i) (hu : it.isunique = true) (hft : ft ≠ .nofieldtype) :
    ∃ m q, UniqueOn m q i := by
  obtain ⟨m, q, hmap⟩ := lockingMap_isSome hu hft
  refine ⟨m, q, ?_, ?_, ?_, ?_, ?_, fun m' hne => ?_⟩
  · rw [h.indexmaptype]
    exact hmap
  · rw [h.isunique]
    exact hu
  · rw [h.indexmaptype, h.fieldtype]
    refine fieldtypeOf_indexmaptype ?_
    rintro rfl
    simp [Indextype.isunique] at hu
  · rw [← Option.isSome_iff_exists, h.locking]
    simp [Index.makeindex, hmap]
  · rw [← Option.isSome_iff_exists, h.lockQueue]
    simp [Index.makeindex, hmap]
  · rw [← Option.not_isSome_iff_eq_none, h.locking]
    simp [Index.makeindex, hmap, Ne.symm hne]

theorem UniqueOn.of_samePointers {m : LockingMap} {q : LockQueueMap}
    {i i' : Index} (h : UniqueOn m q i) (hsame : SamePointers i i') :
    UniqueOn m q i' where
  maptype := hsame.indexmaptype ▸ h.maptype
  unique := hsame.isunique.trans h.unique
  fieldtype := by
    rw [hsame.indexmaptype, hsame.fieldtype]
    exact h.fieldtype
  locking := by
    rw [← Option.isSome_iff_exists, hsame.locking]
    exact Option.isSome_iff_exists.mpr h.locking
  lockQueue := by
    rw [← Option.isSome_iff_exists, hsame.lockQueue]
    exact Option.isSome_iff_exists.mpr h.lockQueue
  only m' hne := by
    rw [← Option.not_isSome_iff_eq_none, hsame.locking, h.only m' hne]
    simp

/-- The entries of a unique index. -/
def entries (i : Index) : Key → Option LockingIndexEntry :=
  match i.indexmaptype.lockingMap with
  | none => fun _ => none
  | some (m, _) => (i.locking m).getD fun _ => none

theorem UniqueOn.entries_eq {m : LockingMap} {q : LockQueueMap} {i : Index}
    (h : UniqueOn m q i) : i.locking m = some (entries i) := by
  obtain ⟨es, hes⟩ := h.locking
  simp [entries, h.maptype, hes]

theorem UniqueOn.assign {m : LockingMap} {q : LockQueueMap} {i : Index}
    (h : UniqueOn m q i) (key : Key) (entry : Option LockingIndexEntry) :
    ∃ i', i.assign m key entry = some i' ∧ SamePointers i i' ∧
      UniqueOn m q i' ∧
      entries i' = Function.update (entries i) key entry ∧
      i'.nulls = i.nulls := by
  have hassign : i.assign m key entry =
      some (i.setLocking m (Function.update (entries i) key entry)) := by
    rw [Index.assign, h.entries_eq]
  have hsame := assign_samePointers hassign
  refine ⟨_, hassign, hsame, h.of_samePointers hsame, ?_, rfl⟩
  have hmap : (i.setLocking m (Function.update (entries i) key entry)
      ).indexmaptype.lockingMap = some (m, q) := h.maptype
  rw [entries.eq_def (i.setLocking _ _), hmap]
  simp [Index.setLocking]

/-! ## The functions of a unique index, whatever its type -/

/-- The map types whose `uniqueIndex` does not trim. -/
def untrimmed : Indexmaptype → Bool
  | .unorderedcharx | .unorderedvarchar => true
  | _ => false

/-- The key `uniqueIndex` looks under. -/
def stageKey (t : Indexmaptype) (key : Key) : Key :=
  if untrimmed t then key else key.trim

theorem uniqueIndex_eq {i : Index} {m : LockingMap} {q : LockQueueMap}
    (queueEntry : LockQueueIndexEntry) {val : FieldValue} {key : Key}
    (hm : UniqueOn m q i) (hkey : val.key i.fieldtype = some key) :
    ∃ val' : FieldValue,
      val'.key i.fieldtype = some (stageKey i.indexmaptype key) ∧
      val'.isnull = val.isnull ∧
      i.uniqueIndex queueEntry val =
        (i.stage m q (stageKey i.indexmaptype key) queueEntry).map
          fun (locktype, i') => (locktype, val', i') := by
  have hmap := hm.maptype
  rw [← hm.fieldtype] at hkey ⊢
  unfold Index.uniqueIndex
  cases ht : i.indexmaptype <;>
    rw [ht] at hmap hkey <;> cases hmap <;> cases hkey
  case uniquecharx | uniquevarchar =>
    exact ⟨val.trim, rfl, rfl, rfl⟩
  all_goals
    exact ⟨val, rfl, rfl, rfl⟩

theorem commitRollback_commit {i : Index} {m : LockingMap} {q : LockQueueMap}
    {val : FieldValue} {key : Key} {s : Int} (hm : UniqueOn m q i)
    (hkey : val.key i.fieldtype = some key) :
    i.commitRollback key s .commitCmd = i.commitEntry m key s := by
  have hmap := hm.maptype
  rw [← hm.fieldtype] at hkey
  cases ht : i.indexmaptype <;>
    rw [ht] at hmap hkey <;> cases hmap <;> cases hkey
  all_goals
    unfold Index.commitRollback
    dsimp only
    first
      | unfold Index.commitRollbackFixed
      | unfold Index.commitRollbackString
    simp [ht]

/-- The one type that rolls back its owner's entry and goes on. -/
theorem commitRollback_rollback {i : Index} {m : LockingMap}
    {q : LockQueueMap} {val : FieldValue} {key : Key} {s : Int}
    (hm : UniqueOn m q i) (hkey : val.key i.fieldtype = some key)
    (ht : i.indexmaptype ≠ .unorderedcharx) :
    i.commitRollback key s .rollbackCmd = i.rollbackEntry m key s := by
  have hmap := hm.maptype
  rw [← hm.fieldtype] at hkey
  cases ht' : i.indexmaptype <;>
    rw [ht'] at hmap hkey <;> cases hmap <;> cases hkey
  case unorderedcharx => exact absurd ht' ht
  all_goals
    unfold Index.commitRollback
    dsimp only
    first
      | unfold Index.commitRollbackFixed
      | unfold Index.commitRollbackString
    simp [ht']

/-- There, the rollback of the owner's entry goes through the null pointer of
the other string map. -/
theorem commitRollback_unorderedcharx {i : Index} {m : LockingMap}
    {q : LockQueueMap} {val : FieldValue} {key : Key} {s : Int}
    (hm : UniqueOn m q i) (hkey : val.key i.fieldtype = some key)
    (ht : i.indexmaptype = .unorderedcharx) :
    i.commitRollback key s .rollbackCmd =
      if (entries i key).any (·.subtransactionid = s) then none
      else some i := by
  have hmap := hm.maptype
  rw [← hm.fieldtype] at hkey
  rw [ht] at hmap hkey
  cases hmap
  cases hkey
  have hnull : i.locking .uniqueStringIndex = none :=
    hm.only _ (by simp)
  unfold Index.commitRollback Index.commitRollbackString
  simp only [ht, hm.entries_eq, Index.assign]
  cases he : entries i (.str val.str) with
  | none => simp
  | some entry =>
      by_cases hs : entry.subtransactionid = s
      · simp [hs, Index.rollbackEntry, Index.ifOwner, Index.setLocking, hnull]
      · simp [hs]

theorem assignUnique_eq {i : Index} {m : LockingMap} {q : LockQueueMap}
    {val : FieldValue} {key : Key} {entry : Option LockingIndexEntry}
    (hm : UniqueOn m q i) (hkey : val.key i.fieldtype = some key) :
    i.assignUnique key.trim entry = i.assign m key.trim entry := by
  have hmap := hm.maptype
  rw [← hm.fieldtype] at hkey
  cases ht : i.indexmaptype <;>
    rw [ht] at hmap hkey <;> cases hmap <;> cases hkey
  all_goals
    simp [Index.assignUnique, Key.trim, ht]

/-- What the owner's entry becomes, and that nothing happens to another's. -/
theorem UniqueOn.ifOwner {m : LockingMap} {q : LockQueueMap} {i : Index}
    (h : UniqueOn m q i) (key : Key) (s : Int)
    (f : LockingIndexEntry → Option LockingIndexEntry) :
    (∃ entry, entries i key = some entry ∧ entry.subtransactionid = s ∧
        i.ifOwner m key s f = i.assign m key (f entry)) ∨
      (¬ ∃ entry, entries i key = some entry ∧
        entry.subtransactionid = s) ∧ i.ifOwner m key s f = some i := by
  unfold Index.ifOwner
  rw [h.entries_eq]
  simp only []
  cases he : entries i key with
  | none => exact .inr ⟨by simp, rfl⟩
  | some entry =>
      by_cases hs : entry.subtransactionid = s
      · exact .inl ⟨entry, rfl, hs, by simp [hs]⟩
      · exact .inr ⟨by simp [hs], by simp [hs]⟩

/-- The three answers of a staging. -/
theorem UniqueOn.stage {m : LockingMap} {q : LockQueueMap} {i : Index}
    (h : UniqueOn m q i) (key : Key) (queueEntry : LockQueueIndexEntry) :
    ∃ locktype i', i.stage m q key queueEntry = some (locktype, i') ∧
      SamePointers i i' ∧ UniqueOn m q i' ∧ i'.nulls = i.nulls ∧
      (locktype = .indexLock ∧ entries i key = none ∧
          entries i' =
            Function.update (entries i) key (some queueEntry.entry) ∨
        locktype = .indexPendingLock ∧ entries i' = entries i ∧
          (∃ e, entries i key = some e ∧ e.subtransactionid ≠ 0) ∨
        locktype = .noLock ∧ i' = i ∧
          ∃ e, entries i key = some e ∧ e.subtransactionid = 0) := by
  unfold Index.stage
  rw [h.entries_eq]
  simp only []
  cases he : entries i key with
  | none =>
      obtain ⟨i', h1, h2, h3, h4, h5⟩ := h.assign key (some queueEntry.entry)
      exact ⟨.indexLock, i', by simp [h1], h2, h3, h5, .inl ⟨rfl, rfl, h4⟩⟩
  | some entry =>
      by_cases hs : entry.subtransactionid = 0
      · exact ⟨.noLock, i, by simp [hs], .refl i, h, rfl,
          .inr (.inr ⟨rfl, rfl, entry, rfl, hs⟩)⟩
      · obtain ⟨queue, hq⟩ := h.lockQueue
        have hpush : ∃ i', i.push q key queueEntry = some i' := by
          simp [Index.push, hq]
        obtain ⟨i', hi'⟩ := hpush
        obtain ⟨hsame, hlock⟩ := push_samePointers hi'
        have hent : entries i' = entries i := by
          simp only [entries, hsame.indexmaptype, hlock]
        refine ⟨.indexPendingLock, i', by simp [hs, hi'], hsame,
          h.of_samePointers hsame, ?_,
          .inr (.inl ⟨rfl, hent, entry, rfl, hs⟩)⟩
        simp only [Index.push, hq, Option.some.injEq] at hi'
        rw [← hi']

end Infinisql.Proofs
