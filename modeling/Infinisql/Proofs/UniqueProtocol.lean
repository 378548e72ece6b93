import Infinisql.Lib.Reserve
import Infinisql.Proofs.IndexShape

/-!
# A unique index is a table of reservations

The staging protocol of a unique index is the one of `Lib/Reserve.lean`: the
keys are field values without their trailing space, `uniqueIndex` reserves,
`COMMITCMD` settles, `ROLLBACKCMD` cancels and `deleteUniqueEntry` removes.
`slots` reads the table off the index, and `Follows` says of one call that
the index does what the table does, and answers what it answers.

There are fourteen map types, and the call fails to follow on three accounts.
`uniqueIndex` on the two unordered string types does not trim, so it stages
under a key that no other function looks under. `commitRollback` never trims,
so an untrimmed key misses the entry its owner staged. And `ROLLBACKCMD` by
the owner, on an unordered `CHARX` index, goes through a null pointer. The
calls that `Meets` allows are exactly the others, and over whole runs, from
the moment the index is made, an index follows the protocol exactly as long
as its callers make no other call.
-/

namespace Infinisql.Proofs

open Infinisql.Ref Infinisql.Lib

/-! ## Calls -/

/-- The calls of the protocol. -/
inductive UniqueCall
  | uniqueIndex (queueEntry : LockQueueIndexEntry) (val : FieldValue)
  | commit (val : FieldValue) (subtransactionid : Int)
  | rollback (val : FieldValue) (subtransactionid : Int)
  | deleteUniqueEntry (val : FieldValue)

namespace UniqueCall

def val : UniqueCall → FieldValue
  | uniqueIndex _ v | commit v _ | rollback v _ | deleteUniqueEntry v => v

/-- The subtransactions that take part have nonzero ids. -/
def ByNonzero : UniqueCall → Prop
  | uniqueIndex queueEntry _ => queueEntry.entry.subtransactionid ≠ 0
  | commit _ s | rollback _ s => s ≠ 0
  | deleteUniqueEntry _ => True

/-- The call on an index, through the overload for the field's type, with the
lock type that `uniqueIndex` answers. -/
def exec (i : Index) (call : UniqueCall) : Option (Option Locktype × Index) :=
  match call.val.key i.fieldtype with
  | none => some (none, i)
  | some key =>
      match call with
      | uniqueIndex queueEntry v =>
          (i.uniqueIndex queueEntry v).map fun (lt, _, i') => (some lt, i')
      | commit _ s => (i.commitRollback key s .commitCmd).map (none, ·)
      | rollback _ s => (i.commitRollback key s .rollbackCmd).map (none, ·)
      | deleteUniqueEntry _ => (i.deleteUniqueEntry key).map (none, ·)

def step (i : Index) (call : UniqueCall) : Option Index :=
  (call.exec i).map Prod.snd

/-- The protocol's operation, on the trimmed key. -/
def op (key : Key) : UniqueCall → ReserveOp Key Int NonLockingIndexEntry
  | uniqueIndex q _ =>
      .reserve key.trim q.entry.subtransactionid
        ⟨q.entry.rowid, q.entry.engineid⟩
  | commit _ s => .settle key.trim s
  | rollback _ s => .cancel key.trim s
  | deleteUniqueEntry _ => .remove key.trim

end UniqueCall

/-- The protocol's answers, as `uniqueIndex` spells them. -/
def locktypeOf : ReserveReply → Option Locktype
  | .granted => some .indexLock
  | .busy => some .indexPendingLock
  | .taken => some .noLock
  | .done => none

/-! ## The table an index spells -/

def slotOf (e : LockingIndexEntry) : Slot Int NonLockingIndexEntry :=
  if e.subtransactionid = 0 then .settled ⟨e.rowid, e.engineid⟩
  else .reserved e.subtransactionid ⟨e.rowid, e.engineid⟩

def slots (i : Index) : Reservations Key Int NonLockingIndexEntry :=
  fun key => (entries i key).map slotOf

/-- No two subtransactions have staged one key, with or without the trailing
space. -/
def OneOwner (i : Index) : Prop :=
  ∀ key key' s s', key.trim = key'.trim → (slots i).OwnedBy key s →
    (slots i).OwnedBy key' s' → s = s'

/-- The call returns, and does and answers what the protocol does; what is
not the caller's, an end command leaves alone in every map. -/
def Follows (i : Index) (call : UniqueCall) : Prop :=
  ∃ key, call.val.key i.fieldtype = some key ∧
    ∃ lt i', call.exec i = some (lt, i') ∧
      lt = locktypeOf ((slots i).step (call.op key)).1 ∧
      slots i' = ((slots i).step (call.op key)).2 ∧ OneOwner i' ∧
      match call with
      | .commit _ s | .rollback _ s =>
          ¬ (slots i).OwnedBy key.trim s → i' = i
      | .uniqueIndex _ _ | .deleteUniqueEntry _ => True

/-- The value has no trailing space, if it is a string. -/
def Trimmed (i : Index) (val : FieldValue) : Prop :=
  ∀ key, val.key i.fieldtype = some key → key.trim = key

/-- The caller is the owner of the entry under the trimmed key. -/
def ByOwner (i : Index) (val : FieldValue) (s : Int) : Prop :=
  ∃ key, val.key i.fieldtype = some key ∧ (slots i).OwnedBy key.trim s

/-- The calls that the code gets right. -/
def Meets (i : Index) : UniqueCall → Prop
  | .uniqueIndex _ val => untrimmed i.indexmaptype = true → Trimmed i val
  | .commit val s => ByOwner i val s → Trimmed i val
  | .rollback val s => ByOwner i val s →
      Trimmed i val ∧ i.indexmaptype ≠ .unorderedcharx
  | .deleteUniqueEntry _ => True

/-! ## One call -/

/-- The index was made for a field type, and its keys are trimmed. -/
structure UniqueInv (i : Index) : Prop where
  on : ∃ m q, UniqueOn m q i
  field : i.fieldtype ≠ .nofieldtype
  trimmed : ∀ key e, entries i key = some e → key.trim = key

theorem UniqueInv.oneOwner {i : Index} (h : UniqueInv i) : OneOwner i := by
  intro key key' s s' hkey howned howned'
  have htrim : ∀ {k s}, (slots i).OwnedBy k s → k.trim = k := by
    rintro k s ⟨r, hr⟩
    obtain ⟨e, he, _⟩ := Option.map_eq_some_iff.mp hr
    exact h.trimmed k e he
  rw [htrim howned, htrim howned'] at hkey
  exact howned.unique (hkey ▸ howned')

/-- The entries and the slots of an index say the same. -/
theorem ownedBy_iff {i : Index} {key : Key} {s : Int} (hs : s ≠ 0) :
    (slots i).OwnedBy key s ↔
      ∃ e, entries i key = some e ∧ e.subtransactionid = s := by
  constructor
  · rintro ⟨r, hr⟩
    obtain ⟨e, he, hslot⟩ := Option.map_eq_some_iff.mp hr
    refine ⟨e, he, ?_⟩
    unfold slotOf at hslot
    split at hslot
    · exact absurd hslot (by simp)
    · injection hslot
  · rintro ⟨e, he, rfl⟩
    exact ⟨⟨e.rowid, e.engineid⟩, by simp [slots, he, slotOf, hs]⟩

theorem slots_update {i i' : Index} {key : Key}
    {e : Option LockingIndexEntry}
    (h : entries i' = Function.update (entries i) key e) :
    slots i' = Function.update (slots i) key (e.map slotOf) := by
  funext k
  simp only [slots, h]
  by_cases hk : k = key
  · simp [hk]
  · simp [slots, hk]

/-- An update under a trimmed key keeps the keys trimmed. -/
theorem UniqueInv.update {i i' : Index} {key : Key}
    {e : Option LockingIndexEntry} {m : LockingMap} {q : LockQueueMap}
    (h : UniqueInv i) (hkey : key.trim = key) (hon : UniqueOn m q i')
    (hsame : SamePointers i i')
    (hent : entries i' = Function.update (entries i) key e) :
    UniqueInv i' where
  on := ⟨m, q, hon⟩
  field := hsame.fieldtype ▸ h.field
  trimmed k e' hk := by
    rw [hent] at hk
    by_cases hne : k = key
    · exact hne ▸ hkey
    · rw [Function.update_of_ne hne] at hk
      exact h.trimmed k e' hk

theorem UniqueInv.same {i i' : Index} {m : LockingMap} {q : LockQueueMap}
    (h : UniqueInv i) (hon : UniqueOn m q i') (hsame : SamePointers i i')
    (hent : entries i' = entries i) : UniqueInv i' where
  on := ⟨m, q, hon⟩
  field := hsame.fieldtype ▸ h.field
  trimmed := hent ▸ h.trimmed

/-- No entry is under a key with trailing space. -/
theorem UniqueInv.none_of_untrimmed {i : Index} {key : Key}
    (h : UniqueInv i) (hkey : key.trim ≠ key) : entries i key = none := by
  cases he : entries i key with
  | none => rfl
  | some e => exact absurd (h.trimmed key e he) hkey

/-- What a call that follows leaves behind. -/
def Done (i : Index) (call : UniqueCall) (key : Key) : Prop :=
  ∃ lt i', call.exec i = some (lt, i') ∧
    lt = locktypeOf ((slots i).step (call.op key)).1 ∧
    slots i' = ((slots i).step (call.op key)).2 ∧ UniqueInv i'

theorem uniqueIndex_done {i : Index} {queueEntry : LockQueueIndexEntry}
    {val : FieldValue} {key : Key} (h : UniqueInv i)
    (hkey : val.key i.fieldtype = some key)
    (hs : queueEntry.entry.subtransactionid ≠ 0)
    (hstage : stageKey i.indexmaptype key = key.trim) :
    Done i (.uniqueIndex queueEntry val) key := by
  obtain ⟨m, q, hon⟩ := h.on
  obtain ⟨val', _, _, heq⟩ := uniqueIndex_eq queueEntry
    hon hkey
  obtain ⟨lt, i', h1, hsame, hon', _, hcases⟩ :=
    hon.stage key.trim queueEntry
  refine ⟨some lt, i', ?_, ?_⟩
  · simp [UniqueCall.exec, UniqueCall.val, hkey, heq, hstage, h1]
  · simp only [UniqueCall.op, Reservations.step]
    rcases hcases with ⟨rfl, hnone, hent⟩ | ⟨rfl, hent, e, he, hsub⟩ |
      ⟨rfl, rfl, e, he, hsub⟩
    · have hslot : slots i key.trim = none := by simp [slots, hnone]
      rw [hslot]
      refine ⟨rfl, ?_, h.update key.trim_trim hon' hsame hent⟩
      rw [slots_update hent]
      simp [slotOf, hs]
    · have hslot : slots i key.trim =
          some (.reserved e.subtransactionid ⟨e.rowid, e.engineid⟩) := by
        simp [slots, he, slotOf, hsub]
      rw [hslot]
      refine ⟨rfl, ?_, h.same hon' hsame hent⟩
      funext k
      exact congrArg (Option.map slotOf) (congrFun hent k)
    · have hslot : slots i' key.trim =
          some (.settled ⟨e.rowid, e.engineid⟩) := by
        simp [slots, he, slotOf, hsub]
      rw [hslot]
      exact ⟨rfl, rfl, h⟩

/-- An end command on the owner's entry, and on any other. -/
theorem ifOwner_done {i : Index} {m : LockingMap} {q : LockQueueMap}
    {key : Key} {s : Int} {f : LockingIndexEntry → Option LockingIndexEntry}
    {g : NonLockingIndexEntry → Option (Slot Int NonLockingIndexEntry)}
    (h : UniqueInv i) (hon : UniqueOn m q i) (hs : s ≠ 0)
    (hkey : key.trim = key)
    (hfg : ∀ e, (f e).map slotOf = g ⟨e.rowid, e.engineid⟩) :
    ∃ i', i.ifOwner m key s f = some i' ∧
      slots i' = (slots i).ifOwner key s g ∧ UniqueInv i' := by
  rcases hon.ifOwner key s f with ⟨e, he, hsub, heq⟩ | ⟨hnot, heq⟩
  · obtain ⟨i', h1, hsame, hon', hent, _⟩ := hon.assign key (f e)
    refine ⟨i', heq.trans h1, ?_, h.update hkey hon' hsame hent⟩
    have hslot : slots i key =
        some (.reserved s ⟨e.rowid, e.engineid⟩) := by
      simp [slots, he, slotOf, hsub, hs]
    rw [Reservations.ifOwner_of_owned hslot, slots_update hent, hfg]
  · refine ⟨i, heq, ?_, h⟩
    exact (Reservations.ifOwner_of_not_owned
      fun hown => hnot ((ownedBy_iff hs).mp hown)).symm

/-- An end command that finds nothing under the key does nothing. -/
theorem ifOwner_missed {i : Index} {m : LockingMap} {q : LockQueueMap}
    {key : Key} {s : Int} {f : LockingIndexEntry → Option LockingIndexEntry}
    (hon : UniqueOn m q i)
    (h : ¬ ∃ e, entries i key = some e ∧ e.subtransactionid = s) :
    i.ifOwner m key s f = some i := by
  rcases hon.ifOwner key s f with ⟨e, he, hsub, _⟩ | ⟨_, heq⟩
  · exact absurd ⟨e, he, hsub⟩ h
  · exact heq

/-- Whoever is not the owner of the trimmed key is not the owner of the key
it passes. -/
theorem not_owner_of_trim {i : Index} {key : Key} {s : Int}
    (h : UniqueInv i) (hs : s ≠ 0) (hnot : ¬ (slots i).OwnedBy key.trim s) :
    ¬ ∃ e, entries i key = some e ∧ e.subtransactionid = s := by
  rintro ⟨e, he, hsub⟩
  rw [h.trimmed key e he] at hnot
  exact hnot ((ownedBy_iff hs).mpr ⟨e, he, hsub⟩)

/-- A missed settle or cancel is not what the protocol does. -/
theorem ifOwner_ne {t : Reservations Key Int NonLockingIndexEntry}
    {key : Key} {s : Int} {r : NonLockingIndexEntry}
    {g : NonLockingIndexEntry → Option (Slot Int NonLockingIndexEntry)}
    (h : t key = some (.reserved s r))
    (hg : g r ≠ some (.reserved s r)) : t.ifOwner key s g ≠ t := by
  rw [Reservations.ifOwner_of_owned h]
  intro heq
  have hk := congrFun heq key
  rw [Function.update_self, h] at hk
  exact hg hk

theorem commit_exec {i : Index} {m : LockingMap} {q : LockQueueMap}
    {val : FieldValue} {key : Key} {s : Int} (hon : UniqueOn m q i)
    (hkey : val.key i.fieldtype = some key) :
    (UniqueCall.commit val s).exec i =
      (i.commitEntry m key s).map (none, ·) := by
  simp [UniqueCall.exec, UniqueCall.val, hkey,
    commitRollback_commit hon hkey]

theorem rollback_exec {i : Index} {m : LockingMap} {q : LockQueueMap}
    {val : FieldValue} {key : Key} {s : Int} (hon : UniqueOn m q i)
    (hkey : val.key i.fieldtype = some key)
    (ht : i.indexmaptype ≠ .unorderedcharx) :
    (UniqueCall.rollback val s).exec i =
      (i.rollbackEntry m key s).map (none, ·) := by
  simp [UniqueCall.exec, UniqueCall.val, hkey,
    commitRollback_rollback hon hkey ht]

theorem deleteUniqueEntry_done {i : Index} {val : FieldValue} {key : Key}
    (h : UniqueInv i) (hkey : val.key i.fieldtype = some key) :
    Done i (.deleteUniqueEntry val) key := by
  obtain ⟨m, q, hon⟩ := h.on
  obtain ⟨i', h1, hsame, hon', hent, _⟩ := hon.assign key.trim none
  refine ⟨none, i', ?_, rfl, ?_, h.update key.trim_trim hon' hsame hent⟩
  · simp [UniqueCall.exec, UniqueCall.val, hkey, Index.deleteUniqueEntry,
      assignUnique_eq hon hkey, h1]
  · rw [slots_update hent]
    rfl

/-! ## Following, call by call -/

theorem Done.follows {i : Index} {call : UniqueCall} {key : Key}
    (hkey : call.val.key i.fieldtype = some key) (h : Done i call key)
    (hkeep : ∀ s, (∃ v, call = .commit v s ∨ call = .rollback v s) →
      ¬ (slots i).OwnedBy key.trim s → call.step i = some i) :
    Follows i call := by
  obtain ⟨lt, i', h1, h2, h3, h4⟩ := h
  refine ⟨key, hkey, lt, i', h1, h2, h3, h4.oneOwner, ?_⟩
  have hsame : ∀ s, (∃ v, call = .commit v s ∨ call = .rollback v s) →
      ¬ (slots i).OwnedBy key.trim s → i' = i := by
    intro s hcall hnot
    have hstep := hkeep s hcall hnot
    rw [UniqueCall.step, h1] at hstep
    injection hstep
  cases call with
  | uniqueIndex | deleteUniqueEntry => trivial
  | commit v s => exact hsame s ⟨v, .inl rfl⟩
  | rollback v s => exact hsame s ⟨v, .inr rfl⟩

theorem follows_uniqueIndex_iff {i : Index}
    {queueEntry : LockQueueIndexEntry} {val : FieldValue} (h : UniqueInv i)
    (hs : queueEntry.entry.subtransactionid ≠ 0) :
    Follows i (.uniqueIndex queueEntry val) ↔
      Meets i (.uniqueIndex queueEntry val) := by
  obtain ⟨key, hkey⟩ := key_isSome val h.field
  constructor
  · rintro ⟨key', hkey', lt, i', hexec, _, hslots, _⟩ hun key'' hkey''
    obtain rfl := Option.some.inj (hkey.symm.trans hkey')
    obtain rfl := Option.some.inj (hkey.symm.trans hkey'')
    by_contra hne
    obtain ⟨m, q, hon⟩ := h.on
    obtain ⟨val', _, _, heq⟩ := uniqueIndex_eq queueEntry
      hon hkey
    have hstage : stageKey i.indexmaptype key = key := if_pos hun
    have hnone := h.none_of_untrimmed hne
    obtain ⟨lt', i'', h1, _, _, _, hcases⟩ := hon.stage key queueEntry
    simp only [UniqueCall.exec, UniqueCall.val, hkey, heq, hstage, h1,
      Option.map_some, Option.some.injEq, Prod.mk.injEq] at hexec
    obtain ⟨_, rfl⟩ := hexec
    rcases hcases with ⟨_, _, hent⟩ | ⟨_, _, e, he, _⟩ | ⟨_, _, e, he, _⟩
    · -- the code's entry is under the untrimmed key, where the table has none
      have hk := congrFun hslots key
      have hslot : slots i key = none := by simp [slots, hnone]
      have hother : ((slots i).step (UniqueCall.op key
          (.uniqueIndex queueEntry val))).2 key = slots i key :=
        Reservations.step_of_ne fun heq => hne heq.symm
      rw [slots_update hent, Function.update_self, hother, hslot] at hk
      exact absurd hk (by simp)
    · rw [hnone] at he
      exact absurd he (by simp)
    · rw [hnone] at he
      exact absurd he (by simp)
  · intro hmeets
    refine Done.follows hkey (uniqueIndex_done h hkey hs ?_) ?_
    · unfold stageKey
      split
      · next hun => exact (hmeets hun key hkey).symm
      · rfl
    · rintro s ⟨v, hcall | hcall⟩
      · exact absurd hcall (by simp)
      · exact absurd hcall (by simp)

/-- An end command that goes through the one map follows, unless the owner
passes its key untrimmed. -/
theorem follows_end_iff {i : Index} {call : UniqueCall} {val : FieldValue}
    {m : LockingMap} {q : LockQueueMap} {key : Key} {s : Int}
    {f : LockingIndexEntry → Option LockingIndexEntry}
    {g : NonLockingIndexEntry → Option (Slot Int NonLockingIndexEntry)}
    (h : UniqueInv i) (hs : s ≠ 0) (hon : UniqueOn m q i)
    (hcall : call = .commit val s ∨ call = .rollback val s)
    (hkey : val.key i.fieldtype = some key)
    (hexec : call.exec i = (i.ifOwner m key s f).map (none, ·))
    (hstep : (slots i).step (call.op key) =
      (.done, (slots i).ifOwner key.trim s g))
    (hfg : ∀ e, (f e).map slotOf = g ⟨e.rowid, e.engineid⟩)
    (hg : ∀ r, g r ≠ some (.reserved s r)) :
    Follows i call ↔ (ByOwner i val s → Trimmed i val) := by
  have hval : call.val = val := by
    rcases hcall with rfl | rfl <;> rfl
  have hkey' : call.val.key i.fieldtype = some key := hval ▸ hkey
  constructor
  · rintro ⟨key', hkey₁, lt, i', hexec', _, hslots, _⟩ hown key'' hkey₂
    obtain rfl := Option.some.inj (hkey'.symm.trans hkey₁)
    obtain rfl := Option.some.inj (hkey.symm.trans hkey₂)
    by_contra hne
    -- the owner's entry is under the trimmed key, and the call misses it
    have hmiss : i.ifOwner m key s f = some i :=
      ifOwner_missed hon (by simp [h.none_of_untrimmed hne])
    rw [hexec, hmiss] at hexec'
    simp only [Option.map_some, Option.some.injEq, Prod.mk.injEq] at hexec'
    obtain ⟨_, rfl⟩ := hexec'
    obtain ⟨key', hkey', r, hr⟩ := hown
    obtain rfl := Option.some.inj (hkey.symm.trans hkey')
    rw [hstep] at hslots
    exact ifOwner_ne hr (hg r) hslots.symm
  · intro hmeets
    by_cases hown : (slots i).OwnedBy key.trim s
    · have htrim := hmeets ⟨key, hkey, hown⟩ key hkey
      obtain ⟨i', h1, h2, h3⟩ := ifOwner_done h hon hs htrim hfg
      refine Done.follows hkey' ⟨none, i', ?_, ?_, ?_, h3⟩ ?_
      · rw [hexec, h1]
        rfl
      · rw [hstep]
        rfl
      · rw [hstep, h2, htrim]
      · rintro s' ⟨v, hcall'⟩ hnot
        have hs' : s' = s := by
          rcases hcall with rfl | rfl <;> rcases hcall' with h' | h' <;>
            simp only [UniqueCall.commit.injEq, UniqueCall.rollback.injEq,
              reduceCtorEq] at h' <;> exact h'.2.symm
        exact absurd (hs' ▸ hown) hnot
    · have hmiss : i.ifOwner m key s f = some i :=
        ifOwner_missed hon (not_owner_of_trim h hs hown)
      have hsome : call.exec i = some (none, i) := by
        rw [hexec, hmiss]
        rfl
      refine Done.follows hkey' ⟨none, i, hsome, ?_, ?_, h⟩ ?_
      · rw [hstep]
        rfl
      · rw [hstep]
        exact (Reservations.ifOwner_of_not_owned hown).symm
      · intro s' _ _
        rw [UniqueCall.step, hsome]
        rfl

theorem follows_commit_iff {i : Index} {val : FieldValue} {s : Int}
    (h : UniqueInv i) (hs : s ≠ 0) :
    Follows i (.commit val s) ↔ Meets i (.commit val s) := by
  obtain ⟨key, hkey⟩ := key_isSome val h.field
  obtain ⟨m, q, hon⟩ := h.on
  exact follows_end_iff h hs hon (.inl rfl) hkey (commit_exec hon hkey) rfl
    (fun e => by simp [slotOf]) (fun r => by simp)

theorem follows_rollback_iff {i : Index} {val : FieldValue} {s : Int}
    (h : UniqueInv i) (hs : s ≠ 0) :
    Follows i (.rollback val s) ↔ Meets i (.rollback val s) := by
  obtain ⟨key, hkey⟩ := key_isSome val h.field
  obtain ⟨m, q, hon⟩ := h.on
  by_cases ht : i.indexmaptype = .unorderedcharx
  · have heq := commitRollback_unorderedcharx (s := s) hon hkey ht
    have hexec : (UniqueCall.rollback val s).exec i =
        (if (entries i key).any (·.subtransactionid = s) then none
          else some i).map (none, ·) := by
      simp only [UniqueCall.exec, UniqueCall.val, hkey, heq]
    have hnull : (∃ e, entries i key = some e ∧ e.subtransactionid = s) ↔
        (entries i key).any (·.subtransactionid = s) = true := by
      simp [Option.any_eq_true]
    constructor
    · rintro ⟨key', hkey', lt, i', hexec', _, hslots, _⟩ hown
      obtain rfl := Option.some.inj (hkey.symm.trans hkey')
      -- the call returned, so the caller owns nothing under its key
      have hnot : ¬ ∃ e, entries i key = some e ∧
          e.subtransactionid = s := by
        intro he
        rw [hexec, if_pos (hnull.mp he)] at hexec'
        exact absurd hexec' (by simp)
      rw [hexec, if_neg (mt hnull.mpr hnot)] at hexec'
      simp only [Option.map_some, Option.some.injEq,
        Prod.mk.injEq] at hexec'
      obtain ⟨_, rfl⟩ := hexec'
      obtain ⟨key', hkey', r, hr⟩ := hown
      obtain rfl := Option.some.inj (hkey.symm.trans hkey')
      have hne := ifOwner_ne (g := fun _ => none) hr (by simp)
      exact absurd hslots.symm hne
    · intro hmeets
      have hown : ¬ (slots i).OwnedBy key.trim s :=
        fun hown => (hmeets ⟨key, hkey, hown⟩).2 ht
      have hsome : (UniqueCall.rollback val s).exec i = some (none, i) := by
        rw [hexec, if_neg (mt hnull.mpr (not_owner_of_trim h hs hown))]
        rfl
      refine Done.follows hkey ⟨none, i, hsome, rfl, ?_, h⟩ ?_
      · exact (Reservations.ifOwner_of_not_owned hown).symm
      · intro s' _ _
        rw [UniqueCall.step, hsome]
        rfl
  · have hiff := follows_end_iff h hs hon (.inr rfl) hkey
      (rollback_exec hon hkey ht) rfl (fun _ => rfl) (fun _ => by simp)
    rw [hiff, Meets]
    simp [ht]

/-- A call follows the protocol exactly when it is one of those the code
gets right. -/
theorem follows_iff_meets {i : Index} {call : UniqueCall} (h : UniqueInv i)
    (hs : call.ByNonzero) : Follows i call ↔ Meets i call := by
  cases call with
  | uniqueIndex queueEntry val => exact follows_uniqueIndex_iff h hs
  | commit val s => exact follows_commit_iff h hs
  | rollback val s => exact follows_rollback_iff h hs
  | deleteUniqueEntry val =>
      obtain ⟨key, hkey⟩ := key_isSome val h.field
      refine ⟨fun _ => trivial, fun _ => ?_⟩
      refine Done.follows hkey (deleteUniqueEntry_done h hkey) ?_
      rintro s ⟨v, hcall | hcall⟩
      · exact absurd hcall (by simp)
      · exact absurd hcall (by simp)

/-! ## Runs -/

theorem step_samePointers {i i' : Index} {call : UniqueCall}
    (h : call.step i = some i') : SamePointers i i' := by
  simp only [UniqueCall.step, Option.map_eq_some_iff, Prod.exists] at h
  obtain ⟨lt, i₁, h, rfl⟩ := h
  unfold UniqueCall.exec at h
  split at h
  · simp only [Option.some.injEq, Prod.mk.injEq] at h
    exact h.2 ▸ .refl i
  · cases call with
    | uniqueIndex queueEntry val =>
        simp only [Option.map_eq_some_iff, Prod.exists, Prod.mk.injEq] at h
        obtain ⟨_, _, _, h1, _, rfl⟩ := h
        exact uniqueIndex_samePointers h1
    | commit val s | rollback val s =>
        simp only [Option.map_eq_some_iff, Prod.mk.injEq] at h
        obtain ⟨_, h1, _, rfl⟩ := h
        exact commitRollback_samePointers h1
    | deleteUniqueEntry val =>
        simp only [Option.map_eq_some_iff, Prod.mk.injEq] at h
        obtain ⟨_, h1, _, rfl⟩ := h
        exact assignUnique_samePointers h1

/-- A call that follows keeps the keys trimmed. -/
theorem Follows.inv {i i' : Index} {call : UniqueCall} (h : UniqueInv i)
    (hfollows : Follows i call) (hstep : call.step i = some i') :
    UniqueInv i' := by
  obtain ⟨key, _, lt, i₁, hexec, _, hslots, _⟩ := hfollows
  have hi : i₁ = i' := by
    rw [UniqueCall.step, hexec] at hstep
    injection hstep
  subst hi
  have hsame := step_samePointers hstep
  obtain ⟨m, q, hon⟩ := h.on
  refine ⟨⟨m, q, hon.of_samePointers hsame⟩, hsame.fieldtype ▸ h.field, ?_⟩
  intro k e he
  have hk : slots i₁ k = some (slotOf e) := by simp [slots, he]
  rw [hslots] at hk
  rcases Reservations.taken_of_step hk with ⟨slot, hslot⟩ | rfl
  · obtain ⟨e', he', _⟩ := Option.map_eq_some_iff.mp hslot
    exact h.trimmed k e' he'
  · cases call <;> exact key.trim_trim

theorem uniqueInv_makeindex {it : Indextype} {ft : Fieldtype}
    (hu : it.isunique = true) (hft : ft ≠ .nofieldtype) :
    UniqueInv (Index.makeindex it ft) where
  on := uniqueOn_of_made (made_makeindex it ft) hu hft
  field := hft
  trimmed key e he := by
    obtain ⟨m, q, hm⟩ := lockingMap_isSome hu hft
    simp [entries, Index.makeindex, hm] at he

/-- Subtransaction 7 stages the key `a` for row 1, and commits it. -/
def commitRun : List UniqueCall :=
  [.uniqueIndex ⟨1, 1, ⟨1, 0, 7⟩⟩ { str := [97] }, .commit { str := [97] } 7]

/-- It stages the key `a` and rolls it back, on an unordered index: the
rollback does not return. -/
def rollbackRun : List UniqueCall :=
  [.uniqueIndex ⟨1, 1, ⟨1, 0, 7⟩⟩ { str := [97] },
    .rollback { str := [97] } 7]

end Infinisql.Proofs
