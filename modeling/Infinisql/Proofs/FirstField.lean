import Infinisql.Proofs.InsertIndex
import Infinisql.Spec.FirstField

/-!
# Entries of the first field stay with their rows

The invariant is about entries and messages. Every entry in the index of a
unique first field names the engine that the index is at. A message that will
add such an entry, or repoint one, names the engine it is sent to; and a
NEWROW that an INSERT waits for is on its way to the engine of the value that
the INSERT will then ask for.

No function of an index invents an address. A staged entry has the address
that came with the message, the repointed one has the new address of the item,
and every other entry was there before.
-/

namespace Infinisql.Proofs

open Infinisql.Ref Infinisql.Spec Infinisql.Lib

/-! ## The addresses in an index -/

/-- Every entry names this engine. -/
def HomeEntries (e : Int) (i : Index) : Prop :=
  ∀ m es, i.locking m = some es → ∀ key entry, es key = some entry →
    entry.engineid = e

variable {e : Int} {i i' : Index}

theorem HomeEntries.of_locking (h : HomeEntries e i)
    (hlocking : i'.locking = i.locking) : HomeEntries e i' := by
  intro m es hm
  rw [hlocking] at hm
  exact h m es hm

theorem homeEntries_makeindex (it : Indextype) (ft : Fieldtype) :
    HomeEntries e (Index.makeindex it ft) := by
  intro m es hm key entry hentry
  simp only [Index.makeindex] at hm
  split at hm
  · injection hm with hm
    rw [← hm] at hentry
    exact absurd hentry (by simp)
  · exact absurd hm (by simp)

theorem HomeEntries.assign (h : HomeEntries e i) {m : LockingMap} {key : Key}
    {entry : Option LockingIndexEntry}
    (hs : i.assign m key entry = some i')
    (hentry : ∀ x ∈ entry, x.engineid = e) : HomeEntries e i' := by
  obtain ⟨entries, hm, rfl⟩ := assign_some hs
  intro m' es hes k x hx
  by_cases hmm : m' = m
  · simp only [Index.setLocking, hmm, Function.update_self,
      Option.some.injEq] at hes
    rw [← hes] at hx
    by_cases hk : k = key
    · rw [hk, Function.update_self] at hx
      exact hentry x hx
    · rw [Function.update_of_ne hk] at hx
      exact h m entries hm k x hx
  · simp only [Index.setLocking, Function.update_of_ne hmm] at hes
    exact h m' es hes k x hx

theorem HomeEntries.stage (h : HomeEntries e i) {m : LockingMap}
    {q : LockQueueMap} {key : Key} {queueEntry : LockQueueIndexEntry}
    {lt : Locktype} (hs : i.stage m q key queueEntry = some (lt, i'))
    (hentry : queueEntry.entry.engineid = e) : HomeEntries e i' := by
  unfold Index.stage at hs
  split at hs
  · exact absurd hs (by simp)
  · split at hs
    · simp only [Option.map_eq_some_iff, Prod.mk.injEq] at hs
      obtain ⟨i₁, h1, _, rfl⟩ := hs
      exact h.assign h1 fun x hx => by
        rw [← Option.some.inj hx]
        exact hentry
    · split at hs
      · simp only [Option.map_eq_some_iff, Prod.mk.injEq] at hs
        obtain ⟨i₁, h1, _, rfl⟩ := hs
        exact h.of_locking (push_samePointers h1).2
      · simp only [Option.some.injEq, Prod.mk.injEq] at hs
        exact hs.2 ▸ h

theorem HomeEntries.uniqueIndex (h : HomeEntries e i) {val val' : FieldValue}
    {queueEntry : LockQueueIndexEntry} {lt : Locktype}
    (hs : i.uniqueIndex queueEntry val = some (lt, val', i'))
    (hentry : queueEntry.entry.engineid = e) : HomeEntries e i' := by
  unfold Index.uniqueIndex at hs
  cases ht : i.indexmaptype <;>
    simp only [ht, Option.map_eq_some_iff, Option.some.injEq,
      Prod.mk.injEq, Prod.exists] at hs
  all_goals first
    | exact hs.2.2 ▸ h
    | (obtain ⟨_, _, h1, _, _, rfl⟩ := hs
       exact h.stage h1 hentry)

theorem HomeEntries.ifOwner (h : HomeEntries e i) {m : LockingMap} {key : Key}
    {s : Int} {f : LockingIndexEntry → Option LockingIndexEntry}
    (hs : i.ifOwner m key s f = some i')
    (hf : ∀ x, ∀ y ∈ f x, y.engineid = x.engineid) : HomeEntries e i' := by
  unfold Index.ifOwner at hs
  split at hs
  · exact absurd hs (by simp)
  · next entries hm =>
      split at hs
      · injection hs with hs
        exact hs ▸ h
      · next entry hentry =>
          split at hs
          · injection hs with hs
            exact hs ▸ h
          · exact h.assign hs fun y hy =>
              (hf entry y hy).trans (h m entries hm key entry hentry)

theorem HomeEntries.commitEntry (h : HomeEntries e i) {m : LockingMap}
    {key : Key} {s : Int} (hs : i.commitEntry m key s = some i') : HomeEntries e i' :=
  h.ifOwner hs fun x y hy => by
    rw [← Option.some.inj hy]

theorem HomeEntries.rollbackEntry (h : HomeEntries e i) {m : LockingMap}
    {key : Key} {s : Int} (hs : i.rollbackEntry m key s = some i') :
    HomeEntries e i' :=
  h.ifOwner hs fun _ _ hy => absurd hy (by simp)

theorem HomeEntries.commitRollbackFixed (h : HomeEntries e i)
    {ut ot : Indexmaptype} {um om : LockingMap} {key : Key} {s : Int}
    {cmd : Enginecmd}
    (hs : i.commitRollbackFixed ut ot um om key s cmd = some i') :
    HomeEntries e i' := by
  have hkeep : some i = some i' → HomeEntries e i' := fun heq =>
    Option.some.inj heq ▸ h
  unfold Index.commitRollbackFixed at hs
  split at hs
  · split at hs
    · exact h.commitEntry hs
    · split at hs
      · exact h.commitEntry hs
      · exact hkeep hs
  · split at hs
    · exact h.rollbackEntry hs
    · split at hs
      · exact h.rollbackEntry hs
      · exact hkeep hs
  · exact hkeep hs

theorem HomeEntries.commitRollbackString (h : HomeEntries e i) {key : Key}
    {s : Int} {cmd : Enginecmd}
    (hs : i.commitRollbackString key s cmd = some i') : HomeEntries e i' := by
  have hkeep : some i = some i' → HomeEntries e i' := fun heq =>
    Option.some.inj heq ▸ h
  cases cmd with
  | commitCmd =>
      simp only [Index.commitRollbackString] at hs
      split at hs <;> first
        | exact h.commitEntry hs
        | exact hkeep hs
  | rollbackCmd =>
      cases ht : i.indexmaptype with
      | unorderedcharx =>
          simp only [Index.commitRollbackString, ht] at hs
          split at hs
          · exact absurd hs (by simp)
          · split at hs
            · exact hkeep hs
            · split at hs
              · exact hkeep hs
              · split at hs
                · exact absurd hs (by simp)
                · next i₁ h1 =>
                    exact (h.assign h1 fun _ hx => absurd hx (by simp)
                      ).rollbackEntry hs
      | uniquecharx | uniquevarchar | unorderedvarchar =>
          simp only [Index.commitRollbackString, ht] at hs
          exact h.rollbackEntry hs
      | _ =>
          simp only [Index.commitRollbackString, ht] at hs
          exact hkeep hs
  | _ => exact hkeep hs

theorem HomeEntries.commitRollback (h : HomeEntries e i) {key : Key} {s : Int}
    {cmd : Enginecmd} (hs : i.commitRollback key s cmd = some i') :
    HomeEntries e i' := by
  cases key with
  | str v => exact h.commitRollbackString hs
  | integer | uinteger | boolean | floating | character =>
      exact h.commitRollbackFixed hs

theorem HomeEntries.assignUnique (h : HomeEntries e i) {key : Key}
    {entry : Option LockingIndexEntry}
    (hs : i.assignUnique key entry = some i')
    (hentry : ∀ x ∈ entry, x.engineid = e) : HomeEntries e i' := by
  unfold Index.assignUnique at hs
  split at hs
  all_goals first
    | exact h.assign hs hentry
    | (injection hs with hs
       exact hs ▸ h)

theorem HomeEntries.mapNonunique (h : HomeEntries e i) {key : Key} {f}
    (hs : i.mapNonunique key f = some i') : HomeEntries e i' := by
  obtain ⟨_, _, rfl⟩ := mapNonunique_some hs
  exact h.of_locking rfl

theorem HomeEntries.drain (h : HomeEntries e i) {val : FieldValue}
    (hs : i.drainIndexLockQueue val = some i') : HomeEntries e i' := by
  unfold Index.drainIndexLockQueue at hs
  split at hs
  · injection hs with hs
    exact hs ▸ h
  · split at hs
    · exact absurd hs (by simp)
    · injection hs with hs
      exact h.of_locking (by rw [← hs])

/-- The items keep the addresses, if the one that repoints an entry names the
engine. -/
theorem HomeEntries.applyIndex (h : HomeEntries e i) {s : Int} {cmd : Enginecmd}
    {rof : RowOrField} (hs : SubTransaction.applyIndex s cmd rof i = some i')
    (hreplace : rof.isreplace → rof.fieldVal.isnull = false →
      rof.newengineid = e) : HomeEntries e i' := by
  unfold SubTransaction.applyIndex at hs
  split at hs
  · unfold SubTransaction.applyStaged at hs
    dsimp only at hs
    split at hs
    · exact absurd hs (by simp)
    · next i₁ hended =>
        have h₁ : HomeEntries e i₁ := by
          split at hended
          · injection hended with hended
            exact h.of_locking (by rw [← hended]; rfl)
          · split at hended
            · injection hended with hended
              exact hended ▸ h
            · exact h.commitRollback hended
        split at hs
        · exact h₁.drain hs
        · injection hs with hs
          exact hs ▸ h₁
  · split at hs
    · next hisreplace =>
        unfold SubTransaction.applyReplace at hs
        split at hs
        · injection hs with hs
          exact h.of_locking (by rw [← hs]; rfl)
        · next hnull =>
            split at hs
            · injection hs with hs
              exact hs ▸ h
            · split at hs
              · refine h.assignUnique hs fun x hx => ?_
                rw [← Option.some.inj hx]
                exact hreplace hisreplace (by simpa using hnull)
              · exact h.mapNonunique hs
    · unfold SubTransaction.applyEntry at hs
      split at hs
      · split at hs <;> injection hs with hs
        · exact h.of_locking (by rw [← hs]; rfl)
        · exact h.of_locking (by rw [← hs]; rfl)
      · split at hs
        · injection hs with hs
          exact hs ▸ h
        · split at hs
          · exact h.assignUnique hs fun x hx => absurd hx (by simp)
          · split at hs
            · exact h.mapNonunique hs
            · exact h.mapNonunique hs

theorem drain_samePointers {val : FieldValue}
    (hs : i.drainIndexLockQueue val = some i') : SamePointers i i' := by
  unfold Index.drainIndexLockQueue at hs
  split at hs
  · injection hs with hs
    exact hs ▸ .refl i
  · next key _ =>
      split at hs
      · exact absurd hs (by simp)
      · next queue hqueue =>
          injection hs with hs
          subst hs
          refine ⟨rfl, rfl, rfl, rfl, fun _ => rfl, fun _ => rfl,
            fun q => ?_⟩
          by_cases hq : q = Index.queueMap key
          · simp [hq, hqueue]
          · simp [hq]

theorem applyIndex_samePointers {s : Int} {cmd : Enginecmd}
    {rof : RowOrField}
    (hs : SubTransaction.applyIndex s cmd rof i = some i') :
    SamePointers i i' := by
  have hkeep : some i = some i' → SamePointers i i' := fun heq =>
    Option.some.inj heq ▸ .refl i
  have hnulls : ∀ n, some { i with nulls := n } = some i' →
      SamePointers i i' := fun n heq =>
    Option.some.inj heq ▸ ⟨rfl, rfl, rfl, rfl, fun _ => rfl, fun _ => rfl,
      fun _ => rfl⟩
  unfold SubTransaction.applyIndex at hs
  split at hs
  · unfold SubTransaction.applyStaged at hs
    dsimp only at hs
    split at hs
    · exact absurd hs (by simp)
    · next i₁ hended =>
        have h₁ : SamePointers i i₁ := by
          split at hended
          · exact Option.some.inj hended ▸ ⟨rfl, rfl, rfl, rfl, fun _ => rfl,
              fun _ => rfl, fun _ => rfl⟩
          · split at hended
            · exact Option.some.inj hended ▸ .refl i
            · exact commitRollback_samePointers hended
        split at hs
        · exact h₁.trans (drain_samePointers hs)
        · exact Option.some.inj hs ▸ h₁
  · split at hs
    · unfold SubTransaction.applyReplace at hs
      split at hs
      · exact hnulls _ hs
      · split at hs
        · exact hkeep hs
        · split at hs
          · exact assignUnique_samePointers hs
          · exact mapNonunique_samePointers hs
    · unfold SubTransaction.applyEntry at hs
      split at hs
      · split at hs <;> exact hnulls _ hs
      · split at hs
        · exact hkeep hs
        · split at hs
          · exact assignUnique_samePointers hs
          · split at hs
            · exact mapNonunique_samePointers hs
            · exact mapNonunique_samePointers hs

/-! ## An engine and a message -/

/-- The index of a unique first field is as it was made, and its entries name
the engine. -/
def HomeEngine (schema : Int → List Field) (e : Int) (eng : Engine) : Prop :=
  ∀ tableid, ∃ p, eng.tables tableid = some p ∧
    ∀ f, (schema tableid)[0]? = some f → f.indextype.isunique →
      Made f.indextype f.type (p.index 0) ∧ HomeEntries e (p.index 0)

/-- A message that comes to the engine it names. -/
def HomeMessage (top : Topology) (schema : Int → List Field)
    (m : EngineMessage) : Prop :=
  match m.request with
  | .cmd (.newrow tableid _) => ∀ values, m.origin = some (.insert values) →
      ∀ f, (schema tableid)[0]? = some f →
        (Transaction.getengine top f (values.getD 0 {})).1 = m.engineid
  | .cmd (.uniqueindex tableid _ engineid fieldid _) => fieldid = 0 →
      UniqueFirst (schema tableid) → engineid = m.engineid
  | .rof _ rof => rof.isreplace → rof.fieldid = 0 →
      rof.fieldVal.isnull = false → UniqueFirst (schema rof.tableid) →
        rof.newengineid = m.engineid
  | _ => True

variable {ld : LongDouble} {top : Topology} {schema : Int → List Field}
  {subs : Int → Int → Int} {s : Database} {eng eng' : Engine}

/-- One partition of the engine changes. -/
theorem HomeEngine.update (h : HomeEngine schema e eng) {tableid : Int}
    {p p' : Partition} (hp : eng.tables tableid = some p)
    (hp' : ∀ f, (schema tableid)[0]? = some f → f.indextype.isunique →
      Made f.indextype f.type (p.index 0) → HomeEntries e (p.index 0) →
        Made f.indextype f.type (p'.index 0) ∧ HomeEntries e (p'.index 0)) :
    HomeEngine schema e
      { eng with tables := Function.update eng.tables tableid (some p') } := by
  intro t
  by_cases ht : t = tableid
  · rw [ht]
    obtain ⟨q, hq, hhome⟩ := h tableid
    obtain rfl : p = q := Option.some.inj (hp.symm.trans hq)
    refine ⟨p', Function.update_self .., fun f hf hu => ?_⟩
    obtain ⟨hmade, hentries⟩ := hhome f hf hu
    exact hp' f hf hu hmade hentries
  · obtain ⟨q, hq, hhome⟩ := h t
    exact ⟨q, (Function.update_of_ne ht ..).trans hq, hhome⟩

theorem HomeEngine.onStore (h : HomeEngine schema e eng) {tableid : Int}
    {f : Table → Table} (hs : eng.onStore tableid f = some eng') :
    HomeEngine schema e eng' := by
  obtain ⟨p, hp, rfl⟩ := Option.map_eq_some_iff.mp hs
  exact h.update hp fun _ _ _ hmade hentries => ⟨hmade, hentries⟩

theorem HomeEngine.selectrows (h : HomeEngine schema e eng) {sub : Int}
    {tableid : Int} {rowids : List Int} {lt : Locktype}
    {pendingcmdid tacmdentrypoint : Int} {rows : List ReturnRow}
    (hs : SubTransaction.selectrows sub eng tableid rowids lt pendingcmdid
      tacmdentrypoint = some (rows, eng')) : HomeEngine schema e eng' := by
  unfold SubTransaction.selectrows at hs
  split at hs
  · exact absurd hs (by simp)
  · next p hp =>
      obtain ⟨⟨_, t⟩, _, heq⟩ := Option.map_eq_some_iff.mp hs
      obtain ⟨_, rfl⟩ := Prod.mk.inj heq
      exact h.update hp fun _ _ _ hmade hentries => ⟨hmade, hentries⟩

theorem HomeEngine.uniqueIndex (h : HomeEngine schema e eng) {sub : Int}
    {tableid rowid engineid pendingcmdid tacmdentrypoint : Int} {n : Nat}
    {val : FieldValue} {lt : Locktype}
    (hs : SubTransaction.uniqueIndex sub eng tableid n rowid engineid
      pendingcmdid tacmdentrypoint val = some (lt, eng'))
    (hhome : n = 0 → UniqueFirst (schema tableid) → engineid = e) :
    HomeEngine schema e eng' := by
  unfold SubTransaction.uniqueIndex at hs
  split at hs
  · exact absurd hs (by simp)
  · next p hp =>
      dsimp only at hs
      split at hs
      · exact absurd hs (by simp)
      · next _ _ i hstaged =>
          obtain ⟨_, rfl⟩ := Prod.mk.inj (Option.some.inj hs)
          refine h.update hp fun f hf hu hmade hentries => ?_
          by_cases hn : n = 0
          · subst hn
            simp only [Function.update_self]
            exact ⟨hmade.trans (uniqueIndex_samePointers hstaged),
              hentries.uniqueIndex hstaged (hhome rfl ⟨f, hf, hu⟩)⟩
          · simp only [Function.update_of_ne (Ne.symm hn)]
            exact ⟨hmade, hentries⟩

theorem HomeEngine.applyRof (h : HomeEngine schema e eng) {sub : Int}
    {cmd : Enginecmd} {rof : RowOrField}
    (hs : SubTransaction.applyRof sub cmd eng rof = some eng')
    (hhome : rof.isreplace → rof.fieldid = 0 → rof.fieldVal.isnull = false →
      UniqueFirst (schema rof.tableid) → rof.newengineid = e) :
    HomeEngine schema e eng' := by
  unfold SubTransaction.applyRof at hs
  split at hs
  · exact absurd hs (by simp)
  · next p hp =>
      obtain ⟨p', hp', rfl⟩ := Option.map_eq_some_iff.mp hs
      refine h.update hp fun f hf hu hmade hentries => ?_
      split at hp'
      · obtain ⟨t, _, rfl⟩ := Option.map_eq_some_iff.mp hp'
        exact ⟨hmade, hentries⟩
      · obtain ⟨i₁, hi, rfl⟩ := Option.map_eq_some_iff.mp hp'
        by_cases hn : rof.fieldid = 0
        · rw [hn] at hi
          simp only [hn, Function.update_self]
          exact ⟨hmade.trans (applyIndex_samePointers hi),
            hentries.applyIndex hi fun hr hnull =>
              hhome hr hn hnull ⟨f, hf, hu⟩⟩
        · simp only [Function.update_of_ne (Ne.symm hn)]
          exact ⟨hmade, hentries⟩

/-- A message keeps the entries of the engine it comes to at home. -/
theorem HomeEngine.process {m : EngineMessage} (h : HomeEngine schema e eng)
    (hm : HomeMessage top schema m) (he : m.engineid = e) {sub rowid : Int}
    (hs : SubTransaction.process sub eng m = some (rowid, eng')) :
    HomeEngine schema e eng' := by
  have hstore : ∀ {tableid f}, (eng.onStore tableid f).map ((0 : Int), ·) =
      some (rowid, eng') → HomeEngine schema e eng' := by
    intro tableid f hmap
    obtain ⟨eng₁, hon, heq⟩ := Option.map_eq_some_iff.mp hmap
    exact (Prod.mk.inj heq).2 ▸ h.onStore hon
  unfold SubTransaction.process at hs
  unfold HomeMessage at hm
  split at hs
  · unfold SubTransaction.newrow at hs
    split at hs
    · exact absurd hs (by simp)
    · next p hp =>
        obtain ⟨_, rfl⟩ := Prod.mk.inj (Option.some.inj hs)
        exact h.update hp fun _ _ _ hmade hentries => ⟨hmade, hentries⟩
  · exact hstore hs
  · next hreq =>
      rw [hreq] at hm
      obtain ⟨⟨lt, eng₁⟩, hu, heq⟩ := Option.map_eq_some_iff.mp hs
      exact (Prod.mk.inj heq).2 ▸ h.uniqueIndex hu fun hn hf =>
        (hm hn hf).trans he
  · exact hstore hs
  · exact hstore hs
  · next hreq =>
      rw [hreq] at hm
      obtain ⟨eng₁, happ, heq⟩ := Option.map_eq_some_iff.mp hs
      exact (Prod.mk.inj heq).2 ▸ h.applyRof happ fun hr hn hnull hf =>
        (hm hr hn hnull hf).trans he

/-! ## The database -/

structure HomeInv (top : Topology) (schema : Int → List Field)
    (s : Database) : Prop where
  engines : ∀ e, HomeEngine schema e (s.cluster e)
  sent : ∀ m ∈ s.sent, HomeMessage top schema m

theorem homeInv_new (top : Topology) (schema : Int → List Field)
    (subTransactions : Int → Finset Int) :
    HomeInv top schema (.new schema subTransactions) where
  engines e tableid := by
    refine ⟨_, rfl, fun f hf _ => ?_⟩
    simp only [hf]
    exact ⟨made_makeindex _ _, homeEntries_makeindex _ _⟩
  sent m hm := absurd hm (by simp [Database.new])

theorem HomeInv.send (h : HomeInv top schema s) {sent : List EngineMessage}
    (hsent : ∀ m ∈ sent, HomeMessage top schema m) :
    HomeInv top schema (s.send sent) where
  engines := h.engines
  sent m hm := (List.mem_append.mp hm).elim (h.sent m) (hsent m)

theorem HomeInv.stage (h : HomeInv top schema s) (x : Int) (uur : UuRecord)
    (stagedRow : StagedRow) :
    HomeInv top schema (s.stage x uur stagedRow) where
  engines := h.engines
  sent := h.sent

theorem HomeInv.setEngine (h : HomeInv top schema s)
    (he : HomeEngine schema e eng) :
    HomeInv top schema (s.setEngine e eng) where
  engines e' := by
    show HomeEngine schema e' (Function.update s.cluster e eng e')
    by_cases hee : e' = e
    · rw [hee, Function.update_self]
      exact he
    · rw [Function.update_of_ne hee]
      exact h.engines e'
  sent := h.sent

/-! ### Replies -/

/-- An INSERT stages the entry of its first field where it sent the row. -/
theorem HomeInv.continueSqlInsert (h : HomeInv top schema s)
    {m : EngineMessage} {tableid rowid : Int} {row : Bytes}
    {insertValues : List FieldValue}
    (hm : ∀ f, (schema tableid)[0]? = some f →
      (Transaction.getengine top f (insertValues.getD 0 {})).1 = m.engineid) :
    HomeInv top schema (s.continueSqlInsert top schema m tableid rowid row
      insertValues) := by
  refine (h.send fun m' hm' => ?_).stage ..
  obtain ⟨⟨n, val⟩, hval, rfl⟩ := List.mem_map.mp hm'
  obtain ⟨k, _, hk⟩ := List.mem_filterMap.mp hval
  dsimp only at hk
  split at hk
  · next f v hf hv =>
      split at hk
      · obtain ⟨rfl, rfl⟩ := Prod.mk.inj (Option.some.inj hk)
        intro hn _
        subst hn
        have hfirst := hm f hf
        rw [List.getD_eq_getElem?_getD, hv, Option.getD_some] at hfirst
        exact hfirst.symm
      · exact absurd hk (by simp)
  · exact absurd hk (by simp)

/-- So does a replace, where its new value is at home with the new row. -/
theorem HomeInv.continueSqlReplace (h : HomeInv top schema s)
    {m : EngineMessage} {tableid rowid : Int} {uur : UuRecord}
    {setFields : Statement.SetFields}
    (hm : UniqueFirst (schema tableid) → homeEngineid top (schema tableid)
        ((s.stagedRows m.transactionid uur).getD {}).newRow =
      some ((s.stagedRows m.transactionid uur).getD {}).newengineid) :
    HomeInv top schema (s.continueSqlReplace top schema m tableid rowid uur
      setFields) := by
  refine (h.send fun m' hm' => ?_).stage ..
  rcases List.mem_cons.mp hm' with rfl | hm'
  · trivial
  · obtain ⟨⟨n, val⟩, hval, rfl⟩ := List.mem_map.mp hm'
    obtain ⟨k, _, hk⟩ := List.mem_filterMap.mp hval
    dsimp only at hk
    split at hk
    · next f _ hf _ =>
        split at hk
        · obtain ⟨rfl, rfl⟩ := Prod.mk.inj (Option.some.inj hk)
          intro hn hfirst
          subst hn
          have hhome := hm hfirst
          rw [homeEngineid, hf, Option.map_some] at hhome
          exact (Option.some.inj hhome).symm
        · exact absurd hk (by simp)
    · exact absurd hk (by simp)

theorem HomeInv.deliver (h : HomeInv top schema s) {n : Nat}
    {accepted : Bool} {s' : Database}
    (hok : AtHome top schema s (.deliver n accepted))
    (hs : s.deliver top schema subs n accepted = some s') :
    HomeInv top schema s' := by
  unfold Database.deliver at hs
  split at hs
  · exact absurd hs (by simp)
  · next m hget =>
      obtain ⟨⟨rowid, eng⟩, hprocess, rfl⟩ := Option.map_eq_some_iff.mp hs
      have hm := h.sent m (List.mem_of_getElem? hget)
      have hsent : HomeInv top schema
          { s with sent := s.sent.eraseIdx n } :=
        ⟨h.engines, fun m' hm' => h.sent m' (List.mem_of_mem_eraseIdx hm')⟩
      have hset := hsent.setEngine
        ((h.engines m.engineid).process hm rfl hprocess)
      cases accepted with
      | false => exact hset
      | true =>
          show HomeInv top schema (Database.reply _ top schema m rowid)
          unfold Database.reply
          split
          · next tableid row insertValues hreq horigin =>
              rw [HomeMessage, hreq] at hm
              exact hset.continueSqlInsert (hm insertValues horigin)
          · next tableid row uur setFields hreq horigin =>
              refine hset.continueSqlReplace fun hfirst => ?_
              refine hok (m.transactionid, tableid, uur) ?_ hfirst
              rw [replaceWaiting, hget]
              obtain ⟨x, _, _, _, req, origin⟩ := m
              obtain rfl : req = _ := hreq
              obtain rfl : origin = _ := horigin
              rfl
          · exact hset

/-! ### Statements -/

/-- `makeNewrow` asks the engine of the first value, and leaves that value
so that it is asked again. -/
theorem getengine_makeNewrow {fields : List Field} {values : List FieldValue}
    {new : Statement.Newrow}
    (hs : Statement.makeNewrow top fields values = some new) {f : Field}
    (hf : fields[0]? = some f) :
    (Transaction.getengine top f (new.insertValues.getD 0 {})).1 =
      new.newrowengineid := by
  unfold Statement.makeNewrow at hs
  split at hs
  · next row f' v _ hf' _ =>
      rw [List.head?_eq_getElem?] at hf'
      obtain rfl : f' = f := Option.some.inj (hf'.symm.trans hf)
      rw [← Option.some.inj hs]
      show Transaction.getEngineid top f'
        (Transaction.trimField f' (Transaction.trimField f' v)) = _
      rw [trimField_trimField]
  · exact absurd hs (by simp)

theorem HomeInv.insert (h : HomeInv top schema s)
    {x pendingcmdid tableid : Int} {operands : List Bytes} {s' : Database}
    (hs : s.insert top schema x pendingcmdid tableid operands = some s') :
    HomeInv top schema s' := by
  unfold Database.insert at hs
  split at hs
  · exact absurd hs (by simp)
  · injection hs with hs
    exact hs ▸ h
  · obtain ⟨new, hnew, rfl⟩ := Option.map_eq_some_iff.mp hs
    refine h.send fun m hm => ?_
    obtain rfl := List.mem_singleton.mp hm
    intro values hvalues f hf
    obtain rfl : new.insertValues = values :=
      NewrowOrigin.insert.inj (Option.some.inj hvalues)
    exact getengine_makeNewrow hnew hf

/-- A row that stays is sent no entry of its first field: that is not set. -/
theorem mem_updateUniqueIndices {fields : List Field}
    {setFields : Statement.SetFields} {q : Nat × LockFieldValue}
    (hq : q ∈ Statement.updateUniqueIndices top fields setFields) :
    (setFields q.1).isSome := by
  obtain ⟨n, _, hn⟩ := List.mem_filterMap.mp hq
  split at hn
  · next v f hv _ =>
      split at hn
      · rw [← Option.some.inj hn, hv]
        rfl
      · exact absurd hn (by simp)
  · exact absurd hn (by simp)

theorem HomeInv.update (h : HomeInv top schema s)
    {x pendingcmdid tableid : Int} {parameters : List Bytes}
    {assignments : Statement.Assignments} {setFields : Statement.SetFields}
    {uur : UuRecord} {returnRow : ReturnRow} {s' : Database}
    (hs : s.update ld top schema x pendingcmdid tableid parameters assignments
      setFields uur returnRow = some s') : HomeInv top schema s' := by
  obtain ⟨⟨updated, assignments', setFields'⟩, hrow, rfl⟩ :=
    Option.map_eq_some_iff.mp hs
  refine (h.stage ..).send fun m hm => ?_
  obtain ⟨⟨engineid, cmd⟩, hcmd, rfl⟩ := List.mem_map.mp hm
  unfold Statement.updateRow at hrow
  split at hrow
  · exact absurd hrow (by simp)
  · next setFields'' _ =>
      obtain ⟨hupdated, hrest⟩ := Prod.mk.inj (Option.some.inj hrow)
      obtain ⟨_, rfl⟩ := Prod.mk.inj hrest
      rw [← hupdated] at hcmd
      split at hcmd
      · next hnone =>
          rcases List.mem_append.mp hcmd with hcmd | hcmd
          · obtain ⟨q, hq, heq⟩ := List.mem_map.mp hcmd
            obtain ⟨rfl, rfl⟩ := Prod.mk.inj heq
            intro hn _
            have hset := mem_updateUniqueIndices hq
            rw [hn] at hset
            rw [Option.isNone_iff_eq_none] at hnone
            rw [hnone] at hset
            exact absurd hset (by simp)
          · obtain ⟨rfl, rfl⟩ := Prod.mk.inj (List.mem_singleton.mp hcmd)
            trivial
      · obtain ⟨rfl, rfl⟩ := Prod.mk.inj (List.mem_singleton.mp hcmd)
        intro values hvalues
        exact absurd (Option.some.inj hvalues) (by simp)

theorem HomeInv.finish (h : HomeInv top schema s)
    {items : List (Int × RowOrField)} (x pendingcmdid tacmdentrypoint : Int)
    (cmd : Enginecmd)
    (hitems : ∀ p ∈ items, p.2.isreplace → p.2.fieldid = 0 →
      p.2.fieldVal.isnull = false → UniqueFirst (schema p.2.tableid) →
        p.2.newengineid = p.1) :
    HomeInv top schema (s.finish x pendingcmdid tacmdentrypoint cmd items) := by
  refine h.send fun m hm => ?_
  obtain ⟨p, hp, rfl⟩ := List.mem_map.mp hm
  exact hitems p hp

/-! ### The end of a transaction -/

variable {uur : UuRecord} {sRow : StagedRow}

theorem mem_forFields {fields : List Field}
    {items : Nat → Field → List (Int × RowOrField)} {p : Int × RowOrField}
    (hp : p ∈ Transaction.forFields fields items) :
    ∃ n f, fields[n]? = some f ∧ p ∈ items n f := by
  obtain ⟨n, _, hn⟩ := List.mem_flatMap.mp hp
  split at hn
  · exact absurd hn (by simp)
  · next f hf =>
      split at hn
      · exact absurd hn (by simp)
      · exact ⟨n, f, hf, hn⟩

theorem addItem_not_isreplace {tableid rowid engineid : Int} {n : Nat}
    {f : Field} {v : FieldValue} :
    (Transaction.addItem top tableid n f rowid engineid v).2.isreplace =
      false := by
  unfold Transaction.addItem
  split
  · rfl
  · split <;> rfl

theorem deleteItem_not_isreplace {tableid rowid engineid : Int} {n : Nat}
    {f : Field} {v : FieldValue} :
    (Transaction.deleteItem top tableid n f rowid engineid v).2.isreplace =
      false := by
  unfold Transaction.deleteItem
  split <;> rfl

/-- The one kind of item that repoints an entry. -/
theorem mem_rowItems_isreplace {fields : List Field} {p : Int × RowOrField}
    (hp : p ∈ (Transaction.rowItems top fields uur sRow).1 ∨
      p ∈ (Transaction.rowItems top fields uur sRow).2)
    (hr : p.2.isreplace) :
    sRow.cmd = .update ∧ Transaction.StagedRow.moved sRow ∧
      ∃ n f, fields[n]? = some f ∧
        Transaction.changed ((unmakerow fields sRow.originalRow).getD n {})
          ((unmakerow fields sRow.newRow).getD n {}) = false ∧
        p = Transaction.replaceItem top uur.tableid n f sRow
          ((unmakerow fields sRow.originalRow).getD n {}) := by
  have hrow : ∀ {tableid rowid engineid : Int},
      p ≠ (engineid, Transaction.rowItem tableid rowid) := by
    intro tableid rowid engineid heq
    rw [heq] at hr
    exact absurd hr (by simp [Transaction.rowItem])
  have hupdate : ∀ {moved},
      p ∈ Transaction.updateItems top fields uur sRow moved →
        moved = true ∧ ∃ n f, fields[n]? = some f ∧
          Transaction.changed ((unmakerow fields sRow.originalRow).getD n {})
            ((unmakerow fields sRow.newRow).getD n {}) = false ∧
          p = Transaction.replaceItem top uur.tableid n f sRow
            ((unmakerow fields sRow.originalRow).getD n {}) := by
    intro moved hmem
    obtain ⟨n, f, hf, hitem⟩ := mem_forFields hmem
    unfold Transaction.updateField at hitem
    split at hitem
    · rcases List.mem_cons.mp hitem with rfl | hitem
      · rw [addItem_not_isreplace] at hr
        exact absurd hr (by simp)
      · rw [List.mem_singleton.mp hitem, deleteItem_not_isreplace] at hr
        exact absurd hr (by simp)
    · next hchanged =>
        split at hitem
        · next hmoved =>
            exact ⟨hmoved, n, f, hf, by simpa using hchanged,
              List.mem_singleton.mp hitem⟩
        · exact absurd hitem (by simp)
  unfold Transaction.rowItems at hp
  dsimp only at hp
  cases hcmd : sRow.cmd with
  | nocommand =>
      simp only [hcmd, List.mem_singleton, List.not_mem_nil, or_false] at hp
      exact absurd hp hrow
  | insert =>
      simp only [hcmd, List.mem_cons, List.not_mem_nil, or_false] at hp
      rcases hp with hp | hp
      · exact absurd hp hrow
      · obtain ⟨n, f, _, hitem⟩ := mem_forFields hp
        rw [List.mem_singleton.mp hitem, addItem_not_isreplace] at hr
        exact absurd hr (by simp)
  | delete =>
      simp only [hcmd, List.mem_cons, List.not_mem_nil, or_false] at hp
      rcases hp with hp | hp
      · exact absurd hp hrow
      · obtain ⟨n, f, _, hitem⟩ := mem_forFields hp
        rw [List.mem_singleton.mp hitem, deleteItem_not_isreplace] at hr
        exact absurd hr (by simp)
  | update =>
      simp only [hcmd] at hp
      split at hp
      · next hmoved =>
          simp only [List.mem_cons, List.not_mem_nil, or_false] at hp
          rcases hp with (hp | hp) | hp
          · exact absurd hp hrow
          · exact ⟨rfl, hmoved, (hupdate hp).2⟩
          · exact absurd hp hrow
      · simp only [List.mem_cons, List.not_mem_nil, or_false] at hp
        rcases hp with hp | hp
        · exact absurd hp hrow
        · exact absurd (hupdate hp).1 (by simp)

/-- The entry of the first field is repointed where the new row is, if the
old value is at home there. -/
theorem newengineid_of_isreplace {x pendingcmdid : Int}
    (hok : AtHome top schema s (.commit x pendingcmdid uur))
    (hstaged : s.stagedRows x uur = some sRow) {p : Int × RowOrField}
    (hp : p ∈ (Transaction.rowItems top (schema uur.tableid) uur sRow).1 ∨
      p ∈ (Transaction.rowItems top (schema uur.tableid) uur sRow).2)
    (hr : p.2.isreplace) (hn : p.2.fieldid = 0)
    (hnull : p.2.fieldVal.isnull = false)
    (hfirst : UniqueFirst (schema p.2.tableid)) : p.2.newengineid = p.1 := by
  obtain ⟨hcmd, hmoved, n, f, hf, hchanged, rfl⟩ :=
    mem_rowItems_isreplace hp hr
  have hfield : (Transaction.replaceItem top uur.tableid n f sRow
      ((unmakerow (schema uur.tableid) sRow.originalRow).getD n {})).2.fieldid =
        n := by
    unfold Transaction.replaceItem
    dsimp only
    split <;> rfl
  obtain rfl : n = 0 := hfield.symm.trans hn
  unfold Transaction.replaceItem at hnull hfirst ⊢
  dsimp only at hnull hfirst ⊢
  split at hnull
  · next hisnull => exact absurd (hnull.symm.trans hisnull) (by simp)
  · next hisnull =>
      rw [if_neg hisnull] at hfirst ⊢
      have hunchanged : movedUnchanged (schema uur.tableid) sRow := by
        unfold movedUnchanged
        dsimp only
        rw [hcmd, hmoved, hchanged, Bool.eq_false_of_not_eq_true hisnull]
        rfl
      have hhome := hok sRow hstaged hfirst hunchanged
      rw [homeEngineid, hf, Option.map_some] at hhome
      exact (Option.some.inj hhome).symm

theorem HomeInv.commit (h : HomeInv top schema s) {x pendingcmdid : Int}
    (hok : AtHome top schema s (.commit x pendingcmdid uur))
    (hstaged : s.stagedRows x uur = some sRow) :
    HomeInv top schema ((s.finish x pendingcmdid 2 .commitCmd
      (Transaction.rowItems top (schema uur.tableid) uur sRow).1).finish x
        pendingcmdid 3 .commitCmd
        (Transaction.rowItems top (schema uur.tableid) uur sRow).2) :=
  (h.finish x pendingcmdid 2 .commitCmd fun _ hp hr hn hnull hfirst =>
    newengineid_of_isreplace hok hstaged (.inl hp) hr hn hnull hfirst).finish
    x pendingcmdid 3 .commitCmd fun _ hp hr hn hnull hfirst =>
      newengineid_of_isreplace hok hstaged (.inr hp) hr hn hnull hfirst

theorem HomeInv.rollback (h : HomeInv top schema s) (x pendingcmdid : Int) :
    HomeInv top schema (s.finish x pendingcmdid 0 .rollbackCmd
      (Transaction.rollbackItems uur sRow)) := by
  refine h.finish x pendingcmdid 0 .rollbackCmd fun p hp hr => ?_
  have hnot : p.2.isreplace = false := by
    unfold Transaction.rollbackItems at hp
    rcases List.mem_append.mp hp with hp | hp
    · split at hp
      · rw [List.mem_singleton.mp hp]
        rfl
      · exact absurd hp (by simp)
    · rcases List.mem_cons.mp hp with rfl | hp
      · rfl
      · obtain ⟨q, _, rfl⟩ := List.mem_map.mp hp
        rfl
  exact absurd (hnot.symm.trans hr) (by simp)

/-! ## The search -/

/-- What a unique index has under a value. -/
theorem getequal_eq {m : LockingMap} {q : LockQueueMap} {val : FieldValue}
    {key : Key} (hon : UniqueOn m q i)
    (hkey : val.key i.fieldtype = some key) :
    i.getequal key = some ((entries i key.trim).toList.map rowOf) := by
  have hmap := hon.maptype
  have hentries := hon.entries_eq
  rw [← hon.fieldtype] at hkey
  cases ht : i.indexmaptype <;>
    simp only [ht, Indexmaptype.lockingMap, fieldtypeOf, FieldValue.key,
      Option.some.injEq, Prod.mk.injEq, reduceCtorEq] at hmap hkey
  all_goals
    obtain ⟨rfl, rfl⟩ := hmap
    subst hkey
    simp only [Index.getequal, Key.trim, ht, Index.findEntry, hentries,
      Option.map_some]
    rfl

/-- There is one hit at most, and it names the engine it was found at. -/
theorem indexSearch_home (h : HomeEngine schema e eng) {tableid : Int}
    {f : Field} (hf : (schema tableid)[0]? = some f)
    (hu : f.indextype.isunique = true) (value : FieldValue) :
    SubTransaction.indexSearch eng tableid 0 value = some [] ∨
      ∃ hit, SubTransaction.indexSearch eng tableid 0 value = some [hit] ∧
        hit.engineid = e := by
  obtain ⟨p, hp, hhome⟩ := h tableid
  obtain ⟨hmade, hentries⟩ := hhome f hf hu
  rw [SubTransaction.indexSearch, hp]
  dsimp only
  have hft : (p.index 0).fieldtype = f.type := hmade.fieldtype
  cases hkey : value.key (p.index 0).fieldtype with
  | none => exact .inl rfl
  | some key =>
      have htype : f.type ≠ .nofieldtype := by
        intro hno
        rw [hft, hno] at hkey
        exact absurd hkey (by simp [FieldValue.key])
      obtain ⟨m, q, hon⟩ := uniqueOn_of_made hmade hu htype
      dsimp only
      rw [getequal_eq hon hkey]
      cases hentry : entries (p.index 0) key.trim with
      | none => exact .inl rfl
      | some entry =>
          exact .inr ⟨rowOf entry, rfl,
            hentries m _ hon.entries_eq key.trim entry hentry⟩

/-- Where the entries are at home, both forms give the same. -/
theorem HomeInv.sameAnswer (h : HomeInv top schema s) {x : Int}
    {p : EqualPredicate} (hp : OnFirstField schema p)
    (hok : AtHome top schema s (.sqlPredicate x p)) :
    SameAnswer top (subs x) p s.cluster := by
  have hempty := hok hp
  obtain ⟨hfieldid, hf, hu⟩ := hp
  unfold SameAnswer Transaction.searchReturn1 Transaction.indexSearch
  rw [hfieldid]
  unfold SubTransaction.searchReturn1
  rcases indexSearch_home (h.engines _) hf hu p.value with hnone | ⟨hit, hhit,
    hhome⟩
  · have hresults : p.predicateResults = fun _ => none :=
      funext (hempty hnone)
    simp only [hnone, Option.map_some, Function.update_eq_self,
      Transaction.takeReturnRows, hresults]
    rfl
  · simp only [hhit, hhome]

theorem HomeInv.setCluster (h : HomeInv top schema s) {tableid : Int}
    {rowids : List Int} {lt : Locktype} {sub pendingcmdid : Int}
    {rows : List ReturnRow}
    (hs : SubTransaction.selectrows sub (s.cluster e) tableid rowids lt
      pendingcmdid 2 = some (rows, eng)) :
    HomeInv top schema
      { s with cluster := Function.update s.cluster e eng } :=
  h.setEngine ((h.engines e).selectrows hs)

/-- A search changes rows only. -/
theorem HomeInv.sqlPredicate (h : HomeInv top schema s) {sub : Int → Int}
    {p : EqualPredicate} {r : Predicated} {c : Cluster}
    (hs : Transaction.sqlPredicate top sub p s.cluster = some (r, c)) :
    HomeInv top schema { s with cluster := c } := by
  unfold Transaction.sqlPredicate at hs
  split at hs
  · obtain ⟨⟨rows, eng⟩, hsearch, heq⟩ := Option.map_eq_some_iff.mp hs
    obtain ⟨_, rfl⟩ := Prod.mk.inj heq
    unfold SubTransaction.searchReturn1 at hsearch
    split at hsearch
    · exact absurd hsearch (by simp)
    · exact h.setCluster hsearch
    · obtain ⟨_, rfl⟩ := Prod.mk.inj (Option.some.inj hsearch)
      rw [Function.update_eq_self]
      exact h
  · unfold Transaction.indexSearch at hs
    split at hs
    · exact absurd hs (by simp)
    · obtain ⟨_, rfl⟩ := Prod.mk.inj (Option.some.inj hs)
      exact h
    · obtain ⟨⟨rows, eng⟩, hsearch, heq⟩ := Option.map_eq_some_iff.mp hs
      obtain ⟨_, rfl⟩ := Prod.mk.inj heq
      exact h.setCluster hsearch
    · exact absurd hs (by simp)

/-! ## Runs -/

theorem step_homeInv (h : HomeInv top schema s) {op : DatabaseOp}
    {s' : Database} (hok : AtHome top schema s op)
    (hs : s.step ld top schema subs op = some s') : HomeInv top schema s' := by
  cases op with
  | insert => exact h.insert hs
  | update => exact h.update hs
  | deliver => exact h.deliver hok hs
  | delete x pendingcmdid uur returnRow =>
      injection hs with hs
      rw [← hs]
      refine (h.stage ..).send fun m hm => ?_
      rw [List.mem_singleton.mp hm]
      trivial
  | select x uur returnRow =>
      injection hs with hs
      rw [← hs, Database.select]
      split
      · exact h
      · exact h.stage ..
  | selectrows =>
      obtain ⟨⟨_, eng⟩, hselect, rfl⟩ := Option.map_eq_some_iff.mp hs
      exact h.setEngine ((h.engines _).selectrows hselect)
  | sqlPredicate x p =>
      obtain ⟨⟨_, c⟩, hsearch, rfl⟩ := Option.map_eq_some_iff.mp hs
      exact h.sqlPredicate hsearch
  | commit x pendingcmdid uur =>
      obtain ⟨sRow, hstaged, rfl⟩ := Option.map_eq_some_iff.mp hs
      exact h.commit hok hstaged
  | rollback x pendingcmdid uur =>
      obtain ⟨sRow, _, rfl⟩ := Option.map_eq_some_iff.mp hs
      exact h.rollback x pendingcmdid

theorem fastPathAgrees_of_homeInv (h : HomeInv top schema s)
    {op : DatabaseOp} (hok : AtHome top schema s op) :
    FastPathAgrees top schema subs s op := by
  cases op with
  | sqlPredicate x p => exact fun hp => h.sameAnswer hp hok
  | _ => trivial

/-- In a run whose replaces and commits keep rows and entries at home, every
search on a unique first field that finds an entry, or nothing staged, gives
the same by either form. -/
theorem allCalls_fastPathAgrees (ld : LongDouble) (top : Topology)
    (schema : Int → List Field) (subs : Int → Int → Int)
    (subTransactions : Int → Finset Int) (ops : List DatabaseOp)
    (hok : AllCalls (Database.step ld top schema subs) (AtHome top schema)
      (Database.new schema subTransactions) ops) :
    AllCalls (Database.step ld top schema subs)
      (FastPathAgrees top schema subs) (Database.new schema subTransactions)
      ops :=
  AllCalls.imp_of_inv (J := HomeInv top schema)
    (fun _ _ _ h hc hs => step_homeInv h hc hs)
    (fun _ _ h hc => fastPathAgrees_of_homeInv h hc)
    (homeInv_new top schema subTransactions) hok

/-! ### A CHAR(1) field, set to a string that fits and to one that does not -/

/-- Two partitions; a string is hashed to its length. -/
def byLength : Topology where
  numpartitions := 2
  hash64 bytes := bytes.length

def oneCharFields (_ : Int) : List Field :=
  [{ type := .charx, length := 1, indextype := .unique }]

def firstOperand : LongDouble where
  add a _ := a
  sub a _ := a
  mul a _ := a
  div a _ := a
  toInteger _ := 0

/-- One transaction inserts 'c' and commits, another sets the field and
commits. -/
def setTo (value : Bytes) : List DatabaseOp :=
  [.insert 1 1 1 [operandString :: [99]], .deliver 0 true, .deliver 0 true,
    .commit 1 2 ⟨1, 1, 1⟩, .deliver 0 true, .deliver 0 true,
    .selectrows 2 1 1 [1] .writeLock 1 2,
    .update 2 2 1 [] [(0, .operand (operandString :: value))] (fun _ => none)
      ⟨1, 1, 1⟩ { rowid := 1, row := [0, 99], locktype := .writeLock },
    .deliver 0 true, .deliver 0 true, .deliver 0 true,
    .commit 2 3 ⟨1, 1, 1⟩, .deliver 0 true, .deliver 0 true, .deliver 0 true,
    .deliver 0 true]

def charEqual (value : Bytes) : EqualPredicate where
  tableid := 1
  fieldid := 0
  field := { type := .charx, length := 1, indextype := .unique }
  value := { str := value }
  locktype := .noLock
  pendingcmdid := 1
  predicateResults _ := none

/-- A third transaction searches for a value. -/
def lookFor (value : Bytes) : DatabaseOp := .sqlPredicate 3 (charEqual value)

/-- The condition can be computed, but for the searches. -/
noncomputable instance decidableAtHome (top : Topology)
    (schema : Int → List Field) (s : Database) :
    (op : DatabaseOp) → Decidable (AtHome top schema s op)
  | .deliver n true =>
      have (fields : List Field) : Decidable (UniqueFirst fields) :=
        inferInstanceAs (Decidable (∃ f ∈ fields[0]?, f.indextype.isunique))
      inferInstanceAs (Decidable (∀ q ∈ replaceWaiting s n,
        UniqueFirst (schema q.2.1) →
          homeEngineid top (schema q.2.1)
              ((s.stagedRows q.1 q.2.2).getD {}).newRow =
            some ((s.stagedRows q.1 q.2.2).getD {}).newengineid))
  | .commit x _ uur =>
      have (fields : List Field) : Decidable (UniqueFirst fields) :=
        inferInstanceAs (Decidable (∃ f ∈ fields[0]?, f.indextype.isunique))
      inferInstanceAs (Decidable (∀ sRow ∈ s.stagedRows x uur,
        UniqueFirst (schema uur.tableid) →
          movedUnchanged (schema uur.tableid) sRow →
          homeEngineid top (schema uur.tableid) sRow.originalRow =
            some sRow.newengineid))
  | .sqlPredicate .. => Classical.propDecidable _
  | .deliver _ false | .insert .. | .update .. | .delete .. | .select ..
  | .selectrows .. | .rollback .. => inferInstanceAs (Decidable True)

def runSetTo (value : Bytes) : Option Database :=
  run (Database.step firstOperand byLength oneCharFields fun x _ => x)
    (Database.new oneCharFields fun _ => {1, 2, 3}) (setTo value)

/-- The rows that a search brings, of the three addresses there are. -/
def rowsBrought (r : Option (Except Apistatus SearchResults × Cluster)) :
    Option (List Bytes) :=
  r.bind fun (searched, _) =>
    match searched with
    | .error _ => none
    | .ok results =>
        some (([⟨1, 1, 0⟩, ⟨1, 1, 1⟩, ⟨2, 1, 1⟩].filterMap results).map (·.row))

/-- What the third transaction is brought, by either form. -/
def bothForms (value : Bytes) (s : Database) :
    Option (List Bytes) × Option (List Bytes) :=
  (rowsBrought ((Transaction.searchReturn1 byLength (fun _ => 3)
      (charEqual value) s.cluster).map fun r => (r.1.searchResults, r.2)),
    rowsBrought ((Transaction.indexSearch byLength (fun _ => 3)
      (charEqual value) s.cluster).map fun r => (r.1.searchResults, r.2)))

/-- A string that fits: the row is found, by its new value. -/
theorem allCalls_fastPathAgrees_fits :
    (runSetTo [98]).map (bothForms [98]) =
        some (some [[0, 98]], some [[0, 98]]) ∧
      AllCalls (Database.step firstOperand byLength oneCharFields fun x _ => x)
        (FastPathAgrees byLength oneCharFields fun x _ => x)
        (Database.new oneCharFields fun _ => {1, 2, 3})
        (setTo [98] ++ [lookFor [98]]) := by
  refine ⟨by decide +kernel, allCalls_fastPathAgrees _ _ _ _ _ _ ?_⟩
  exact AllCalls.concat (by decide +kernel) fun _ _ _ _ _ => rfl

/-- Of 'ab' the row keeps 'a', and the entry of 'a' is at the partition of
'a', while the row has gone to that of 'ab'. -/
theorem tooLong_not_fastPathAgrees :
    ¬ AllCalls
      (Database.step firstOperand byLength oneCharFields fun x _ => x)
      (FastPathAgrees byLength oneCharFields fun x _ => x)
      (Database.new oneCharFields fun _ => {1, 2, 3})
      (setTo [97, 98] ++ [lookFor [97]]) := by
  intro h
  have hrun : (runSetTo [97, 98]).map (bothForms [97]) =
      some (some [], some [[0, 97]]) := by
    decide +kernel
  obtain ⟨s, hs, heq⟩ := Option.map_eq_some_iff.mp hrun
  obtain ⟨hfast, htwo⟩ := Prod.mk.inj heq
  have hsame : SameAnswer byLength (fun _ => 3) (charEqual [97]) s.cluster :=
    h.at_end hs ⟨rfl, rfl, rfl⟩
  have hrows := congrArg rowsBrought hsame
  rw [hfast, htwo] at hrows
  exact absurd hrows (by decide)

end Infinisql.Proofs
