import Infinisql.Lib.Run
import Infinisql.Spec.Replica

/-!
# Records at a replica

An INSERT is applied when it comes: its row is not there yet. The other two
never are. An UPDATE is put aside exactly because the row is there, and it
stays aside as long as it is. A DELETE asks for a row that its own
subtransaction wrote, and that subtransaction only deletes. So the replica has
the rows of the serial history, with nothing put aside, for the histories that
only insert.
-/

namespace Infinisql.Proofs

open Infinisql.Lib Infinisql.Ref Infinisql.Spec

/-! ## The statement -/

/-- The messages of a history of records, in the order they arrive. -/
structure CarriesRows (commits : Commits DispatchRecord)
    (msgs : List MessageApply) : Prop where
  perm : (msgs.map fun m => (m.subtransactionid, m.rows)).Perm commits
  indices : ∀ m ∈ msgs, m.indices = []

/-- What has arrived. -/
def arrivedRows (msgs : List MessageApply) : List (Int × DispatchRecord) :=
  Commits.items (msgs.map fun m => (m.subtransactionid, m.rows))

/-- A record that has arrived and is not put aside. -/
def AppliedRecord (msgs : List MessageApply) (e : ReplicaEngine)
    (x : Int × DispatchRecord) : Prop :=
  x ∈ arrivedRows msgs ∧
    ¬ ∃ b, (x.1, b) ∈ e.backgrounded ∧ x.2 ∈ b.rows

/-- Every record that has been applied has had its predecessor applied. -/
def PredecessorsApplied (msgs : List MessageApply) (e : ReplicaEngine) :
    Prop :=
  ∀ x, AppliedRecord msgs e x → x.2.primitive ≠ .insert →
    ∃ y, AppliedRecord msgs e y ∧ y.1 = x.2.previoussubtransactionid ∧
      y.2.tableid = x.2.tableid ∧ y.2.rowid = x.2.rowid

/-- The replica follows the history: no record comes before its predecessor,
and at the end the rows are those of the history. -/
structure FollowsRows (schema : Int → List Field) (rows : SerialRows)
    (msgs : List MessageApply) : Prop where
  predecessors : ∀ pre e, pre <+: msgs →
    run ReplicaEngine.apply (.new schema) pre = some e →
    PredecessorsApplied pre e
  rows : ∃ e, run ReplicaEngine.apply (.new schema) msgs = some e ∧
    e.backgrounded = [] ∧
    ∀ tableid rowid, (e.rows tableid rowid).map AppliedRow.row =
      (rows tableid rowid).map Prod.snd

/-! ## The items of a history -/

theorem mem_items {α : Type} {commits : Commits α} {x : Int × α} :
    x ∈ commits.items ↔ ∃ c ∈ commits, x.1 = c.1 ∧ x.2 ∈ c.2 := by
  rw [Commits.items, List.mem_flatMap]
  constructor
  · rintro ⟨c, hc, hx⟩
    obtain ⟨a, ha, rfl⟩ := List.mem_map.mp hx
    exact ⟨c, hc, rfl, ha⟩
  · rintro ⟨c, hc, h1, h2⟩
    exact ⟨c, hc, List.mem_map.mpr ⟨x.2, h2, by rw [← h1]⟩⟩

theorem items_append {α : Type} (as bs : Commits α) :
    Commits.items (as ++ bs) = as.items ++ bs.items :=
  List.flatMap_append

theorem items_perm {α : Type} {as bs : Commits α} (h : as.Perm bs) :
    as.items.Perm bs.items :=
  h.flatMap_right _

theorem arrivedRows_concat (msgs : List MessageApply) (m : MessageApply) :
    arrivedRows (msgs ++ [m]) =
      arrivedRows msgs ++ m.rows.map fun r => (m.subtransactionid, r) := by
  rw [arrivedRows, List.map_append, items_append]
  simp [Commits.items, arrivedRows]

/-- Of one subtransaction, a row has one record. -/
theorem record_unique {commits : Commits DispatchRecord} {rows : SerialRows}
    (h : RowHistory commits rows) {x y : Int × DispatchRecord}
    (hx : x ∈ commits.items) (hy : y ∈ commits.items) (hid : x.1 = y.1)
    (htable : x.2.tableid = y.2.tableid) (hrow : x.2.rowid = y.2.rowid) :
    x = y := by
  obtain ⟨c, hc, hx1, hx2⟩ := mem_items.mp hx
  obtain ⟨d, hd, hy1, hy2⟩ := mem_items.mp hy
  have hcd : c = d := by
    refine List.inj_on_of_nodup_map h.ids hc hd ?_
    rw [← hx1, ← hy1, hid]
  subst hcd
  have hr : x.2 = y.2 := by
    refine List.inj_on_of_nodup_map (h.once c hc) hx2 hy2 ?_
    exact Prod.ext htable hrow
  exact Prod.ext hid hr

/-! ## What is put aside -/

theorem mem_background (msg : MessageApply) (push : Background → Background)
    {id : Int} {b : Background} :
    ∀ {bs : List (Int × Background)}, (id, b) ∈ bs →
      (id, b) ∈ ReplicaEngine.background msg push bs ∨
        (id, push b) ∈ ReplicaEngine.background msg push bs := by
  intro bs
  induction bs with
  | nil => exact fun h => absurd h (by simp)
  | cons c bs ih =>
      intro h
      obtain ⟨id', b'⟩ := c
      rw [ReplicaEngine.background]
      rcases List.mem_cons.mp h with heq | h
      · obtain ⟨rfl, rfl⟩ := Prod.mk.inj heq
        split
        · exact .inr List.mem_cons_self
        · exact .inl List.mem_cons_self
      · split
        · exact .inl (List.mem_cons_of_mem _ h)
        · rcases ih h with h | h
          · exact .inl (List.mem_cons_of_mem _ h)
          · exact .inr (List.mem_cons_of_mem _ h)

/-- The set of the message has what was pushed. -/
theorem exists_background (msg : MessageApply)
    (push : Background → Background) :
    ∀ bs : List (Int × Background),
      ∃ b, (msg.subtransactionid, push b) ∈
        ReplicaEngine.background msg push bs := by
  intro bs
  induction bs with
  | nil => exact ⟨_, List.mem_cons_self⟩
  | cons c bs ih =>
      obtain ⟨id, b⟩ := c
      rw [ReplicaEngine.background]
      split
      · next heq => exact ⟨b, heq ▸ List.mem_cons_self⟩
      · obtain ⟨b', hb'⟩ := ih
        exact ⟨b', List.mem_cons_of_mem _ hb'⟩

theorem retry_eq_some {e e' : ReplicaEngine} (h : e.retry = some e') :
    e' = e := by
  rw [ReplicaEngine.retry] at h
  split at h
  · exact (Option.some.inj h).symm
  · exact absurd h (by simp)

theorem rows_ackApply (msg : MessageApply) (e : ReplicaEngine) :
    (ReplicaEngine.ackApply msg e).rows = e.rows := by
  rw [ReplicaEngine.ackApply]
  split <;> rfl

theorem backgrounded_ackApply (msg : MessageApply) (e : ReplicaEngine) :
    (ReplicaEngine.ackApply msg e).backgrounded = e.backgrounded := by
  rw [ReplicaEngine.ackApply]
  split <;> rfl

/-- A message of records only is its loop over them. -/
theorem apply_rows {e e' : ReplicaEngine} {msg : MessageApply}
    (hindices : msg.indices = []) (h : e.apply msg = some e') :
    ∃ e₁, ReplicaEngine.applyRows msg msg.rows e = some e₁ ∧
      e'.rows = e₁.rows ∧ e'.backgrounded = e₁.backgrounded := by
  rw [ReplicaEngine.apply, Option.bind_eq_some_iff] at h
  obtain ⟨e₁, h1, h2⟩ := h
  rw [hindices, ReplicaEngine.applyIndices] at h2
  obtain rfl := retry_eq_some h2
  exact ⟨e₁, h1, rows_ackApply msg e₁, backgrounded_ackApply msg e₁⟩

/-! ## What is never applied -/

/-- Every row was inserted by the subtransaction it names, and every other
record is put aside. -/
structure OnlyInserted (got : List (Int × DispatchRecord))
    (e : ReplicaEngine) : Prop where
  rows : ∀ tableid rowid row, e.rows tableid rowid = some row →
    ∃ x ∈ got, x.2.primitive = .insert ∧ x.2.tableid = tableid ∧
      x.2.rowid = rowid ∧ x.1 = row.previoussubtransactionid
  aside : ∀ x ∈ got, x.2.primitive ≠ .insert →
    ∃ b, (x.1, b) ∈ e.backgrounded ∧ x.2 ∈ b.rows

theorem OnlyInserted.background {got : List (Int × DispatchRecord)}
    {e : ReplicaEngine} (h : OnlyInserted got e) (msg : MessageApply)
    (r : DispatchRecord) :
    OnlyInserted (got ++ [(msg.subtransactionid, r)]) { e with
      backgrounded := ReplicaEngine.background msg
        (fun b => { b with rows := b.rows ++ [r] }) e.backgrounded } := by
  constructor
  · intro tableid rowid row hrow
    obtain ⟨x, hx, hrest⟩ := h.rows tableid rowid row hrow
    exact ⟨x, List.mem_append_left _ hx, hrest⟩
  · intro x hx hne
    rcases List.mem_append.mp hx with hx | hx
    · obtain ⟨b, hb, hr⟩ := h.aside x hx hne
      rcases mem_background msg
        (fun b => { b with rows := b.rows ++ [r] }) hb with hb | hb
      · exact ⟨b, hb, hr⟩
      · exact ⟨_, hb, List.mem_append_left _ hr⟩
    · obtain rfl := List.mem_singleton.mp hx
      obtain ⟨b, hb⟩ := exists_background msg
        (fun b => { b with rows := b.rows ++ [r] }) e.backgrounded
      exact ⟨_, hb, List.mem_append_right _ (List.mem_singleton_self r)⟩

/-- An INSERT that is applied. -/
theorem OnlyInserted.insert {got : List (Int × DispatchRecord)}
    {e : ReplicaEngine} (h : OnlyInserted got e) {s : Int}
    {r : DispatchRecord} (hr : r.primitive = .insert) :
    OnlyInserted (got ++ [(s, r)]) { e with
      rows := Function.update e.rows r.tableid
        (Function.update (e.rows r.tableid) r.rowid
          (some ⟨s, r.row⟩)) } := by
  constructor
  · intro tableid rowid row hrow
    have hold : e.rows tableid rowid = some row →
        ∃ x ∈ got ++ [(s, r)], x.2.primitive = .insert ∧
          x.2.tableid = tableid ∧ x.2.rowid = rowid ∧
          x.1 = row.previoussubtransactionid := by
      intro hrow
      obtain ⟨x, hx, hrest⟩ := h.rows tableid rowid row hrow
      exact ⟨x, List.mem_append_left _ hx, hrest⟩
    dsimp only at hrow
    by_cases htable : tableid = r.tableid
    · subst htable
      rw [Function.update_self] at hrow
      by_cases hid : rowid = r.rowid
      · subst hid
        rw [Function.update_self] at hrow
        obtain rfl := Option.some.inj hrow
        exact ⟨_, List.mem_append_right _ (List.mem_singleton_self _), hr, rfl,
          rfl, rfl⟩
      · rw [Function.update_of_ne hid] at hrow
        exact hold hrow
    · rw [Function.update_of_ne htable] at hrow
      exact hold hrow
  · intro x hx hne
    rcases List.mem_append.mp hx with hx | hx
    · exact h.aside x hx hne
    · obtain rfl := List.mem_singleton.mp hx
      exact absurd hr hne

/-- The loop, for records that are the only ones of their subtransaction and
row. -/
theorem onlyInserted_applyRows {all : List (Int × DispatchRecord)}
    (hall : ∀ x ∈ all, ∀ y ∈ all, x.1 = y.1 → x.2.tableid = y.2.tableid →
      x.2.rowid = y.2.rowid → x = y) {msg : MessageApply} :
    ∀ {records : List DispatchRecord} {got : List (Int × DispatchRecord)}
      {e e' : ReplicaEngine},
      (got ++ records.map fun r => (msg.subtransactionid, r)) ⊆ all →
      OnlyInserted got e → ReplicaEngine.applyRows msg records e = some e' →
      OnlyInserted (got ++ records.map fun r => (msg.subtransactionid, r))
        e' := by
  intro records
  induction records with
  | nil =>
      intro got e e' _ h hs
      obtain rfl := Option.some.inj hs
      rw [List.map_nil, List.append_nil]
      exact h
  | cons r records ih =>
      intro got e e' hsub h hs
      have hassoc : got ++ (r :: records).map
            (fun r => (msg.subtransactionid, r)) =
          (got ++ [(msg.subtransactionid, r)]) ++ records.map
            fun r => (msg.subtransactionid, r) := by simp
      rw [hassoc] at hsub ⊢
      have haside : ReplicaEngine.applyRows msg records { e with
            backgrounded := ReplicaEngine.background msg
              (fun b => { b with rows := b.rows ++ [r] }) e.backgrounded } =
            some e' →
          OnlyInserted ((got ++ [(msg.subtransactionid, r)]) ++ records.map
            fun r => (msg.subtransactionid, r)) e' :=
        ih hsub (h.background msg r)
      have hmem : ∀ x ∈ got, x ∈ all := fun x hx =>
        hsub (List.mem_append_left _ (List.mem_append_left _ hx))
      have hthis : (msg.subtransactionid, r) ∈ all :=
        hsub (List.mem_append_left _ (List.mem_append_right _
          (List.mem_singleton_self _)))
      rw [ReplicaEngine.applyRows] at hs
      cases hp : r.primitive with
      | nocommand =>
          rw [applyRecord, hp] at hs
          exact haside hs
      | insert =>
          rw [applyRecord, hp] at hs
          cases hrow : e.rows r.tableid r.rowid with
          | some row =>
              rw [hrow] at hs
              exact haside hs
          | none =>
              rw [hrow] at hs
              exact ih hsub (h.insert hp) hs
      | update =>
          rw [applyRecord, hp] at hs
          cases hrow : e.rows r.tableid r.rowid with
          | some row =>
              rw [hrow] at hs
              exact haside hs
          | none =>
              rw [hrow] at hs
              exact absurd hs (by simp)
      | delete =>
          rw [applyRecord, hp] at hs
          cases hrow : e.rows r.tableid r.rowid with
          | none =>
              rw [hrow] at hs
              exact haside hs
          | some row =>
              -- The row is of an INSERT, so of another subtransaction.
              obtain ⟨x, hx, hins, htable, hid, hsame⟩ := h.rows _ _ _ hrow
              have hne : row.previoussubtransactionid ≠
                  msg.subtransactionid := by
                intro heq
                have hxr := hall x (hmem x hx) _ hthis (hsame.trans heq)
                  htable hid
                rw [hxr, hp] at hins
                exact absurd hins (by simp)
              rw [hrow] at hs
              dsimp only at hs
              rw [if_pos hne] at hs
              exact haside hs

theorem OnlyInserted.congr {got : List (Int × DispatchRecord)}
    {e e' : ReplicaEngine} (h : OnlyInserted got e) (hrows : e'.rows = e.rows)
    (haside : e'.backgrounded = e.backgrounded) : OnlyInserted got e' :=
  ⟨hrows ▸ h.rows, haside ▸ h.aside⟩

/-- At every moment, what has been applied is INSERTs. -/
theorem onlyInserted_run {commits : Commits DispatchRecord}
    {rows : SerialRows} (h : RowHistory commits rows)
    (schema : Int → List Field) {msgs : List MessageApply}
    (hmsgs : CarriesRows commits msgs) :
    ∀ {pre : List MessageApply} {e : ReplicaEngine}, pre <+: msgs →
      run ReplicaEngine.apply (.new schema) pre = some e →
      OnlyInserted (arrivedRows pre) e := by
  have hall : ∀ x ∈ arrivedRows msgs, ∀ y ∈ arrivedRows msgs, x.1 = y.1 →
      x.2.tableid = y.2.tableid → x.2.rowid = y.2.rowid → x = y := by
    intro x hx y hy
    have hperm := items_perm hmsgs.perm
    exact record_unique h (hperm.mem_iff.mp hx) (hperm.mem_iff.mp hy)
  intro pre
  induction pre using List.reverseRecOn with
  | nil =>
      intro e _ hrun
      obtain rfl := Option.some.inj hrun
      exact ⟨fun _ _ _ h => absurd h (by simp [ReplicaEngine.new]),
        fun _ h => absurd h (by simp [arrivedRows, Commits.items])⟩
  | append_singleton pre m ih =>
      intro e hpre hrun
      obtain ⟨e₁, h1, h2⟩ := run_append.mp hrun
      obtain ⟨e₂, h3, hend⟩ := run_cons.mp h2
      obtain rfl : e₂ = e := Option.some.inj hend
      have hm : m ∈ msgs := hpre.subset (by simp)
      obtain ⟨e₃, h4, h5, h6⟩ := apply_rows (hmsgs.indices m hm) h3
      have hsub : arrivedRows (pre ++ [m]) ⊆ arrivedRows msgs := by
        intro x hx
        obtain ⟨c, hc, hrest⟩ := mem_items.mp hx
        exact mem_items.mpr ⟨c, List.map_subset _ hpre.subset hc, hrest⟩
      rw [arrivedRows_concat] at hsub ⊢
      exact (onlyInserted_applyRows hall hsub
        (ih ((List.prefix_append _ _).trans hpre) h1) h4).congr h5 h6

/-! ## Histories that only insert -/

/-- The rows that a list of INSERTs makes of none. -/
theorem commits_insert : ∀ {xs : List (Int × DispatchRecord)}
    {rows rows' : SerialRows}, (∀ x ∈ xs, x.2.primitive = .insert) →
      rows.commits xs = some rows' →
      (xs.map fun x => (x.2.tableid, x.2.rowid)).Nodup ∧
      (∀ x ∈ xs, rows' x.2.tableid x.2.rowid = some (x.1, x.2.row) ∧
        rows x.2.tableid x.2.rowid = none) ∧
      ∀ tableid rowid, (∀ x ∈ xs, ¬ (x.2.tableid = tableid ∧
          x.2.rowid = rowid)) →
        rows' tableid rowid = rows tableid rowid := by
  intro xs
  induction xs with
  | nil =>
      intro rows rows' _ h
      obtain rfl := Option.some.inj h
      exact ⟨List.nodup_nil, by simp, fun _ _ _ => rfl⟩
  | cons x xs ih =>
      intro rows rows' hins h
      rw [SerialRows.commits, Option.bind_eq_some_iff] at h
      obtain ⟨rows₁, h1, h2⟩ := h
      rw [SerialRows.commit, hins x List.mem_cons_self] at h1
      cases hfree : rows x.2.tableid x.2.rowid with
      | some row =>
          rw [hfree] at h1
          exact absurd h1 (by simp)
      | none =>
          rw [hfree] at h1
          obtain rfl := Option.some.inj h1
          obtain ⟨hnodup, hthere, hother⟩ :=
            ih (fun y hy => hins y (List.mem_cons_of_mem x hy)) h2
          have hset : ∀ tableid rowid, rows.set x.2 (some (x.1, x.2.row))
              tableid rowid = if tableid = x.2.tableid ∧ rowid = x.2.rowid
                then some (x.1, x.2.row) else rows tableid rowid := by
            intro tableid rowid
            rw [SerialRows.set]
            by_cases ht : tableid = x.2.tableid
            · subst ht
              rw [Function.update_self]
              by_cases hr : rowid = x.2.rowid
              · subst hr
                rw [Function.update_self, if_pos ⟨rfl, rfl⟩]
              · rw [Function.update_of_ne hr, if_neg fun h => hr h.2]
            · rw [Function.update_of_ne ht, if_neg fun h => ht h.1]
          have hnew : ∀ y ∈ xs, ¬ (y.2.tableid = x.2.tableid ∧
              y.2.rowid = x.2.rowid) := by
            intro y hy heq
            have hnone := (hthere y hy).2
            rw [hset, if_pos heq] at hnone
            exact absurd hnone (by simp)
          refine ⟨?_, ?_, ?_⟩
          · rw [List.map_cons, List.nodup_cons]
            refine ⟨fun hmem => ?_, hnodup⟩
            obtain ⟨y, hy, heq⟩ := List.mem_map.mp hmem
            exact hnew y hy (Prod.mk.inj heq)
          · intro y hy
            rcases List.mem_cons.mp hy with rfl | hy
            · refine ⟨?_, hfree⟩
              rw [hother _ _ hnew, hset, if_pos ⟨rfl, rfl⟩]
            · obtain ⟨hy1, hy2⟩ := hthere y hy
              rw [hset, if_neg (hnew y hy)] at hy2
              exact ⟨hy1, hy2⟩
          · intro tableid rowid hnone
            rw [hother _ _ fun y hy => hnone y (List.mem_cons_of_mem x hy),
              hset, if_neg]
            rintro ⟨rfl, rfl⟩
            exact hnone x List.mem_cons_self ⟨rfl, rfl⟩

/-- All that has arrived has been inserted, and nothing else. -/
structure AllInserted (got : List (Int × DispatchRecord))
    (e : ReplicaEngine) : Prop where
  there : ∀ x ∈ got,
    e.rows x.2.tableid x.2.rowid = some ⟨x.1, x.2.row⟩
  only : ∀ tableid rowid,
    (∀ x ∈ got, ¬ (x.2.tableid = tableid ∧ x.2.rowid = rowid)) →
    e.rows tableid rowid = none
  aside : e.backgrounded = []

theorem allInserted_applyRows {msg : MessageApply} :
    ∀ {records : List DispatchRecord} {got : List (Int × DispatchRecord)}
      {e : ReplicaEngine}, (∀ r ∈ records, r.primitive = .insert) →
      ((got ++ records.map fun r => (msg.subtransactionid, r)).map
        fun x => (x.2.tableid, x.2.rowid)).Nodup →
      AllInserted got e →
      ∃ e', ReplicaEngine.applyRows msg records e = some e' ∧
        AllInserted (got ++ records.map fun r => (msg.subtransactionid, r))
          e' := by
  intro records
  induction records with
  | nil =>
      intro got e _ _ h
      refine ⟨e, rfl, ?_⟩
      rw [List.map_nil, List.append_nil]
      exact h
  | cons r records ih =>
      intro got e hins hnodup h
      have hassoc : got ++ (r :: records).map
            (fun r => (msg.subtransactionid, r)) =
          (got ++ [(msg.subtransactionid, r)]) ++ records.map
            fun r => (msg.subtransactionid, r) := by simp
      rw [hassoc] at hnodup ⊢
      have hnew : ∀ x ∈ got, ¬ (x.2.tableid = r.tableid ∧
          x.2.rowid = r.rowid) := by
        intro x hx heq
        rw [List.map_append, List.map_append] at hnodup
        have hdisj := (List.nodup_append.mp
          (List.nodup_append.mp hnodup).1).2.2
        exact hdisj _ (List.mem_map_of_mem hx) _
          (List.mem_map_of_mem (List.mem_singleton_self _))
          (Prod.ext heq.1 heq.2)
      have hfree : e.rows r.tableid r.rowid = none := h.only _ _ hnew
      have hp : r.primitive = .insert := hins r List.mem_cons_self
      rw [ReplicaEngine.applyRows, applyRecord, hp, hfree]
      have hset : ∀ tableid rowid, Function.update e.rows r.tableid
          (Function.update (e.rows r.tableid) r.rowid
            (some ⟨msg.subtransactionid, r.row⟩)) tableid rowid =
          if tableid = r.tableid ∧ rowid = r.rowid then
            some ⟨msg.subtransactionid, r.row⟩
          else e.rows tableid rowid := by
        intro tableid rowid
        by_cases ht : tableid = r.tableid
        · subst ht
          rw [Function.update_self]
          by_cases hr : rowid = r.rowid
          · subst hr
            rw [Function.update_self, if_pos ⟨rfl, rfl⟩]
          · rw [Function.update_of_ne hr, if_neg fun h => hr h.2]
        · rw [Function.update_of_ne ht, if_neg fun h => ht h.1]
      refine ih (fun q hq => hins q (List.mem_cons_of_mem r hq)) hnodup ?_
      constructor
      case there =>
        intro x hx
        dsimp only
        rw [hset]
        rcases List.mem_append.mp hx with hx | hx
        · rw [if_neg (hnew x hx)]
          exact h.there x hx
        · obtain rfl := List.mem_singleton.mp hx
          rw [if_pos ⟨rfl, rfl⟩]
      case only =>
        intro tableid rowid hnone
        dsimp only
        rw [hset, if_neg]
        · exact h.only _ _ fun x hx => hnone x (List.mem_append_left _ hx)
        · rintro ⟨rfl, rfl⟩
          exact hnone (msg.subtransactionid, r) (List.mem_append_right _
            (List.mem_singleton_self _)) ⟨rfl, rfl⟩
      case aside => exact h.aside

theorem retry_nil {e : ReplicaEngine} (h : e.backgrounded = []) :
    e.retry = some e := by
  rw [ReplicaEngine.retry, h]
  rfl

theorem allInserted_run (schema : Int → List Field) :
    ∀ {msgs : List MessageApply}, (∀ m ∈ msgs, m.indices = []) →
      (∀ x ∈ arrivedRows msgs, x.2.primitive = .insert) →
      ((arrivedRows msgs).map fun x => (x.2.tableid, x.2.rowid)).Nodup →
      ∃ e, run ReplicaEngine.apply (.new schema) msgs = some e ∧
        AllInserted (arrivedRows msgs) e := by
  intro msgs
  induction msgs using List.reverseRecOn with
  | nil =>
      intro _ _ _
      exact ⟨_, rfl, fun _ h => absurd h (by simp [arrivedRows, Commits.items]),
        fun _ _ _ => rfl, rfl⟩
  | append_singleton msgs m ih =>
      intro hindices hins hnodup
      rw [arrivedRows_concat] at hins hnodup ⊢
      have hleft := hnodup
      rw [List.map_append] at hleft
      obtain ⟨e, hrun, h⟩ :=
        ih (fun q hq => hindices q (List.mem_append_left _ hq))
          (fun x hx => hins x (List.mem_append_left _ hx))
          (List.nodup_append.mp hleft).1
      obtain ⟨e', hrows, h'⟩ := allInserted_applyRows
        (fun r hr => hins (m.subtransactionid, r)
          (List.mem_append_right _ (List.mem_map_of_mem hr))) hnodup h
      have haside := (backgrounded_ackApply m e').trans h'.aside
      refine ⟨ReplicaEngine.ackApply m e', ?_, ?_⟩
      · rw [run_concat, hrun, Option.bind_some, ReplicaEngine.apply, hrows,
          Option.bind_some, hindices m (by simp), ReplicaEngine.applyIndices,
          retry_nil haside]
      · have hsame := rows_ackApply m e'
        exact ⟨hsame ▸ h'.there, hsame ▸ h'.only, haside⟩

/-! ## The histories that are followed -/

/-- A replica follows a history of records, in any order of its messages,
exactly if the history only inserts. -/
theorem followsRows_iff (schema : Int → List Field)
    {commits : Commits DispatchRecord} {rows : SerialRows}
    (h : RowHistory commits rows) {msgs : List MessageApply}
    (hmsgs : CarriesRows commits msgs) :
    FollowsRows schema rows msgs ↔
      ∀ x ∈ commits.items, x.2.primitive = .insert := by
  have hperm : (arrivedRows msgs).Perm commits.items := items_perm hmsgs.perm
  constructor
  · intro hfollows x hx
    by_contra hne
    obtain ⟨e, hrun, haside, _⟩ := hfollows.rows
    have honly := onlyInserted_run h schema hmsgs List.prefix_rfl hrun
    obtain ⟨b, hb, _⟩ := honly.aside x (hperm.mem_iff.mpr hx) hne
    rw [haside] at hb
    exact absurd hb (by simp)
  · intro hins
    constructor
    case predecessors =>
      intro pre e hpre hrun x happlied hne
      have honly := onlyInserted_run h schema hmsgs hpre hrun
      exact absurd (honly.aside x happlied.1 hne) happlied.2
    case rows =>
      obtain ⟨hnodup, hthere, hother⟩ := commits_insert hins h.serial
      obtain ⟨e, hrun, hall⟩ := allInserted_run schema hmsgs.indices
        (fun x hx => hins x (hperm.mem_iff.mp hx))
        ((hperm.map _).nodup_iff.mpr hnodup)
      refine ⟨e, hrun, hall.aside, fun tableid rowid => ?_⟩
      by_cases hex : ∃ x ∈ arrivedRows msgs,
          x.2.tableid = tableid ∧ x.2.rowid = rowid
      · obtain ⟨x, hx, rfl, rfl⟩ := hex
        rw [hall.there x hx, (hthere x (hperm.mem_iff.mp hx)).1]
        rfl
      · push Not at hex
        rw [hall.only tableid rowid fun x hx heq => hex x hx heq.1 heq.2,
          hother tableid rowid fun x hx heq =>
            hex x (hperm.mem_iff.mpr hx) heq.1 heq.2]
        rfl

/-! ## Two histories -/

def insertRow (rowid : Int) (row : Bytes) : DispatchRecord :=
  ⟨rowid, .insert, 1, 0, row, []⟩

/-- The row that subtransaction 1 left, changed. -/
def updateRow (rowid : Int) (row : Bytes) : DispatchRecord :=
  ⟨rowid, .update, 1, 1, row, []⟩

/-- The message of a transaction to the engine. -/
def rowMessage (subtransactionid : Int) (rows : List DispatchRecord) :
    MessageApply :=
  { sourceAddr := ⟨1, 1⟩, subtransactionid := subtransactionid
    applierid := subtransactionid, rows := rows }

def twoInserts : Commits DispatchRecord :=
  [(1, [insertRow 1 [10]]), (2, [insertRow 2 [20]])]

def insertThenUpdate : Commits DispatchRecord :=
  [(1, [insertRow 1 [10]]), (2, [updateRow 1 [11]])]

/-- The rows that a history leaves. -/
def serialRows (commits : Commits DispatchRecord) : SerialRows :=
  (SerialRows.commits (fun _ _ => none) commits.items).getD fun _ _ => none

theorem followsRows_iff_twoInserts :
    FollowsRows (fun _ => []) (serialRows twoInserts)
      [rowMessage 2 [insertRow 2 [20]], rowMessage 1 [insertRow 1 [10]]] := by
  have h : RowHistory twoInserts (serialRows twoInserts) :=
    ⟨by decide, by decide, rfl⟩
  refine (followsRows_iff (fun _ => []) h ⟨?_, by decide⟩).mpr (by decide)
  exact List.Perm.swap _ _ _

/-- Row 1 is inserted and updated, and the messages arrive in this order. The
update is put aside. -/
theorem insertUpdate_not_followed :
    RowHistory insertThenUpdate (serialRows insertThenUpdate) ∧
    CarriesRows insertThenUpdate
      [rowMessage 1 [insertRow 1 [10]], rowMessage 2 [updateRow 1 [11]]] ∧
    (run ReplicaEngine.apply (.new fun _ => [])
        [rowMessage 1 [insertRow 1 [10]], rowMessage 2 [updateRow 1 [11]]]).map
        (fun e => ((e.rows 1 1).map AppliedRow.row, e.backgrounded.length)) =
      some (some [10], 1) ∧
    ((serialRows insertThenUpdate) 1 1).map Prod.snd = some [11] ∧
    ¬ FollowsRows (fun _ => []) (serialRows insertThenUpdate)
      [rowMessage 1 [insertRow 1 [10]], rowMessage 2 [updateRow 1 [11]]] := by
  have hrun : (run ReplicaEngine.apply (.new fun _ => [])
      [rowMessage 1 [insertRow 1 [10]], rowMessage 2 [updateRow 1 [11]]]).map
      (fun e => ((e.rows 1 1).map AppliedRow.row, e.backgrounded.length)) =
      some (some [10], 1) := by decide
  refine ⟨⟨by decide, by decide, rfl⟩, ⟨List.Perm.refl _, by decide⟩, hrun,
    by decide, fun hfollows => ?_⟩
  obtain ⟨e, h, haside, _⟩ := hfollows.rows
  rw [h, Option.map_some, haside] at hrun
  exact absurd (Prod.mk.inj (Option.some.inj hrun)).2 (by decide)

end Infinisql.Proofs
