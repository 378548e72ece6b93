import Infinisql.Proofs.ReplayRows
import Infinisql.Ref.Applier

/-!
# Acknowledgements of a replica

An engine acknowledges a message at once if nothing of it had to be put
aside, and later when the last item put aside has been applied. The second way
ends in the erasure of what is being iterated over, so what an engine really
sends is one acknowledgement for each message of which nothing is put aside.
That is what it should send, as long as nothing put aside comes to fit.

The applier is made with a count of zero, before there is anything to count.
An acknowledgement takes it below zero, and it stays. That is noticed when the
last acknowledgement of its messages comes in. So a replica keeps its books
exactly as long as nothing put aside comes to fit and no applier gets its last
acknowledgement.
-/

namespace Infinisql.Proofs

open Infinisql.Lib Infinisql.Ref

/-! ## The statement -/

/-- Is nothing of a message put aside? -/
def AllApplied (e : ReplicaEngine) (m : MessageApply) : Bool :=
  e.backgrounded.all fun (id, b) =>
    id ≠ m.subtransactionid || b.rows.isEmpty && b.indices.isEmpty

/-- The acknowledgement of a message. -/
def ackOf (m : MessageApply) : MessageAckApply :=
  ⟨m.sourceAddr, m.subtransactionid, m.applierid⟩

def receivedAt (s : Replication) (p : Int) : List MessageApply :=
  s.received.filterMap fun x => if x.1 = p then some x.2 else none

/-- How many messages an agent has sent for one of its appliers. -/
def sentFor (s : Replication) (address : AddressStruct) (id : Int) : Nat :=
  s.sent.countP fun x => x.2.sourceAddr = address ∧ x.2.applierid = id

/-- How many of them it knows to be acknowledged. -/
def ackedFor (s : Replication) (address : AddressStruct) (id : Int) : Nat :=
  s.acked.countP fun k => k.destAddr = address ∧ k.applierid = id

def applierids (s : Replication) (address : AddressStruct) : List Int :=
  (s.agents address).appliers.map Prod.fst

/-- Each message received has been acknowledged once, if all its items have
been applied, and not at all before. An applier is there until as many
acknowledgements have come as messages were sent, and not after. -/
structure AcksWell (s : Replication) : Prop where
  acks : ∀ p, (s.engines p).acks.Perm
    (((receivedAt s p).filter (AllApplied (s.engines p))).map ackOf)
  stays : ∀ address id, 0 < id → id ≤ (s.agents address).nextapplierid →
    ackedFor s address id < sentFor s address id →
    id ∈ applierids s address
  removed : ∀ address id, 0 < sentFor s address id →
    ackedFor s address id = sentFor s address id →
    id ∉ applierids s address

/-- What may come: one of the messages under way, or a dispatch with
subtransaction ids that are new at their engines. -/
def MayCome (s : Replication) : ReplicaAction → Prop
  | .dispatch _ _ msg => ∀ r ∈ msg.records, ∀ x ∈ s.sent, x.1 = r.1 →
      x.2.subtransactionid ≠ (msg.pidsids.lookup r.1).getD 0
  | .apply n => n < s.applies.length
  | .ackapply n => n < s.acks.length

/-- The message updates only rows that are there, and once its items have been
dealt with nothing put aside fits. -/
def NothingFits (e : ReplicaEngine) (m : MessageApply) : Prop :=
  ∃ e₁, ReplicaEngine.applyRows m m.rows e = some e₁ ∧
    ∀ a ∈ (ReplicaEngine.applyIndices m m.indices e₁).backgrounded,
      a.2.rows.all
          ((ReplicaEngine.applyIndices m m.indices e₁).keepsRow a.1) ∧
        a.2.indices.all
          ((ReplicaEngine.applyIndices m m.indices e₁).keepsIndex a.1)

/-- A dispatch finds a message for every index item, a message makes nothing
fit, and an acknowledgement is not its applier's last. -/
def KeepsBooks (top : Topology) (schemata : Int → Int → List Field)
    (s : Replication) : ReplicaAction → Prop
  | .dispatch destAddr sourceAddr msg =>
      ((s.agents destAddr).handledispatch top schemata sourceAddr msg).isSome
  | .apply n => ∀ x, s.applies[n]? = some x → NothingFits (s.engines x.1) x.2
  | .ackapply n => ∀ k, s.acks[n]? = some k →
      ackedFor s k.destAddr k.applierid + 1 ≠
        sentFor s k.destAddr k.applierid

/-! ## What an engine puts aside for a message -/

/-- Sets of other messages are as they were, and no set is empty that was
not. -/
structure PutsAside (m : MessageApply) (bs bs' : List (Int × Background)) :
    Prop where
  others : ∀ id b, id ≠ m.subtransactionid → ((id, b) ∈ bs' ↔ (id, b) ∈ bs)
  nonempty : (∀ a ∈ bs, a.2.rows ≠ [] ∨ a.2.indices ≠ []) →
    ∀ a ∈ bs', a.2.rows ≠ [] ∨ a.2.indices ≠ []

theorem PutsAside.refl (m : MessageApply) (bs : List (Int × Background)) :
    PutsAside m bs bs :=
  ⟨fun _ _ _ => Iff.rfl, fun h => h⟩

theorem PutsAside.trans {m : MessageApply}
    {bs₁ bs₂ bs₃ : List (Int × Background)} (h : PutsAside m bs₁ bs₂)
    (h' : PutsAside m bs₂ bs₃) : PutsAside m bs₁ bs₃ :=
  ⟨fun id b hne => (h'.others id b hne).trans (h.others id b hne),
    fun hne => h'.nonempty (h.nonempty hne)⟩

theorem putsAside_background {m : MessageApply}
    {push : Background → Background}
    (hpush : ∀ b, (push b).rows ≠ [] ∨ (push b).indices ≠ []) :
    ∀ bs, PutsAside m bs (ReplicaEngine.background m push bs) := by
  intro bs
  induction bs with
  | nil =>
      constructor
      · intro id b hne
        rw [ReplicaEngine.background, List.mem_singleton]
        exact iff_of_false (fun h => hne (Prod.mk.inj h).1) (by simp)
      · intro _ a ha
        rw [ReplicaEngine.background, List.mem_singleton] at ha
        subst ha
        exact hpush _
  | cons c bs ih =>
      obtain ⟨cid, cb⟩ := c
      rw [ReplicaEngine.background]
      split
      · next heq =>
        constructor
        · intro id b hne
          have hother : ∀ b', (id, b) ≠ (cid, b') := fun b' h =>
            hne ((Prod.mk.inj h).1.trans heq)
          rw [List.mem_cons, List.mem_cons, or_iff_right (hother _),
            or_iff_right (hother _)]
        · intro hne a ha
          rcases List.mem_cons.mp ha with rfl | ha
          · exact hpush _
          · exact hne a (List.mem_cons_of_mem _ ha)
      · constructor
        · intro id b hne
          rw [List.mem_cons, List.mem_cons, ih.others id b hne]
        · intro hne a ha
          rcases List.mem_cons.mp ha with rfl | ha
          · exact hne _ List.mem_cons_self
          · exact ih.nonempty
              (fun a ha => hne a (List.mem_cons_of_mem _ ha)) a ha

theorem putsAside_applyRows {m : MessageApply} :
    ∀ {records : List DispatchRecord} {e e' : ReplicaEngine},
      ReplicaEngine.applyRows m records e = some e' →
      PutsAside m e.backgrounded e'.backgrounded ∧ e'.acks = e.acks := by
  intro records
  induction records with
  | nil =>
      intro e e' h
      obtain rfl := Option.some.inj h
      exact ⟨PutsAside.refl _ _, rfl⟩
  | cons r records ih =>
      intro e e' h
      rw [ReplicaEngine.applyRows] at h
      split at h
      · exact absurd h (by simp)
      · obtain ⟨hrest, hacks⟩ := ih h
        exact ⟨hrest, hacks⟩
      · obtain ⟨hrest, hacks⟩ := ih h
        exact ⟨(putsAside_background (fun b => .inl (by simp)) _).trans hrest,
          hacks⟩

theorem putsAside_applyIndices (m : MessageApply) :
    ∀ (xs : List ApplyIndex) (e : ReplicaEngine),
      PutsAside m e.backgrounded
        (ReplicaEngine.applyIndices m xs e).backgrounded ∧
      (ReplicaEngine.applyIndices m xs e).acks = e.acks := by
  intro xs
  induction xs with
  | nil => exact fun _ => ⟨PutsAside.refl _ _, rfl⟩
  | cons x xs ih =>
      intro e
      rw [ReplicaEngine.applyIndices]
      dsimp only
      split
      · exact ih (e.setIndex x.tableid x.fieldid
          ((e.index x.tableid x.fieldid).applyItem m.subtransactionid x).2)
      · obtain ⟨hrest, hacks⟩ := ih { e with
          backgrounded := ReplicaEngine.background m
            (fun b => { b with indices := b.indices ++ [x] })
            e.backgrounded }
        exact ⟨(putsAside_background (fun b => .inr (by simp)) _).trans hrest,
          hacks⟩

/-! ## One engine -/

/-- An engine and what it has received: it knows the messages it has put
items aside of, and has acknowledged the others. -/
structure EngineWell (e : ReplicaEngine) (got : List MessageApply) : Prop where
  ids : (got.map MessageApply.subtransactionid).Nodup
  known : ∀ a ∈ e.backgrounded, a.1 ∈ got.map MessageApply.subtransactionid
  nonempty : ∀ a ∈ e.backgrounded, a.2.rows ≠ [] ∨ a.2.indices ≠ []
  acks : e.acks.Perm ((got.filter (AllApplied e)).map ackOf)

theorem allApplied_iff {e : ReplicaEngine} {m : MessageApply}
    (hne : ∀ a ∈ e.backgrounded, a.2.rows ≠ [] ∨ a.2.indices ≠ []) :
    AllApplied e m = true ↔ ∀ a ∈ e.backgrounded, a.1 ≠ m.subtransactionid := by
  rw [AllApplied, List.all_eq_true]
  constructor
  · intro h a ha hid
    have hempty := h a ha
    rcases hne a ha with hrows | hindices
    · simp [hid, hrows] at hempty
    · simp [hid, hindices] at hempty
  · intro h a ha
    simp [h a ha]

/-- A call of `apply` is defined exactly where nothing comes to fit. -/
theorem apply_isSome_iff {e : ReplicaEngine} {m : MessageApply} :
    (∃ e', e.apply m = some e') ↔ NothingFits e m := by
  have hretry : ∀ e₁ : ReplicaEngine,
      (∃ e', (ReplicaEngine.ackApply m e₁).retry = some e') ↔
        ∀ a ∈ e₁.backgrounded, a.2.rows.all (e₁.keepsRow a.1) ∧
          a.2.indices.all (e₁.keepsIndex a.1) := by
    intro e₁
    have hsame : ∀ bs, (ReplicaEngine.ackApply m e₁).backgrounded = bs →
        ((∃ e', (ReplicaEngine.ackApply m e₁).retry = some e') ↔
          ∀ a ∈ bs, a.2.rows.all (e₁.keepsRow a.1) ∧
            a.2.indices.all (e₁.keepsIndex a.1)) := by
      intro bs hbs
      have hrow : (ReplicaEngine.ackApply m e₁).keepsRow = e₁.keepsRow := by
        rw [ReplicaEngine.ackApply]
        split <;> rfl
      have hindex : (ReplicaEngine.ackApply m e₁).keepsIndex =
          e₁.keepsIndex := by
        rw [ReplicaEngine.ackApply]
        split <;> rfl
      rw [ReplicaEngine.retry, hbs, hrow, hindex]
      constructor
      · rintro ⟨e', h⟩ a ha
        split at h
        · next hall =>
          have hthis := List.all_eq_true.mp hall a ha
          exact Bool.and_eq_true_iff.mp hthis
        · exact absurd h (by simp)
      · intro h
        rw [if_pos (List.all_eq_true.mpr fun a ha =>
          Bool.and_eq_true_iff.mpr (h a ha))]
        exact ⟨_, rfl⟩
    exact hsame _ (backgrounded_ackApply m e₁)
  rw [ReplicaEngine.apply, NothingFits]
  constructor
  · rintro ⟨e', h⟩
    obtain ⟨e₁, h1, h2⟩ := Option.bind_eq_some_iff.mp h
    exact ⟨e₁, h1, (hretry _).mp ⟨e', h2⟩⟩
  · rintro ⟨e₁, h1, h2⟩
    obtain ⟨e', h3⟩ := (hretry _).mpr h2
    exact ⟨e', Option.bind_eq_some_iff.mpr ⟨e₁, h1, h3⟩⟩

/-- What a message of a new subtransaction does to an engine's books. -/
theorem engineWell_apply {e e' : ReplicaEngine} {got : List MessageApply}
    {m : MessageApply} (h : EngineWell e got)
    (hnew : m.subtransactionid ∉ got.map MessageApply.subtransactionid)
    (happly : e.apply m = some e') :
    EngineWell e' (got ++ [m]) ∧
      (e'.acks = e.acks ∨ e'.acks = e.acks ++ [ackOf m]) := by
  rw [ReplicaEngine.apply] at happly
  obtain ⟨e₁, h1, h2⟩ := Option.bind_eq_some_iff.mp happly
  obtain ⟨hrows, hacks₁⟩ := putsAside_applyRows h1
  obtain ⟨hindices, hacks₂⟩ := putsAside_applyIndices m m.indices e₁
  have haside := hrows.trans hindices
  rw [hacks₁] at hacks₂
  obtain rfl := retry_eq_some h2
  generalize ReplicaEngine.applyIndices m m.indices e₁ = e₂ at haside hacks₂ ⊢
  have hbg := backgrounded_ackApply m e₂
  have hne := haside.nonempty h.nonempty
  have hsame : ∀ q ∈ got, AllApplied (ReplicaEngine.ackApply m e₂) q =
      AllApplied e q := by
    intro q hq
    have hid : q.subtransactionid ≠ m.subtransactionid := fun heq =>
      hnew (heq ▸ List.mem_map_of_mem hq)
    rw [Bool.eq_iff_iff, allApplied_iff (hbg ▸ hne),
      allApplied_iff h.nonempty, hbg]
    constructor
    · intro hall a ha heq
      exact hall a ((haside.others a.1 a.2 (heq ▸ hid)).mpr ha) heq
    · intro hall a ha heq
      exact hall a ((haside.others a.1 a.2 (heq ▸ hid)).mp ha) heq
  have hfilter : got.filter (AllApplied (ReplicaEngine.ackApply m e₂)) =
      got.filter (AllApplied e) := List.filter_congr hsame
  have hthis : AllApplied (ReplicaEngine.ackApply m e₂) m =
      !e₂.backgrounded.any (·.1 = m.subtransactionid) := by
    rw [Bool.eq_iff_iff, allApplied_iff (hbg ▸ hne), hbg]
    simp
  have hend : (ReplicaEngine.ackApply m e₂).acks = if
      e₂.backgrounded.any (·.1 = m.subtransactionid) then e.acks
      else e.acks ++ [ackOf m] := by
    rw [ReplicaEngine.ackApply]
    split
    · exact hacks₂
    · show e₂.acks ++ [ackOf m] = e.acks ++ [ackOf m]
      rw [hacks₂]
  refine ⟨⟨?_, ?_, hbg ▸ hne, ?_⟩, ?_⟩
  · rw [List.map_append, List.nodup_append]
    refine ⟨h.ids, List.nodup_singleton _, ?_⟩
    rintro id hid _ hm rfl
    exact hnew (List.mem_singleton.mp hm ▸ hid)
  · intro a ha
    rw [hbg] at ha
    rw [List.map_append, List.mem_append]
    by_cases hid : a.1 = m.subtransactionid
    · exact .inr (List.mem_singleton.mpr hid)
    · exact .inl (h.known a ((haside.others a.1 a.2 hid).mp ha))
  · rw [List.filter_append, hfilter, List.map_append, List.filter_singleton,
      hthis, hend]
    cases e₂.backgrounded.any (·.1 = m.subtransactionid) with
    | true => simpa using h.acks
    | false => simpa using h.acks.append_right [ackOf m]
  · rw [hend]
    split
    · exact .inl rfl
    · exact .inr rfl

/-! ## The messages of a dispatch -/

/-- Whose messages they are: one for a partition, with what the applier and
the dispatch put into it. -/
structure Headed (new : Int → MessageApply) (keys : List Int)
    (msgs : ApplyMsgs) : Prop where
  nodup : (msgs.map Prod.fst).Nodup
  key : ∀ x ∈ msgs, x.1 ∈ keys
  head : ∀ x ∈ msgs, ackOf x.2 = ackOf (new x.1)

/-- A change of messages that leaves their heads. -/
theorem Headed.map {new : Int → MessageApply} {keys : List Int}
    {msgs : ApplyMsgs} (h : Headed new keys msgs)
    {f : Int × MessageApply → Int × MessageApply}
    (hf : ∀ x, (f x).1 = x.1 ∧ ackOf (f x).2 = ackOf x.2) :
    Headed new keys (msgs.map f) := by
  have hkeys : (msgs.map f).map Prod.fst = msgs.map Prod.fst := by
    rw [List.map_map]
    exact List.map_congr_left fun x _ => (hf x).1
  refine ⟨hkeys ▸ h.nodup, fun y hy => ?_, fun y hy => ?_⟩
  · obtain ⟨x, hx, rfl⟩ := List.mem_map.mp hy
    exact (hf x).1 ▸ h.key x hx
  · obtain ⟨x, hx, rfl⟩ := List.mem_map.mp hy
    rw [(hf x).1, (hf x).2]
    exact h.head x hx

theorem headed_pushIndices {new : Int → MessageApply} {keys : List Int} :
    ∀ {items : List (Int × ApplyIndex)} {msgs msgs' : ApplyMsgs},
      Headed new keys msgs →
      ReplicaAgent.pushIndices items msgs = some msgs' →
      Headed new keys msgs' := by
  intro items
  induction items with
  | nil =>
      intro msgs msgs' h hpush
      obtain rfl := Option.some.inj hpush
      exact h
  | cons item items ih =>
      intro msgs msgs' h hpush
      obtain ⟨msgs₁, h1, h2⟩ := Option.bind_eq_some_iff.mp hpush
      rw [ReplicaAgent.pushIndex] at h1
      split at h1
      · obtain rfl := Option.some.inj h1
        refine ih (h.map fun x => ?_) h2
        dsimp only
        split <;> exact ⟨rfl, rfl⟩
      · exact absurd h1 (by simp)

theorem headed_pushRecords {top : Topology} {schema : Int → List Field}
    {new : Int → MessageApply} {keys : List Int} :
    ∀ {records : List DispatchRecord} {msgs msgs' : ApplyMsgs},
      Headed new keys msgs →
      ReplicaAgent.pushRecords top schema records msgs = some msgs' →
      Headed new keys msgs' := by
  intro records
  induction records with
  | nil =>
      intro msgs msgs' h hpush
      obtain rfl := Option.some.inj hpush
      exact h
  | cons r records ih =>
      intro msgs msgs' h hpush
      obtain ⟨items, _, h1⟩ := Option.bind_eq_some_iff.mp hpush
      obtain ⟨msgs₁, h2, h3⟩ := Option.bind_eq_some_iff.mp h1
      exact ih (headed_pushIndices h h2) h3

theorem headed_setRows {new : Int → MessageApply} {keys : List Int} {p : Int}
    {records : List DispatchRecord} {msgs : ApplyMsgs} (hp : p ∈ keys)
    (h : Headed new keys msgs) :
    Headed new keys (ReplicaAgent.setRows new p records msgs) := by
  rw [ReplicaAgent.setRows]
  split
  · refine h.map fun x => ?_
    dsimp only
    split <;> exact ⟨rfl, rfl⟩
  · next hnone =>
    constructor
    · rw [List.map_append, List.nodup_append]
      refine ⟨h.nodup, List.nodup_singleton _, ?_⟩
      rintro q hq _ hthis rfl
      obtain ⟨x, hx, rfl⟩ := List.mem_map.mp hq
      refine hnone (List.any_eq_true.mpr ⟨x, hx, ?_⟩)
      exact decide_eq_true (List.mem_singleton.mp hthis)
    · intro x hx
      rcases List.mem_append.mp hx with hx | hx
      · exact h.key x hx
      · rw [List.mem_singleton.mp hx]
        exact hp
    · intro x hx
      rcases List.mem_append.mp hx with hx | hx
      · exact h.head x hx
      · rw [List.mem_singleton.mp hx]
        rfl

theorem headed_nil {new : Int → MessageApply} (keys : List Int) :
    Headed new keys [] :=
  ⟨List.nodup_nil, fun _ hx => absurd hx (by simp),
    fun _ hx => absurd hx (by simp)⟩

theorem headed_makeMsgs {top : Topology} {schema : Int → List Field}
    {new : Int → MessageApply} {keys : List Int} :
    ∀ {records : List (Int × List DispatchRecord)} {msgs msgs' : ApplyMsgs},
      records.map Prod.fst ⊆ keys → Headed new keys msgs →
      ReplicaAgent.makeMsgs top schema new records msgs = some msgs' →
      Headed new keys msgs' := by
  intro records
  induction records with
  | nil =>
      intro msgs msgs' _ h hmake
      obtain rfl := Option.some.inj hmake
      exact h
  | cons r records ih =>
      intro msgs msgs' hkeys h hmake
      obtain ⟨msgs₁, h1, h2⟩ := Option.bind_eq_some_iff.mp hmake
      refine ih (fun q hq => hkeys (List.mem_cons_of_mem _ hq)) ?_ h2
      exact headed_pushRecords
        (headed_setRows (hkeys List.mem_cons_self) h) h1

/-- What `handledispatch` leaves. -/
theorem handledispatch_eq_some {top : Topology}
    {schemata : Int → Int → List Field} {agent : ReplicaAgent}
    {sourceAddr : AddressStruct} {msg : MessageDispatch} {h : Handled}
    (hd : agent.handledispatch top schemata sourceAddr msg = some h) :
    h.agent = { agent with
        nextapplierid := agent.nextapplierid + 1
        appliers := agent.appliers ++
          [(agent.nextapplierid + 1, ⟨msg.domainid, sourceAddr, 0⟩)] } ∧
      (h.msgs.map Prod.fst).Nodup ∧
      ∀ x ∈ h.msgs, x.1 ∈ msg.records.map Prod.fst ∧
        ackOf x.2 = ⟨agent.address, (msg.pidsids.lookup x.1).getD 0,
          agent.nextapplierid + 1⟩ := by
  rw [ReplicaAgent.handledispatch] at hd
  obtain ⟨msgs, hmake, rfl⟩ := Option.map_eq_some_iff.mp hd
  have hheaded := headed_makeMsgs (fun _ hq => hq) (headed_nil _) hmake
  exact ⟨rfl, hheaded.nodup, fun x hx =>
    ⟨hheaded.key x hx, hheaded.head x hx⟩⟩

/-! ## The books of a replica -/

/-- What no step can break. An applier's count is what has been taken from
zero, so it stays. -/
structure Books (s : Replication) : Prop where
  address : ∀ a, (s.agents a).address = a
  range : ∀ a, 0 ≤ (s.agents a).nextapplierid
  engines : ∀ p, EngineWell (s.engines p) (receivedAt s p)
  arrived : (s.applies ++ s.received).Perm s.sent
  ids : (s.sent.map fun x => (x.1, x.2.subtransactionid)).Nodup
  acks : (s.acks ++ s.acked).Subperm (s.received.map fun x => ackOf x.2)
  created : ∀ a id, id ∈ applierids s a ↔
    0 < id ∧ id ≤ (s.agents a).nextapplierid
  counts : ∀ a, ∀ x ∈ (s.agents a).appliers,
    x.2.partitioncount = -(ackedFor s a x.1 : Int)
  owners : ∀ x ∈ s.sent, 0 < x.2.applierid ∧
    x.2.applierid ≤ (s.agents x.2.sourceAddr).nextapplierid

theorem books_new (schema : Int → List Field) :
    Books (Replication.new schema) := by
  constructor
  case address => exact fun _ => rfl
  case range => exact fun _ => Int.le_refl 0
  case engines =>
    intro p
    exact ⟨List.nodup_nil, fun _ ha => absurd ha (List.not_mem_nil),
      fun _ ha => absurd ha (List.not_mem_nil), List.Perm.refl _⟩
  case arrived => exact List.Perm.refl _
  case ids => exact List.nodup_nil
  case acks => exact List.Subperm.refl _
  case created =>
    intro a id
    refine iff_of_false (List.not_mem_nil) fun h => ?_
    have h1 : (0 : Int) < id := h.1
    have h2 : id ≤ 0 := h.2
    omega
  case counts => exact fun _ _ hx => absurd hx (List.not_mem_nil)
  case owners => exact fun _ hx => absurd hx (List.not_mem_nil)

/-- Nothing is amiss as long as no applier has its last acknowledgement. -/
theorem acksWell_iff {s : Replication} (h : Books s) :
    AcksWell s ↔ ∀ a id, 0 < sentFor s a id →
      ackedFor s a id ≠ sentFor s a id := by
  have hthere : ∀ a id, 0 < sentFor s a id → id ∈ applierids s a := by
    intro a id hpos
    obtain ⟨x, hx, hp⟩ := List.countP_pos_iff.mp hpos
    obtain ⟨rfl, rfl⟩ := of_decide_eq_true hp
    exact (h.created _ _).mpr (h.owners x hx)
  constructor
  · intro hwell a id hpos heq
    exact hwell.removed a id hpos heq (hthere a id hpos)
  · intro hnone
    constructor
    case acks => exact fun p => (h.engines p).acks
    case stays =>
      intro a id hlow hhigh _
      exact (h.created a id).mpr ⟨hlow, hhigh⟩
    case removed => exact fun a id hpos heq => absurd heq (hnone a id hpos)

/-- There are no more acknowledgements than messages. -/
theorem ackedFor_le {s : Replication} (h : Books s) (a : AddressStruct)
    (id : Int) :
    s.acks.countP (fun k => k.destAddr = a ∧ k.applierid = id) +
      ackedFor s a id ≤ sentFor s a id := by
  have hacks := h.acks.countP_le fun k => k.destAddr = a ∧ k.applierid = id
  rw [List.countP_append, List.countP_map] at hacks
  have hsent := h.arrived.countP_eq fun x =>
    x.2.sourceAddr = a ∧ x.2.applierid = id
  rw [List.countP_append] at hsent
  have hsame : s.received.countP ((fun k : MessageAckApply =>
      decide (k.destAddr = a ∧ k.applierid = id)) ∘ fun x => ackOf x.2) =
        s.received.countP fun x =>
          decide (x.2.sourceAddr = a ∧ x.2.applierid = id) := rfl
  rw [hsame] at hacks
  rw [ackedFor, sentFor]
  omega

theorem sentFor_new {s : Replication} (h : Books s) {a : AddressStruct}
    {id : Int} (hid : (s.agents a).nextapplierid < id) :
    sentFor s a id = 0 := by
  refine List.countP_eq_zero.mpr fun x hx hp => ?_
  obtain ⟨rfl, rfl⟩ := of_decide_eq_true hp
  have hle := (h.owners x hx).2
  omega

/-! ## The steps -/

section

variable {top : Topology} {schemata : Int → Int → List Field}

theorem books_dispatch {s : Replication} (h : Books s)
    {destAddr sourceAddr : AddressStruct} {msg : MessageDispatch}
    (hnew : MayCome s (.dispatch destAddr sourceAddr msg)) {hd : Handled}
    (hhandled : (s.agents destAddr).handledispatch top schemata sourceAddr
      msg = some hd) :
    Books { s with
      agents := Function.update s.agents destAddr hd.agent
      applies := s.applies ++ hd.msgs
      sent := s.sent ++ hd.msgs } := by
  obtain ⟨hagent, hnodup, hmsgs⟩ := handledispatch_eq_some hhandled
  have hself : hd.agent.address = destAddr := by
    rw [hagent]
    exact h.address destAddr
  have hnext : hd.agent.nextapplierid =
      (s.agents destAddr).nextapplierid + 1 := by rw [hagent]
  have happliers : hd.agent.appliers = (s.agents destAddr).appliers ++
      [((s.agents destAddr).nextapplierid + 1,
        ⟨msg.domainid, sourceAddr, 0⟩)] := by rw [hagent]
  have hrange := h.range destAddr
  constructor
  case address =>
    intro a
    by_cases ha : a = destAddr
    · subst ha
      simp only [Function.update_self, hself]
    · simp only [Function.update_of_ne ha, h.address a]
  case range =>
    intro a
    by_cases ha : a = destAddr
    · subst ha
      simp only [Function.update_self, hnext]
      omega
    · simp only [Function.update_of_ne ha, h.range a]
  case engines => exact h.engines
  case arrived =>
    have hswap : (s.applies ++ hd.msgs ++ s.received).Perm
        (s.applies ++ s.received ++ hd.msgs) := by
      rw [List.append_assoc, List.append_assoc]
      exact List.perm_append_comm.append_left s.applies
    exact hswap.trans (h.arrived.append_right hd.msgs)
  case ids =>
    rw [List.map_append, List.nodup_append]
    refine ⟨h.ids, ?_, ?_⟩
    · refine List.Nodup.of_map Prod.fst ?_
      rw [List.map_map]
      exact hnodup
    · rintro i hi j hj rfl
      obtain ⟨x, hx, rfl⟩ := List.mem_map.mp hi
      obtain ⟨y, hy, heq⟩ := List.mem_map.mp hj
      obtain ⟨hkey, hack⟩ := hmsgs y hy
      obtain ⟨r, hr, hry⟩ := List.mem_map.mp hkey
      obtain ⟨h1, h2⟩ := Prod.mk.inj heq
      have hsid : y.2.subtransactionid = (msg.pidsids.lookup y.1).getD 0 :=
        congrArg MessageAckApply.subtransactionid hack
      refine hnew r hr x hx (by rw [hry, h1]) ?_
      rw [← h2, hsid, hry]
  case acks => exact h.acks
  case created =>
    intro a id
    have hold := h.created a id
    by_cases ha : a = destAddr
    · subst ha
      simp only [applierids, Function.update_self, happliers, hnext,
        List.map_append, List.mem_append] at hold ⊢
      rw [hold]
      simp only [List.map_cons, List.map_nil, List.mem_singleton]
      omega
    · simp only [applierids, Function.update_of_ne ha] at hold ⊢
      exact hold
  case counts =>
    intro a x hx
    by_cases ha : a = destAddr
    · subst ha
      simp only [Function.update_self, happliers] at hx
      rcases List.mem_append.mp hx with hx | hx
      · exact h.counts a x hx
      · obtain rfl := List.mem_singleton.mp hx
        have hle := ackedFor_le h a ((s.agents a).nextapplierid + 1)
        rw [sentFor_new h (by omega)] at hle
        have hzero : ackedFor s a ((s.agents a).nextapplierid + 1) = 0 := by
          omega
        show (0 : Int) =
          -(ackedFor s a ((s.agents a).nextapplierid + 1) : Int)
        rw [hzero]
        rfl
    · simp only [Function.update_of_ne ha] at hx
      exact h.counts a x hx
  case owners =>
    intro x hx
    rcases List.mem_append.mp hx with hx | hx
    · obtain ⟨hlow, hhigh⟩ := h.owners x hx
      refine ⟨hlow, ?_⟩
      by_cases ha : x.2.sourceAddr = destAddr
      · simp only [ha, Function.update_self, hnext] at hhigh ⊢
        omega
      · simp only [Function.update_of_ne ha]
        exact hhigh
    · obtain ⟨_, hack⟩ := hmsgs x hx
      have hsource : x.2.sourceAddr = destAddr :=
        (congrArg MessageAckApply.destAddr hack).trans (h.address destAddr)
      have hid : x.2.applierid = (s.agents destAddr).nextapplierid + 1 :=
        congrArg MessageAckApply.applierid hack
      simp only [hsource, Function.update_self, hnext, hid]
      omega

theorem receivedAt_append (s : Replication) (x : Int × MessageApply)
    (p : Int) :
    receivedAt { s with received := s.received ++ [x] } p =
      receivedAt s p ++ if x.1 = p then [x.2] else [] := by
  rw [receivedAt, receivedAt, List.filterMap_append]
  by_cases hp : x.1 = p
  · simp [hp]
  · simp [hp]

theorem books_apply {s : Replication} (h : Books s) {n : Nat}
    (hn : n < s.applies.length) {e' : ReplicaEngine}
    (happly : (s.engines (s.applies[n]).1).apply (s.applies[n]).2 = some e') :
    Books { s with
      engines := Function.update s.engines (s.applies[n]).1 e'
      applies := s.applies.eraseIdx n
      acks := s.acks ++
        Replication.newAcks (s.engines (s.applies[n]).1) e'
      received := s.received ++ [s.applies[n]] } := by
  have hperm := List.getElem_cons_eraseIdx_perm hn
  generalize s.applies[n] = x at happly hperm ⊢
  obtain ⟨p, m⟩ := x
  have hmem : (p, m) ∈ s.applies := hperm.subset List.mem_cons_self
  have hnodup : ((s.applies ++ s.received).map
      fun x => (x.1, x.2.subtransactionid)).Nodup :=
    (h.arrived.map _).nodup_iff.mpr h.ids
  rw [List.map_append, List.nodup_append] at hnodup
  have hnew : m.subtransactionid ∉
      (receivedAt s p).map MessageApply.subtransactionid := by
    intro hid
    obtain ⟨q, hq, heq⟩ := List.mem_map.mp hid
    obtain ⟨⟨p', q'⟩, hx, hsome⟩ := List.mem_filterMap.mp hq
    dsimp only at hsome
    split at hsome
    · next hp =>
      obtain rfl := Option.some.inj hsome
      subst hp
      exact hnodup.2.2 _ (List.mem_map_of_mem hmem) _
        (List.mem_map_of_mem hx) (Prod.ext rfl heq.symm)
    · exact absurd hsome (by simp)
  obtain ⟨hwell, hacks⟩ := engineWell_apply (h.engines p) hnew happly
  constructor
  case address => exact h.address
  case range => exact h.range
  case engines =>
    intro q
    have hreceived := receivedAt_append s (p, m) q
    by_cases hq : q = p
    · subst hq
      rw [if_pos rfl] at hreceived
      show EngineWell (Function.update s.engines q e' q)
        (receivedAt { s with received := s.received ++ [(q, m)] } q)
      rw [hreceived, Function.update_self]
      exact hwell
    · rw [if_neg fun heq => hq heq.symm, List.append_nil] at hreceived
      show EngineWell (Function.update s.engines p e' q)
        (receivedAt { s with received := s.received ++ [(p, m)] } q)
      rw [hreceived, Function.update_of_ne hq]
      exact h.engines q
  case arrived =>
    have hmove : (s.applies.eraseIdx n ++ (s.received ++ [(p, m)])).Perm
        ((p, m) :: s.applies.eraseIdx n ++ s.received) := by
      rw [← List.append_assoc]
      exact List.perm_append_comm
    exact (hmove.trans (hperm.append_right s.received)).trans h.arrived
  case ids => exact h.ids
  case acks =>
    show ((s.acks ++ Replication.newAcks (s.engines p) e') ++ s.acked).Subperm
      ((s.received ++ [(p, m)]).map fun x => ackOf x.2)
    rw [Replication.newAcks, List.map_append]
    rcases hacks with heq | heq
    · rw [heq, List.drop_length, List.append_nil]
      exact h.acks.trans (List.sublist_append_left _ _).subperm
    · rw [heq, List.drop_left]
      have hmove : (s.acks ++ [ackOf m] ++ s.acked).Perm
          (s.acks ++ s.acked ++ [ackOf m]) := by
        rw [List.append_assoc, List.append_assoc]
        exact List.perm_append_comm.append_left s.acks
      exact hmove.subperm.trans
        ((List.subperm_append_right [ackOf m]).mpr h.acks)
  case created => exact h.created
  case counts => exact h.counts
  case owners => exact h.owners

/-- Where no count is above zero, none gets to zero. -/
theorem ackapply_eq {agent : ReplicaAgent} (msg : MessageAckApply)
    (hcounts : ∀ x ∈ agent.appliers, x.2.partitioncount ≤ 0) :
    agent.ackapply msg = { agent with
      appliers := agent.appliers.map fun x =>
        if x.1 = msg.applierid then
          (x.1, { x.2 with partitioncount := x.2.partitioncount - 1 })
        else x } := by
  rw [ReplicaAgent.ackapply, ← List.filterMap_eq_map]
  congr 1
  refine List.filterMap_congr fun x hx => ?_
  obtain ⟨id, ap⟩ := x
  have hle : ap.partitioncount ≤ 0 := hcounts _ hx
  by_cases hid : id = msg.applierid
  · simp only [Function.comp, hid, ↓reduceIte, ReplicaAgent.ackedApply]
    rw [if_neg (by omega), Option.map_some]
  · simp only [Function.comp, hid, ↓reduceIte]

theorem books_ackapply {s : Replication} (h : Books s) {n : Nat}
    (hn : n < s.acks.length) :
    Books { s with
      agents := Function.update s.agents (s.acks[n]).destAddr
        ((s.agents (s.acks[n]).destAddr).ackapply s.acks[n])
      acks := s.acks.eraseIdx n
      acked := s.acked ++ [s.acks[n]] } := by
  have hperm := List.getElem_cons_eraseIdx_perm hn
  generalize s.acks[n] = msg at hperm ⊢
  have hcounts : ∀ x ∈ (s.agents msg.destAddr).appliers,
      x.2.partitioncount ≤ 0 := by
    intro x hx
    rw [h.counts _ x hx]
    omega
  have hagent := ackapply_eq msg hcounts
  constructor
  case address =>
    intro a
    by_cases ha : a = msg.destAddr
    · subst ha
      simp only [Function.update_self, hagent, h.address]
    · simp only [Function.update_of_ne ha, h.address a]
  case range =>
    intro a
    by_cases ha : a = msg.destAddr
    · subst ha
      simp only [Function.update_self, hagent, h.range]
    · simp only [Function.update_of_ne ha, h.range a]
  case engines => exact h.engines
  case arrived => exact h.arrived
  case ids => exact h.ids
  case acks =>
    have hmove : (s.acks.eraseIdx n ++ (s.acked ++ [msg])).Perm
        (msg :: s.acks.eraseIdx n ++ s.acked) := by
      rw [← List.append_assoc]
      exact List.perm_append_comm
    exact (hmove.trans (hperm.append_right s.acked)).subperm.trans h.acks
  case created =>
    intro a id
    have hold := h.created a id
    by_cases ha : a = msg.destAddr
    · subst ha
      have hkeys : ((s.agents msg.destAddr).appliers.map fun x =>
          if x.1 = msg.applierid then
            (x.1, { x.2 with partitioncount := x.2.partitioncount - 1 })
          else x).map Prod.fst = (s.agents msg.destAddr).appliers.map
            Prod.fst := by
        rw [List.map_map]
        refine List.map_congr_left fun x _ => ?_
        dsimp only [Function.comp]
        split <;> rfl
      simp only [applierids, Function.update_self, hagent] at hold ⊢
      rw [hkeys]
      exact hold
    · simp only [applierids, Function.update_of_ne ha] at hold ⊢
      exact hold
  case counts =>
    intro a x hx
    have hcount : ackedFor { s with acked := s.acked ++ [msg] } a x.1 =
        ackedFor s a x.1 +
          if msg.destAddr = a ∧ msg.applierid = x.1 then 1 else 0 := by
      rw [ackedFor, ackedFor, List.countP_append, List.countP_singleton]
      simp
    by_cases ha : a = msg.destAddr
    · subst ha
      simp only [Function.update_self, hagent] at hx
      obtain ⟨y, hy, rfl⟩ := List.mem_map.mp hx
      have hold := h.counts _ y hy
      show _ = -(ackedFor { s with acked := s.acked ++ [msg] } _ _ : Int)
      rw [hcount]
      split
      · next heq =>
        rw [if_pos ⟨rfl, heq.symm⟩]
        dsimp only
        omega
      · next hne =>
        rw [if_neg fun heq => hne heq.2.symm]
        exact hold
    · simp only [Function.update_of_ne ha] at hx
      have hold := h.counts a x hx
      show _ = -(ackedFor { s with acked := s.acked ++ [msg] } _ _ : Int)
      rw [hcount, if_neg fun heq => ha heq.1.symm]
      exact hold
  case owners =>
    intro x hx
    have hold := h.owners x hx
    by_cases ha : x.2.sourceAddr = msg.destAddr
    · simp only [ha, Function.update_self, hagent] at hold ⊢
      exact hold
    · simp only [Function.update_of_ne ha]
      exact hold

theorem step_apply {s : Replication} {n : Nat} (hn : n < s.applies.length) :
    s.step top schemata (.apply n) =
      ((s.engines (s.applies[n]).1).apply (s.applies[n]).2).map fun e =>
        { s with
          engines := Function.update s.engines (s.applies[n]).1 e
          applies := s.applies.eraseIdx n
          acks := s.acks ++
            Replication.newAcks (s.engines (s.applies[n]).1) e
          received := s.received ++ [s.applies[n]] } := by
  rw [Replication.step, List.getElem?_eq_getElem hn]
  rfl

theorem step_ackapply {s : Replication} {n : Nat} (hn : n < s.acks.length) :
    s.step top schemata (.ackapply n) = some { s with
      agents := Function.update s.agents (s.acks[n]).destAddr
        ((s.agents (s.acks[n]).destAddr).ackapply s.acks[n])
      acks := s.acks.eraseIdx n
      acked := s.acked ++ [s.acks[n]] } := by
  rw [Replication.step, List.getElem?_eq_getElem hn]
  rfl

theorem books_step {s s' : Replication} {a : ReplicaAction}
    (hcome : MayCome s a) (h : Books s)
    (hs : s.step top schemata a = some s') : Books s' := by
  cases a with
  | dispatch destAddr sourceAddr msg =>
      obtain ⟨hd, hhandled, rfl⟩ := Option.map_eq_some_iff.mp hs
      exact books_dispatch h hcome hhandled
  | apply n =>
      rw [step_apply hcome] at hs
      obtain ⟨e, happly, rfl⟩ := Option.map_eq_some_iff.mp hs
      exact books_apply h hcome happly
  | ackapply n =>
      rw [step_ackapply hcome] at hs
      obtain rfl := Option.some.inj hs
      exact books_ackapply h hcome

/-- A step goes well exactly if it keeps the books. -/
theorem acksWell_step {s : Replication} {a : ReplicaAction}
    (hcome : MayCome s a) (h : Books s) (hwell : AcksWell s) :
    (∃ s', s.step top schemata a = some s' ∧ AcksWell s') ↔
      KeepsBooks top schemata s a := by
  have hopen := (acksWell_iff h).mp hwell
  cases a with
  | dispatch destAddr sourceAddr msg =>
      rw [KeepsBooks, Option.isSome_iff_exists]
      constructor
      · rintro ⟨s', hs, _⟩
        obtain ⟨hd, hhandled, _⟩ := Option.map_eq_some_iff.mp hs
        exact ⟨hd, hhandled⟩
      · rintro ⟨hd, hhandled⟩
        have hs' := books_dispatch h hcome hhandled
        refine ⟨_, Option.map_eq_some_iff.mpr ⟨hd, hhandled, rfl⟩,
          (acksWell_iff hs').mpr fun b id _ => ?_⟩
        have hle := ackedFor_le h b id
        have hne := hopen b id
        show ackedFor s b id ≠ (s.sent ++ hd.msgs).countP _
        rw [List.countP_append]
        show ackedFor s b id ≠ sentFor s b id + hd.msgs.countP _
        have hpos : 0 < sentFor s b id + hd.msgs.countP fun x =>
            x.2.sourceAddr = b ∧ x.2.applierid = id := by
          rw [sentFor, ← List.countP_append]
          assumption
        omega
  | apply n =>
      rw [step_apply hcome, KeepsBooks]
      have hget : s.applies[n]? = some s.applies[n] :=
        List.getElem?_eq_getElem hcome
      constructor
      · rintro ⟨s', hs, _⟩ x hx
        obtain ⟨e, happly, _⟩ := Option.map_eq_some_iff.mp hs
        obtain rfl := Option.some.inj (hget.symm.trans hx)
        exact apply_isSome_iff.mp ⟨e, happly⟩
      · intro hfits
        obtain ⟨e, happly⟩ := apply_isSome_iff.mpr (hfits _ hget)
        have hs' := books_apply h hcome happly
        exact ⟨_, Option.map_eq_some_iff.mpr ⟨e, happly, rfl⟩,
          (acksWell_iff hs').mpr hopen⟩
  | ackapply n =>
      rw [step_ackapply hcome, KeepsBooks]
      have hget : s.acks[n]? = some s.acks[n] :=
        List.getElem?_eq_getElem hcome
      have hs' := books_ackapply h hcome
      have hcount : ∀ b id, ackedFor
          { s with acked := s.acked ++ [s.acks[n]] } b id =
            ackedFor s b id + if (s.acks[n]).destAddr = b ∧
              (s.acks[n]).applierid = id then 1 else 0 := by
        intro b id
        rw [ackedFor, ackedFor, List.countP_append, List.countP_singleton]
        simp
      constructor
      · rintro ⟨s', hs, hwell'⟩ k hk
        obtain rfl := Option.some.inj hs
        obtain rfl := Option.some.inj (hget.symm.trans hk)
        have hlast := (acksWell_iff hs').mp hwell' (s.acks[n]).destAddr
          (s.acks[n]).applierid
        have hthis : 0 < s.acks.countP fun k =>
            k.destAddr = (s.acks[n]).destAddr ∧
              k.applierid = (s.acks[n]).applierid :=
          List.countP_pos_iff.mpr
            ⟨s.acks[n], List.getElem_mem hcome, by simp⟩
        have hle := ackedFor_le h (s.acks[n]).destAddr (s.acks[n]).applierid
        have hadd := hcount (s.acks[n]).destAddr (s.acks[n]).applierid
        rw [if_pos ⟨rfl, rfl⟩] at hadd
        have hpos : 0 < sentFor s (s.acks[n]).destAddr
            (s.acks[n]).applierid := by omega
        rw [← hadd]
        exact hlast hpos
      · intro hnotlast
        refine ⟨_, rfl, (acksWell_iff hs').mpr fun b id hpos => ?_⟩
        show ackedFor { s with acked := s.acked ++ [s.acks[n]] } b id ≠
          sentFor s b id
        rw [hcount]
        split
        · next heq =>
          obtain ⟨rfl, rfl⟩ := heq
          exact hnotlast _ hget
        · exact hopen b id hpos

/-! ## The runs that go well -/

end
/-! ## Two runs -/

/-- Partitions 0 and 1 hold what there is, and every value belongs to 0. -/
def bothPartitions : Topology := ⟨2, fun _ => 0⟩

/-- Tables of one integer without an index. -/
def plainSchemata (_ _ : Int) : List Field := [⟨.int, 8, .none⟩]

/-- A transaction that inserted row 1 at each of these partitions, there as
subtransaction 1. -/
def insertDispatch (partitions : List Int) : MessageDispatch :=
  { transactionid := 1, domainid := 1
    pidsids := partitions.map fun p => (p, 1)
    records := partitions.map fun p =>
      (p, [⟨1, .insert, 1, 0, [0, 7, 0, 0, 0, 0, 0, 0, 0], []⟩]) }

/-- Two messages, of which one has been acknowledged. -/
def oneAck : List ReplicaAction :=
  [.dispatch ⟨1, 1⟩ ⟨2, 1⟩ (insertDispatch [0, 1]), .apply 1, .apply 0,
    .ackapply 1]

/-- One message, which is acknowledged. -/
def lastAck : List ReplicaAction :=
  [.dispatch ⟨1, 1⟩ ⟨2, 1⟩ (insertDispatch [0]), .apply 0, .ackapply 0]

end Infinisql.Proofs
