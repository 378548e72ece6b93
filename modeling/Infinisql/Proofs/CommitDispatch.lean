import Infinisql.Lib.Await
import Infinisql.Ref.Dispatch

/-!
# The dispatch of a commit

Each replica has to get the message once, the counter has to start at the
number of messages, and the commit has to go on when the last acknowledgement
is in, whatever order they come in. The general part is `Lib/Await`: a
counter that starts at the number of requests in flight is in time.

The code meets this with one replica, and with two if there is something to
dispatch. With two replicas and nothing to dispatch it sends no message and
waits for one acknowledgement. With more replicas it leaves out the first
address and sends to the last one twice.
-/

namespace Infinisql.Proofs

open Infinisql.Ref Infinisql.Lib

/-! ## The replicas -/

/-- The addresses an agent holds fit the number of replicas it knows of. -/
def SetUp (agent : TransactionAgent) : Prop :=
  2 < agent.numreplicas →
    (agent.replicaAddresses.length : Int) + 1 = agent.numreplicas ∧
      agent.replicaAddresses.Nodup

/-- What the topology manager promises: as many replicas as it says, and no
node in two places. -/
structure Distinct (agent : TransactionAgent) : Prop where
  length : (agent.replicaMembers.length : Int) = agent.numreplicas
  inside : agent.findReplica.1 < agent.replicaMembers.length
  nodeid : ∀ {n₁ n₂ m : Nat} {id : Int},
    (agent.replicaMembers[n₁]?).bind (·[m]?) = some id →
      (agent.replicaMembers[n₂]?).bind (·[m]?) = some id → n₁ = n₂

theorem memberAddress_eq_some {agent : TransactionAgent} {m n : Nat}
    {addr : AddressStruct} (h : agent.memberAddress m n = some addr) :
    (agent.replicaMembers[n]?).bind (·[m]?) = some addr.nodeid := by
  rw [TransactionAgent.memberAddress] at h
  split at h
  · next nodeid actorid h1 _ =>
      injection h with h
      rw [h1, ← h]
  · exact absurd h (by simp)

/-- The addresses of different replicas are different. -/
theorem mapM_memberAddress_nodup {agent : TransactionAgent} {m : Nat}
    (hd : Distinct agent) : ∀ {ns : List Nat} {ras : List AddressStruct},
    ns.Nodup → ns.mapM (agent.memberAddress m) = some ras →
      ras.length = ns.length ∧ ras.Nodup ∧
        ∀ addr ∈ ras, ∃ n ∈ ns, agent.memberAddress m n = some addr := by
  intro ns
  induction ns with
  | nil =>
      intro ras _ h
      injection h with h
      subst h
      exact ⟨rfl, List.nodup_nil, by simp⟩
  | cons n ns ih =>
      intro ras hn h
      obtain ⟨hnew, hns⟩ := List.nodup_cons.mp hn
      rw [List.mapM_cons] at h
      simp only [Option.pure_def, Option.bind_eq_bind,
        Option.bind_eq_some_iff] at h
      obtain ⟨addr, h1, rest, h2, h3⟩ := h
      injection h3 with h3
      subst h3
      obtain ⟨hlen, hnd, hall⟩ := ih hns h2
      refine ⟨by rw [List.length_cons, List.length_cons, hlen], ?_, ?_⟩
      · refine List.nodup_cons.mpr ⟨fun hmem => ?_, hnd⟩
        obtain ⟨n', hn', h4⟩ := hall addr hmem
        have h5 := hd.nodeid (memberAddress_eq_some h1)
          (memberAddress_eq_some h4)
        exact hnew (h5 ▸ hn')
      · intro addr' hmem
        rcases List.mem_cons.mp hmem with rfl | hmem
        · exact ⟨n, List.mem_cons_self, h1⟩
        · obtain ⟨n', hn', h4⟩ := hall addr' hmem
          exact ⟨n', List.mem_cons_of_mem n hn', h4⟩

/-- `updateReplicas` sets an agent up. -/
theorem updateReplicas_setUp {agent agent' : TransactionAgent}
    (hd : Distinct agent) (h : agent.updateReplicas = some agent') :
    SetUp agent' := by
  intro hmany
  rw [TransactionAgent.updateReplicas] at h
  split at h
  · next hone =>
      injection h with h
      subst h
      omega
  · next hone =>
      dsimp only at h
      split at h
      · next htwo =>
          have hsame : agent'.numreplicas = agent.numreplicas := by
            split at h
            · exact absurd h (by simp)
            · split at h
              · injection h with h
                rw [← h]
              · split at h
                · exact absurd h (by simp)
                · injection h with h
                  rw [← h]
          omega
      · obtain ⟨ras, h1, h2⟩ := Option.map_eq_some_iff.mp h
        subst h2
        obtain ⟨hlen, hnd, _⟩ := mapM_memberAddress_nodup hd
          (List.nodup_range.filter _) h1
        refine ⟨?_, hnd⟩
        have hothers : ((List.range agent.replicaMembers.length).filter
            (· != agent.findReplica.1)).length + 1 =
            agent.replicaMembers.length := by
          have hcount := List.length_eq_countP_add_countP
            (· != agent.findReplica.1)
            (l := List.range agent.replicaMembers.length)
          rw [List.length_range, List.countP_eq_length_filter] at hcount
          have hone : List.countP (fun a => !(a != agent.findReplica.1))
              (List.range agent.replicaMembers.length) = 1 := by
            have h3 := List.count_eq_one_of_mem List.nodup_range
              (List.mem_range.mpr hd.inside)
            rw [List.count] at h3
            rw [← h3]
            congr 1
            funext a
            simp [bne]
          simp only [Bool.not_eq_true, Bool.decide_eq_false] at hcount
          omega
        show (ras.length : Int) + 1 = agent.numreplicas
        rw [hlen, ← hd.length]
        omega

/-! ## The message -/

theorem pushRecord_ne_nil (e : Int) (r : DispatchRecord)
    (records : List (Int × List DispatchRecord)) :
    Transaction.pushRecord e r records ≠ [] := by
  cases records with
  | nil => exact List.cons_ne_nil _ _
  | cons p records =>
      rw [Transaction.pushRecord]
      split <;> exact List.cons_ne_nil _ _

theorem dispatchRecord_eq_none {uur : UuRecord} {srow : StagedRow} :
    Transaction.dispatchRecord uur srow = none ↔ srow.cmd = .nocommand := by
  unfold Transaction.dispatchRecord
  cases srow.cmd <;> simp

/-- The loop over the staged rows. -/
theorem foldl_records_eq_nil {stagedRows : List (UuRecord × StagedRow)} :
    ∀ {records : List (Int × List DispatchRecord)},
      stagedRows.foldl Transaction.addRecord records = [] ↔
        records = [] ∧ ∀ p ∈ stagedRows, p.2.cmd = .nocommand := by
  induction stagedRows with
  | nil => simp
  | cons p stagedRows ih =>
      intro records
      rw [List.foldl_cons, ih, List.forall_mem_cons,
        ← @dispatchRecord_eq_none p.1, Transaction.addRecord]
      cases Transaction.dispatchRecord p.1 p.2 with
      | none => simp
      | some r => simp [pushRecord_ne_nil]

/-- There is a message exactly if a row was written. -/
theorem makeMessageDispatch_eq_none {t : Transaction} :
    t.makeMessageDispatch = none ↔
      ∀ p ∈ t.stagedRows, p.2.cmd = .nocommand := by
  have h : Transaction.dispatchRecords t.stagedRows = [] ↔
      ∀ p ∈ t.stagedRows, p.2.cmd = .nocommand := by
    rw [Transaction.dispatchRecords, foldl_records_eq_nil]
    exact and_iff_right rfl
  rw [Transaction.makeMessageDispatch, ← h]
  split
  · next h1 => simp [h1]
  · next h1 => simp [h1]

/-! ## The acknowledgements -/

/-- A commit that has been dispatched, and the replicas that have not yet
acknowledged it. -/
structure Acknowledging where
  dispatching : Dispatching
  inflight : List AddressStruct

/-- The acknowledgement of one replica arrives. -/
def acknowledge (s : Acknowledging) (addr : AddressStruct) :
    Option Acknowledging :=
  if addr ∈ s.inflight then
    some
      { dispatching := Transaction.continueCommitTransaction s.dispatching
        inflight := s.inflight.erase addr }
  else none

/-- Each message sent is one acknowledgement owed. -/
def Acknowledging.start (d : Dispatching) : Acknowledging where
  dispatching := d
  inflight := d.sent.map Prod.fst

def Acknowledging.await (s : Acknowledging) : Await AddressStruct where
  wait := s.dispatching.waitfordispatched
  inflight := s.inflight
  entered := s.dispatching.entered

/-- The commit is a party that counts answers. -/
theorem acknowledge_await (s : Acknowledging) (addr : AddressStruct) :
    s.await.answer addr = (acknowledge s addr).map Acknowledging.await := by
  rw [Await.answer, acknowledge]
  by_cases h : addr ∈ s.inflight
  · rw [if_pos h, if_pos (show addr ∈ s.await.inflight from h),
      Option.map_some, Transaction.continueCommitTransaction]
    by_cases h0 : s.dispatching.waitfordispatched - 1 = 0
    · simp [Acknowledging.await, h0]
    · simp [Acknowledging.await, h0]
  · rw [if_neg h, if_neg (show addr ∉ s.await.inflight from h)]
    rfl

/-- The replicas get the message once each, the counter is the number of
messages, the commit goes on when the last acknowledgement is in and not
before, and it does go on, in whatever order they arrive. -/
def DispatchesOnce (agent : TransactionAgent) (t : Transaction) : Prop :=
  ∃ d, Transaction.commitDispatch agent t = some d ∧
    d.sent.Perm (t.makeMessageDispatch.toList.flatMap fun msg =>
      agent.otherReplicas.map (·, msg)) ∧
    d.waitfordispatched = d.sent.length ∧
    (∀ addrs, AllStates acknowledge (fun s => s.await.InTime)
      (Acknowledging.start d) addrs) ∧
    ∀ addrs, addrs.Perm (d.sent.map Prod.fst) →
      ∃ s, run acknowledge (Acknowledging.start d) addrs = some s ∧
        s.dispatching.entered = 1

/-- A counter that starts right stays right, and gets there. -/
theorem acknowledging_of_counts {d : Dispatching}
    (hc : (Acknowledging.start d).await.Counts) :
    (∀ addrs, AllStates acknowledge (fun s => s.await.InTime)
      (Acknowledging.start d) addrs) ∧
    ∀ addrs, addrs.Perm (d.sent.map Prod.fst) →
      ∃ s, run acknowledge (Acknowledging.start d) addrs = some s ∧
        s.dispatching.entered = 1 := by
  have hall : ∀ addrs, AllStates acknowledge (fun s => s.await.InTime)
      (Acknowledging.start d) addrs := fun addrs =>
    allStates_map acknowledge_await hc.inTime
  refine ⟨hall, fun addrs hperm => ?_⟩
  obtain ⟨w, h1, h2, _⟩ := Await.run_answers
    (w := (Acknowledging.start d).await) hperm
  rw [run_map acknowledge_await] at h1
  obtain ⟨s, h3, h4⟩ := Option.map_eq_some_iff.mp h1
  refine ⟨s, h3, ?_⟩
  have hin := allStates_iff_run.mp (hall addrs) addrs (List.prefix_refl _) s h3
  rw [Await.InTime, h4, h2] at hin
  rw [← h4] at hin
  exact hin

/-! ## The three branches -/

/-- What is sent to more than two replicas: not to the first. -/
theorem sendReplicas_not_perm {addrs : List AddressStruct}
    {msg : MessageDispatch} {sent : List (AddressStruct × MessageDispatch)}
    (hlen : 2 ≤ addrs.length) (hnd : addrs.Nodup)
    (h : Transaction.sendReplicas addrs msg = some sent) :
    ¬ sent.Perm (addrs.map (·, msg)) := by
  intro hperm
  cases addrs with
  | nil => exact absurd hlen (by simp)
  | cons first rest =>
      have hne : rest ≠ [] := by
        rintro rfl
        exact absurd hlen (by simp)
      obtain ⟨hnot, _⟩ := List.nodup_cons.mp hnd
      have hmem : (first, msg) ∈ sent :=
        hperm.mem_iff.mpr (by simp)
      rw [Transaction.sendReplicas, List.getLast?_cons,
        List.getLast?_eq_some_getLast hne] at h
      injection h with h
      rw [← h] at hmem
      rcases List.mem_append.mp hmem with h1 | h1
      · obtain ⟨a, ha, heq⟩ := List.mem_map.mp h1
        injection heq with heq
        exact hnot (heq ▸ ha)
      · rw [List.mem_singleton] at h1
        injection h1 with h1
        exact hnot (h1 ▸ List.getLast_mem hne)

/-- The condition: there is nobody to tell, or there is one replica and
something to tell it. -/
def Dispatchable (agent : TransactionAgent) (t : Transaction) : Prop :=
  agent.numreplicas = 1 ∨
    agent.numreplicas = 2 ∧ ∃ p ∈ t.stagedRows, p.2.cmd ≠ .nocommand

theorem dispatchesOnce_one {agent : TransactionAgent} {t : Transaction}
    (hone : agent.numreplicas = 1) : DispatchesOnce agent t := by
  refine ⟨{ sent := [], waitfordispatched := 0, entered := 1 }, ?_, ?_, rfl,
    acknowledging_of_counts ⟨rfl, rfl⟩⟩
  · rw [Transaction.commitDispatch, if_pos hone]
    rfl
  · have hnone : agent.otherReplicas = [] := by
      rw [TransactionAgent.otherReplicas, if_pos (by omega)]
    rw [hnone]
    simp

theorem dispatchesOnce_two {agent : TransactionAgent} {t : Transaction}
    {msg : MessageDispatch} (htwo : agent.numreplicas = 2)
    (hmsg : t.makeMessageDispatch = some msg) : DispatchesOnce agent t := by
  refine ⟨{ sent := [(agent.replicaAddress, msg)], waitfordispatched := 1 },
    ?_, ?_, rfl, acknowledging_of_counts ⟨rfl, rfl⟩⟩
  · rw [Transaction.commitDispatch, if_neg (by omega), hmsg]
    dsimp only
    rw [if_pos htwo, htwo]
    rfl
  · have hsome : agent.otherReplicas = [agent.replicaAddress] := by
      rw [TransactionAgent.otherReplicas, if_neg (by omega), if_pos htwo]
    rw [hsome, hmsg]
    simp

/-- Without a message the counter stands at the number of replicas. -/
theorem not_dispatchesOnce_silent {agent : TransactionAgent} {t : Transaction}
    (hmany : agent.numreplicas ≠ 1) (hmsg : t.makeMessageDispatch = none) :
    ¬ DispatchesOnce agent t := by
  rintro ⟨d, h, _, hwait, _⟩
  rw [Transaction.commitDispatch, if_neg hmany, hmsg] at h
  injection h with h
  subst h
  have h0 : agent.numreplicas - 1 = 0 := hwait
  omega

theorem not_dispatchesOnce_many {agent : TransactionAgent} {t : Transaction}
    {msg : MessageDispatch} (hset : SetUp agent)
    (hone : agent.numreplicas ≠ 1) (htwo : agent.numreplicas ≠ 2)
    (hmsg : t.makeMessageDispatch = some msg) : ¬ DispatchesOnce agent t := by
  rintro ⟨d, h, hperm, hwait, _⟩
  rw [Transaction.commitDispatch, if_neg hone, hmsg] at h
  dsimp only at h
  rw [if_neg htwo] at h
  obtain ⟨sent, h1, rfl⟩ := Option.map_eq_some_iff.mp h
  by_cases hmany : 2 < agent.numreplicas
  · obtain ⟨hlen, hnd⟩ := hset hmany
    refine sendReplicas_not_perm (by omega) hnd h1 ?_
    rw [TransactionAgent.otherReplicas, if_neg (by omega), if_neg htwo,
      hmsg] at hperm
    simpa using hperm
  · have h0 : agent.numreplicas - 1 = (sent.length : Int) := hwait
    omega

/-- Dispatch and count agree exactly in two cases. -/
theorem dispatchesOnce_iff {agent : TransactionAgent} {t : Transaction}
    (hset : SetUp agent) :
    DispatchesOnce agent t ↔ Dispatchable agent t := by
  have hwritten : (∃ p ∈ t.stagedRows, p.2.cmd ≠ .nocommand) ↔
      t.makeMessageDispatch ≠ none := by
    rw [Ne, makeMessageDispatch_eq_none]
    push Not
    rfl
  rw [Dispatchable, hwritten]
  by_cases hone : agent.numreplicas = 1
  · exact iff_of_true (dispatchesOnce_one hone) (.inl hone)
  · cases hmsg : t.makeMessageDispatch with
    | none =>
        refine iff_of_false (not_dispatchesOnce_silent hone hmsg) ?_
        simp [hone]
    | some msg =>
        by_cases htwo : agent.numreplicas = 2
        · exact iff_of_true (dispatchesOnce_two htwo hmsg)
            (.inr ⟨htwo, by simp⟩)
        · refine iff_of_false (not_dispatchesOnce_many hset hone htwo hmsg) ?_
          simp [hone, htwo]

/-- A transaction that inserted one row, committed with two replicas. -/
def insertOnly : Transaction where
  transactionid := 1
  domainid := 1
  engineToSubTransactionids := [(0, 1)]
  stagedRows := [({ rowid := 1, tableid := 1, engineid := 0 },
    { cmd := .insert, newrowid := 1 })]

def twoReplicas : TransactionAgent where
  numreplicas := 2
  replicaAddress := ⟨2, 5⟩

def threeReplicas : TransactionAgent where
  numreplicas := 3
  replicaAddresses := [⟨2, 5⟩, ⟨3, 5⟩]

theorem dispatchesOnce_iff_twoReplicas :
    DispatchesOnce twoReplicas insertOnly :=
  (@dispatchesOnce_iff twoReplicas insertOnly
    (by intro h; exact absurd h (by decide))).mpr
    (.inr ⟨rfl, _, List.mem_cons_self, by decide⟩)

/-- With three replicas the first address gets nothing. -/
theorem threeReplicas_not_dispatchesOnce :
    ¬ DispatchesOnce threeReplicas insertOnly := by
  have hmsg : insertOnly.makeMessageDispatch ≠ none := by decide
  obtain ⟨msg, hmsg⟩ := Option.ne_none_iff_exists'.mp hmsg
  exact not_dispatchesOnce_many (by intro _; decide) (by decide) (by decide)
    hmsg

end Infinisql.Proofs
