import Infinisql.Proofs.Elections

/-!
# A divided cluster

`electLeader` does nothing where the current size is less than half of the
peak. The size is counted anew when the partitioned nodes have been taken out,
so once a controller has given up every node on the other side, its size is
the number of nodes it still knows, all of its own group, and the guard holds
it back if that is less than half of the peak.

Less than half is not the same as no majority: of an even division both sides
may elect, and the controllers of a group of exactly half of the nodes are
held back only where the peak is larger than the cluster ever was. And the
size is the number of nodes only as long as nobody announces a node that is
already known, which adds one to it, and as long as the loop that takes the
nodes out comes to its end. `noSplitBrain` says that these are the only ways
to two leaders.

The invariant carried along a run says, of each controller of a group without
a majority: if it knows nodes of its own group only, the size is right. It
holds at the division for want of such a controller, since there everybody
knows everybody.
-/

namespace Infinisql.Manager

open Infinisql.Lib

variable {Id : Type} [LinearOrder Id] {c : Controller Id}

/-! ## What no input changes -/

theorem receive_nodeIdSet (c : Controller Id) (i : Input Id) :
    (c.receive i).1.nodeIdSet = c.nodeIdSet := by
  cases i with
  | tick =>
      obtain ⟨p, hbeat⟩ := beatHeart_frame c
      obtain ⟨l, e, n, p, el, heq⟩ := processNodeTasks_frame c
      rw [Controller.receive, heq]
      rcases evaluateClusterHealth_cases c.beatHeart with
        ⟨_, hh⟩ | ⟨_, l, hs, s, n, err, _, hh⟩
      · rw [hh, hbeat]
      · rw [hh, hbeat]
  | presence clusterName nodeId =>
      rw [Controller.receive, Controller.addNode]
      split
      · rfl
      · rfl
  | message m =>
      cases m with
      | electLeader v =>
          obtain ⟨l, e, n, p, el, heq⟩ := onElectLeader_frame c v
          rw [Controller.receive, heq]
      | heartbeat clusterName nodeId =>
          rw [Controller.receive, Controller.onHeartbeat]
          split
          · rfl
          · rfl

/-- A socket belongs to a known node, whatever arrives. -/
theorem receive_known (h : ∀ id ∈ c.subSockets.keys, id ∈ c.nodes)
    (i : Input Id) : ∀ id ∈ (c.receive i).1.subSockets.keys,
      id ∈ (c.receive i).1.nodes := by
  cases i with
  | tick =>
      obtain ⟨p, hbeat⟩ := beatHeart_frame c
      obtain ⟨l, e, n, p, el, heq⟩ := processNodeTasks_frame c
      rw [Controller.receive, heq]
      rcases evaluateClusterHealth_cases c.beatHeart with
        ⟨_, hh⟩ | ⟨_, l, hs, s, n, err, hrem, hh⟩
      · rw [hh, hbeat]
        exact h
      · have hknown := removeNodes_known c.beatHeart.partitioned
          { c.beatHeart with leaderNodeId := l } (by rw [hbeat]; exact h)
        rw [hrem] at hknown
        rw [hh]
        exact hknown
  | presence clusterName nodeId =>
      rw [Controller.receive, Controller.addNode]
      split
      · exact h
      · intro id hid
        rcases Dict.mem_keys_set.mp hid with rfl | hid
        · exact OrdSet.mem_insert.mpr (.inl rfl)
        · exact OrdSet.mem_insert.mpr (.inr (h id hid))
  | message m =>
      cases m with
      | electLeader v =>
          obtain ⟨l, e, n, p, el, heq⟩ := onElectLeader_frame c v
          rw [Controller.receive, heq]
          exact h
      | heartbeat clusterName nodeId =>
          rw [Controller.receive, Controller.onHeartbeat]
          split
          · exact h
          · exact h

/-- A controller that has been running has an address, and sockets for known
nodes only. -/
theorem Controller.Reachable.sound (h : c.Reachable) :
    c.nodeIdSet.card ≠ 0 ∧ ∀ id ∈ c.subSockets.keys, id ∈ c.nodes := by
  obtain ⟨config, inputs, hrun⟩ := h
  refine run_induct (Q := fun _ => True)
    (P := fun c : Controller Id => c.nodeIdSet.card ≠ 0 ∧
      ∀ id ∈ c.subSockets.keys, id ∈ c.nodes)
    (fun s a s' _ hs hstep => ?_) (fun _ _ => trivial)
    ⟨config.nonempty, fun id hid => absurd hid List.not_mem_nil⟩ hrun
  injection hstep with hstep
  rw [← hstep, receive_nodeIdSet]
  exact ⟨hs.1, receive_known hs.2 a⟩

/-- The peak only grows. -/
theorem receive_peak (c : Controller Id) (i : Input Id) :
    c.peakClusterSize ≤ (c.receive i).1.peakClusterSize := by
  cases i with
  | tick =>
      obtain ⟨p, hbeat⟩ := beatHeart_frame c
      obtain ⟨l, e, n, p, el, heq⟩ := processNodeTasks_frame c
      rw [Controller.receive, heq]
      rcases evaluateClusterHealth_cases c.beatHeart with
        ⟨_, hh⟩ | ⟨_, l, hs, s, n, err, _, hh⟩
      · rw [hh, hbeat]
      · rw [hh, hbeat]
  | presence clusterName nodeId =>
      rw [Controller.receive, Controller.addNode]
      split
      · exact le_rfl
      · exact le_max_right _ _
  | message m =>
      cases m with
      | electLeader v =>
          obtain ⟨l, e, n, p, el, heq⟩ := onElectLeader_frame c v
          rw [Controller.receive, heq]
      | heartbeat clusterName nodeId =>
          rw [Controller.receive, Controller.onHeartbeat]
          split
          · exact le_rfl
          · exact le_rfl

/-! ## Who elects -/

/-- A vote that arrives may force an election, but concludes none. -/
theorem onElectLeader_elected (c : Controller Id) (v : Vote Id) :
    (c.onElectLeader v).1.elected = c.elected := by
  have habandon : (c.abandonElection v.electionId).elected = c.elected := by
    unfold Controller.abandonElection
    split
    · rfl
    · rfl
  have hjoin : (c.abandonElection v.electionId).joinElection.1.elected =
      c.elected := by
    cases hcur : (c.abandonElection v.electionId).currentElection with
    | some e =>
        unfold Controller.joinElection
        rw [hcur]
        exact habandon
    | none =>
        rcases joinElection_cases hcur with
          ⟨_, heq⟩ | ⟨_, _, heq⟩ | ⟨_, best, p, heq⟩
        · rw [heq]
          exact habandon
        · rw [heq]
          exact habandon
        · rw [heq]
          exact habandon
  unfold Controller.onElectLeader
  split
  · next c₁ err heq =>
      rw [heq] at hjoin
      exact hjoin
  · next c₁ heq =>
      rw [heq] at hjoin
      split
      · exact hjoin
      · exact hjoin

/-- Only a tick sets a leader by election, and only of a controller that is no
minority by then. -/
theorem elected_receive {i : Input Id}
    (h : (c.receive i).1.elected ≠ c.elected) :
    i = .tick ∧ (c.receive i).1.minority = false := by
  cases i with
  | tick =>
      refine ⟨rfl, ?_⟩
      have hhealth : c.beatHeart.evaluateClusterHealth.1.elected =
          c.elected := by
        obtain ⟨p, hbeat⟩ := beatHeart_frame c
        rcases evaluateClusterHealth_cases c.beatHeart with
          ⟨_, hh⟩ | ⟨_, l, hs, s, n, err, _, hh⟩
        · rw [hh, hbeat]
        · rw [hh, hbeat]
      rw [Controller.receive] at h ⊢
      rcases processNodeTasks_cases c with heq | ⟨heq, _⟩
      · rw [heq] at h
        exact absurd hhealth h
      · rw [heq] at h ⊢
        rcases electLeader_cases c.beatHeart.evaluateClusterHealth.1 with
          ⟨_, hel⟩ | ⟨hmin, _, hel⟩ | ⟨e, hmin, _, _⟩
        · rw [hel] at h
          exact absurd hhealth h
        · obtain ⟨e, p, hf⟩ :=
            forceElection_frame c.beatHeart.evaluateClusterHealth.1
          rw [hel, hf]
          exact hmin
        · obtain ⟨l, e, n, p, el, hf⟩ :=
            electLeader_frame c.beatHeart.evaluateClusterHealth.1
          rw [hf]
          exact hmin
  | presence clusterName nodeId =>
      refine absurd ?_ h
      rw [Controller.receive, Controller.addNode]
      split
      · rfl
      · rfl
  | message m =>
      cases m with
      | electLeader v => exact absurd (onElectLeader_elected c v) h
      | heartbeat clusterName nodeId =>
          refine absurd ?_ h
          rw [Controller.receive, Controller.onHeartbeat]
          split
          · rfl
          · rfl

/-! ## The size of a controller on its own -/

/-- What a tick whose expired nodes have sockets does to the size: the nodes
stay as they are, and with them the size, or the size is the number of nodes
that are left. -/
theorem tick_size (hknown : ∀ id ∈ c.subSockets.keys, id ∈ c.nodes)
    (hserved : Served c .tick) :
    (c.processNodeTasks.1.nodes = c.nodes ∧
      c.processNodeTasks.1.currentClusterSize = c.currentClusterSize) ∨
    c.processNodeTasks.1.currentClusterSize =
      c.processNodeTasks.1.nodes.card := by
  obtain ⟨p, hbeat⟩ := beatHeart_frame c
  obtain ⟨l, e, n, p, el, heq⟩ := processNodeTasks_frame c
  rw [heq]
  rcases evaluateClusterHealth_cases c.beatHeart with
    ⟨_, hh⟩ | ⟨_, l, hs, s, n, err, hrem, hh⟩
  · rw [hh, hbeat]
    exact .inl ⟨rfl, rfl⟩
  · have hsock : c.beatHeart.subSockets = c.subSockets := by rw [hbeat]
    have hnodes : c.beatHeart.nodes = c.nodes := by rw [hbeat]
    have hnone := (removeNodes_all c.beatHeart.partitioned
      { c.beatHeart with leaderNodeId := l } (partitioned_nodup _)
      (by rw [hsock, hnodes]; exact hknown)
      (by rw [hsock]; exact hserved)).1
    rw [hrem] at hnone
    rw [hh]
    exact .inr (if_pos hnone)

/-- A tick adds no node. -/
theorem tick_nodes {id : Id} (h : id ∈ c.processNodeTasks.1.nodes) :
    id ∈ c.nodes := by
  obtain ⟨p, hbeat⟩ := beatHeart_frame c
  obtain ⟨l, e, n, p, el, heq⟩ := processNodeTasks_frame c
  rw [heq] at h
  rcases evaluateClusterHealth_cases c.beatHeart with
    ⟨_, hh⟩ | ⟨_, l, hs, s, n, err, hrem, hh⟩
  · rw [hh, hbeat] at h
    exact h
  · rw [hh] at h
    have hsub := (removeNodes_sub c.beatHeart.partitioned
      { c.beatHeart with leaderNodeId := l }).1
    rw [hrem] at hsub
    have hmem := hsub id h
    rw [hbeat] at hmem
    exact hmem

/-- Where a controller knows nodes from a set only, its size is their
number. -/
def Alone (ids : Finset Id) (c : Controller Id) : Prop :=
  (∀ id ∈ c.nodes, id ∈ ids) → c.currentClusterSize = c.nodes.card

/-- A tick after which it knows nodes of the set only may be the one that has
taken the last other node out. -/
theorem Alone.tick {ids : Finset Id} (h : Alone ids c)
    (hknown : ∀ id ∈ c.subSockets.keys, id ∈ c.nodes)
    (hserved : Served c .tick) : Alone ids c.processNodeTasks.1 := by
  intro hsub
  rcases tick_size hknown hserved with ⟨hnodes, hsize⟩ | hsize
  · rw [hnodes] at hsub ⊢
    rw [hsize]
    exact h hsub
  · exact hsize

theorem Alone.presence {ids : Finset Id} (h : Alone ids c)
    {clusterName : String} {nodeId : Id}
    (hnew : Recorded c (.presence clusterName nodeId)) :
    Alone ids (c.addNode clusterName nodeId) := by
  by_cases hc : clusterName = c.clusterName
  · rw [Controller.addNode, if_neg (not_not.mpr hc)]
    intro hsub
    dsimp only at hsub ⊢
    have hold : ∀ id ∈ c.nodes, id ∈ ids :=
      fun id hid => hsub id (OrdSet.mem_insert.mpr (.inr hid))
    rw [h hold, OrdSet.card_insert_of_not_mem (hnew hc)]
  · rw [addNode_other hc]
    exact h

theorem Alone.message {ids : Finset Id} (h : Alone ids c) (m : Msg Id) :
    Alone ids (c.receive (.message m)).1 := by
  cases m with
  | electLeader v =>
      obtain ⟨l, e, n, p, el, heq⟩ := onElectLeader_frame c v
      rw [Controller.receive, heq]
      exact h
  | heartbeat clusterName nodeId =>
      rw [Controller.receive, Controller.onHeartbeat]
      split
      · exact h
      · exact h

/-! ## Groups -/

section Groups

variable {ι γ : Type} [DecidableEq ι] [DecidableEq γ] [Fintype ι]
  {group : ι → γ} {w w₀ w' : Cluster ι Id} {a : Cluster.Event ι Id} {g g' : γ}

omit [DecidableEq ι] in
theorem mem_idsOf {id : Id} :
    id ∈ idsOf w group g ↔ ∃ i, group i = g ∧ id ∈ (w i).nodeIdSet := by
  simp only [idsOf, Finset.mem_biUnion, Finset.mem_filter, Finset.mem_univ,
    true_and, List.mem_toFinset]
  exact Iff.rfl

omit [DecidableEq ι] in
theorem mem_allIds {id : Id} :
    id ∈ allIds w ↔ ∃ i, id ∈ (w i).nodeIdSet := by
  simp only [allIds, Finset.mem_biUnion, Finset.mem_univ, true_and,
    List.mem_toFinset]
  exact Iff.rfl

omit [DecidableEq ι] in
/-- Two groups that both have more than half of the nodes share one. -/
theorem majority_unique (htog : Together w) (h : Majority w group g)
    (h' : Majority w group g') : g = g' := by
  by_contra hne
  have hdisj : Disjoint (idsOf w group g) (idsOf w group g') := by
    refine Finset.disjoint_left.mpr fun id hid hid' => ?_
    obtain ⟨i, hi, hmem⟩ := mem_idsOf.mp hid
    obtain ⟨j, hj, hmem'⟩ := mem_idsOf.mp hid'
    refine htog.apart i j (fun hij => hne ?_) id hmem hmem'
    rw [← hi, ← hj, hij]
  have hsub : idsOf w group g ∪ idsOf w group g' ⊆ allIds w := by
    intro id hid
    rcases Finset.mem_union.mp hid with hid | hid
    · obtain ⟨i, _, hmem⟩ := mem_idsOf.mp hid
      exact mem_allIds.mpr ⟨i, hmem⟩
    · obtain ⟨i, _, hmem⟩ := mem_idsOf.mp hid
      exact mem_allIds.mpr ⟨i, hmem⟩
  have hcard := Finset.card_le_card hsub
  rw [Finset.card_union_of_disjoint hdisj] at hcard
  unfold Majority at h h'
  omega

/-- What is carried along after the division. -/
structure Divided (group : ι → γ) (w₀ w : Cluster ι Id) : Prop where
  ids : ∀ i, (w i).nodeIdSet = (w₀ i).nodeIdSet
  peak : ∀ i, (w₀ i).peakClusterSize ≤ (w i).peakClusterSize
  known : ∀ i, ∀ id ∈ (w i).subSockets.keys, id ∈ (w i).nodes
  alone : ∀ i, ¬ Majority w₀ group (group i) →
    Alone (idsOf w₀ group (group i)) (w i)

omit [DecidableEq ι] in
/-- At the division nobody without a majority is alone. -/
theorem divided_start (htog : Together w) : Divided group w w where
  ids := fun _ => rfl
  peak := fun _ => le_rfl
  known := fun i => (htog.reachable i).sound.2
  alone := fun i hmin hsub => by
    refine absurd ?_ hmin
    have hall : allIds w ⊆ idsOf w group (group i) :=
      fun id hid => hsub id ((htog.known i id).mpr hid)
    have hcard := Finset.card_le_card hall
    obtain ⟨id, hid⟩ := List.exists_mem_of_length_pos
      (Nat.pos_of_ne_zero (htog.reachable i).sound.1)
    have hpos : 0 < (idsOf w group (group i)).card :=
      Finset.card_pos.mpr ⟨id, mem_idsOf.mpr ⟨i, rfl, hid⟩⟩
    unfold Majority
    omega

omit [DecidableEq ι] in
theorem idsOf_eq (h : Divided group w₀ w) (g : γ) :
    idsOf w group g = idsOf w₀ group g := by
  refine Finset.ext fun id => ?_
  rw [mem_idsOf, mem_idsOf]
  constructor
  · rintro ⟨i, hi, hid⟩
    exact ⟨i, hi, h.ids i ▸ hid⟩
  · rintro ⟨i, hi, hid⟩
    exact ⟨i, hi, (h.ids i).symm ▸ hid⟩

omit [DecidableEq ι] in
theorem majority_iff (h : Divided group w₀ w) :
    Majority w group g ↔ Majority w₀ group g := by
  have hall : allIds w = allIds w₀ := by
    refine Finset.ext fun id => ?_
    rw [mem_allIds, mem_allIds]
    constructor
    · rintro ⟨i, hid⟩
      exact ⟨i, h.ids i ▸ hid⟩
    · rintro ⟨i, hid⟩
      exact ⟨i, (h.ids i).symm ▸ hid⟩
  rw [Majority, Majority, hall, idsOf_eq h]

/-- The controller a step concerns stays alone, if it was, in an orderly
step. -/
theorem alone_step {ids : Finset Id} {i : ι}
    (hmin : ¬ Majority w group (group i))
    (hknown : ∀ i, ∀ id ∈ (w i).subSockets.keys, id ∈ (w i).nodes)
    (hok : Orderly group w a) (hs : Cluster.step w a = some w')
    (h : Alone ids (w i)) : Alone ids (w' i) := by
  have hother : ∀ (j : ι) (c : Controller Id), (j = i → Alone ids c) →
      Alone ids (Function.update w j c i) := by
    intro j c hc
    by_cases hj : i = j
    · subst hj
      rw [Function.update_self]
      exact hc rfl
    · rw [Function.update_of_ne hj]
      exact h
  cases a with
  | tick j =>
      injection hs with hs
      rw [← hs]
      refine hother j _ fun hj => ?_
      subst hj
      exact h.tick (hknown j) (hok hmin)
  | presence j clusterName nodeId =>
      injection hs with hs
      rw [← hs]
      refine hother j _ fun hj => ?_
      subst hj
      exact h.presence (hok hmin)
  | deliver j k n =>
      rw [Cluster.step] at hs
      split at hs
      · cases hs
      · next m _ =>
          injection hs with hs
          rw [← hs]
          refine hother j _ fun hj => ?_
          subst hj
          exact h.message m

theorem divided_step (h : Divided group w₀ w) (hok : Orderly group w a)
    (hs : Cluster.step w a = some w') : Divided group w₀ w' := by
  have halone : ∀ i, ¬ Majority w₀ group (group i) →
      Alone (idsOf w₀ group (group i)) (w' i) :=
    fun i hmin => alone_step ((majority_iff h).not.mpr hmin) h.known hok hs
      (h.alone i hmin)
  obtain ⟨i, input, rfl, _, _⟩ := step_cases hs
  refine ⟨fun j => ?_, fun j => ?_, fun j => ?_, halone⟩
  · by_cases hj : j = i
    · subst hj
      rw [Function.update_self, receive_nodeIdSet]
      exact h.ids j
    · rw [Function.update_of_ne hj]
      exact h.ids j
  · by_cases hj : j = i
    · subst hj
      rw [Function.update_self]
      exact le_trans (h.peak j) (receive_peak _ _)
    · rw [Function.update_of_ne hj]
      exact h.peak j
  · by_cases hj : j = i
    · subst hj
      rw [Function.update_self]
      exact receive_known (h.known j) input
    · rw [Function.update_of_ne hj]
      exact h.known j

/-- An orderly step by which a group elects shows it to be a majority. -/
theorem majority_of_elects (hout : Outnumbered group w₀)
    (h : Divided group w₀ w) (hok : Orderly group w a) (hel : Elects group w a g) :
    Majority w₀ group g := by
  obtain ⟨i, w', rfl, hs, hne, hsub⟩ := hel
  by_contra hmin
  have hd := divided_step h hok hs
  rw [idsOf_eq h] at hsub
  have hsize := hd.alone i hmin hsub
  have hcard := OrdSet.card_le_of_subset hsub
  have hlow := hout i hmin
  have hpeak := hd.peak i
  obtain ⟨j, input, rfl, _, _⟩ := step_cases hs
  by_cases hj : i = j
  · subst hj
    rw [Function.update_self] at hne hsize hcard hpeak
    have hfree := of_decide_eq_false (elected_receive hne).2
    omega
  · rw [Function.update_of_ne hj] at hne
    exact hne rfl

/-- Where every group without a majority is less than half of the largest
cluster its controllers have seen, and hears no announcement of a node it
knows and has no tick that fails, only a majority elects once it knows its own
nodes alone; and so at most one group does. -/
theorem noSplitBrain (group : ι → γ) (w : Cluster ι Id)
    (events : List (Cluster.Event ι Id)) (htog : Together w)
    (hout : Outnumbered group w)
    (hrun : AllSteps Cluster.step
      (fun w a => Within group w a ∧ Orderly group w a) w events) :
    NoSplitBrain group w events := by
  have hmaj : ∀ g, ElectsIn group w events g → Majority w group g := by
    rintro g ⟨bs, a, hbs, w', hw', hel⟩
    have hpre := hrun.of_prefix hbs
    have hd : Divided group w w' :=
      (hpre.of_prefix (List.prefix_append bs [a])).run_induct
        (fun s a s' hok hs hstep => divided_step hs hok.2 hstep)
        (divided_start htog) hw'
    obtain ⟨i, w'', _, hstep, _⟩ := id hel
    exact majority_of_elects hout hd (hpre.at_end hw' hstep).2 hel
  exact ⟨hmaj, fun g g' h h' => majority_unique htog (hmaj g h) (hmaj g' h')⟩

end Groups

/-! ## Even sides -/

instance (c : Controller Id) (i : Input Id) : Decidable (Served c i) :=
  match i with
  | .tick =>
      haveI := fun id => Controller.decidableMem id c.subSockets.keys
      inferInstanceAs (Decidable (∀ id ∈ c.beatHeart.partitioned,
        id ∈ c.subSockets.keys))
  | .message (.electLeader v) =>
      inferInstanceAs (Decidable (c.currentElection = none ∨
        c.currentElectionId < v.electionId → c.minority = false))
  | .message (.heartbeat _ _) | .presence _ _ => isTrue trivial

instance (c : Controller Id) (i : Input Id) : Decidable (Recorded c i) :=
  match i with
  | .tick | .message (.electLeader _) => isTrue trivial
  | .presence clusterName nodeId =>
      inferInstanceAs (Decidable (clusterName = c.clusterName →
        nodeId ∉ c.nodes))
  | .message (.heartbeat clusterName nodeId) =>
      haveI := Controller.decidableMem nodeId c.subSockets.keys
      inferInstanceAs (Decidable (clusterName = c.clusterName →
        nodeId ∈ c.subSockets.keys))

instance {ι γ : Type} [DecidableEq ι] [DecidableEq γ] [Fintype ι]
    (group : ι → γ) (w : Cluster ι Id) (a : Cluster.Event ι Id) :
    Decidable (Within group w a) :=
  match a with
  | .tick _ => isTrue trivial
  | .deliver i j _ => inferInstanceAs (Decidable (group j = group i))
  | .presence i _ nodeId =>
      inferInstanceAs (Decidable (nodeId ∈ idsOf w group (group i)))

instance {ι γ : Type} [DecidableEq ι] [DecidableEq γ] [Fintype ι]
    (group : ι → γ) (w : Cluster ι Id) (g : γ) :
    Decidable (Majority w group g) := by
  unfold Majority
  infer_instance

instance {ι γ : Type} [DecidableEq ι] [DecidableEq γ] [Fintype ι]
    (group : ι → γ) (w : Cluster ι Id) (a : Cluster.Event ι Id) :
    Decidable (Orderly group w a) :=
  match a with
  | .tick i => inferInstanceAs (Decidable
      (¬ Majority w group (group i) → Served (w i) .tick))
  | .presence i clusterName nodeId => inferInstanceAs (Decidable
      (¬ Majority w group (group i) →
        Recorded (w i) (.presence clusterName nodeId)))
  | .deliver .. => isTrue trivial

/-- What a controller is given until it has a leader: the announcements of the
others, its clock, and some of their votes. -/
def upbringing (best : NodeId) (others voters : List NodeId) :
    List (Input NodeId) :=
  others.map (.presence "c") ++ List.replicate 11 .tick ++
    (voters.map fun voter => .message (.electLeader ⟨best, voter, 0⟩)) ++
    List.replicate 39 .tick

def grown (own best : NodeId) (others voters : List NodeId) :
    Controller NodeId :=
  (upbringing best others voters).foldl (fun c a => (c.receive a).1)
    (Controller.new (Config.ofAddress "c" own))

theorem run_eq_foldl (inputs : List (Input Id)) : ∀ c : Controller Id,
    run Controller.step c inputs =
      some (inputs.foldl (fun c a => (c.receive a).1) c) := by
  induction inputs with
  | nil => exact fun _ => rfl
  | cons a as ih => exact fun c => ih (c.receive a).1

def node (i : Fin 4) : NodeId :=
  NodeId.at (["10.0.0.1", "10.0.0.2", "10.0.0.3", "10.0.0.4"].get i)

/-- Four controllers that have elected the last of them. The last one has not
seen the vote of the third. -/
def fourNodes : Cluster (Fin 4) NodeId
  | 0 => grown (node 0) (node 3) [node 1, node 2, node 3]
      [node 1, node 2, node 3]
  | 1 => grown (node 1) (node 3) [node 0, node 2, node 3]
      [node 0, node 2, node 3]
  | 2 => grown (node 2) (node 3) [node 0, node 1, node 3]
      [node 0, node 1, node 3]
  | 3 => grown (node 3) (node 3) [node 0, node 1, node 2] [node 0, node 1]

theorem fourNodes_together : Together fourNodes where
  reachable := by
    intro i
    match i with
    | 0 => exact ⟨_, _, run_eq_foldl _ _⟩
    | 1 => exact ⟨_, _, run_eq_foldl _ _⟩
    | 2 => exact ⟨_, _, run_eq_foldl _ _⟩
    | 3 => exact ⟨_, _, run_eq_foldl _ _⟩
  apart := by
    have hids : ∀ i, (fourNodes i).nodeIdSet = OrdSet.singleton (node i) := by
      decide +kernel
    have hne : ∀ i j, i ≠ j → node i ≠ node j := by decide +kernel
    intro i j hij id hid hid'
    rw [hids i] at hid
    rw [hids j] at hid'
    exact hne i j hij
      ((OrdSet.mem_singleton.mp hid).symm.trans (OrdSet.mem_singleton.mp hid'))
  known := by
    have hall : ∀ i, (fourNodes i).nodes.toList.toFinset = allIds fourNodes := by
      decide +kernel
    intro i id
    rw [← hall i, List.mem_toFinset]
    exact Iff.rfl
  leader := ⟨node 3, by decide +kernel⟩

/-- Cut off from the other three, the last node elects nobody. -/
theorem fourNodes_lone : NoSplitBrain (fun i => decide (i = 3)) fourNodes
    (List.replicate 12 (.tick 3)) :=
  noSplitBrain _ fourNodes _ fourNodes_together
    (by unfold Outnumbered; decide +kernel) (by decide +kernel)

/-- To find a group electing is to compute the run so far and one step more. -/
theorem electsIn_of {ι γ : Type} [DecidableEq ι] [DecidableEq γ] [Fintype ι]
    {group : ι → γ} {w : Cluster ι Id} {bs events : List (Cluster.Event ι Id)}
    {a : Cluster.Event ι Id} (i : ι) (hpre : bs ++ [a] <+: events)
    (h : (run Cluster.step w bs).any (fun w' =>
      (Cluster.step w' a).any fun w'' =>
        decide ((w'' i).elected ≠ (w' i).elected ∧
          ∀ id ∈ (w'' i).nodes.toList, id ∈ idsOf w' group (group i))) = true) :
    ElectsIn group w events (group i) := by
  obtain ⟨w', hrun, h⟩ := (Option.any_eq_true _ _).mp h
  obtain ⟨w'', hstep, h⟩ := (Option.any_eq_true _ _).mp h
  obtain ⟨hne, hsub⟩ := of_decide_eq_true h
  exact ⟨bs, a, hpre, w', hrun, i, w'', rfl, hstep, hne, hsub⟩

/-- The two sides of an even division. -/
def side (i : Fin 4) : Bool := decide (2 ≤ i)

def firstSide : List (Cluster.Event (Fin 4) NodeId) :=
  [.deliver 0 1 5, .deliver 1 0 5, .tick 0, .tick 1, .deliver 0 1 6] ++
    List.replicate 10 (.tick 0)

def secondSide : List (Cluster.Event (Fin 4) NodeId) :=
  [.deliver 3 2 5, .tick 3, .deliver 3 2 1] ++ List.replicate 10 (.tick 3)

/-- On each side the heartbeats go on. The first two give up the leader and
elect one of themselves; the last one gets the vote it has not seen, gives up
the leader, and elects again. -/
theorem two_leaders : Together fourNodes ∧
    AllSteps Cluster.step (Within side) fourNodes
      (firstSide ++ [.tick 0] ++ secondSide ++ [.tick 3]) ∧
    ¬ NoSplitBrain side fourNodes
      (firstSide ++ [.tick 0] ++ secondSide ++ [.tick 3]) := by
  have hfirst : ElectsIn side fourNodes
      (firstSide ++ [.tick 0] ++ secondSide ++ [.tick 3]) (side 0) := by
    have hpre : firstSide ++ [.tick 0] <+:
        firstSide ++ [.tick 0] ++ secondSide ++ [.tick 3] := by
      rw [List.append_assoc]
      exact List.prefix_append _ _
    exact electsIn_of 0 hpre (by decide +kernel)
  have hsecond : ElectsIn side fourNodes
      (firstSide ++ [.tick 0] ++ secondSide ++ [.tick 3]) (side 3) :=
    electsIn_of (a := .tick 3) 3 List.prefix_rfl (by decide +kernel)
  refine ⟨fourNodes_together, by decide +kernel, fun h => ?_⟩
  exact absurd (h.2 _ _ hfirst hsecond) (by decide)

end Infinisql.Manager
