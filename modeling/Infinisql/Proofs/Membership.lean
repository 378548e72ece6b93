import Infinisql.Spec.Controller

/-!
# The books of a controller, and its calls

`addNode` logs an announcement of a node it knows as dropped, but does not
return: the size goes up by one for a node that was already counted, the open
socket is replaced by another, and the leader is evicted. `onHeartbeat` takes
an entry from any node id, so a node that is known by its heartbeat alone has
no subscription socket; when that heartbeat expires the loop over the
partitioned nodes stops at the missing socket, with the registries half
cleared and the size as it was. And `onElectLeader` tallies in the election
that `electLeader` has just refused to start in a minority.

`books_iff_recorded` and `returns_iff_served` say that there is nothing else:
a controller with one address keeps its books in exactly the runs in which no
known node is announced and no heartbeat comes from a node without a socket,
and no handler raises in exactly the runs in which each expired node has a
socket and no vote that needs an election arrives at a minority.

Each handler has a lemma that says what it may touch. The loop over the
partitioned nodes has two more: it completes when each of them has a socket,
and what it takes out of the registries is then precisely these nodes.
-/

namespace Infinisql.Manager

open Infinisql.Lib

variable {Id : Type} [LinearOrder Id] {c c' : Controller Id}

/-! ## What the handlers touch -/

omit [LinearOrder Id] in
theorem beatHeart_frame (c : Controller Id) :
    ∃ p, c.beatHeart =
      { c with currentNodeTime := c.currentNodeTime + 1, published := p } := by
  unfold Controller.beatHeart
  split
  · exact ⟨_, rfl⟩
  · exact ⟨c.published, rfl⟩

theorem castVotes_frame (best : Id) (ids : List Id) : ∀ c : Controller Id,
    ∃ e p, ids.foldl (Controller.castVote best) c =
      { c with currentElection := e, published := p } := by
  induction ids with
  | nil => exact fun c => ⟨c.currentElection, c.published, rfl⟩
  | cons id ids ih =>
      intro c
      obtain ⟨e, p, h⟩ := ih (Controller.castVote best c id)
      exact ⟨e, p, by rw [List.foldl_cons, h]; rfl⟩

theorem forceElection_frame (c : Controller Id) :
    ∃ e p, c.forceElection.1 =
      { c with currentElection := e, published := p } := by
  unfold Controller.forceElection
  dsimp only
  split
  · exact ⟨_, _, rfl⟩
  · next best _ =>
      obtain ⟨e, p, h⟩ := castVotes_frame best c.nodeIdSet.toList
        { c with
          currentElection := some (Election.new c.nodes c.currentNodeTime) }
      exact ⟨e, p, by rw [h]⟩

/-- An election is the business of these five fields. -/
theorem electLeader_frame (c : Controller Id) :
    ∃ l e n p el, c.electLeader.1 =
      { c with
        leaderNodeId := l
        currentElection := e
        currentElectionId := n
        published := p
        elected := el } := by
  unfold Controller.electLeader
  split
  · exact ⟨_, _, _, _, _, rfl⟩
  · cases c.currentElection with
    | none =>
        obtain ⟨e, p, h⟩ := forceElection_frame c
        exact ⟨_, e, _, p, _, h⟩
    | some e =>
        dsimp only
        split
        · exact ⟨_, _, _, _, _, rfl⟩
        · split
          · exact ⟨_, _, _, _, _, rfl⟩
          · exact ⟨_, _, _, _, _, rfl⟩

theorem joinElection_frame (c : Controller Id) :
    ∃ l e n p el, c.joinElection.1 =
      { c with
        leaderNodeId := l
        currentElection := e
        currentElectionId := n
        published := p
        elected := el } := by
  unfold Controller.joinElection
  split
  · obtain ⟨l, e, n, p, el, h⟩ :=
      electLeader_frame { c with leaderNodeId := none }
    exact ⟨l, e, n, p, el, h⟩
  · exact ⟨_, _, _, _, _, rfl⟩

theorem onElectLeader_frame (c : Controller Id) (v : Vote Id) :
    ∃ l e n p el, (c.onElectLeader v).1 =
      { c with
        leaderNodeId := l
        currentElection := e
        currentElectionId := n
        published := p
        elected := el } := by
  have habandon : ∃ e n, c.abandonElection v.electionId =
      { c with currentElection := e, currentElectionId := n } := by
    unfold Controller.abandonElection
    split
    · exact ⟨_, _, rfl⟩
    · exact ⟨_, _, rfl⟩
  obtain ⟨e₀, n₀, h₀⟩ := habandon
  obtain ⟨l, e, n, p, el, h⟩ :=
    joinElection_frame (c.abandonElection v.electionId)
  rw [h₀] at h
  unfold Controller.onElectLeader
  rw [h₀]
  split
  · next c₁ err hj =>
      rw [hj] at h
      exact ⟨l, e, n, p, el, h⟩
  · next c₁ hj =>
      rw [hj] at h
      dsimp only at h
      split
      · exact ⟨l, e, n, p, el, h⟩
      · next e₁ _ => exact ⟨l, _, n, p, el, by rw [h]⟩

theorem dropLeader_frame (c : Controller Id) :
    ∃ l, c.dropLeader = { c with leaderNodeId := l } := by
  unfold Controller.dropLeader
  split
  · exact ⟨_, rfl⟩
  · split
    · exact ⟨_, rfl⟩
    · exact ⟨_, rfl⟩

/-! ## The loop over the partitioned nodes -/

theorem removeNodes_frame (ids : List Id) : ∀ c : Controller Id,
    ∃ h s n, (Controller.removeNodes ids c).1 =
      { c with heartbeats := h, subSockets := s, nodes := n } := by
  induction ids with
  | nil => exact fun c => ⟨_, _, _, rfl⟩
  | cons id ids ih =>
      intro c
      rw [Controller.removeNodes]
      split
      · exact ⟨_, _, _, rfl⟩
      · dsimp only
        split
        · obtain ⟨h, s, n, heq⟩ := ih { c with
            heartbeats := c.heartbeats.del id
            subSockets := c.subSockets.del id
            nodes := c.nodes.erase id }
          exact ⟨h, s, n, by rw [heq]⟩
        · exact ⟨_, _, _, rfl⟩

/-- What the loop leaves was there. -/
theorem removeNodes_sub (ids : List Id) : ∀ c : Controller Id,
    (∀ id ∈ (Controller.removeNodes ids c).1.nodes, id ∈ c.nodes) ∧
    (Controller.removeNodes ids c).1.nodes.card ≤ c.nodes.card := by
  induction ids with
  | nil => exact fun c => ⟨fun _ h => h, le_rfl⟩
  | cons id ids ih =>
      intro c
      rw [Controller.removeNodes]
      split
      · exact ⟨fun _ h => h, le_rfl⟩
      · dsimp only
        split
        · next hmem =>
            obtain ⟨hsub, hcard⟩ := ih { c with
              heartbeats := c.heartbeats.del id
              subSockets := c.subSockets.del id
              nodes := c.nodes.erase id }
            have herase := OrdSet.card_erase hmem
            refine ⟨fun x hx => (OrdSet.mem_erase.mp (hsub x hx)).2, ?_⟩
            dsimp only at hcard
            omega
        · exact ⟨fun _ h => h, le_rfl⟩

/-- A socket is only kept for a known node. -/
theorem removeNodes_known (ids : List Id) : ∀ c : Controller Id,
    (∀ id ∈ c.subSockets.keys, id ∈ c.nodes) →
    ∀ id ∈ (Controller.removeNodes ids c).1.subSockets.keys,
      id ∈ (Controller.removeNodes ids c).1.nodes := by
  induction ids with
  | nil => exact fun c h => h
  | cons id ids ih =>
      intro c h
      rw [Controller.removeNodes]
      split
      · exact h
      · dsimp only
        split
        · refine ih _ fun x hx => ?_
          obtain ⟨hne, hx⟩ := Dict.mem_keys_del.mp hx
          exact OrdSet.mem_erase.mpr ⟨hne, h x hx⟩
        · exact fun x hx => h x (Dict.mem_keys_del.mp hx).2

/-- What the loop takes out, where each node has a socket: these nodes, and
it comes to its end. -/
theorem removeNodes_all (ids : List Id) : ∀ c : Controller Id, ids.Nodup →
    (∀ id ∈ c.subSockets.keys, id ∈ c.nodes) →
    (∀ id ∈ ids, id ∈ c.subSockets.keys) →
    (Controller.removeNodes ids c).2 = none ∧
    (∀ id, id ∈ (Controller.removeNodes ids c).1.nodes ↔
      id ∉ ids ∧ id ∈ c.nodes) ∧
    (∀ id, id ∈ (Controller.removeNodes ids c).1.subSockets.keys ↔
      id ∉ ids ∧ id ∈ c.subSockets.keys) ∧
    (∀ id, id ∈ (Controller.removeNodes ids c).1.heartbeats.keys ↔
      id ∉ ids ∧ id ∈ c.heartbeats.keys) := by
  induction ids with
  | nil => intro c _ _ _; simp [Controller.removeNodes]
  | cons id ids ih =>
      intro c hnd hknown hsock
      obtain ⟨hid, hnd⟩ := List.nodup_cons.mp hnd
      have hs := hsock id List.mem_cons_self
      obtain ⟨sock, hget⟩ :=
        Option.isSome_iff_exists.mp (Dict.get?_isSome.mpr hs)
      rw [Controller.removeNodes, hget]
      dsimp only
      rw [if_pos (hknown id hs)]
      obtain ⟨hnone, hn, hsk, hh⟩ := ih { c with
          heartbeats := c.heartbeats.del id
          subSockets := c.subSockets.del id
          nodes := c.nodes.erase id } hnd
        (fun x hx => by
          obtain ⟨hne, hx⟩ := Dict.mem_keys_del.mp hx
          exact OrdSet.mem_erase.mpr ⟨hne, hknown x hx⟩)
        (fun x hx => Dict.mem_keys_del.mpr
          ⟨fun h => hid (h ▸ hx), hsock x (List.mem_cons_of_mem id hx)⟩)
      refine ⟨hnone, fun x => ?_, fun x => ?_, fun x => ?_⟩
      · rw [hn x, OrdSet.mem_erase, List.mem_cons, not_or]
        tauto
      · rw [hsk x, Dict.mem_keys_del, List.mem_cons, not_or]
        tauto
      · rw [hh x, Dict.mem_keys_del, List.mem_cons, not_or]
        tauto

/-- The loop that comes to its end has found each socket. -/
theorem sockets_of_removeNodes (ids : List Id) : ∀ c : Controller Id,
    (Controller.removeNodes ids c).2 = none →
    ∀ id ∈ ids, id ∈ c.subSockets.keys := by
  induction ids with
  | nil => exact fun c _ id hid => absurd hid List.not_mem_nil
  | cons id ids ih =>
      intro c h x hx
      rw [Controller.removeNodes] at h
      split at h
      · exact absurd h (by simp)
      · next sock hget =>
          dsimp only at h
          split at h
          · rcases List.mem_cons.mp hx with rfl | hx
            · exact Dict.get?_isSome.mp (by rw [hget]; rfl)
            · exact (Dict.mem_keys_del.mp (ih _ h x hx)).2
          · exact absurd h (by simp)

omit [LinearOrder Id] in
theorem partitioned_nodup (c : Controller Id) : c.partitioned.Nodup :=
  List.Nodup.sublist (List.filter_sublist.map Prod.fst) c.heartbeats.nodup

omit [LinearOrder Id] in
theorem partitioned_keys {id : Id} (h : id ∈ c.partitioned) :
    id ∈ c.heartbeats.keys :=
  (List.filter_sublist.map Prod.fst).subset h
/-! ## A tick -/

/-- What the health check does to the registries: nothing, or what the loop
does, and then the size is counted again if the loop has come to its end. -/
theorem evaluateClusterHealth_cases (c : Controller Id) :
    (c.partitioned = [] ∧ c.evaluateClusterHealth = (c, none)) ∨
    (c.partitioned ≠ [] ∧ ∃ l h s n, ∃ err : Option PyError,
      Controller.removeNodes c.partitioned { c with leaderNodeId := l } =
        ({ c with
          leaderNodeId := l, heartbeats := h, subSockets := s, nodes := n },
          err) ∧
      c.evaluateClusterHealth =
        ({ c with
          leaderNodeId := l
          heartbeats := h
          subSockets := s
          nodes := n
          currentClusterSize :=
            if err = none then n.card else c.currentClusterSize }, err)) := by
  unfold Controller.evaluateClusterHealth
  split
  · next h => exact .inl ⟨h, rfl⟩
  · next hpart =>
      obtain ⟨l, hl⟩ := dropLeader_frame c
      obtain ⟨h, s, n, hrem⟩ :=
        removeNodes_frame c.partitioned { c with leaderNodeId := l }
      refine .inr ⟨hpart, l, h, s, n,
        (Controller.removeNodes c.partitioned { c with leaderNodeId := l }).2,
        Prod.ext hrem rfl, ?_⟩
      rw [hl]
      split
      · next c₁ err heq =>
          have h₁ : c₁ = { c with
              leaderNodeId := l, heartbeats := h
              subSockets := s, nodes := n } := by
            rw [heq] at hrem
            exact hrem
          rw [heq, h₁, if_neg (by simp)]
      · next c₁ heq =>
          have h₁ : c₁ = { c with
              leaderNodeId := l, heartbeats := h
              subSockets := s, nodes := n } := by
            rw [heq] at hrem
            exact hrem
          rw [heq, h₁, if_pos rfl]

/-- The election at the end of a tick leaves the registries alone. -/
theorem processNodeTasks_frame (c : Controller Id) : ∃ l e n p el,
    c.processNodeTasks.1 = { c.beatHeart.evaluateClusterHealth.1 with
      leaderNodeId := l
      currentElection := e
      currentElectionId := n
      published := p
      elected := el } := by
  unfold Controller.processNodeTasks Controller.checkTopologyStability
  split
  · next c₁ err h => exact ⟨_, _, _, _, _, by rw [h]⟩
  · next c₁ h =>
      rw [h]
      split
      · exact electLeader_frame c₁
      · exact ⟨_, _, _, _, _, rfl⟩

/-- A tick of a controller with its books in order leaves them in order. -/
theorem booked_health (hb : Booked c) : Booked c.evaluateClusterHealth.1 := by
  rcases evaluateClusterHealth_cases c with
    ⟨_, h⟩ | ⟨_, l, hs, s, n, err, hrem, h⟩
  · rw [h]
    exact hb
  · obtain ⟨hnone, hn, hsk, hh⟩ := removeNodes_all c.partitioned
      { c with leaderNodeId := l } (partitioned_nodup c) hb.known
      (fun id hid => (hb.keys id).mp (partitioned_keys hid))
    rw [hrem] at hnone hn hsk hh
    dsimp only at hnone hn hsk hh
    rw [h, if_pos hnone]
    refine ⟨rfl, fun id => ?_, fun id hid => ?_⟩
    · dsimp only
      rw [hh id, hsk id, hb.keys id]
    · exact (hn id).mpr ⟨((hsk id).mp hid).1, hb.known id ((hsk id).mp hid).2⟩

theorem Booked.tick (hb : Booked c) : Booked c.processNodeTasks.1 := by
  obtain ⟨p, hbeat⟩ := beatHeart_frame c
  have hbooked : Booked c.beatHeart := by
    rw [hbeat]
    exact ⟨hb.size, hb.keys, hb.known⟩
  obtain ⟨l, e, n, p, el, h⟩ := processNodeTasks_frame c
  have hhealth := booked_health hbooked
  rw [h]
  exact ⟨hhealth.size, hhealth.keys, hhealth.known⟩

/-! ## One step and the books -/

theorem Booked.vote (hb : Booked c) (v : Vote Id) :
    Booked (c.onElectLeader v).1 := by
  obtain ⟨l, e, n, p, el, h⟩ := onElectLeader_frame c v
  rw [h]
  exact ⟨hb.size, hb.keys, hb.known⟩

/-- Another cluster's announcement is dropped. -/
theorem addNode_other {clusterName : String} {nodeId : Id}
    (h : clusterName ≠ c.clusterName) : c.addNode clusterName nodeId = c := by
  rw [Controller.addNode, if_pos h]

theorem booked_addNode (hb : Booked c) {clusterName : String} {nodeId : Id} :
    Booked (c.addNode clusterName nodeId) ∧
        (nodeId ∈ c.nodes → Unchanged c (c.addNode clusterName nodeId) nodeId) ↔
      (clusterName = c.clusterName → nodeId ∉ c.nodes) := by
  by_cases hc : clusterName = c.clusterName
  · rw [Controller.addNode, if_neg (not_not.mpr hc)]
    constructor
    · rintro ⟨_, h⟩ _ hmem
      have hsize := (h hmem).size
      dsimp only at hsize
      omega
    · intro h
      have hnew := h hc
      refine ⟨⟨?_, fun id => ?_, fun id hid => ?_⟩, fun h => absurd h hnew⟩
      · dsimp only
        rw [OrdSet.card_insert_of_not_mem hnew, hb.size]
      · dsimp only
        rw [Dict.mem_keys_set, Dict.mem_keys_set, hb.keys id]
      · dsimp only at hid ⊢
        rcases Dict.mem_keys_set.mp hid with rfl | hid
        · exact OrdSet.mem_insert.mpr (.inl rfl)
        · exact OrdSet.mem_insert.mpr (.inr (hb.known id hid))
  · rw [addNode_other hc]
    exact ⟨fun _ h => absurd h hc, fun _ => ⟨hb, fun _ => ⟨rfl, rfl, rfl, rfl⟩⟩⟩

theorem booked_onHeartbeat (hb : Booked c) {clusterName : String}
    {nodeId : Id} : Booked (c.onHeartbeat clusterName nodeId) ↔
      (clusterName = c.clusterName → nodeId ∈ c.subSockets.keys) := by
  by_cases hc : clusterName = c.clusterName
  · rw [Controller.onHeartbeat, if_neg (not_not.mpr hc.symm)]
    constructor
    · intro h _
      exact (h.keys nodeId).mp (Dict.mem_keys_set.mpr (.inl rfl))
    · intro h
      refine ⟨hb.size, fun id => ?_, hb.known⟩
      dsimp only
      rw [Dict.mem_keys_set, hb.keys id]
      constructor
      · rintro (rfl | hid)
        · exact h hc
        · exact hid
      · exact fun hid => .inr hid
  · rw [Controller.onHeartbeat, if_pos (Ne.symm hc)]
    exact ⟨fun _ h => absurd h hc, fun _ => hb⟩

/-- The books stay in order, and a known node changes nothing, exactly where
the step is one that is recorded. -/
theorem booked_receive (hb : Booked c) (i : Input Id) :
    Booked (c.receive i).1 ∧ KnownUnchanged c i ↔ Recorded c i := by
  cases i with
  | tick =>
      refine ⟨fun _ => trivial, fun _ => ⟨hb.tick, ?_⟩⟩
      intro _ _ h
      cases h
  | presence clusterName nodeId =>
      refine Iff.trans (and_congr Iff.rfl ?_) (booked_addNode hb)
      constructor
      · exact fun h => h clusterName nodeId rfl
      · intro h _ _ heq
        injection heq with h₁ h₂
        subst h₁ h₂
        exact h
  | message m =>
      cases m with
      | electLeader v =>
          refine ⟨fun _ => trivial, fun _ => ⟨hb.vote v, ?_⟩⟩
          intro _ _ h
          cases h
      | heartbeat clusterName nodeId =>
          refine Iff.trans ?_ (booked_onHeartbeat hb)
          refine ⟨And.left, fun h => ⟨h, ?_⟩⟩
          intro _ _ h
          cases h

/-! ## The peak -/

/-- The counter never falls short of the nodes, nor the peak of the
counter. -/
structure Sized (c : Controller Id) : Prop where
  counted : c.nodes.card ≤ c.currentClusterSize
  peak : c.currentClusterSize ≤ c.peakClusterSize

theorem sized_health (h : Sized c) : Sized c.evaluateClusterHealth.1 ∧
    c.evaluateClusterHealth.1.peakClusterSize = c.peakClusterSize := by
  have hcounted := h.counted
  have hpeak := h.peak
  rcases evaluateClusterHealth_cases c with
    ⟨_, heq⟩ | ⟨_, l, hs, s, n, err, hrem, heq⟩
  · rw [heq]
    exact ⟨h, rfl⟩
  · have hcard :=
      (removeNodes_sub c.partitioned { c with leaderNodeId := l }).2
    rw [hrem] at hcard
    dsimp only at hcard
    rw [heq]
    refine ⟨⟨?_, ?_⟩, rfl⟩
    · dsimp only
      split
      · exact le_rfl
      · omega
    · dsimp only
      split
      · omega
      · exact hpeak

/-- The peak follows the counter. -/
theorem sized_receive (h : Sized c) (i : Input Id) :
    Sized (c.receive i).1 ∧ (c.receive i).1.peakClusterSize =
      max (c.receive i).1.currentClusterSize c.peakClusterSize := by
  have hcounted := h.counted
  have hpeak := h.peak
  cases i with
  | tick =>
      obtain ⟨p, hbeat⟩ := beatHeart_frame c
      have hsized : Sized c.beatHeart := by
        rw [hbeat]
        exact ⟨hcounted, hpeak⟩
      have hbpeak : c.beatHeart.peakClusterSize = c.peakClusterSize := by
        rw [hbeat]
      obtain ⟨hs, hp⟩ := sized_health hsized
      obtain ⟨l, e, n, p, el, heq⟩ := processNodeTasks_frame c
      have hp' := hs.peak
      rw [Controller.receive, heq]
      refine ⟨⟨hs.counted, hs.peak⟩, ?_⟩
      dsimp only
      omega
  | presence clusterName nodeId =>
      rw [Controller.receive]
      by_cases hc : clusterName = c.clusterName
      · rw [Controller.addNode, if_neg (not_not.mpr hc)]
        refine ⟨⟨?_, le_max_left _ _⟩, rfl⟩
        dsimp only
        by_cases hmem : nodeId ∈ c.nodes
        · rw [OrdSet.card_insert_of_mem hmem]
          omega
        · rw [OrdSet.card_insert_of_not_mem hmem]
          omega
      · rw [addNode_other hc]
        exact ⟨h, (max_eq_right hpeak).symm⟩
  | message m =>
      cases m with
      | electLeader v =>
          obtain ⟨l, e, n, p, el, heq⟩ := onElectLeader_frame c v
          rw [Controller.receive, heq]
          exact ⟨⟨hcounted, hpeak⟩, (max_eq_right hpeak).symm⟩
      | heartbeat clusterName nodeId =>
          rw [Controller.receive, Controller.onHeartbeat]
          split
          · exact ⟨h, (max_eq_right hpeak).symm⟩
          · exact ⟨⟨hcounted, hpeak⟩, (max_eq_right hpeak).symm⟩

theorem sized_run {inputs : List (Input Id)} (h : Sized c)
    (hr : run Controller.step c inputs = some c') : Sized c' := by
  refine run_induct (Q := fun _ => True) (fun s a s' _ hs hstep => ?_)
    (fun _ _ => trivial) h hr
  injection hstep with hstep
  exact hstep ▸ (sized_receive hs a).1

theorem peakReached (h : Sized c)
    (hpeak : c.peakClusterSize = c.currentClusterSize)
    (inputs : List (Input Id)) : PeakReached c inputs := by
  intro bs
  induction bs using List.reverseRecOn with
  | nil =>
      intro _ c' hr
      injection hr with hr
      rw [← hr, hpeak]
      refine ⟨⟨[], List.nil_prefix, c, rfl, rfl⟩, ?_⟩
      rintro n ⟨cs, hcs, d, hd, rfl⟩
      rw [List.prefix_nil.mp hcs] at hd
      injection hd with hd
      rw [hd]
  | append_singleton bs i ih =>
      intro hbs c' hr
      obtain ⟨c₁, h₁, h₂⟩ := run_append.mp hr
      rw [run_cons] at h₂
      obtain ⟨c₂, hstep, hnil⟩ := h₂
      injection hstep with hstep
      injection hnil with hnil
      subst hnil hstep
      obtain ⟨hmem, hbound⟩ := ih ((List.prefix_append bs [i]).trans hbs) c₁ h₁
      have hmax := (sized_receive (sized_run h h₁) i).2
      rw [hmax]
      constructor
      · rcases le_total c₁.peakClusterSize
          (c₁.receive i).1.currentClusterSize with hle | hle
        · rw [max_eq_left hle]
          exact ⟨bs ++ [i], List.prefix_rfl, _, hr, rfl⟩
        · rw [max_eq_right hle]
          obtain ⟨cs, hcs, d, hd, hn⟩ := hmem
          exact ⟨cs, hcs.trans (List.prefix_append bs [i]), d, hd, hn⟩
      · rintro n ⟨cs, hcs, d, hd, rfl⟩
        rcases List.prefix_concat_iff.mp hcs with rfl | hcs
        · rw [hr] at hd
          injection hd with hd
          rw [← hd]
          exact le_max_left _ _
        · exact le_trans (hbound ⟨cs, hcs, d, hd, rfl⟩) (le_max_right _ _)

/-! ## Every run -/

variable {clusterName : String} {nodeId : Id}

omit [LinearOrder Id] in
theorem booked_new :
    Booked (Controller.new (Config.ofAddress clusterName nodeId)) :=
  ⟨rfl, fun _ => Iff.rfl, fun _ h => absurd h List.not_mem_nil⟩

omit [LinearOrder Id] in
theorem sized_new :
    Sized (Controller.new (Config.ofAddress clusterName nodeId)) :=
  ⟨le_rfl, le_rfl⟩

/-- A controller with one address keeps its books in a run if and only if no
node it knows is announced and no heartbeat comes from a node it has no socket
for. -/
theorem books_iff_recorded (clusterName : String) (nodeId : Id)
    (inputs : List (Input Id)) :
    (AllStates Controller.step Booked
        (Controller.new (Config.ofAddress clusterName nodeId)) inputs ∧
      AllSteps Controller.step KnownUnchanged
        (Controller.new (Config.ofAddress clusterName nodeId)) inputs ∧
      PeakReached (Controller.new (Config.ofAddress clusterName nodeId))
        inputs) ↔
    AllSteps Controller.step Recorded
      (Controller.new (Config.ofAddress clusterName nodeId)) inputs := by
  have hrule : AllStates Controller.step Booked
        (Controller.new (Config.ofAddress clusterName nodeId)) inputs ∧
      AllSteps Controller.step KnownUnchanged
        (Controller.new (Config.ofAddress clusterName nodeId)) inputs ↔
    AllSteps Controller.step Recorded
      (Controller.new (Config.ofAddress clusterName nodeId)) inputs :=
    allStates_and_allSteps_iff (fun s a s' hs hstep => by
      injection hstep with hstep
      exact hstep ▸ booked_receive hs a) booked_new
  have hpeak : PeakReached
      (Controller.new (Config.ofAddress clusterName nodeId)) inputs :=
    peakReached sized_new rfl inputs
  constructor
  · rintro ⟨hstates, hsteps, _⟩
    exact hrule.mp ⟨hstates, hsteps⟩
  · intro h
    exact ⟨(hrule.mpr h).1, (hrule.mpr h).2, hpeak⟩
/-- Announced twice, the only other node is counted twice. -/
theorem books_lost :
    ¬ AllStates Controller.step Booked
      (Controller.new (Config.ofAddress "c" (NodeId.at "10.0.0.1")))
      [.presence "c" (NodeId.at "10.0.0.2"),
        .presence "c" (NodeId.at "10.0.0.2")] := by
  intro h
  have hsize := (allStates_iff_run.mp h _ List.prefix_rfl _ rfl).size
  revert hsize
  decide +kernel

/-! ## Where a handler raises -/

instance (c : Controller Id) (i : Input Id) : Decidable (Returns c i) :=
  inferInstanceAs (Decidable ((c.receive i).2 = none))

/-- What holds of a controller as long as no handler has raised: a socket is
kept for a known node only, and a controller that knows no node counts none
and so is a minority. -/
structure Sound (c : Controller Id) : Prop where
  known : ∀ id ∈ c.subSockets.keys, id ∈ c.nodes
  empty : c.nodes.card = 0 → c.currentClusterSize = 0
  grown : 1 ≤ c.peakClusterSize

omit [LinearOrder Id] in
theorem sound_new (config : Config Id) : Sound (Controller.new config) where
  known := fun _ h => absurd h List.not_mem_nil
  empty := fun h => absurd h config.nonempty
  grown := le_rfl

theorem electLeader_of_minority (h : c.minority = true) :
    c.electLeader = (c, none) := if_pos h

theorem electLeader_of_none (hmin : ¬ c.minority = true)
    (hnone : c.currentElection = none) : c.electLeader = c.forceElection := by
  rw [Controller.electLeader, if_neg hmin, hnone]

/-- There is a best candidate wherever an election may be forced. -/
theorem electLeader_returns (h : Sound c) : c.electLeader.2 = none := by
  unfold Controller.electLeader
  split
  · rfl
  · next hmin =>
      cases c.currentElection with
      | none =>
          dsimp only
          unfold Controller.forceElection
          dsimp only
          split
          · next hmax =>
              have hsize := h.empty (OrdSet.max?_eq_none.mp hmax)
              have hgrown := h.grown
              refine absurd (decide_eq_true ?_) hmin
              omega
          · rfl
      | some e =>
          dsimp only
          split
          · rfl
          · split
            · rfl
            · rfl

/-- The health check returns exactly where each partitioned node has a
socket. -/
theorem health_returns (h : Sound c) :
    (c.evaluateClusterHealth.2 = none ↔
      ∀ id ∈ c.partitioned, id ∈ c.subSockets.keys) ∧
    (c.evaluateClusterHealth.2 = none → Sound c.evaluateClusterHealth.1) := by
  rcases evaluateClusterHealth_cases c with
    ⟨hpart, heq⟩ | ⟨_, l, hs, s, n, err, hrem, heq⟩
  · rw [heq, hpart]
    exact ⟨⟨fun _ _ h => absurd h List.not_mem_nil, fun _ => rfl⟩, fun _ => h⟩
  · have hfound := sockets_of_removeNodes c.partitioned
      { c with leaderNodeId := l }
    have hall := removeNodes_all c.partitioned { c with leaderNodeId := l }
      (partitioned_nodup c) h.known
    have hknown := removeNodes_known c.partitioned
      { c with leaderNodeId := l } h.known
    rw [hrem] at hfound hall hknown
    rw [heq]
    refine ⟨⟨hfound, fun hsock => (hall hsock).1⟩, fun herr => ?_⟩
    refine ⟨hknown, fun hcard => ?_, h.grown⟩
    dsimp only at herr hcard ⊢
    rw [if_pos herr]
    exact hcard

theorem tick_returns (h : Sound c) :
    (c.processNodeTasks.2 = none ↔
      ∀ id ∈ c.beatHeart.partitioned, id ∈ c.subSockets.keys) ∧
    (c.processNodeTasks.2 = none → Sound c.processNodeTasks.1) := by
  obtain ⟨p, hbeat⟩ := beatHeart_frame c
  have hsound : Sound c.beatHeart := by
    rw [hbeat]
    exact ⟨h.known, h.empty, h.grown⟩
  have hsock : c.beatHeart.subSockets = c.subSockets := by rw [hbeat]
  obtain ⟨hret, hkeep⟩ := health_returns hsound
  rw [hsock] at hret
  have hsame : c.processNodeTasks.2 = none ↔
      c.beatHeart.evaluateClusterHealth.2 = none := by
    unfold Controller.processNodeTasks Controller.checkTopologyStability
    split
    · next c₁ err heq => rw [heq]
    · next c₁ heq =>
        rw [heq] at hkeep ⊢
        split
        · exact ⟨fun _ => rfl, fun _ => electLeader_returns (hkeep rfl)⟩
        · exact Iff.rfl
  refine ⟨hsame.trans hret, fun hnone => ?_⟩
  obtain ⟨l, e, n, p, el, heq⟩ := processNodeTasks_frame c
  have hs := hkeep (hsame.mp hnone)
  rw [heq]
  exact ⟨hs.known, hs.empty, hs.grown⟩

theorem castVotes_isSome (best : Id) (ids : List Id) : ∀ c : Controller Id,
    (ids.foldl (Controller.castVote best) c).currentElection.isSome =
      c.currentElection.isSome := by
  induction ids with
  | nil => exact fun _ => rfl
  | cons id ids ih =>
      intro c
      rw [List.foldl_cons, ih, Controller.castVote]
      exact Option.isSome_map

theorem forceElection_isSome (c : Controller Id) :
    c.forceElection.1.currentElection.isSome := by
  unfold Controller.forceElection
  dsimp only
  split
  · rfl
  · rw [castVotes_isSome]
    rfl

/-- What a vote finds: an election, unless there was none and the controller
is a minority. -/
theorem joinElection_returns (h : Sound c) : c.joinElection.2 = none ∧
    (c.joinElection.1.currentElection = none ↔
      c.currentElection = none ∧ c.minority = true) := by
  unfold Controller.joinElection
  split
  · next hnone =>
      have hsound : Sound { c with leaderNodeId := none } :=
        ⟨h.known, h.empty, h.grown⟩
      refine ⟨electLeader_returns hsound, ?_⟩
      by_cases hmin : c.minority = true
      · have hrefuse := electLeader_of_minority
          (c := { c with leaderNodeId := none }) hmin
        rw [hrefuse]
        exact ⟨fun _ => ⟨hnone, hmin⟩, fun _ => hnone⟩
      · have hsome := forceElection_isSome { c with leaderNodeId := none }
        have hforce := electLeader_of_none
          (c := { c with leaderNodeId := none }) hmin hnone
        rw [hforce]
        constructor
        · intro hnone'
          rw [hnone'] at hsome
          cases hsome
        · exact fun hm => absurd hm.2 hmin
  · next e he =>
      refine ⟨rfl, fun hnone => ?_, fun hm => ?_⟩
      · exact absurd hnone (by rw [he]; simp)
      · exact absurd hm.1 (by rw [he]; simp)

theorem onElectLeader_sound (h : Sound c) (v : Vote Id) :
    Sound (c.onElectLeader v).1 := by
  obtain ⟨l, e, n, p, el, heq⟩ := onElectLeader_frame c v
  rw [heq]
  exact ⟨h.known, h.empty, h.grown⟩

/-- A vote is tallied in the election in progress; where there is none, one is
forced, unless the controller is a minority. -/
theorem vote_returns (h : Sound c) (v : Vote Id) :
    (c.onElectLeader v).2 = none ↔
      (c.currentElection = none ∨ c.currentElectionId < v.electionId →
        c.minority = false) := by
  have habandon : Sound (c.abandonElection v.electionId) ∧
      (c.abandonElection v.electionId).minority = c.minority ∧
      ((c.abandonElection v.electionId).currentElection = none ↔
        c.currentElection = none ∨ c.currentElectionId < v.electionId) := by
    unfold Controller.abandonElection
    split
    · next hlt =>
        exact ⟨⟨h.known, h.empty, h.grown⟩, rfl, fun _ => .inr hlt,
          fun _ => rfl⟩
    · next hlt => exact ⟨h, rfl, .inl, fun he => he.resolve_right hlt⟩
  obtain ⟨hsound, hmin, hnone⟩ := habandon
  obtain ⟨hret, hjoin⟩ := joinElection_returns hsound
  rw [hmin, hnone] at hjoin
  unfold Controller.onElectLeader
  split
  · next c₁ err heq =>
      rw [heq] at hret
      cases hret
  · next c₁ heq =>
      rw [heq] at hjoin
      dsimp only at hjoin
      split
      · next hnone' =>
          obtain ⟨hbad, hm⟩ := hjoin.mp hnone'
          refine ⟨fun habs => absurd habs (by simp), fun hok => ?_⟩
          rw [hok hbad] at hm
          cases hm
      · next e he =>
          refine ⟨fun _ hbad => ?_, fun _ => rfl⟩
          by_contra hm
          have hmem := hjoin.mpr ⟨hbad, by simpa using hm⟩
          rw [he] at hmem
          cases hmem

/-- A handler returns exactly where it is served, and leaves the controller
sound. -/
theorem receive_returns (h : Sound c) (i : Input Id) :
    (Returns c i ↔ Served c i) ∧ (Returns c i → Sound (c.receive i).1) := by
  cases i with
  | tick => exact tick_returns h
  | presence clusterName nodeId =>
      refine ⟨⟨fun _ => trivial, fun _ => rfl⟩, fun _ => ?_⟩
      rw [Controller.receive]
      by_cases hc : clusterName = c.clusterName
      · rw [Controller.addNode, if_neg (not_not.mpr hc)]
        refine ⟨fun id hid => ?_, fun hcard => ?_, ?_⟩
        · rcases Dict.mem_keys_set.mp hid with rfl | hid
          · exact OrdSet.mem_insert.mpr (.inl rfl)
          · exact OrdSet.mem_insert.mpr (.inr (h.known id hid))
        · exact absurd (OrdSet.mem_insert.mpr (.inl rfl))
            (OrdSet.card_eq_zero.mp hcard nodeId)
        · exact le_trans h.grown (le_max_right _ _)
      · rw [addNode_other hc]
        exact h
  | message m =>
      cases m with
      | electLeader v => exact ⟨vote_returns h v, fun _ => onElectLeader_sound h v⟩
      | heartbeat clusterName nodeId =>
          refine ⟨⟨fun _ => trivial, fun _ => rfl⟩, fun _ => ?_⟩
          rw [Controller.receive, Controller.onHeartbeat]
          split
          · exact h
          · exact ⟨h.known, h.empty, h.grown⟩

/-- No handler raises in a run if and only if each node that expires at a tick
has a socket, and each vote that has no election to be tallied in arrives at a
controller that is free to force one. -/
theorem returns_iff_served (config : Config Id) (inputs : List (Input Id)) :
    AllCalls Controller.step Returns (Controller.new config) inputs ↔
      AllCalls Controller.step Served (Controller.new config) inputs := by
  constructor
  · refine AllCalls.imp_of_inv (J := Sound) (fun s a s' hs hok hstep => ?_)
      (fun s a hs hok => (receive_returns hs a).1.mp hok) (sound_new config)
    injection hstep with hstep
    exact hstep ▸ (receive_returns hs a).2 hok
  · refine AllCalls.imp_of_inv (J := Sound) (fun s a s' hs hok hstep => ?_)
      (fun s a hs hok => (receive_returns hs a).1.mpr hok) (sound_new config)
    injection hstep with hstep
    exact hstep ▸ (receive_returns hs a).2 ((receive_returns hs a).1.mpr hok)

/-- Two nodes are announced, and their heartbeats stop. A vote for the next
election, from one of them, then finds none in progress, and a minority
starts none. -/
theorem vote_raises :
    ¬ AllCalls Controller.step Returns
      (Controller.new (Config.ofAddress "c" (NodeId.at "10.0.0.1")))
      (.presence "c" (NodeId.at "10.0.0.2") ::
        .presence "c" (NodeId.at "10.0.0.3") ::
        (List.replicate 51 .tick ++ [.message (.electLeader
          ⟨NodeId.at "10.0.0.2", NodeId.at "10.0.0.2", 1⟩)])) := by
  decide +kernel

end Infinisql.Manager
