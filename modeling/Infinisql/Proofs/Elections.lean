import Infinisql.Proofs.Membership

/-!
# Who is elected

Controllers that know the same nodes all vote for the greatest of them, so
whatever part of the votes two of them have seen when they close an election,
the candidate on top is that node; `agreed_of_knowNodes` needs neither the
majority nor the election's id. The argument is about one election at a time:
every candidate with a count is the greatest node, and where somebody has
voted there is a candidate with a count.

That a vote is counted in the election it was cast in is another matter.
`onElectLeader` compares the id of a vote with the current one only to find
out whether the vote is newer; a vote of an election that is over is tallied
in the next one, or forces it. `agreed_iff_noneStale` says that nothing else
can put a vote into the wrong election: the votes counted in an election all
carry its id in every state of a run if and only if no vote that arrives late
is accepted.
-/

namespace Infinisql.Manager

open Infinisql.Lib

variable {Id : Type} [LinearOrder Id] {c : Controller Id} {e : Election Id}

/-! ## Tallying -/

/-- The vote is one that counts. -/
def Accepts (nodes : OrdSet Id) (e : Election Id) (v : Vote Id) : Prop :=
  v.voter ∉ e.voters ∧ v.voter ∈ nodes

theorem tally_cases (nodes : OrdSet Id) (e : Election Id) (v : Vote Id) :
    (¬ Accepts nodes e v ∧ e.tally nodes v = e) ∨
    (Accepts nodes e v ∧ e.tally nodes v =
      { e with
        votes := e.votes.set v.candidate ((e.votes.get? v.candidate).getD 0 + 1)
        voters := e.voters.insert v.voter
        counted := e.counted ++ [v] }) := by
  unfold Election.tally
  split
  · next h => exact .inl ⟨fun ha => ha.1 h, rfl⟩
  · next h =>
      split
      · next hn => exact .inr ⟨⟨h, hn⟩, rfl⟩
      · next hn => exact .inl ⟨fun ha => hn ha.2, rfl⟩

/-- The votes of one round, one after the other. -/
def tallyAll (nodes : OrdSet Id) (vs : List (Vote Id)) (e : Election Id) :
    Election Id :=
  vs.foldl (fun e v => e.tally nodes v) e

theorem tallyAll_induct {P : Election Id → Prop} {nodes : OrdSet Id}
    {vs : List (Vote Id)} (hstep : ∀ e, ∀ v ∈ vs, P e → P (e.tally nodes v)) :
    ∀ {e}, P e → P (tallyAll nodes vs e) := by
  induction vs with
  | nil => exact fun h => h
  | cons v vs ih =>
      intro e h
      exact ih (fun e w hw => hstep e w (List.mem_cons_of_mem v hw))
        (hstep e v List.mem_cons_self h)

theorem mem_voters_tally {nodes : OrdSet Id} {v : Vote Id} {x : Id} :
    x ∈ (e.tally nodes v).voters ↔ x ∈ e.voters ∨ (x = v.voter ∧ x ∈ nodes) := by
  rcases tally_cases nodes e v with ⟨hnot, h⟩ | ⟨hacc, h⟩
  · rw [h]
    constructor
    · exact .inl
    · rintro (hx | ⟨rfl, hx⟩)
      · exact hx
      · by_contra hn
        exact hnot ⟨hn, hx⟩
  · rw [h]
    dsimp only
    rw [OrdSet.mem_insert]
    constructor
    · rintro (rfl | hx)
      · exact .inr ⟨rfl, hacc.2⟩
      · exact .inl hx
    · rintro (hx | ⟨rfl, _⟩)
      · exact .inr hx
      · exact .inl rfl

theorem mem_voters_tallyAll {nodes : OrdSet Id} {vs : List (Vote Id)} {x : Id} :
    ∀ {e : Election Id}, x ∈ (tallyAll nodes vs e).voters ↔
      x ∈ e.voters ∨ (x ∈ vs.map Vote.voter ∧ x ∈ nodes) := by
  induction vs with
  | nil => intro e; simp [tallyAll]
  | cons v vs ih =>
      intro e
      have hfold : tallyAll nodes (v :: vs) e =
          tallyAll nodes vs (e.tally nodes v) := rfl
      rw [hfold, ih, mem_voters_tally, List.map_cons, List.mem_cons]
      tauto

/-- The history names the voters, in their order. -/
def Logged (e : Election Id) : Prop :=
  e.voters.toList = e.counted.map Vote.voter

theorem Logged.tally {nodes : OrdSet Id} {v : Vote Id} (h : Logged e) :
    Logged (e.tally nodes v) := by
  rcases tally_cases nodes e v with ⟨_, heq⟩ | ⟨hacc, heq⟩
  · rw [heq]
    exact h
  · rw [heq, Logged]
    dsimp only
    rw [OrdSet.insert]
    dsimp only
    rw [if_neg (OrdSet.mem_def.not.mp hacc.1), List.map_append, h]
    rfl

omit [LinearOrder Id] in
theorem logged_new (nodes : OrdSet Id) (now : ℕ) :
    Logged (Election.new nodes now) := rfl

/-- The votes counted so far all carry the id. -/
def CountedFor (n : ℕ) (e : Election Id) : Prop :=
  ∀ v ∈ e.counted, v.electionId = n

/-- A vote that is accepted is in the history from then on. -/
theorem countedFor_tally {n : ℕ} {nodes : OrdSet Id} {v : Vote Id}
    (h : CountedFor n e) : CountedFor n (e.tally nodes v) ↔
      (Accepts nodes e v → v.electionId = n) := by
  rcases tally_cases nodes e v with ⟨hnot, heq⟩ | ⟨hacc, heq⟩
  · rw [heq]
    exact ⟨fun _ ha => absurd ha hnot, fun _ => h⟩
  · rw [heq]
    constructor
    · intro hall _
      exact hall v (List.mem_append_right _ List.mem_cons_self)
    · intro hv w hw
      rcases List.mem_append.mp hw with hw | hw
      · exact h w hw
      · rw [List.mem_singleton.mp hw]
        exact hv hacc

/-! ## Candidates -/

/-- Only the greatest of the nodes has a count, and it has one where somebody
has voted. -/
structure Honest (nodes : Set Id) (e : Election Id) : Prop where
  best : ∀ p ∈ e.votes.items, p.2 ≠ 0 → IsGreatest nodes p.1
  some : e.voters.card ≠ 0 → ∃ p ∈ e.votes.items, p.2 ≠ 0

theorem Honest.tally {nodes : Set Id} {known : OrdSet Id} {v : Vote Id}
    (h : Honest nodes e) (hv : IsGreatest nodes v.candidate) :
    Honest nodes (e.tally known v) := by
  rcases tally_cases known e v with ⟨_, heq⟩ | ⟨_, heq⟩
  · rw [heq]
    exact h
  · rw [heq]
    constructor
    · intro p hp hne
      rcases Dict.mem_setItems hp with rfl | hp
      · exact hv
      · exact h.best p hp hne
    · intro _
      exact ⟨_, Dict.mem_of_get? Dict.get?_set_self, Nat.succ_ne_zero _⟩

theorem honest_new (nodes : Set Id) (known : OrdSet Id) (now : ℕ) :
    Honest nodes (Election.new known now) where
  best := fun p hp hne => by
    obtain ⟨id, _, rfl⟩ := List.mem_map.mp hp
    exact absurd rfl hne
  some := fun h => absurd rfl h

/-- The winner of a decided election is the greatest of the nodes. -/
theorem Honest.winner {nodes : Set Id} {known : OrdSet Id}
    (h : Honest nodes e) (hmaj : e.hasMajority known) :
    ∃ m, e.getWinner = Option.some m ∧ IsGreatest nodes m := by
  have hvoted : e.voters.card ≠ 0 := by
    intro hzero
    unfold Election.hasMajority at hmaj
    rw [if_pos (by omega)] at hmaj
    cases hmaj
  obtain ⟨p, hp, hne⟩ := h.some hvoted
  cases hmost : mostCommon e.votes with
  | nil =>
      have hmem := mem_mostCommon.mpr hp
      rw [hmost] at hmem
      cases hmem
  | cons q l =>
      have hle := mostCommon_head hmost hp
      have hq : q ∈ e.votes.items :=
        mem_mostCommon.mp (hmost ▸ List.mem_cons_self)
      refine ⟨q.1, ?_, h.best q hq (by omega)⟩
      rw [Election.getWinner, hmost]
      rfl
/-! ## Elections of one controller -/

/-- The votes a controller casts for itself, one for each address. -/
def ownVotes (best : Id) (c : Controller Id) : List (Vote Id) :=
  c.nodeIdSet.toList.map fun nodeId => ⟨best, nodeId, c.currentElectionId⟩

theorem castVotes_eq (best : Id) (ids : List Id) : ∀ c : Controller Id,
    ids.foldl (Controller.castVote best) c =
      { c with
        currentElection := c.currentElection.map (tallyAll c.nodes
          (ids.map fun nodeId => ⟨best, nodeId, c.currentElectionId⟩))
        published := c.published ++
          (ids.map fun nodeId => (⟨best, nodeId, c.currentElectionId⟩ :
            Vote Id)).map .electLeader } := by
  induction ids with
  | nil =>
      intro c
      cases c with
      | mk a b n s l e => cases e <;> simp [tallyAll]
  | cons id ids ih =>
      intro c
      rw [List.foldl_cons, ih]
      cases he : c.currentElection with
      | none => simp [Controller.castVote, he]
      | some e => simp [Controller.castVote, he, tallyAll]

/-- The election a controller forces, its own votes tallied. -/
def newElection (best : Id) (c : Controller Id) : Election Id :=
  tallyAll c.nodes (ownVotes best c) (Election.new c.nodes c.currentNodeTime)

/-- Forcing an election fails without nodes; otherwise the best of them gets
the own votes. -/
theorem forceElection_cases (c : Controller Id) :
    ((∀ id, id ∉ c.nodes) ∧ c.forceElection = ({ c with
      currentElection := some (Election.new c.nodes c.currentNodeTime) },
      some .emptyMax)) ∨
    (∃ best, IsGreatest {id | id ∈ c.nodes} best ∧
      c.forceElection = ({ c with
        currentElection := some (newElection best c)
        published := c.published ++ (ownVotes best c).map .electLeader },
        none)) := by
  unfold Controller.forceElection
  dsimp only
  split
  · next hmax =>
      exact .inl ⟨OrdSet.card_eq_zero.mp (OrdSet.max?_eq_none.mp hmax), rfl⟩
  · next best hmax =>
      obtain ⟨hmem, hle⟩ := OrdSet.max?_eq_some.mp hmax
      refine .inr ⟨best, ⟨hmem, fun id hid => hle id hid⟩, ?_⟩
      rw [castVotes_eq]
      rfl

/-- What `electLeader` can do: nothing in a minority and nothing while an
election is open, force an election, name a winner, or give an election up. -/
theorem electLeader_cases (c : Controller Id) :
    (c.minority = true ∧ c.electLeader = (c, none)) ∨
    (c.minority = false ∧ c.currentElection = none ∧
      c.electLeader = c.forceElection) ∨
    ∃ e, c.minority = false ∧ c.currentElection = some e ∧
      ((e.hasMajority c.nodes = true ∧ c.electLeader =
        ({ c with
          leaderNodeId := e.getWinner
          currentElection := none
          currentElectionId := c.currentElectionId + 1
          elected := c.elected ++ [(c.currentElectionId, e.getWinner)] },
          none)) ∨
      c.electLeader =
        ({ c with currentElection := none, leaderNodeId := none }, none) ∨
      c.electLeader = (c, none)) := by
  by_cases hmin : c.minority = true
  · exact .inl ⟨hmin, electLeader_of_minority hmin⟩
  · have hfalse : c.minority = false := by simpa using hmin
    cases he : c.currentElection with
    | none => exact .inr (.inl ⟨hfalse, rfl, electLeader_of_none hmin he⟩)
    | some e =>
        refine .inr (.inr ⟨e, hfalse, rfl, ?_⟩)
        unfold Controller.electLeader
        rw [if_neg hmin, he]
        dsimp only
        by_cases hready : e.ready c.nodes c.currentNodeTime = true
        · rw [if_pos hready]
          refine .inl ⟨?_, rfl⟩
          unfold Election.ready at hready
          split at hready
          · exact hready
          · cases hready
        · rw [if_neg hready]
          split
          · exact .inr (.inl rfl)
          · exact .inr (.inr rfl)

/-! ## Everybody votes for the same -/

/-- All that a controller has voted, counted and concluded is for the greatest
of the nodes. -/
structure Fair (nodes : Set Id) (c : Controller Id) : Prop where
  votes : ∀ v, Msg.electLeader v ∈ c.published → IsGreatest nodes v.candidate
  election : ∀ e, c.currentElection = some e → Honest nodes e
  elected : ∀ n l, (n, l) ∈ c.elected →
    ∃ m, l = some m ∧ IsGreatest nodes m

theorem ownVotes_best {nodes : Set Id} {best : Id} (h : IsGreatest nodes best)
    {v : Vote Id} (hv : v ∈ ownVotes best c) : IsGreatest nodes v.candidate := by
  obtain ⟨id, _, rfl⟩ := List.mem_map.mp hv
  exact h

theorem Fair.forceElection {nodes : Set Id} (h : Fair nodes c)
    (hknow : ∀ id, id ∈ c.nodes ↔ id ∈ nodes) :
    Fair nodes c.forceElection.1 := by
  rcases forceElection_cases c with ⟨_, heq⟩ | ⟨best, hbest, heq⟩
  · rw [heq]
    refine ⟨h.votes, fun e he => ?_, h.elected⟩
    injection he with he
    exact he ▸ honest_new nodes c.nodes c.currentNodeTime
  · have hset : {id | id ∈ c.nodes} = nodes := Set.ext hknow
    rw [hset] at hbest
    rw [heq]
    refine ⟨fun v hv => ?_, fun e he => ?_, h.elected⟩
    · rcases List.mem_append.mp hv with hv | hv
      · exact h.votes v hv
      · obtain ⟨w, hw, hwv⟩ := List.mem_map.mp hv
        injection hwv with hwv
        exact hwv ▸ ownVotes_best hbest hw
    · injection he with he
      rw [← he]
      exact tallyAll_induct
        (fun e w hw he => he.tally (ownVotes_best hbest hw))
        (honest_new nodes c.nodes c.currentNodeTime)

theorem Fair.electLeader {nodes : Set Id} (h : Fair nodes c)
    (hknow : ∀ id, id ∈ c.nodes ↔ id ∈ nodes) :
    Fair nodes c.electLeader.1 := by
  rcases electLeader_cases c with
    ⟨_, heq⟩ | ⟨_, _, heq⟩ | ⟨e, _, he, ⟨hmaj, heq⟩ | heq | heq⟩
  · rw [heq]
    exact h
  · rw [heq]
    exact h.forceElection hknow
  · rw [heq]
    refine ⟨h.votes, fun e he => (nomatch he), fun n l hl => ?_⟩
    rcases List.mem_append.mp hl with hl | hl
    · exact h.elected n l hl
    · obtain ⟨m, hm, hgreat⟩ := (h.election e he).winner hmaj
      injection List.mem_singleton.mp hl with _ hl
      exact ⟨m, hl.trans hm, hgreat⟩
  · rw [heq]
    exact ⟨h.votes, fun e he => (nomatch he), h.elected⟩
  · rw [heq]
    exact h

theorem Fair.onElectLeader {nodes : Set Id} {v : Vote Id} (h : Fair nodes c)
    (hknow : ∀ id, id ∈ c.nodes ↔ id ∈ nodes)
    (hv : IsGreatest nodes v.candidate) :
    Fair nodes (c.onElectLeader v).1 := by
  have habandon : Fair nodes (c.abandonElection v.electionId) ∧
      (c.abandonElection v.electionId).nodes = c.nodes := by
    unfold Controller.abandonElection
    split
    · exact ⟨⟨h.votes, fun e he => (nomatch he), h.elected⟩, rfl⟩
    · exact ⟨h, rfl⟩
  have hjoin : Fair nodes (c.abandonElection v.electionId).joinElection.1 := by
    unfold Controller.joinElection
    split
    · next hnone =>
        refine Fair.electLeader ⟨habandon.1.votes, fun e he => ?_,
          habandon.1.elected⟩ (fun id => ?_)
        · exact habandon.1.election e he
        · dsimp only
          rw [habandon.2]
          exact hknow id
    · exact habandon.1
  unfold Controller.onElectLeader
  split
  · next c₁ err heq =>
      rw [heq] at hjoin
      exact hjoin
  · next c₁ heq =>
      rw [heq] at hjoin
      split
      · exact hjoin
      · next e he =>
          refine ⟨hjoin.votes, fun e' he' => ?_, hjoin.elected⟩
          injection he' with he'
          exact he' ▸ (hjoin.election e he).tally hv

/-- Heartbeats are no votes. -/
theorem Fair.beatHeart {nodes : Set Id} (h : Fair nodes c) :
    Fair nodes c.beatHeart := by
  unfold Controller.beatHeart
  split
  · refine ⟨fun v hv => ?_, h.election, h.elected⟩
    rcases List.mem_append.mp hv with hv | hv
    · exact h.votes v hv
    · obtain ⟨id, _, hid⟩ := List.mem_map.mp hv
      cases hid
  · exact ⟨h.votes, h.election, h.elected⟩

theorem Fair.health {nodes : Set Id} (h : Fair nodes c) :
    Fair nodes c.evaluateClusterHealth.1 := by
  rcases evaluateClusterHealth_cases c with
    ⟨_, heq⟩ | ⟨_, l, hs, s, n, err, _, heq⟩
  · rw [heq]
    exact h
  · rw [heq]
    exact ⟨h.votes, h.election, h.elected⟩

/-- The nodes an election at the end of a tick goes by are those known after
the tick. -/
theorem processNodeTasks_cases (c : Controller Id) :
    c.processNodeTasks.1 = c.beatHeart.evaluateClusterHealth.1 ∨
    (c.processNodeTasks.1 = c.beatHeart.evaluateClusterHealth.1.electLeader.1 ∧
      c.processNodeTasks.1.nodes =
        c.beatHeart.evaluateClusterHealth.1.nodes) := by
  unfold Controller.processNodeTasks Controller.checkTopologyStability
  split
  · next c₁ err heq => exact .inl (by rw [heq])
  · next c₁ heq =>
      rw [heq]
      split
      · refine .inr ⟨rfl, ?_⟩
        obtain ⟨l, e, n, p, el, h⟩ := electLeader_frame c₁
        rw [h]
      · exact .inl rfl

theorem Fair.tick {nodes : Set Id} (h : Fair nodes c)
    (hknow : ∀ id, id ∈ c.processNodeTasks.1.nodes ↔ id ∈ nodes) :
    Fair nodes c.processNodeTasks.1 := by
  rcases processNodeTasks_cases c with heq | ⟨heq, hnodes⟩
  · rw [heq]
    exact h.beatHeart.health
  · rw [hnodes] at hknow
    rw [heq]
    exact h.beatHeart.health.electLeader hknow
/-! ## Which votes count -/

/-- The election in progress has counted votes of its own id only. -/
def Own (c : Controller Id) : Prop :=
  ∀ e, c.currentElection = some e → CountedFor c.currentElectionId e

/-- And its history names its voters. -/
def LoggedBy (c : Controller Id) : Prop :=
  ∀ e, c.currentElection = some e → Logged e

theorem newElection_counted (best : Id) (c : Controller Id) :
    CountedFor c.currentElectionId (newElection best c) := by
  refine tallyAll_induct (fun e v hv he => ?_) (fun v hv => ?_)
  · obtain ⟨id, _, rfl⟩ := List.mem_map.mp hv
    exact (countedFor_tally he).mpr fun _ => rfl
  · cases hv

theorem newElection_logged (best : Id) (c : Controller Id) :
    Logged (newElection best c) :=
  tallyAll_induct (fun _ _ _ he => he.tally) (logged_new _ _)

theorem mem_voters_newElection {best x : Id} :
    x ∈ (newElection best c).voters ↔ x ∈ c.nodeIdSet ∧ x ∈ c.nodes := by
  have hown : (ownVotes best c).map Vote.voter = c.nodeIdSet.toList := by
    rw [ownVotes, List.map_map]
    exact List.map_id c.nodeIdSet.toList
  rw [newElection, mem_voters_tallyAll, hown]
  constructor
  · rintro (h | h)
    · exact absurd h OrdSet.not_mem_empty
    · exact h
  · exact .inr

/-- What a vote finds where no election is in progress. -/
theorem joinElection_cases (hnone : c.currentElection = none) :
    (c.minority = true ∧
      c.joinElection = ({ c with leaderNodeId := none }, none)) ∨
    (c.minority = false ∧ (∀ id, id ∉ c.nodes) ∧ c.joinElection =
      ({ c with
        leaderNodeId := none
        currentElection := some (Election.new c.nodes c.currentNodeTime) },
        some .emptyMax)) ∨
    (c.minority = false ∧ ∃ best p, c.joinElection =
      ({ c with
        leaderNodeId := none
        currentElection := some (newElection best c)
        published := p }, none)) := by
  have hjoin : c.joinElection =
      Controller.electLeader { c with leaderNodeId := none } := by
    unfold Controller.joinElection
    rw [hnone]
  rw [hjoin]
  rcases electLeader_cases { c with leaderNodeId := none } with
    ⟨hmin, heq⟩ | ⟨hmin, _, heq⟩ | ⟨e, _, he, _⟩
  · exact .inl ⟨hmin, heq⟩
  · rw [heq]
    rcases forceElection_cases { c with leaderNodeId := none } with
      ⟨hempty, hf⟩ | ⟨best, _, hf⟩
    · exact .inr (.inl ⟨hmin, hempty, hf⟩)
    · exact .inr (.inr ⟨hmin, best, _, hf⟩)
  · rw [hnone] at he
    cases he

/-- What counting a vote with the current id or an older one comes to. -/
theorem own_tally {v : Vote Id} (h : CountedFor c.currentElectionId e)
    (hle : v.electionId ≤ c.currentElectionId) :
    CountedFor c.currentElectionId (e.tally c.nodes v) ↔
      ¬ (v.electionId < c.currentElectionId ∧ v.voter ∈ c.nodes ∧
        v.voter ∉ e.voters) := by
  rw [countedFor_tally h]
  constructor
  · rintro hid ⟨hlt, hmem, hnew⟩
    have heq := hid ⟨hnew, hmem⟩
    omega
  · intro hstale hacc
    by_contra hne
    exact hstale ⟨by omega, hacc.2, hacc.1⟩

/-- A vote leaves the count clean exactly where it is not a stale one that is
accepted. -/
theorem own_onElectLeader (h : Own c) (v : Vote Id) :
    Own (c.onElectLeader v).1 ↔ ¬ StaleCounts c v := by
  by_cases hnew : c.currentElectionId < v.electionId
  · have habandon : c.abandonElection v.electionId = { c with
        currentElection := none
        currentElectionId := v.electionId } := if_pos hnew
    refine ⟨fun _ hstale => ?_, fun _ => ?_⟩
    · have hlt := hstale.1
      omega
    · unfold Controller.onElectLeader
      rw [habandon]
      rcases joinElection_cases (c := { c with
          currentElection := none, currentElectionId := v.electionId }) rfl with
        ⟨_, heq⟩ | ⟨_, _, heq⟩ | ⟨_, best, p, heq⟩
      · rw [heq]
        exact fun e he => (nomatch he)
      · rw [heq]
        intro e he
        injection he with he
        rw [← he]
        exact fun v hv => (nomatch hv)
      · rw [heq]
        intro e he
        injection he with he
        rw [← he]
        exact (countedFor_tally (newElection_counted best _)).mpr fun _ => rfl
  · have habandon : c.abandonElection v.electionId = c := if_neg hnew
    have hle : v.electionId ≤ c.currentElectionId := Nat.le_of_not_lt hnew
    unfold Controller.onElectLeader StaleCounts
    rw [habandon]
    cases hcur : c.currentElection with
    | some e =>
        have hjoin : c.joinElection = (c, none) := by
          unfold Controller.joinElection
          rw [hcur]
        rw [hjoin]
        dsimp only
        rw [hcur]
        refine Iff.trans ?_ (own_tally (h e hcur) hle)
        constructor
        · exact fun hown => hown _ rfl
        · intro hcount e' he'
          injection he' with he'
          exact he' ▸ hcount
    | none =>
        rcases joinElection_cases hcur with
          ⟨hmin, heq⟩ | ⟨_, hempty, heq⟩ | ⟨hmin, best, p, heq⟩
        · rw [heq]
          dsimp only
          rw [hcur]
          refine ⟨fun _ hstale => ?_, fun _ e he => ?_⟩
          · rw [hmin] at hstale
            exact absurd hstale.2.2.1 (by simp)
          · cases he
        · rw [heq]
          refine ⟨fun _ hstale => hempty _ hstale.2.1, fun _ e he => ?_⟩
          injection he with he
          rw [← he]
          exact fun v hv => (nomatch hv)
        · rw [heq]
          dsimp only
          have htally := own_tally (newElection_counted best c) hle
          rw [mem_voters_newElection] at htally
          constructor
          · rintro hown ⟨hlt, hmem, _, hnot⟩
            refine htally.mp (hown _ rfl) ⟨hlt, hmem, fun hv => hnot hv.1⟩
          · intro hstale e he
            injection he with he
            rw [← he]
            refine htally.mpr fun hbad => hstale ⟨hbad.1, hbad.2.1, hmin, ?_⟩
            exact fun hid => hbad.2.2 ⟨hid, hbad.2.1⟩

/-! ## Ticks and the count -/

/-- An election that `electLeader` leaves in progress was in progress, or is a
new one with the own votes. -/
theorem electLeader_election (c : Controller Id) {e : Election Id}
    (he : c.electLeader.1.currentElection = some e) :
    c.electLeader.1.currentElectionId = c.currentElectionId ∧
    (c.currentElection = some e ∨
      e = Election.new c.nodes c.currentNodeTime ∨
      ∃ best, e = newElection best c) := by
  rcases electLeader_cases c with
    ⟨_, heq⟩ | ⟨_, _, heq⟩ | ⟨e', _, _, ⟨_, heq⟩ | heq | heq⟩
  · rw [heq] at he ⊢
    exact ⟨rfl, .inl he⟩
  · rw [heq] at he ⊢
    rcases forceElection_cases c with ⟨_, hf⟩ | ⟨best, _, hf⟩
    · rw [hf] at he ⊢
      injection he with he
      exact ⟨rfl, .inr (.inl he.symm)⟩
    · rw [hf] at he ⊢
      injection he with he
      exact ⟨rfl, .inr (.inr ⟨best, he.symm⟩)⟩
  · rw [heq] at he
    cases he
  · rw [heq] at he
    cases he
  · rw [heq] at he ⊢
    exact ⟨rfl, .inl he⟩

/-- The same for a whole tick. -/
theorem tick_election (c : Controller Id) {e : Election Id}
    (he : c.processNodeTasks.1.currentElection = some e) :
    (c.currentElection = some e ∧
      c.processNodeTasks.1.currentElectionId = c.currentElectionId) ∨
    (CountedFor c.processNodeTasks.1.currentElectionId e ∧ Logged e) := by
  have hframe : c.beatHeart.evaluateClusterHealth.1.currentElection =
      c.currentElection ∧
      c.beatHeart.evaluateClusterHealth.1.currentElectionId =
        c.currentElectionId := by
    obtain ⟨p, hbeat⟩ := beatHeart_frame c
    rcases evaluateClusterHealth_cases c.beatHeart with
      ⟨_, heq⟩ | ⟨_, l, hs, s, n, err, _, heq⟩
    · rw [heq, hbeat]
      exact ⟨rfl, rfl⟩
    · rw [heq, hbeat]
      exact ⟨rfl, rfl⟩
  obtain ⟨hcur, hid⟩ := hframe
  rcases processNodeTasks_cases c with heq | ⟨heq, _⟩
  · rw [heq, hcur] at he
    rw [heq, hid]
    exact .inl ⟨he, rfl⟩
  · rw [heq] at he ⊢
    obtain ⟨hsame, hold | rfl | ⟨best, rfl⟩⟩ := electLeader_election _ he
    · rw [hcur] at hold
      exact .inl ⟨hold, hsame.trans hid⟩
    · exact .inr ⟨fun v hv => (nomatch hv), logged_new _ _⟩
    · rw [hsame]
      exact .inr ⟨newElection_counted best _, newElection_logged best _⟩

theorem own_tick (h : Own c) : Own c.processNodeTasks.1 := by
  intro e he
  rcases tick_election c he with ⟨hold, hid⟩ | ⟨hnew, _⟩
  · rw [hid]
    exact h e hold
  · exact hnew

theorem loggedBy_tick (h : LoggedBy c) : LoggedBy c.processNodeTasks.1 := by
  intro e he
  rcases tick_election c he with ⟨hold, _⟩ | ⟨_, hnew⟩
  · exact h e hold
  · exact hnew

theorem loggedBy_electLeader (h : LoggedBy c) : LoggedBy c.electLeader.1 := by
  intro e he
  obtain ⟨_, hold | rfl | ⟨best, rfl⟩⟩ := electLeader_election c he
  · exact h e hold
  · exact logged_new _ _
  · exact newElection_logged best c

theorem loggedBy_onElectLeader (h : LoggedBy c) (v : Vote Id) :
    LoggedBy (c.onElectLeader v).1 := by
  have habandon : LoggedBy (c.abandonElection v.electionId) := by
    unfold Controller.abandonElection
    split
    · exact fun e he => (nomatch he)
    · exact h
  have hjoin : LoggedBy (c.abandonElection v.electionId).joinElection.1 := by
    unfold Controller.joinElection
    split
    · exact loggedBy_electLeader (c := { (c.abandonElection v.electionId) with
        leaderNodeId := none }) habandon
    · exact habandon
  unfold Controller.onElectLeader
  split
  · next c₁ err heq =>
      rw [heq] at hjoin
      exact hjoin
  · next c₁ heq =>
      rw [heq] at hjoin
      split
      · exact hjoin
      · next e he =>
          intro e' he'
          injection he' with he'
          exact he' ▸ (hjoin e he).tally
/-! ## A cluster -/

section Cluster

variable {ι : Type} [DecidableEq ι] {w w' : Cluster ι Id}
  {a : Cluster.Event ι Id}

/-- A step is one controller receiving something: a vote it receives has been
published by one of the cluster. -/
theorem step_cases (h : Cluster.step w a = some w') :
    ∃ i input, w' = Function.update w i ((w i).receive input).1 ∧
      (∀ v, input = .message (.electLeader v) →
        ∃ j k, a = .deliver i j k ∧
          (w j).published[k]? = some (.electLeader v)) ∧
      ∀ i' j k v, a = .deliver i' j k →
        (w j).published[k]? = some (.electLeader v) →
        i' = i ∧ input = .message (.electLeader v) := by
  cases a with
  | tick i =>
      injection h with h
      exact ⟨i, .tick, h.symm, fun v hv => (nomatch hv),
        fun i' j k v hd => (nomatch hd)⟩
  | presence i clusterName nodeId =>
      injection h with h
      exact ⟨i, .presence clusterName nodeId, h.symm, fun v hv => (nomatch hv),
        fun i' j k v hd => (nomatch hd)⟩
  | deliver i j k =>
      rw [Cluster.step] at h
      cases hm : (w j).published[k]? with
      | none =>
          rw [hm] at h
          cases h
      | some m =>
          rw [hm] at h
          injection h with h
          refine ⟨i, .message m, h.symm, fun v hv => ?_,
            fun i' j' k' v hd hv => ?_⟩
          · injection hv with hv
            exact ⟨j, k, rfl, by rw [hm, hv]⟩
          · injection hd with hi hj hk
            subst hi hj hk
            rw [hm] at hv
            injection hv with hv
            exact ⟨rfl, by rw [hv]⟩

omit [LinearOrder Id] in
/-- What a step keeps for the controller it concerns, it keeps for all. -/
theorem forall_update {P : Controller Id → Prop} {i : ι} {c : Controller Id}
    (h : ∀ j, P (w j)) : (∀ j, P (Function.update w i c j)) ↔ P c := by
  constructor
  · intro hall
    simpa using hall i
  · intro hc j
    by_cases hj : j = i
    · subst hj
      simpa using hc
    · rw [Function.update_of_ne hj]
      exact h j

theorem fair_step {nodes : Set Id} (hknow : KnowNodes nodes w')
    (h : ∀ i, Fair nodes (w i)) (hs : Cluster.step w a = some w') :
    ∀ i, Fair nodes (w' i) := by
  obtain ⟨i, input, rfl, hsent, _⟩ := step_cases hs
  refine (forall_update h).mpr ?_
  have hk : ∀ id, id ∈ ((w i).receive input).1.nodes ↔ id ∈ nodes := by
    intro id
    have hi := hknow i id
    rw [Function.update_self] at hi
    exact hi
  cases input with
  | tick => exact (h i).tick hk
  | presence clusterName nodeId =>
      rw [Controller.receive, Controller.addNode]
      split
      · exact h i
      · exact ⟨(h i).votes, (h i).election, (h i).elected⟩
  | message m =>
      cases m with
      | electLeader v =>
          obtain ⟨j, k, _, hmem⟩ := hsent v rfl
          obtain ⟨l, e, n, p, el, hframe⟩ := onElectLeader_frame (w i) v
          rw [Controller.receive, hframe] at hk
          exact (h i).onElectLeader hk
            ((h j).votes v (List.mem_of_getElem? hmem))
      | heartbeat clusterName nodeId =>
          rw [Controller.receive, Controller.onHeartbeat]
          split
          · exact h i
          · exact ⟨(h i).votes, (h i).election, (h i).elected⟩

theorem loggedBy_step (h : ∀ i, LoggedBy (w i))
    (hs : Cluster.step w a = some w') : ∀ i, LoggedBy (w' i) := by
  obtain ⟨i, input, rfl, _, _⟩ := step_cases hs
  refine (forall_update h).mpr ?_
  cases input with
  | tick => exact loggedBy_tick (h i)
  | presence clusterName nodeId =>
      rw [Controller.receive, Controller.addNode]
      split
      · exact h i
      · exact h i
  | message m =>
      cases m with
      | electLeader v => exact loggedBy_onElectLeader (h i) v
      | heartbeat clusterName nodeId =>
          rw [Controller.receive, Controller.onHeartbeat]
          split
          · exact h i
          · exact h i

/-- A step keeps the counts clean exactly where it accepts no stale vote. -/
theorem own_step (h : ∀ i, Own (w i)) (hs : Cluster.step w a = some w') :
    (∀ i, Own (w' i)) ↔ NoneStale w a := by
  obtain ⟨i, input, rfl, hsent, hdeliver⟩ := step_cases hs
  rw [forall_update h]
  have hquiet : (∀ v, input ≠ .message (.electLeader v)) → NoneStale w a := by
    intro hno
    cases a with
    | tick i => exact trivial
    | presence i clusterName nodeId => exact trivial
    | deliver i j k =>
        exact fun v hv => absurd (hdeliver i j k v rfl hv).2 (hno v)
  cases input with
  | tick =>
      exact ⟨fun _ => hquiet fun v hv => absurd hv (by simp),
        fun _ => own_tick (h i)⟩
  | presence clusterName nodeId =>
      refine ⟨fun _ => hquiet fun v hv => absurd hv (by simp), fun _ => ?_⟩
      rw [Controller.receive, Controller.addNode]
      split
      · exact h i
      · exact h i
  | message m =>
      cases m with
      | electLeader v =>
          obtain ⟨j, k, rfl, hmem⟩ := hsent v rfl
          refine (own_onElectLeader (h i) v).trans ?_
          constructor
          · intro hns v' hv'
            rw [hmem] at hv'
            injection hv' with hv'
            injection hv' with hv'
            exact hv' ▸ hns
          · exact fun hns => hns v hmem
      | heartbeat clusterName nodeId =>
          refine ⟨fun _ => hquiet fun v hv => absurd hv (by simp), fun _ => ?_⟩
          rw [Controller.receive, Controller.onHeartbeat]
          split
          · exact h i
          · exact h i

omit [DecidableEq ι] in
/-- Two fair controllers agree on every election. -/
theorem agreed_of_fair {nodes : Set Id} (h : ∀ i, Fair nodes (w i)) :
    Agreed w := by
  intro i j n leader leader' hi hj
  obtain ⟨m, rfl, hm⟩ := (h i).elected n leader hi
  obtain ⟨m', rfl, hm'⟩ := (h j).elected n leader' hj
  rw [hm.unique hm']

omit [LinearOrder Id] in
theorem countsOwn_iff {c : Controller Id} (h : LoggedBy c) :
    CountsOwn c ↔ Own c := by
  refine ⟨fun hc => hc.id, fun hown => ⟨hown, fun e he => ?_⟩⟩
  rw [← h e he]
  exact e.voters.nodup

omit [DecidableEq ι] in
theorem fair_start {nodes : Set Id} (h : BeforeElections w) :
    ∀ i, Fair nodes (w i) := by
  intro i
  refine ⟨fun v hv => absurd hv (h.silent i v), fun e he => ?_, fun n l hl => ?_⟩
  · rw [h.none i] at he
    cases he
  · rw [h.nobody i] at hl
    cases hl

/-- As long as all know the same nodes, who concludes the same election sets
the same leader. Each vote then counts only in its own election, and no voter
counts twice in one, if and only if no vote is accepted that is too old for
the election it finds. -/
theorem agreed_iff_noneStale (nodes : Set Id) (w : Cluster ι Id)
    (events : List (Cluster.Event ι Id)) (hstart : BeforeElections w)
    (hknow : AllStates Cluster.step (KnowNodes nodes) w events) :
    AllStates Cluster.step
        (fun w => Agreed w ∧ ∀ i, CountsOwn (w i)) w events ↔
      AllSteps Cluster.step NoneStale w events := by
  have hfair : AllStates Cluster.step (fun w => ∀ i, Fair nodes (w i)) w
      events :=
    hknow.keep (fun s a s' hk h hs => fair_step hk h hs) (fair_start hstart)
  have hlog₀ : ∀ i, LoggedBy (w i) := by
    intro i e he
    rw [hstart.none i] at he
    cases he
  have hown₀ : ∀ i, Own (w i) := by
    intro i e he
    rw [hstart.none i] at he
    cases he
  have hlogged : AllStates Cluster.step (fun w => ∀ i, LoggedBy (w i)) w
      events :=
    allStates_of_step (Q := fun _ => True)
      (fun s a s' _ h hs => loggedBy_step h hs) (fun _ _ => trivial) hlog₀
  have hown : AllStates Cluster.step (fun w => ∀ i, Own (w i)) w events ↔
      AllSteps Cluster.step NoneStale w events :=
    allStates_iff_allSteps (Q := fun _ => True) (J := fun _ => True)
      (fun _ _ _ _ _ _ => trivial)
      (fun s a s' _ _ h hs => own_step h hs) (fun _ _ => trivial) trivial hown₀
  rw [← hown]
  constructor
  · exact fun h => h.imp fun s hs i => (hs.2 i).id
  · intro h
    refine ((hfair.and hlogged).and h).imp fun s hs => ?_
    exact ⟨agreed_of_fair hs.1.1,
      fun i => (countsOwn_iff (hs.1.2 i)).mpr (hs.2 i)⟩

end Cluster
/-! ## A late vote -/

/-- Three controllers. The first closes its election with the vote of the
second, and after that the vote of the third comes in. -/
def threeNodes : Cluster (Fin 3) NodeId :=
  assembled ["10.0.0.1", "10.0.0.2", "10.0.0.3"]

def firstElection : List (Cluster.Event (Fin 3) NodeId) :=
  List.replicate 11 (.tick 0) ++ List.replicate 11 (.tick 1) ++
    List.replicate 11 (.tick 2) ++ [.deliver 0 1 1] ++
    List.replicate 11 (.tick 0)

theorem threeNodes_before : BeforeElections threeNodes where
  none := by decide +kernel
  silent := by
    have hsilent : ∀ i, (threeNodes i).published = [] := by decide +kernel
    intro i v hv
    rw [hsilent i] at hv
    cases hv
  nobody := by decide +kernel

/-- Nobody joins or leaves. -/
theorem threeNodes_know {events : List (Cluster.Event (Fin 3) NodeId)}
    (h : AllStates Cluster.step (fun w => ∀ i, (w i).nodes.toList.Perm
      (threeNodes 0).nodes.toList) threeNodes events) :
    AllStates Cluster.step (KnowNodes {id | id ∈ (threeNodes 0).nodes})
      threeNodes events :=
  h.imp fun _ hw i _ => (hw i).mem_iff

/-- Where no vote comes late, all is well. -/
theorem firstElection_agreed : AllStates Cluster.step
    (fun w => Agreed w ∧ ∀ i, CountsOwn (w i)) threeNodes firstElection :=
  (agreed_iff_noneStale {id | id ∈ (threeNodes 0).nodes} threeNodes
    firstElection threeNodes_before (threeNodes_know (by decide +kernel))).mpr
    (by decide +kernel)

/-- The vote of the third for the election that is over is counted in the
next one. -/
theorem late_vote_counts : BeforeElections threeNodes ∧
    AllStates Cluster.step (KnowNodes {id | id ∈ (threeNodes 0).nodes})
      threeNodes (firstElection ++ [.deliver 0 2 1]) ∧
    ¬ AllStates Cluster.step (fun w => Agreed w ∧ ∀ i, CountsOwn (w i))
      threeNodes (firstElection ++ [.deliver 0 2 1]) := by
  refine ⟨threeNodes_before, threeNodes_know (by decide +kernel), fun h => ?_⟩
  have hcounted : (run Cluster.step threeNodes
      (firstElection ++ [.deliver 0 2 1])).map (fun w =>
        (w 0).currentElection.map fun e => (w 0).currentElectionId ::
          e.counted.map Vote.electionId) = some (some [1, 1, 0]) := by
    decide +kernel
  obtain ⟨w, hw, hcounted⟩ := Option.map_eq_some_iff.mp hcounted
  obtain ⟨e, he, hcounted⟩ := Option.map_eq_some_iff.mp hcounted
  have hown := ((allStates_iff_run.mp h _ List.prefix_rfl w hw).2 0).id e he
  injection hcounted with hid hids
  have hmem : 0 ∈ e.counted.map Vote.electionId := by
    rw [hids]
    decide
  obtain ⟨v, hv, hzero⟩ := List.mem_map.mp hmem
  have hv' := hown v hv
  omega

end Infinisql.Manager
