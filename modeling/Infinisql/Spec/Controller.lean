import Infinisql.Ref.Controller
import Infinisql.Lib.Run
import Mathlib.Order.Bounds.Basic
import Mathlib.Data.Fintype.Basic
import Mathlib.Data.Finset.Union

/-!
# What a management controller is to keep

Five concerns. The books of one controller: its counters and its registries
tell the same story about who is in the cluster. Its calls: no message makes
a handler raise. One election: each registered voter is counted once, and what
is decided stays so. The elections of controllers that know the same nodes:
who concludes the same election names the same leader, and votes are counted
for the election they were cast in. And the leaders of a divided cluster: once
a controller has given up all nodes on the other side, it elects only where
its side is a majority.

For each there is also what a step must not do for the program to keep it;
these conditions look at the state before the step and at what arrives.
-/

namespace Infinisql.Manager

open Infinisql.Lib

variable {Id : Type} [LinearOrder Id]

/-! ## The books -/

/-- The size is the number of known nodes, and the nodes with a heartbeat are
those with a subscription socket, all of them known. -/
structure Booked (c : Controller Id) : Prop where
  size : c.currentClusterSize = c.nodes.card
  keys : ∀ id, id ∈ c.heartbeats.keys ↔ id ∈ c.subSockets.keys
  known : ∀ id ∈ c.subSockets.keys, id ∈ c.nodes

/-- What the announcement of a node leaves as it was. -/
structure Unchanged (c c' : Controller Id) (nodeId : Id) : Prop where
  size : c'.currentClusterSize = c.currentClusterSize
  peak : c'.peakClusterSize = c.peakClusterSize
  leader : c'.leaderNodeId = c.leaderNodeId
  socket : c'.subSockets.get? nodeId = c.subSockets.get? nodeId

/-- Announcing a known node changes nothing. -/
def KnownUnchanged (c : Controller Id) (i : Input Id) : Prop :=
  ∀ clusterName nodeId, i = .presence clusterName nodeId → nodeId ∈ c.nodes →
    Unchanged c (c.receive i).1 nodeId

/-- After any part of the run the peak is the greatest of the sizes so far. -/
def PeakReached (c : Controller Id) (inputs : List (Input Id)) : Prop :=
  ∀ bs, bs <+: inputs → ∀ c', run Controller.step c bs = some c' →
    IsGreatest {n | ∃ cs, cs <+: bs ∧ ∃ d, run Controller.step c cs = some d ∧
      d.currentClusterSize = n} c'.peakClusterSize

/-- An announcement is of a node that is not known, and a heartbeat from one
that has a socket, unless they come from another cluster. -/
def Recorded (c : Controller Id) : Input Id → Prop
  | .tick => True
  | .presence clusterName nodeId =>
      clusterName = c.clusterName → nodeId ∉ c.nodes
  | .message (.heartbeat clusterName nodeId) =>
      clusterName = c.clusterName → nodeId ∈ c.subSockets.keys
  | .message (.electLeader _) => True

/-! ## The calls -/

/-- The handler returns. -/
def Returns (c : Controller Id) (i : Input Id) : Prop := (c.receive i).2 = none

/-- Each node that has expired when the clock ticks has a socket to close, and
a vote that finds no election in progress, or one it is too new for, does not
arrive at a minority. -/
def Served (c : Controller Id) : Input Id → Prop
  | .tick => ∀ id ∈ c.beatHeart.partitioned, id ∈ c.subSockets.keys
  | .message (.electLeader v) =>
      c.currentElection = none ∨ c.currentElectionId < v.electionId →
        c.minority = false
  | _ => True

/-! ## One election -/

section OneElection

variable (nodes : OrdSet Id) (started : ℕ) (votes : List (Vote Id))

/-- An election after a sequence of votes. -/
def outcome : Election Id :=
  votes.foldl (fun e v => e.tally nodes v) (Election.new nodes started)

/-- The candidate of the voter's first vote. -/
def ballot (voter : Id) : Option Id :=
  (votes.find? fun v => decide (v.voter = voter)).map Vote.candidate

/-- The registered voters who have voted. -/
def turnout : Finset Id :=
  nodes.toList.toFinset.filter fun voter => (ballot votes voter).isSome

/-- Those of them whose ballot is for the candidate. -/
def supporters (candidate : Id) : Finset Id :=
  nodes.toList.toFinset.filter fun voter => ballot votes voter = some candidate

/-- More than half have voted, and nobody has as many supporters as the one
candidate. -/
structure Decided (winner : Id) : Prop where
  majority : nodes.card < 2 * (turnout nodes votes).card
  ahead : ∀ candidate, candidate ≠ winner →
    (supporters nodes votes candidate).card <
      (supporters nodes votes winner).card

/-- What is counted is one ballot for each registered voter who has voted. -/
structure CountsBallots (e : Election Id) : Prop where
  voters : ∀ id, id ∈ e.voters ↔ id ∈ turnout nodes votes
  votes : ∀ candidate, (e.votes.get? candidate).getD 0 =
    (supporters nodes votes candidate).card

/-- After any part of the votes the ballots are what is counted, and from the
first majority on there is one after each further vote, with the same
winner. -/
structure StaysDecided : Prop where
  counts : ∀ early, early <+: votes →
    CountsBallots nodes early (outcome nodes started early)
  settled : ∀ early late, early ++ late <+: votes →
    (outcome nodes started early).hasMajority nodes = true →
      (outcome nodes started (early ++ late)).hasMajority nodes = true ∧
        (outcome nodes started (early ++ late)).getWinner =
          (outcome nodes started early).getWinner

/-- A vote that counts and comes when all is decided is for the winner, or for
someone it leaves behind the winner. -/
def NoneCatchesUp : Prop :=
  ∀ early v winner, early ++ [v] <+: votes → Decided nodes early winner →
    v.voter ∈ nodes → ballot early v.voter = none → v.candidate ≠ winner →
      (supporters nodes early v.candidate).card + 1 <
        (supporters nodes early winner).card

end OneElection

/-! ## Elections -/

variable {ι : Type} [DecidableEq ι]

/-- All know the same nodes. -/
def KnowNodes (nodes : Set Id) (w : Cluster ι Id) : Prop :=
  ∀ i id, id ∈ (w i).nodes ↔ id ∈ nodes

/-- No election is in progress, none has been concluded, and nobody has voted
yet. -/
structure BeforeElections (w : Cluster ι Id) : Prop where
  none : ∀ i, (w i).currentElection = none
  silent : ∀ i, ∀ v, Msg.electLeader v ∉ (w i).published
  nobody : ∀ i, (w i).elected = []

/-- Whoever concludes the same election sets the same leader. -/
def Agreed (w : Cluster ι Id) : Prop :=
  ∀ i j n leader leader', (n, leader) ∈ (w i).elected →
    (n, leader') ∈ (w j).elected → leader = leader'

/-- The votes that count in the election in progress carry its id, and no two
of them are from one voter. -/
structure CountsOwn (c : Controller Id) : Prop where
  id : ∀ e, c.currentElection = some e → ∀ v ∈ e.counted,
    v.electionId = c.currentElectionId
  once : ∀ e, c.currentElection = some e → (e.counted.map Vote.voter).Nodup

/-- The vote is older than the election it would be counted in: its voter is
known and has not voted in the election in progress, or there is none and the
controller is free to force one. -/
def StaleCounts (c : Controller Id) (v : Vote Id) : Prop :=
  v.electionId < c.currentElectionId ∧ v.voter ∈ c.nodes ∧
    match c.currentElection with
    | some e => v.voter ∉ e.voters
    | none => c.minority = false ∧ v.voter ∉ c.nodeIdSet

instance (c : Controller Id) (v : Vote Id) : Decidable (StaleCounts c v) := by
  unfold StaleCounts
  cases c.currentElection <;> infer_instance

/-- No vote that arrives is counted in an election it is too old for. -/
def NoneStale (w : Cluster ι Id) : Cluster.Event ι Id → Prop
  | .deliver i j k => ∀ v, (w j).published[k]? = some (.electLeader v) →
      ¬ StaleCounts (w i) v
  | _ => True

instance (w : Cluster ι Id) (a : Cluster.Event ι Id) :
    Decidable (NoneStale w a) := by
  cases a with
  | tick i => exact isTrue trivial
  | presence i clusterName nodeId => exact isTrue trivial
  | deliver i j k =>
      match h : (w j).published[k]? with
      | some (.electLeader v) =>
          refine decidable_of_iff (¬ StaleCounts (w i) v)
            ⟨fun hn v' hv' => ?_, fun hall => hall v h⟩
          rw [h] at hv'
          injection hv' with hv'
          injection hv' with hv'
          exact hv' ▸ hn
      | some (.heartbeat clusterName nodeId) =>
          refine isTrue fun v hv => ?_
          rw [h] at hv
          injection hv with hv
          cases hv
      | none =>
          refine isTrue fun v hv => ?_
          rw [h] at hv
          cases hv

/-- Controllers at these addresses, each of which has heard the announcement
of every other one. -/
def assembled (ips : List String) : Cluster (Fin ips.length) NodeId := fun i =>
  (List.finRange ips.length).foldl
    (fun c j => if j = i then c else c.addNode "c" (NodeId.at (ips.get j)))
    (Controller.new (Config.ofAddress "c" (NodeId.at (ips.get i))))

/-! ## Divisions -/

variable {γ : Type} [DecidableEq γ] [Fintype ι]

/-- The state of a controller that has been running. -/
def Controller.Reachable (c : Controller Id) : Prop :=
  ∃ config inputs, run Controller.step (Controller.new config) inputs = some c

/-- The node ids of one group of controllers. -/
def idsOf (w : Cluster ι Id) (group : ι → γ) (g : γ) : Finset Id :=
  (Finset.univ.filter fun i => group i = g).biUnion fun i =>
    (w i).nodeIdSet.toList.toFinset

/-- The node ids of all controllers. -/
def allIds (w : Cluster ι Id) : Finset Id :=
  Finset.univ.biUnion fun i => (w i).nodeIdSet.toList.toFinset

/-- A group with more than half of all nodes. -/
def Majority (w : Cluster ι Id) (group : ι → γ) (g : γ) : Prop :=
  (allIds w).card < 2 * (idsOf w group g).card

/-- The cluster at the time of the division: controllers that have been running,
under different addresses, who all know each other and agree on a leader. -/
structure Together (w : Cluster ι Id) : Prop where
  reachable : ∀ i, (w i).Reachable
  apart : ∀ i j, i ≠ j → ∀ id ∈ (w i).nodeIdSet, id ∉ (w j).nodeIdSet
  known : ∀ i id, id ∈ (w i).nodes ↔ id ∈ allIds w
  leader : ∃ leader, ∀ i, (w i).leaderNodeId = some leader

/-- What still arrives is from the own group. -/
def Within (group : ι → γ) (w : Cluster ι Id) : Cluster.Event ι Id → Prop
  | .tick _ => True
  | .deliver i j _ => group j = group i
  | .presence i _ nodeId => nodeId ∈ idsOf w group (group i)

/-- The step sets a new leader by election at a controller of the group that
knows no node of another one any more. -/
def Elects (group : ι → γ) (w : Cluster ι Id) (a : Cluster.Event ι Id)
    (g : γ) : Prop :=
  ∃ i w', group i = g ∧ Cluster.step w a = some w' ∧
    (w' i).elected ≠ (w i).elected ∧ ∀ id ∈ (w' i).nodes, id ∈ idsOf w group g

/-- In the course of the events the group elects. -/
def ElectsIn (group : ι → γ) (w : Cluster ι Id)
    (events : List (Cluster.Event ι Id)) (g : γ) : Prop :=
  ∃ bs a, bs ++ [a] <+: events ∧ ∃ w', run Cluster.step w bs = some w' ∧
    Elects group w' a g

/-- Only a majority elects, and so at most one group does. -/
def NoSplitBrain (group : ι → γ) (w : Cluster ι Id)
    (events : List (Cluster.Event ι Id)) : Prop :=
  (∀ g, ElectsIn group w events g → Majority w group g) ∧
    ∀ g g', ElectsIn group w events g → ElectsIn group w events g' → g = g'

/-- A group without a majority is less than half of the largest cluster each
of its controllers has seen. -/
def Outnumbered (group : ι → γ) (w : Cluster ι Id) : Prop :=
  ∀ i, ¬ Majority w group (group i) →
    2 * (idsOf w group (group i)).card < (w i).peakClusterSize

/-- To a controller of a group without a majority no known node is announced
again, and none of its ticks fails for a missing socket. -/
def Orderly (group : ι → γ) (w : Cluster ι Id) : Cluster.Event ι Id → Prop
  | .tick i => ¬ Majority w group (group i) → Served (w i) .tick
  | .presence i clusterName nodeId =>
      ¬ Majority w group (group i) →
        Recorded (w i) (.presence clusterName nodeId)
  | .deliver .. => True

end Infinisql.Manager
