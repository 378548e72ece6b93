import Infinisql.Lib.Collections
import Mathlib.Data.Prod.Lex
import Mathlib.Data.String.Basic

/-!
# The management controller

`Controller` of `manager/infinisqlmgr/management/__init__.py`, with the
`Election` of `election.py` it holds while there is no leader. The state has
the fields the handlers read and write; the sockets are numbered in the order
they are opened, and what the controller puts on its publishing socket is
kept, oldest first, in `published`.

A handler that raises leaves the object as it is at that point, and the event
loop goes on with the next message; so every handler here returns a
controller, and with it the exception, if there was one.

`Election.nodes` is the controller's own set, not a copy of it, so the methods
of an election that look at it take the set as it is by then. Two fields keep
a history that the program does not keep: `counted`, the votes an election has
let count, and `elected`, the lines the controller logs when it has elected.
No method looks at either.

Iteration over a set has no order that could be relied on; here it is the
order of insertion. It only decides which of two candidates with the same
count comes first, which `hasMajority` keeps `getWinner` from being asked.
-/

namespace Infinisql.Manager

open Infinisql.Lib

/-- A node id is an address and a port, and the ids are ordered as tuples are.
Nothing below depends on more than that they are ordered. -/
abbrev NodeId := Lex (String × ℕ)

/-- The default port of the management node at an address. -/
def NodeId.at (ip : String) : NodeId := toLex (ip, 21000)

/-- What the payload of an `ELECT_LEADER` message says. -/
structure Vote (Id : Type) where
  candidate : Id
  voter : Id
  electionId : ℕ
  deriving DecidableEq

inductive Msg (Id : Type) where
  | electLeader (v : Vote Id)
  | heartbeat (clusterName : String) (nodeId : Id)
  deriving DecidableEq

/-- What the handlers can raise: `sub_sockets[node_id]` without that key,
`nodes.remove` of what is not in it, `tally` called on `None`, `max` of an
empty set. -/
inductive PyError where
  | missingKey
  | missingElement
  | missingElection
  | emptyMax
  deriving DecidableEq

/-- What a controller can be given. -/
inductive Input (Id : Type) where
  | tick
  | presence (clusterName : String) (nodeId : Id)
  | message (m : Msg Id)

variable {Id : Type}

/-! ## Elections -/

structure Election (Id : Type) where
  votes : Dict Id ℕ
  voters : OrdSet Id
  electionStarted : ℕ
  electionDuration : ℕ
  counted : List (Vote Id)

namespace Election

/-- `Election(nodes, election_started)`, with the default duration. -/
def new (nodes : OrdSet Id) (started : ℕ) : Election Id where
  votes := Dict.ofSet nodes 0
  voters := OrdSet.empty
  electionStarted := started
  electionDuration := 10
  counted := []

def electionHasConcluded (e : Election Id) (now : ℕ) : Bool :=
  !decide (now - e.electionStarted ≤ e.electionDuration)

/-- A majority of the nodes has voted, and one candidate is ahead. There is a
candidate wherever someone has voted. -/
def hasMajority (e : Election Id) (nodes : OrdSet Id) : Bool :=
  if 2 * e.voters.card ≤ nodes.card then false
  else
    match mostCommon e.votes with
    | [] => false
    | [_] => true
    | p :: q :: _ => decide (q.2 < p.2)

def ready (e : Election Id) (nodes : OrdSet Id) (now : ℕ) : Bool :=
  if e.electionHasConcluded now then e.hasMajority nodes else false

def undecideable (e : Election Id) (nodes : OrdSet Id) (now : ℕ) : Bool :=
  if e.electionHasConcluded now then !e.hasMajority nodes else false

def getWinner (e : Election Id) : Option Id :=
  (mostCommon e.votes).head?.map Prod.fst

variable [DecidableEq Id]

/-- A second vote of a voter and a vote of a node that is not known do not
count. -/
def tally (e : Election Id) (nodes : OrdSet Id) (v : Vote Id) : Election Id :=
  if v.voter ∈ e.voters then e
  else if v.voter ∈ nodes then
    { e with
      votes := e.votes.set v.candidate ((e.votes.get? v.candidate).getD 0 + 1)
      voters := e.voters.insert v.voter
      counted := e.counted ++ [v] }
  else e

end Election

/-! ## The controller -/

/-- What the constructor takes from the configuration: the name of the cluster
and the addresses the node answers under, one, or those of all interfaces
where `management_ip` is `*`. -/
structure Config (Id : Type) where
  clusterName : String
  nodeIds : OrdSet Id
  nonempty : nodeIds.card ≠ 0

/-- A configuration with one `management_ip`. -/
def Config.ofAddress (clusterName : String) (nodeId : Id) : Config Id :=
  ⟨clusterName, OrdSet.singleton nodeId, Nat.one_ne_zero⟩

structure Controller (Id : Type) where
  clusterName : String
  nodeIdSet : OrdSet Id
  nodes : OrdSet Id
  subSockets : Dict Id ℕ
  leaderNodeId : Option Id
  currentElection : Option (Election Id)
  currentClusterSize : ℕ
  currentNodeTime : ℕ
  currentElectionId : ℕ
  peakClusterSize : ℕ
  settleTime : ℕ
  heartbeatPeriod : ℕ
  nodePartitionThreshold : ℕ
  heartbeats : Dict Id ℕ
  socketsOpened : ℕ
  published : List (Msg Id)
  elected : List (ℕ × Option Id)

namespace Controller

/-- `Controller(config)`. -/
def new (config : Config Id) : Controller Id where
  clusterName := config.clusterName
  nodeIdSet := config.nodeIds
  nodes := config.nodeIds
  subSockets := Dict.empty
  leaderNodeId := none
  currentElection := none
  currentClusterSize := 1
  currentNodeTime := 0
  currentElectionId := 0
  peakClusterSize := 1
  settleTime := 10
  heartbeatPeriod := 10
  nodePartitionThreshold := 50
  heartbeats := Dict.empty
  socketsOpened := 0
  published := []
  elected := []

/-- The cluster is smaller than half of the largest it has been. -/
def minority (c : Controller Id) : Bool :=
  decide (2 * c.currentClusterSize < c.peakClusterSize)

/-- A heartbeat for each address, every `heartbeat_period` ticks. -/
def beatHeart (c : Controller Id) : Controller Id :=
  if (c.currentNodeTime + 1) % c.heartbeatPeriod = 0 then
    { c with
      currentNodeTime := c.currentNodeTime + 1
      published := c.published ++
        c.nodeIdSet.toList.map fun nodeId => .heartbeat c.clusterName nodeId }
  else { c with currentNodeTime := c.currentNodeTime + 1 }

/-- The nodes whose last heartbeat is too old, as `heartbeats` has them. -/
def partitioned (c : Controller Id) : List Id :=
  (c.heartbeats.items.filter fun p =>
    decide (c.nodePartitionThreshold < c.currentNodeTime - p.2)).map Prod.fst

variable [LinearOrder Id]

/-- The body of the loop over the own addresses: the vote is tallied at home
and sent. -/
def castVote (best : Id) (c : Controller Id) (nodeId : Id) : Controller Id :=
  let v : Vote Id := ⟨best, nodeId, c.currentElectionId⟩
  { c with
    currentElection := c.currentElection.map (·.tally c.nodes v)
    published := c.published ++ [.electLeader v] }

/-- A new election. It is in place when the best candidate is looked for. -/
def forceElection (c : Controller Id) : Controller Id × Option PyError :=
  let c' := { c with
    currentElection := some (Election.new c.nodes c.currentNodeTime) }
  match c.nodes.max? with
  | none => (c', some .emptyMax)
  | some best => (c.nodeIdSet.toList.foldl (castVote best) c', none)

def electLeader (c : Controller Id) : Controller Id × Option PyError :=
  if c.minority then (c, none)
  else
    match c.currentElection with
    | none => c.forceElection
    | some e =>
        if e.ready c.nodes c.currentNodeTime then
          ({ c with
            leaderNodeId := e.getWinner
            currentElection := none
            currentElectionId := c.currentElectionId + 1
            elected := c.elected ++ [(c.currentElectionId, e.getWinner)] },
            none)
        else if e.undecideable c.nodes c.currentNodeTime then
          ({ c with currentElection := none, leaderNodeId := none }, none)
        else (c, none)

/-- The loop that takes the partitioned nodes out of the registries. -/
def removeNodes : List Id → Controller Id → Controller Id × Option PyError
  | [], c => (c, none)
  | nodeId :: rest, c =>
      match c.subSockets.get? nodeId with
      | none => (c, some .missingKey)
      | some _ =>
          let c' := { c with
            heartbeats := c.heartbeats.del nodeId
            subSockets := c.subSockets.del nodeId }
          if nodeId ∈ c.nodes then
            removeNodes rest { c' with nodes := c.nodes.erase nodeId }
          else (c', some .missingElement)

/-- Whether an id is one of these. -/
def decidableMem (id : Id) (ids : List Id) : Decidable (id ∈ ids) :=
  inferInstance

/-- The leader is given up where it is one of the partitioned nodes. -/
def dropLeader (c : Controller Id) : Controller Id :=
  match c.leaderNodeId with
  | none => c
  | some leader =>
      if leader ∈ c.partitioned then { c with leaderNodeId := none } else c

def evaluateClusterHealth (c : Controller Id) :
    Controller Id × Option PyError :=
  if c.partitioned = [] then (c, none)
  else
    match removeNodes c.partitioned c.dropLeader with
    | (c', some err) => (c', some err)
    | (c', none) => ({ c' with currentClusterSize := c'.nodes.card }, none)

def checkTopologyStability (c : Controller Id) :
    Controller Id × Option PyError :=
  match c.evaluateClusterHealth with
  | (c', some err) => (c', some err)
  | (c', none) =>
      if c'.leaderNodeId = none ∧ c'.settleTime < c'.currentNodeTime then
        c'.electLeader
      else (c', none)

/-- One tick of the node. -/
def processNodeTasks (c : Controller Id) : Controller Id × Option PyError :=
  c.beatHeart.checkTopologyStability

/-- A known node is only logged. -/
def addNode (c : Controller Id) (clusterName : String) (nodeId : Id) :
    Controller Id :=
  if clusterName ≠ c.clusterName then c
  else
    { c with
      subSockets := c.subSockets.set nodeId c.socketsOpened
      socketsOpened := c.socketsOpened + 1
      nodes := c.nodes.insert nodeId
      currentClusterSize := c.currentClusterSize + 1
      peakClusterSize := max (c.currentClusterSize + 1) c.peakClusterSize
      heartbeats := c.heartbeats.set nodeId c.currentNodeTime
      leaderNodeId := none }

/-- A vote for an election that is newer than the current one. -/
def abandonElection (c : Controller Id) (electionId : ℕ) : Controller Id :=
  if c.currentElectionId < electionId then
    { c with currentElection := none, currentElectionId := electionId }
  else c

/-- A vote while no election is in progress forces one. -/
def joinElection (c : Controller Id) : Controller Id × Option PyError :=
  match c.currentElection with
  | none => { c with leaderNodeId := none }.electLeader
  | some _ => (c, none)

def onElectLeader (c : Controller Id) (v : Vote Id) :
    Controller Id × Option PyError :=
  match (c.abandonElection v.electionId).joinElection with
  | (c', some err) => (c', some err)
  | (c', none) =>
      match c'.currentElection with
      | none => (c', some .missingElection)
      | some e => ({ c' with currentElection := some (e.tally c'.nodes v) }, none)

def onHeartbeat (c : Controller Id) (clusterName : String) (nodeId : Id) :
    Controller Id :=
  if c.clusterName ≠ clusterName then c
  else { c with heartbeats := c.heartbeats.set nodeId c.currentNodeTime }

def receive (c : Controller Id) : Input Id → Controller Id × Option PyError
  | .tick => c.processNodeTasks
  | .presence clusterName nodeId => (c.addNode clusterName nodeId, none)
  | .message (.electLeader v) => c.onElectLeader v
  | .message (.heartbeat clusterName nodeId) =>
      (c.onHeartbeat clusterName nodeId, none)

/-- A controller by itself: it takes what comes. -/
def step (c : Controller Id) (i : Input Id) : Option (Controller Id) :=
  some (c.receive i).1

end Controller

/-! ## Controllers together -/

/-- The controllers of a cluster. -/
abbrev Cluster (ι Id : Type) := ι → Controller Id

namespace Cluster

/-- A tick of a controller; the arrival, at a controller, of the `k`-th
message another one has published, which may come at any time, again, or
never; a presence announcement. -/
inductive Event (ι Id : Type) where
  | tick (i : ι)
  | deliver (i j : ι) (k : ℕ)
  | presence (i : ι) (clusterName : String) (nodeId : Id)

variable {ι : Type} [DecidableEq ι] [LinearOrder Id]

def step (w : Cluster ι Id) : Event ι Id → Option (Cluster ι Id)
  | .tick i => some (Function.update w i ((w i).receive .tick).1)
  | .presence i clusterName nodeId =>
      some (Function.update w i ((w i).receive (.presence clusterName nodeId)).1)
  | .deliver i j k =>
      match (w j).published[k]? with
      | none => none
      | some m => some (Function.update w i ((w i).receive (.message m)).1)

end Cluster

end Infinisql.Manager
