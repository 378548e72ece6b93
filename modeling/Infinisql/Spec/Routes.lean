import Infinisql.Ref.Mboxes

/-!
# What the tables owe the topology

Whatever topologies an actor has been through, its tables are to route by the
last one: a message for an actor of the node goes into that actor's mailbox,
one for another node to the outbound gateway the actor uses, which is one of
its node; a partition is where the topology has it, and so is the
`UserSchemaMgr`.

`update` fills in what it has not filled in before. So the tables are right
as long as what they hold is still what the topology says, and what they
would have to hold can be filled in at the moment it is first seen.
-/

namespace Infinisql.Spec.Node

open Infinisql.Ref (AddressStruct)
open Infinisql.Ref.Node

def actorAt (top : Topology) (actorid : Int) : Option ActorS :=
  (getAt top.actorList actorid).filter (·.type ≠ .none)

/-- The mailbox of an outbound gateway of the node. -/
def IsObGateway (top : Topology) (mbox : Nat) : Prop :=
  ∃ a ∈ top.actorList, a.type = .obgateway ∧ a.mbox = mbox

/-- The message is in the batch for the actor's gateway. -/
def ViaGateway (top : Topology) (m : Mboxes) (dest : AddressStruct)
    (sent : Sent) : Prop :=
  ∃ g, m.obGatewayPtr = some g ∧ IsObGateway top g.mbox ∧
    sent = .obBatch g.mbox dest

/-- The message for an actor is where it belongs. -/
def Reaches (top : Topology) (m : Mboxes) (dest : AddressStruct)
    (sent : Sent) : Prop :=
  if dest.nodeid = top.nodeid then
    ∃ a, actorAt top dest.actorid = some a ∧ sent = .mbox a.mbox dest
  else ViaGateway top m dest sent

structure Routes (top : Topology) (m : Mboxes) : Prop where
  actors : ∀ n a, actorAt top n = some a →
    m.toActor ⟨top.nodeid, n⟩ = some (.mbox a.mbox ⟨top.nodeid, n⟩)
  remote : ∀ node (k : Nat) type, node ≠ top.nodeid →
    (top.allActors node)[k]? = some type → type ≠ .none →
    ∃ sent, m.toActor ⟨node, k⟩ = some sent ∧ ViaGateway top m ⟨node, k⟩ sent
  partitions : ∀ p : Nat, (p : Int) < top.numpartitions →
    ∃ address sent, top.partitionListThisReplica[p]? = some address ∧
      m.toPartition p = some (some sent) ∧ Reaches top m address sent
  usmHere : top.userSchemaMgrNode = top.nodeid → top.userSchemaMgrNode ≠ 0 →
    ∃ n a, actorAt top n = some a ∧ a.type = .userschemamgr ∧
      m.toUserSchemaMgr = some (.mbox a.mbox ⟨top.nodeid, n⟩)
  usmElsewhere : top.userSchemaMgrNode ≠ top.nodeid →
    top.userSchemaMgrNode ≠ 0 →
    ∃ sent, m.toUserSchemaMgr = some sent ∧
      ViaGateway top m ⟨top.userSchemaMgrNode, 3⟩ sent

def RoutesByTopology (s : State) : Prop := Routes s.myTopology s.mboxes

/-! ## When an update can follow -/

/-- What the actor already has for an actor id, a partition. -/
def producerAt (m : Mboxes) (n : Nat) : Option MboxProducer :=
  (m.actoridToProducers[n]?).join

def locationAt (m : Mboxes) (p : Nat) : Location :=
  (m.partitionToProducers[p]?).getD {}

/-- The last new actor from `n` on that satisfies a predicate. -/
def lastNew (m : Mboxes) (pred : ActorS → Bool) :
    Nat → List ActorS → Option (Nat × ActorS)
  | _, [] => none
  | n, a :: as =>
      (lastNew m pred (n + 1) as).or
        (if producerAt m n = none ∧ pred a then some (n, a) else none)

/-- The gateway the actor will turn to from now on. -/
def newGateway (top : Topology) (myActorid : Int) (m : Mboxes) :
    Option (Nat × ActorS) :=
  lastNew m (fun a => a.type = .obgateway ∧
    Mboxes.obGatewayInstance top myActorid = a.inst) 0 top.actorList

def newUserSchemaMgr (top : Topology) (m : Mboxes) : Option (Nat × ActorS) :=
  lastNew m (fun a => a.type = .userschemamgr) 0 top.actorList

/-- There is an actor or a partition on another node. -/
def HasRemote (top : Topology) : Prop :=
  (∃ node, ∃ k : Nat, ∃ type, node ≠ top.nodeid ∧
    (top.allActors node)[k]? = some type ∧ type ≠ Actortypes.none) ∨
  (∃ address ∈ top.partitionListThisReplica, address.nodeid ≠ top.nodeid) ∨
  (top.userSchemaMgrNode ≠ top.nodeid ∧ top.userSchemaMgrNode ≠ 0)

/-- A partition is where it was, at an engine with the mailbox it had, and
the gateway to it is the one there was. -/
def StaysPut (prev top : Topology) (myActorid : Int) (m : Mboxes)
    (old address : AddressStruct) : Prop :=
  address = old ∧
    if address.nodeid = top.nodeid then
      ∃ a a', actorAt prev address.actorid = some a ∧
        actorAt top address.actorid = some a' ∧ a'.mbox = a.mbox
    else
      ∀ g n a, m.obGatewayPtr = some g →
        newGateway top myActorid m = some (n, a) → a.mbox = g.mbox

/-- Agents and engines number their instances from zero. -/
def CountsFromZero (top : Topology) (a : ActorS) : Prop :=
  (a.type = .transactionagent →
    0 ≤ a.inst ∧ a.inst.toNat < top.numtransactionagents) ∧
  (a.type = .engine → 0 ≤ a.inst ∧ a.inst.toNat < top.numengines)

/-- The topology follows on the previous one. -/
structure Follows (prev top : Topology) (myActorid : Int) (m : Mboxes) :
    Prop where
  instances : ∀ (n : Nat) a, top.actorList[n]? = some a →
    producerAt m n = none → CountsFromZero top a
  /-- An actor id keeps its mailbox. -/
  mailboxes : ∀ (n : Nat) a p, actorAt top n = some a →
    producerAt m n = some p → a.mbox = p.mbox
  /-- A gateway has appeared before anything it is needed for. -/
  gateway : HasRemote top → newGateway top myActorid m ≠ none ∨
    ∃ g, m.obGatewayPtr = some g ∧ IsObGateway top g.mbox
  /-- The replica has all partitions. -/
  partitionCount :
    (top.partitionListThisReplica.length : Int) = top.numpartitions
  /-- A known partition stays put; the engine of a new one is known. -/
  partitions : ∀ p address,
    top.partitionListThisReplica[p]? = some address →
    if (locationAt m p).address.nodeid ≠ 0 then
      StaysPut prev top myActorid m (locationAt m p).address address
    else address.nodeid = top.nodeid →
      (actorAt top address.actorid).isSome
  /-- The `UserSchemaMgr` of the node has not been elsewhere. -/
  userSchemaMgr : top.userSchemaMgrNode = top.nodeid →
    top.userSchemaMgrNode ≠ 0 → newUserSchemaMgr top m ≠ none ∨
      ∃ n a, m.userSchemaMgrLocation.address = ⟨top.nodeid, n⟩ ∧
        actorAt top n = some a ∧ a.type = .userschemamgr

/-- A global configuration is about replicas there are. -/
def Follow (s : State) : Action → Prop
  | .localConfig _ => True
  | .globalConfig config => config.allActors ≠ [] ∧
      ∀ p ∈ config.partitions, p.1 < config.replicaMembers.length
  | .update myActorid =>
      Follows s.myTopology s.nodeTopology myActorid s.mboxes

end Infinisql.Spec.Node
