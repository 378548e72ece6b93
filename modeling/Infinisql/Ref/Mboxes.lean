import Infinisql.Ref.Dispatch

/-!
# The routing tables of an actor

`TopologyMgr` keeps the topology of its node from two kinds of messages: one
gives the actors of the node, the other what is known of all nodes. Every
actor copies that topology when it is told to, and `Mboxes::update` brings its
own routing tables in line with the copy. What it has once filled in it leaves
as it is.

Producers are values here, a mailbox with the node it was made for. Sending
through one either links the message into that mailbox or, if the message is
for another node, puts it into the batch for it, which is then meant to be an
`ObGateway`.

A vector that is indexed past its end, and a null producer that is used, give
no result. Left out is what no table depends on: the epoll descriptors, the
mailbox that `updateGlobalConfig` notes beside a partition's address, the
inbound gateways, the lists of the transaction agents and of all replicas,
and the read of a fifth actor in `updateLocalConfig`.
-/

namespace Infinisql.Ref.Node

/-- `actortypes_e`. -/
inductive Actortypes
  | none
  | topologymgr
  | transactionagent
  | engine
  | userschemamgr
  | deadlockmgr
  | obgateway
  | ibgateway
  | listener
  | pghandler
  deriving DecidableEq, Repr

/-- `actor_s`. -/
structure ActorS where
  type : Actortypes
  inst : Int
  mbox : Nat
  deriving DecidableEq, Repr

structure Topology where
  nodeid : Int := 0
  numtransactionagents : Nat := 0
  numengines : Nat := 0
  numobgateways : Nat := 0
  actorList : List ActorS := []
  /-- An `int16_t`. -/
  numpartitions : Int := 0
  userSchemaMgrNode : Int := 0
  deadlockMgrNode : Int := 0
  partitionListThisReplica : List AddressStruct := []
  allActors : Int → List Actortypes := fun _ => []

/-! ## TopologyMgr -/

def countType (actorList : List ActorS) (type : Actortypes) : Nat :=
  actorList.countP fun a => a.type = type

def updateLocalConfig (actorList : List ActorS) (top : Topology) : Topology :=
  { top with
    actorList
    numtransactionagents := countType actorList .transactionagent
    numengines := countType actorList .engine
    numobgateways := countType actorList .obgateway }

/-- A global configuration: the replica, node and actor of each partition,
the members of each replica, and the types of all actors of each node. -/
structure GlobalConfig where
  partitions : List (Nat × AddressStruct)
  usmgrnode : Int
  replicaMembers : List (List Int)
  allActors : List (Int × List Actortypes)

/-- The last replica with the node among its members. -/
def myreplica (replicaMembers : List (List Int)) (nodeid : Int) : Option Nat :=
  (replicaMembers.zipIdx.filter fun r => nodeid ∈ r.1).getLast?.map (·.2)

/-- The node is the one `TopologyMgr` has in its own copy. -/
def updateGlobalConfig (config : GlobalConfig) (nodeid : Int)
    (top : Topology) : Option Topology :=
  if config.allActors = [] ∨
      ∃ p ∈ config.partitions, config.replicaMembers.length ≤ p.1 then none
  else
    let pl (replica : Nat) : List AddressStruct :=
      (config.partitions.filter fun p => p.1 = replica).map (·.2)
    some { top with
      partitionListThisReplica :=
        match myreplica config.replicaMembers nodeid with
        | some replica => pl replica
        | none => []
      numpartitions := Int.bmod (pl 0).length (2 ^ 16)
      userSchemaMgrNode := config.usmgrnode
      allActors := fun node =>
        ((config.allActors.filter fun p => p.1 = node).getLast?.map
          (·.2)).getD [] }

/-! ## Mboxes -/

structure MboxProducer where
  mbox : Nat
  nodeid : Int
  deriving DecidableEq, Repr

/-- Where a message has been put. -/
inductive Sent
  | mbox (mbox : Nat) (destAddr : AddressStruct)
  | obBatch (mbox : Nat) (destAddr : AddressStruct)
  deriving DecidableEq, Repr

def MboxProducer.sendMsg (p : MboxProducer) (destAddr : AddressStruct) :
    Sent :=
  if p.nodeid ≠ destAddr.nodeid then .obBatch p.mbox destAddr
  else .mbox p.mbox destAddr

/-- `location_s`. -/
structure Location where
  address : AddressStruct := ⟨0, 0⟩
  destmbox : Option MboxProducer := none
  deriving DecidableEq, Repr

structure Mboxes where
  nodeid : Int
  actoridToProducers : List (Option MboxProducer) := []
  transactionAgentPtrs : List (Option MboxProducer) := []
  enginePtrs : List (Option MboxProducer) := []
  topologyMgrPtr : Option MboxProducer := none
  listenerPtr : Option MboxProducer := none
  userSchemaMgrLocation : Location := {}
  deadlockMgrLocation : Location := {}
  obGatewayPtr : Option MboxProducer := none
  partitionToProducers : List Location := []
  allActors : Int → List Actortypes := fun _ => []

/-! Vectors -/

def resize {α : Type} (n : Nat) (x : α) (xs : List α) : List α :=
  xs.take n ++ List.replicate (n - xs.length) x

def getAt {α : Type} (xs : List α) (i : Int) : Option α :=
  if 0 ≤ i then xs[i.toNat]? else none

def setAt {α : Type} (xs : List α) (i : Int) (x : α) : Option (List α) :=
  if 0 ≤ i ∧ i.toNat < xs.length then some (xs.set i.toNat x) else none

namespace Mboxes

/-- `myActorid % top.numobgateways`, which is unsigned. -/
def obGatewayInstance (top : Topology) (myActorid : Int) : Int :=
  myActorid % 2 ^ 64 % top.numobgateways

/-- An actor in the list, at `n`. -/
def updateActor (top : Topology) (myActorid : Int) (n : Nat) (a : ActorS)
    (m : Mboxes) : Option Mboxes :=
  match m.actoridToProducers[n]? with
  | none => none
  | some (some _) => some m
  | some none =>
      let producer : Option MboxProducer :=
        if a.type = .none then none else some ⟨a.mbox, top.nodeid⟩
      let m := { m with
        actoridToProducers := m.actoridToProducers.set n producer }
      match a.type with
      | .transactionagent => do
          let ptrs ← setAt m.transactionAgentPtrs a.inst producer
          some { m with transactionAgentPtrs := ptrs }
      | .engine => do
          let ptrs ← setAt m.enginePtrs a.inst producer
          some { m with enginePtrs := ptrs }
      | .topologymgr => some { m with topologyMgrPtr := producer }
      | .listener => some { m with listenerPtr := producer }
      | .userschemamgr =>
          some { m with userSchemaMgrLocation := ⟨⟨top.nodeid, n⟩, producer⟩ }
      | .deadlockmgr =>
          some { m with deadlockMgrLocation := ⟨⟨top.nodeid, n⟩, producer⟩ }
      | .obgateway =>
          if obGatewayInstance top myActorid = a.inst then
            some { m with obGatewayPtr := producer }
          else some m
      | .ibgateway => some m
      | .none => some m
      | .pghandler => some m

def updateActors (top : Topology) (myActorid : Int) :
    Nat → List ActorS → Mboxes → Option Mboxes
  | _, [], m => some m
  | n, a :: as, m => do
      let m ← updateActor top myActorid n a m
      updateActors top myActorid (n + 1) as m

/-- A partition of the own replica. -/
def updatePartition (top : Topology) (n : Nat) (address : AddressStruct)
    (m : Mboxes) : Option Mboxes :=
  match m.partitionToProducers[n]? with
  | none => none
  | some location =>
      if location.address.nodeid ≠ 0 then some m
      else do
        let destmbox ←
          if top.nodeid = address.nodeid then
            getAt m.actoridToProducers address.actorid
          else some m.obGatewayPtr
        some { m with
          partitionToProducers :=
            m.partitionToProducers.set n { address, destmbox } }

def updatePartitions (top : Topology) :
    Nat → List AddressStruct → Mboxes → Option Mboxes
  | _, [], m => some m
  | n, address :: addresses, m => do
      let m ← updatePartition top n address m
      updatePartitions top (n + 1) addresses m

/-- `Mboxes::update`, once the topology has been copied. -/
def update (top : Topology) (myActorid : Int) (m : Mboxes) : Option Mboxes := do
  let m := { m with
    actoridToProducers :=
      resize top.actorList.length none m.actoridToProducers
    transactionAgentPtrs :=
      resize top.numtransactionagents none m.transactionAgentPtrs
    enginePtrs := resize top.numengines none m.enginePtrs }
  let m ← updateActors top myActorid 0 top.actorList m
  if top.numpartitions < 0 then none
  else
    let m := { m with
      partitionToProducers :=
        resize top.numpartitions.toNat {} m.partitionToProducers }
    let m ← updatePartitions top 0 top.partitionListThisReplica m
    let m := { m with allActors := top.allActors }
    let m :=
      if top.userSchemaMgrNode ≠ 0 ∧ top.userSchemaMgrNode ≠ top.nodeid then
        { m with userSchemaMgrLocation :=
          { m.userSchemaMgrLocation with
            address := ⟨top.userSchemaMgrNode, 3⟩ } }
      else m
    some (if top.deadlockMgrNode ≠ 0 ∧ top.deadlockMgrNode ≠ top.nodeid then
      { m with deadlockMgrLocation :=
        { m.deadlockMgrLocation with address := ⟨top.deadlockMgrNode, 2⟩ } }
    else m)

/-! Sending -/

def toActor (m : Mboxes) (dest : AddressStruct) : Option Sent :=
  if m.nodeid = dest.nodeid then do
    let p ← getAt m.actoridToProducers dest.actorid
    p.map (·.sendMsg dest)
  else m.obGatewayPtr.map (·.sendMsg dest)

def toUserSchemaMgr (m : Mboxes) : Option Sent :=
  m.toActor m.userSchemaMgrLocation.address

/-- A partition beyond the vector is an anomaly, and nothing is sent. For an
empty vector the bound of the check wraps around. -/
def toPartition (m : Mboxes) (partitionid : Int) : Option (Option Sent) :=
  if partitionid < 0 ∨ (m.partitionToProducers ≠ [] ∧
      (m.partitionToProducers.length : Int) - 1 < partitionid) then some none
  else do
    let location ← getAt m.partitionToProducers partitionid
    let p ← location.destmbox
    some (some (p.sendMsg location.address))

end Mboxes

/-! ## A node and one of its actors -/

/-- `nodeTopology`, the node id in `TopologyMgr`'s own copy of it, and the
copy and the tables of the actor. -/
structure State where
  nodeTopology : Topology
  mgrNodeid : Int := 0
  myTopology : Topology := {}
  mboxes : Mboxes

/-- `TopologyMgr` gets a configuration, or the actor updates. -/
inductive Action
  | localConfig (actorList : List ActorS)
  | globalConfig (config : GlobalConfig)
  | update (myActorid : Int)

def step (s : State) : Action → Option State
  | .localConfig actorList =>
      let top := updateLocalConfig actorList s.nodeTopology
      some { s with nodeTopology := top, mgrNodeid := top.nodeid }
  | .globalConfig config => do
      let top ← updateGlobalConfig config s.mgrNodeid s.nodeTopology
      some { s with nodeTopology := top, mgrNodeid := top.nodeid }
  | .update myActorid => do
      let m ← s.mboxes.update s.nodeTopology myActorid
      some { s with myTopology := s.nodeTopology, mboxes := m }

/-- A node that has just been started. -/
def State.init (nodeid : Int) : State where
  nodeTopology := { nodeid }
  mboxes := { nodeid }

end Infinisql.Ref.Node
