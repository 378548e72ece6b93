import Infinisql.Ref.Commit

/-!
# Dispatch to the replicas

Before a transaction commits, the other replicas get a copy of what it
changed. `commit` makes the copy, sends it, and sets `waitfordispatched`;
every acknowledgement calls `continueCommitTransaction(1)`, which counts down
and goes on to the engines when it reaches zero. With one replica there is
nobody to tell, and `commit` makes that call itself.

What a replica is, is worked out by `updateReplicas` from the topology. It
fills in `replicaAddress` when there are two replicas and `replicaAddresses`
when there are more.
-/

namespace Infinisql.Ref

/-- `Topology::addressStruct`. -/
structure AddressStruct where
  nodeid : Int
  actorid : Int
  deriving DecidableEq, Repr

/-- What a transaction agent knows of the replicas: how many there are, which
nodes each is made of, and the transaction agents of each node. -/
structure TransactionAgent where
  numreplicas : Int := 1
  replicaMembers : List (List Int) := []
  tas : List (List Int) := []
  nodeid : Int := 0
  tainstance : Nat := 0
  myreplica : Nat := 0
  mymember : Nat := 0
  replicaAddress : AddressStruct := ⟨0, 0⟩
  replicaAddresses : List AddressStruct := []

/-- `MessageDispatch::record_s`. -/
structure DispatchRecord where
  rowid : Int
  primitive : Pendingprimitive
  tableid : Int
  previoussubtransactionid : Int
  row : Bytes
  oldrow : Bytes := []
  deriving DecidableEq

structure MessageDispatch where
  transactionid : Int
  domainid : Int
  pidsids : List (Int × Int)
  records : List (Int × List DispatchRecord)
  deriving DecidableEq

/-- The members of a transaction that the dispatch reads. -/
structure Transaction where
  transactionid : Int
  domainid : Int
  engineToSubTransactionids : List (Int × Int)
  stagedRows : List (UuRecord × StagedRow)

/-- The commit of one transaction: the dispatch messages sent, the counter,
and how often the rest of the commit has been entered. -/
structure Dispatching where
  sent : List (AddressStruct × MessageDispatch)
  waitfordispatched : Int
  entered : Nat := 0

/-! ## The replicas -/

namespace TransactionAgent

/-- The place of the own node among the members, the last one found. The
values from before stay if there is none. -/
def findReplica (agent : TransactionAgent) : Nat × Nat :=
  let places := agent.replicaMembers.zipIdx.flatMap fun (members, n) =>
    members.zipIdx.filterMap fun (nodeid, m) =>
      if nodeid = agent.nodeid then some (n, m) else none
  places.getLastD (agent.myreplica, agent.mymember)

/-- The address of the member in one of several replicas. -/
def memberAddress (agent : TransactionAgent) (mymember n : Nat) :
    Option AddressStruct :=
  match (agent.replicaMembers[n]?).bind (·[mymember]?),
    (agent.tas[n]?).bind (·[agent.tainstance]?) with
  | some nodeid, some actorid => some ⟨nodeid, actorid⟩
  | _, _ => none

/-- `updateReplicas`. A member that is not in its vector is read past the
end, and there is no result. -/
def updateReplicas (agent : TransactionAgent) : Option TransactionAgent :=
  if agent.numreplicas ≤ 1 then some agent
  else
    let (myreplica, mymember) := agent.findReplica
    let agent' := { agent with myreplica := myreplica, mymember := mymember }
    if agent.numreplicas = 2 then
      let otherreplica := if myreplica = 0 then 1 else 0
      match (agent.replicaMembers[otherreplica]?).bind (·[mymember]?) with
      | none => none
      | some othernodeid =>
          if othernodeid = 0 then
            some { agent' with
              replicaAddress := { agent.replicaAddress with nodeid := 0 } }
          else
            match (agent.tas[othernodeid.toNat]?).bind
                (·[agent.tainstance]?) with
            | none => none
            | some actorid =>
                some { agent' with replicaAddress := ⟨othernodeid, actorid⟩ }
    else
      let others := (List.range agent.replicaMembers.length).filter
        (· != myreplica)
      (others.mapM (agent.memberAddress mymember)).map fun ras =>
        { agent' with replicaAddresses := ras }

/-- The replicas there are to tell. -/
def otherReplicas (agent : TransactionAgent) : List AddressStruct :=
  if agent.numreplicas ≤ 1 then []
  else if agent.numreplicas = 2 then [agent.replicaAddress]
  else agent.replicaAddresses

end TransactionAgent

/-! ## The message -/

namespace Transaction

/-- The record of a staged row. One that was only read has none. -/
def dispatchRecord (uur : UuRecord) (srow : StagedRow) :
    Option DispatchRecord :=
  let record := fun rowid row oldrow =>
    some
      { rowid := rowid, primitive := srow.cmd, tableid := uur.tableid
        previoussubtransactionid := srow.previoussubtransactionid
        row := row, oldrow := oldrow }
  match srow.cmd with
  | .nocommand => none
  | .insert => record srow.newrowid srow.newRow []
  | .update => record srow.newrowid srow.newRow srow.originalRow
  | .delete => record srow.originalrowid srow.originalRow []

/-- `records[engineid].push_back(r)`. -/
def pushRecord (engineid : Int) (r : DispatchRecord) :
    List (Int × List DispatchRecord) → List (Int × List DispatchRecord)
  | [] => [(engineid, [r])]
  | (e, rs) :: records =>
      if e = engineid then (e, rs ++ [r]) :: records
      else (e, rs) :: pushRecord engineid r records

/-- The body of the loop over the staged rows. -/
def addRecord (records : List (Int × List DispatchRecord))
    (staged : UuRecord × StagedRow) : List (Int × List DispatchRecord) :=
  match dispatchRecord staged.1 staged.2 with
  | none => records
  | some r => pushRecord staged.1.engineid r records

def dispatchRecords (stagedRows : List (UuRecord × StagedRow)) :
    List (Int × List DispatchRecord) :=
  stagedRows.foldl addRecord []

/-- `makeMessageDispatch`: no message when there is no record. -/
def makeMessageDispatch (t : Transaction) : Option MessageDispatch :=
  let records := dispatchRecords t.stagedRows
  if records = [] then none
  else
    some
      { transactionid := t.transactionid, domainid := t.domainid
        pidsids := t.engineToSubTransactionids, records := records }

/-! ## The counter -/

/-- `continueCommitTransaction(1)`, up to where the commit goes on. -/
def continueCommitTransaction (d : Dispatching) : Dispatching :=
  let waitfordispatched := d.waitfordispatched - 1
  if waitfordispatched ≠ 0 then
    { d with waitfordispatched := waitfordispatched }
  else
    { d with waitfordispatched := waitfordispatched
             entered := d.entered + 1 }

/-- The sends of more than two replicas: the loop starts at the second
address, and the last address gets the original. -/
def sendReplicas (replicaAddresses : List AddressStruct)
    (msg : MessageDispatch) :
    Option (List (AddressStruct × MessageDispatch)) :=
  match replicaAddresses.getLast? with
  | none => none
  | some last =>
      some ((replicaAddresses.drop 1).map (·, msg) ++ [(last, msg)])

/-- `Transaction::commit()`. -/
def commitDispatch (agent : TransactionAgent) (t : Transaction) :
    Option Dispatching :=
  let waitfordispatched := agent.numreplicas - 1
  if agent.numreplicas = 1 then
    some (continueCommitTransaction { sent := [], waitfordispatched := 1 })
  else
    match t.makeMessageDispatch with
    | none => some { sent := [], waitfordispatched := waitfordispatched }
    | some msg =>
        if agent.numreplicas = 2 then
          some { sent := [(agent.replicaAddress, msg)]
                 waitfordispatched := waitfordispatched }
        else
          (sendReplicas agent.replicaAddresses msg).map fun sent =>
            { sent := sent, waitfordispatched := waitfordispatched }

end Transaction

end Infinisql.Ref
