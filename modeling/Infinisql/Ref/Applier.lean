import Infinisql.Ref.Apply
import Infinisql.Ref.Routing

/-!
# A replica's share of a commit

A transaction agent of a replica gets a `MessageDispatch` and turns it into
one `MessageApply` for each partition that has records. The records go into
it as they came. What they do to indexes is worked out from their row strings
once more, apart from the commit on the other replica. The engines acknowledge
what they have applied, and an `Applier` counts.

`handledispatch` makes a partition's message when the loop gets to the
partition's records, and pushes index items through the pointer it has for
their partition. Where there is no message yet that pointer is null, and there
is no result. There is none either for `unmakerow` of an empty string, which
for a table with a field reads beyond it.

The map of the records is walked in the order of its list. What `toPartition`
and `toActor` put into the envelope is part of the messages, and every
acknowledgement has the status `STATUS_OK`.
-/

namespace Infinisql.Ref

/-- `MessageAckDispatch`, with the address it is sent to. -/
structure MessageAckDispatch where
  destAddr : AddressStruct
  transactionid : Int
  deriving DecidableEq, Repr

/-- `class Applier`; `applierid` is its key. -/
structure Applier where
  domainid : Int
  sourceAddr : AddressStruct
  partitioncount : Int
  deriving DecidableEq, Repr

/-- The part of `class TransactionAgent` that applies what others commit. -/
structure ReplicaAgent where
  address : AddressStruct
  nextapplierid : Int := 0
  appliers : List (Int × Applier) := []
  deriving DecidableEq

/-- The messages for the partitions, as far as they have been made. -/
abbrev ApplyMsgs := List (Int × MessageApply)

/-- What `handledispatch` leaves and sends. -/
structure Handled where
  agent : ReplicaAgent
  ack : MessageAckDispatch
  msgs : ApplyMsgs
  deriving DecidableEq

namespace ReplicaAgent

/-! ## The index items of a record -/

/-- `aredifferent`: the member that the type names, and nothing else. -/
def aredifferent (f : Field) (new old : FieldValue) : Bool :=
  match f.type with
  | .int => new.value.integer != old.value.integer
  | .uint => new.value.uinteger != old.value.uinteger
  | .bool => new.value.boolean != old.value.boolean
  | .float => new.value.floating != old.value.floating
  | .char => new.value.character != old.value.character
  | .charx | .varchar => new.str != old.str
  | .nofieldtype => false

/-- `unmakerow` of a row string of a message. -/
def unmakerow (fields : List Field) (row : Bytes) : Option (List FieldValue) :=
  if row = [] ∧ fields ≠ [] then none else some (Ref.unmakerow fields row)

/-- An index item, and the partition it is for, which its entry names too. -/
def indexinfo (top : Topology) (r : DispatchRecord) (n : Nat) (f : Field)
    (isadd : Bool) (v : FieldValue) : Int × ApplyIndex :=
  let engineid := getPartitionid top f v
  (engineid,
    { fieldVal := v, rowid := r.rowid, engineid := engineid, isadd := isadd
      tableid := r.tableid, fieldid := n })

/-- The loop over the fields, without those that have no index. -/
def forIndices {α : Type} (fields : List Field)
    (items : Nat → Field → List α) : List α :=
  (List.range fields.length).flatMap fun n =>
    match fields[n]? with
    | none => []
    | some f => if f.indextype = .none then [] else items n f

/-- The `switch` over the record's primitive. -/
def recordIndices (top : Topology) (fields : List Field)
    (r : DispatchRecord) : Option (List (Int × ApplyIndex)) :=
  match r.primitive with
  | .insert =>
      (unmakerow fields r.row).map fun vals =>
        forIndices fields fun n f =>
          [indexinfo top r n f true (vals.getD n {})]
  | .update =>
      (unmakerow fields r.row).bind fun newfields =>
        (unmakerow fields r.oldrow).map fun oldfields =>
          forIndices fields fun n f =>
            let new := newfields.getD n {}
            let old := oldfields.getD n {}
            if aredifferent f new old then
              [indexinfo top r n f false old, indexinfo top r n f true new]
            else []
  | .delete =>
      (unmakerow fields r.oldrow).map fun vals =>
        forIndices fields fun n f =>
          [indexinfo top r n f false (vals.getD n {})]
  | .nocommand => some []

/-! ## The messages -/

/-- `msgs[engineid]->indices.push_back(indexinfo)`. -/
def pushIndex (item : Int × ApplyIndex) (msgs : ApplyMsgs) :
    Option ApplyMsgs :=
  if msgs.any (·.1 = item.1) then
    some (msgs.map fun (p, m) =>
      if p = item.1 then (p, { m with indices := m.indices ++ [item.2] })
      else (p, m))
  else none

def pushIndices : List (Int × ApplyIndex) → ApplyMsgs → Option ApplyMsgs
  | [], msgs => some msgs
  | item :: items, msgs => (pushIndex item msgs).bind (pushIndices items)

/-- The loop over the records of a partition. -/
def pushRecords (top : Topology) (schema : Int → List Field) :
    List DispatchRecord → ApplyMsgs → Option ApplyMsgs
  | [], msgs => some msgs
  | r :: records, msgs =>
      (recordIndices top (schema r.tableid) r).bind fun items =>
        (pushIndices items msgs).bind (pushRecords top schema records)

/-- The message of a partition, made if it is not there, with its rows. -/
def setRows (new : Int → MessageApply) (p : Int)
    (records : List DispatchRecord) (msgs : ApplyMsgs) : ApplyMsgs :=
  if msgs.any (·.1 = p) then
    msgs.map fun (q, m) =>
      if q = p then (q, { m with rows := records }) else (q, m)
  else msgs ++ [(p, { new p with rows := records })]

/-- The loop over the partitions. -/
def makeMsgs (top : Topology) (schema : Int → List Field)
    (new : Int → MessageApply) :
    List (Int × List DispatchRecord) → ApplyMsgs → Option ApplyMsgs
  | [], msgs => some msgs
  | (p, records) :: rest, msgs =>
      (pushRecords top schema records (setRows new p records msgs)).bind
        (makeMsgs top schema new rest)

/-- `handledispatch`. The applier's `partitioncount` is that of the moment it
is made. -/
def handledispatch (top : Topology) (schemata : Int → Int → List Field)
    (agent : ReplicaAgent) (sourceAddr : AddressStruct)
    (msg : MessageDispatch) : Option Handled :=
  let partitioncount := 0
  let applierid := agent.nextapplierid + 1
  let new := fun p : Int =>
    { sourceAddr := agent.address
      subtransactionid := (msg.pidsids.lookup p).getD 0
      applierid := applierid, rows := [] : MessageApply }
  (makeMsgs top (schemata msg.domainid) new msg.records []).map fun msgs =>
    { agent := { agent with
        nextapplierid := applierid
        appliers := agent.appliers ++
          [(applierid, ⟨msg.domainid, sourceAddr, partitioncount⟩)] }
      ack := ⟨sourceAddr, msg.transactionid⟩
      msgs := msgs }

/-! ## The acknowledgements -/

/-- `ackedApply`, for a status of `STATUS_OK`: none if the applier deletes
itself. -/
def ackedApply (a : Applier) : Option Applier :=
  let partitioncount := a.partitioncount - 1
  if partitioncount = 0 then none
  else some { a with partitioncount := partitioncount }

/-- `TOPIC_ACKAPPLY`. -/
def ackapply (agent : ReplicaAgent) (msg : MessageAckApply) : ReplicaAgent :=
  { agent with
    appliers := agent.appliers.filterMap fun (id, a) =>
      if id = msg.applierid then (ackedApply a).map (id, ·)
      else some (id, a) }

end ReplicaAgent

/-! ## A replica -/

/-- The agents and engines of a replica, with the messages between them. The
last three members are histories. -/
structure Replication where
  agents : AddressStruct → ReplicaAgent
  engines : Int → ReplicaEngine
  applies : ApplyMsgs := []
  acks : List MessageAckApply := []
  sent : ApplyMsgs := []
  received : ApplyMsgs := []
  acked : List MessageAckApply := []

/-- What may happen next: an agent gets a dispatch, or one of the messages
under way arrives. -/
inductive ReplicaAction
  | dispatch (destAddr sourceAddr : AddressStruct) (msg : MessageDispatch)
  | apply (n : Nat)
  | ackapply (n : Nat)

namespace Replication

def new (schema : Int → List Field) : Replication :=
  { agents := fun address => { address := address }
    engines := fun _ => .new schema }

/-- The acknowledgements that an engine has sent since. -/
def newAcks (e e' : ReplicaEngine) : List MessageAckApply :=
  e'.acks.drop e.acks.length

def step (top : Topology) (schemata : Int → Int → List Field)
    (s : Replication) : ReplicaAction → Option Replication
  | .dispatch destAddr sourceAddr msg =>
      ((s.agents destAddr).handledispatch top schemata sourceAddr msg).map
        fun h =>
          { s with
            agents := Function.update s.agents destAddr h.agent
            applies := s.applies ++ h.msgs
            sent := s.sent ++ h.msgs }
  | .apply n =>
      s.applies[n]?.bind fun (p, msg) =>
        ((s.engines p).apply msg).map fun e =>
          { s with
            engines := Function.update s.engines p e
            applies := s.applies.eraseIdx n
            acks := s.acks ++ newAcks (s.engines p) e
            received := s.received ++ [(p, msg)] }
  | .ackapply n =>
      s.acks[n]?.map fun msg =>
        { s with
          agents := Function.update s.agents msg.destAddr
            ((s.agents msg.destAddr).ackapply msg)
          acks := s.acks.eraseIdx n
          acked := s.acked ++ [msg] }

end Replication

end Infinisql.Ref
