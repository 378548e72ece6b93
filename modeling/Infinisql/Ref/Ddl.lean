import Mathlib.Logic.Function.Basic
import Infinisql.Lib.Channels
import Infinisql.Ref.Index

/-!
# Tables and columns across the nodes

The builtins `createtable` and `addcolumn`: `UserSchemaMgr` decides about a
request and gives the new table or column its number, the transaction agent
the request came in at relays the reply to every transaction agent and every
engine, and tells every transaction agent the new name. Messages between two
actors arrive in the order they were sent, and in no other order.

A request has its arguments after `msgpack2Vector` and `lexical_cast`. A new
message is allocated without being cleared, so the members nobody sets hold
anything: that is the argument `uninit` of whatever makes one. Its string is
empty. `argsize` is 0 in the one reply whose string the relay hands on, and
is left out.

`domainidsToSchemata` and `tables` are read with `operator[]`, which makes up
a null pointer for what is not there. Going through it has no result. The
index a field comes with, and `rowsize`, are not part of this file.
-/

namespace Infinisql.Ref.Ddl

open Infinisql.Lib

/-! ## The schema -/

/-- `class Field`. -/
structure Column where
  type : Fieldtype
  length : Int
  indextype : Indextype
  name : String
  deriving DecidableEq, Repr

structure Table where
  fields : List Column := []
  columnaNameToFieldMap : String → Option Int := fun _ => none

/-- `addfield`, which returns the number of the field. -/
def Table.addfield (t : Table) (type : Fieldtype) (length : Int)
    (name : String) (indextype : Indextype) : Int × Table :=
  let fields := t.fields ++ [⟨type, length, indextype, name⟩]
  let fieldid : Int := fields.length - 1
  (fieldid, {
    fields
    columnaNameToFieldMap :=
      Function.update t.columnaNameToFieldMap name (some fieldid) })

structure Schema where
  nexttableid : Int := 0
  tables : Int → Option Table := fun _ => none
  tableNameToId : String → Option Int := fun _ => none
  fieldNameToId : Int → String → Option Int := fun _ _ => none

namespace Schema

def getnexttableid (schema : Schema) : Int × Schema :=
  let tid := schema.nexttableid + 1
  (tid, { schema with nexttableid := tid })

def createTable (schema : Schema) (id : Int) : Status × Schema :=
  match schema.tables id with
  | some _ => (.notOk, schema)
  | none =>
      (.ok, { schema with
        tables := Function.update schema.tables id (some {}) })

def setTable (schema : Schema) (tid : Int) (t : Table) : Schema :=
  { schema with tables := Function.update schema.tables tid (some t) }

def setTableName (schema : Schema) (name : String) (tid : Int) : Schema :=
  { schema with
    tableNameToId := Function.update schema.tableNameToId name (some tid) }

/-- `fieldNameToId[tid][name] = fieldid`. -/
def setFieldName (schema : Schema) (tid : Int) (name : String)
    (fieldid : Int) : Schema :=
  { schema with
    fieldNameToId := fun tid' name' =>
      if tid' = tid ∧ name' = name then some fieldid
      else schema.fieldNameToId tid' name' }

end Schema

abbrev DomainidToSchemaMap := Int → Option Schema

/-! ## The messages -/

inductive Actor
  | userSchemaMgr
  | transactionAgent (n : Nat)
  | engine (n : Nat)
  deriving DecidableEq, Repr

/-- The builtins that change a schema and are more than stubs. -/
inductive Builtincmd
  | createtable
  | addcolumn
  deriving DecidableEq, Repr

/-- The arguments of a builtin. -/
inductive Request
  | createtable (name : String)
  | addcolumn (tid : Int) (stringtype : String) (len : Int) (name : String)
      (stringidxtype : String)
  deriving DecidableEq, Repr

def Request.builtincmd : Request → Builtincmd
  | createtable .. => .createtable
  | addcolumn .. => .addcolumn

/-- `userschemaStruct`, with the string that goes with it. -/
structure UserSchema where
  operationid : Int
  domainid : Int
  status : Status
  tableid : Int
  fieldid : Int
  fieldtype : Fieldtype
  fieldlen : Int
  indextype : Indextype
  argstring : String
  deriving DecidableEq, Repr

/-- By topic. `TOPIC_SCHEMAREQUEST` is two messages: one carries a request to
`UserSchemaMgr`, the other what has become of it to the rest. -/
inductive Message
  | request (operationid domainid : Int) (req : Request)
  | relay (builtincmd : Builtincmd) (m : UserSchema)
  | schemareply (m : UserSchema)
  | tablename (m : UserSchema)
  | fieldname (m : UserSchema)
  deriving DecidableEq, Repr

/-- `new class MessageUserSchema`. -/
def newMessage (uninit : UserSchema) : UserSchema :=
  { uninit with argstring := "" }

/-- `usmReply`, as far as a reply is read. -/
def usmReply (operationid : Int) (status : Status) (msg : UserSchema) :
    Message :=
  .schemareply { msg with operationid, status }

/-! ## UserSchemaMgr -/

def fieldTypeMap (stringtype : String) : Option Fieldtype :=
  match stringtype with
  | "int" => some .int
  | "uint" => some .uint
  | "bool" => some .bool
  | "float" => some .float
  | "char" => some .char
  | "charx" => some .charx
  | "varchar" => some .varchar
  | _ => none

def indexTypeMap (stringidxtype : String) : Option Indextype :=
  match stringidxtype with
  | "none" => some .none
  | "unique" => some .unique
  | "nonunique" => some .nonunique
  | "unordered" => some .unordered
  | "uniquenotnull" => some .uniquenotnull
  | "nonuniquenotnull" => some .nonuniquenotnull
  | "unorderednotnull" => some .unorderednotnull
  | _ => none

namespace UserSchemaMgr

/-- The status, the reply's own members, and what becomes of the schemata. -/
def createtable (schemata : DomainidToSchemaMap) (domainid : Int)
    (name : String) (msg : UserSchema) :
    Status × UserSchema × DomainidToSchemaMap :=
  match schemata domainid with
  | none => (.notOk, msg, schemata)
  | some schema =>
      if (schema.tableNameToId name).isSome then (.notOk, msg, schemata)
      else
        let (tid, schema) := schema.getnexttableid
        match schema.createTable tid with
        | (.ok, schema) =>
            (.ok, { msg with tableid := tid, argstring := name },
              Function.update schemata domainid
                (some (schema.setTableName name tid)))
        | (.notOk, schema) =>
            (.notOk, msg, Function.update schemata domainid (some schema))

def addcolumn (schemata : DomainidToSchemaMap) (domainid tid : Int)
    (stringtype : String) (len : Int) (name stringidxtype : String)
    (msg : UserSchema) : Status × UserSchema × DomainidToSchemaMap :=
  match fieldTypeMap stringtype with
  | none => (.notOk, msg, schemata)
  | some type =>
    let len := if type = .charx then len else 0
    match indexTypeMap stringidxtype with
    | none => (.notOk, msg, schemata)
    | some idxtype =>
      match schemata domainid with
      | none => (.notOk, msg, schemata)
      | some schema =>
        match schema.tables tid with
        | none => (.notOk, msg, schemata)
        | some table =>
          if (table.columnaNameToFieldMap name).isSome then
            (.notOk, msg, schemata)
          else
            let (fieldid, table) := table.addfield type len name idxtype
            (.ok,
              { msg with
                fieldid, tableid := tid, fieldlen := len, fieldtype := type
                indextype := idxtype, argstring := name },
              Function.update schemata domainid
                (some ((schema.setTable tid table).setFieldName tid name
                  fieldid)))

/-- `usmReply` puts the domain of the request into every reply. -/
def handle (schemata : DomainidToSchemaMap) (domainid : Int) (req : Request)
    (uninit : UserSchema) : Status × UserSchema × DomainidToSchemaMap :=
  let msg := { newMessage uninit with domainid }
  match req with
  | .createtable name => createtable schemata domainid name msg
  | .addcolumn tid stringtype len name stringidxtype =>
      addcolumn schemata domainid tid stringtype len name stringidxtype msg

end UserSchemaMgr

/-! ## The other schemata -/

/-- `TAcreatetable`, and `Engine::createtable`. -/
def createtable (schemata : DomainidToSchemaMap) (m uninit : UserSchema) :
    Option (DomainidToSchemaMap × Message) := do
  let schema ← schemata m.domainid
  let (status, schema) := schema.createTable m.tableid
  let msg := { newMessage uninit with tableid := m.tableid }
  some (Function.update schemata m.domainid (some schema),
    usmReply m.operationid status msg)

/-- `TAaddcolumn`, and `Engine::addcolumn`, which has no use for the name. -/
def addcolumn (schemata : DomainidToSchemaMap) (name : String)
    (m uninit : UserSchema) : Option (DomainidToSchemaMap × Message) := do
  let schema ← schemata m.domainid
  let table ← schema.tables m.tableid
  let (fieldid, table) :=
    table.addfield m.fieldtype m.fieldlen name m.indextype
  let msg := { newMessage uninit with fieldid }
  some (Function.update schemata m.domainid
      (some (schema.setTable m.tableid table)),
    usmReply m.operationid .ok msg)

/-- `TOPIC_TABLENAME`. -/
def tablename (schemata : DomainidToSchemaMap) (m : UserSchema) :
    Option DomainidToSchemaMap := do
  let schema ← schemata m.domainid
  some (Function.update schemata m.domainid
    (some (schema.setTableName m.argstring m.tableid)))

/-- `TOPIC_FIELDNAME`. -/
def fieldname (schemata : DomainidToSchemaMap) (m : UserSchema) :
    Option DomainidToSchemaMap := do
  let schema ← schemata m.domainid
  some (Function.update schemata m.domainid
    (some (schema.setFieldName m.tableid m.argstring m.fieldid)))

/-! ## The actors together -/

inductive OperationState
  | usm
  | tasengines
  deriving DecidableEq, Repr

/-- `class Operation` with its `schemaData`. -/
structure Operation where
  domainid : Int
  builtincmd : Builtincmd
  state : OperationState
  msgwaits : Int
  deriving DecidableEq, Repr

structure Topology where
  numtransactionagents : Nat
  numengines : Nat

namespace Topology

def isTransactionAgent (top : Topology) : Actor → Bool
  | .transactionAgent n => n < top.numtransactionagents
  | _ => false

def isEngine (top : Topology) : Actor → Bool
  | .engine n => n < top.numengines
  | _ => false

end Topology

/-- All actors. `responses` is what each agent has answered to its clients:
whether the request succeeded, and the number it was given. -/
structure State where
  schemata : Actor → DomainidToSchemaMap
  operationidcounter : Nat → Int := fun _ => 0
  pendingOperations : Nat → Int → Option Operation := fun _ _ => none
  chan : Channels Actor Message := fun _ _ => []
  responses : Nat → List (Status × List Int) := fun _ => []

namespace State

def setSchemata (s : State) (a : Actor) (schemata : DomainidToSchemaMap) :
    State :=
  { s with schemata := Function.update s.schemata a schemata }

def setOperation (s : State) (n : Nat) (operationid : Int)
    (o : Option Operation) : State :=
  { s with
    pendingOperations := fun n' operationid' =>
      if n' = n ∧ operationid' = operationid then o
      else s.pendingOperations n' operationid' }

def send (s : State) (a : Actor) (dest : Actor → Bool) (m : Message) :
    State :=
  { s with chan := s.chan.send a dest m }

def sendResponse (s : State) (n : Nat) (status : Status) (res : List Int) :
    State :=
  { s with
    responses := Function.update s.responses n
      (s.responses n ++ [(status, res)]) }

/-- `endOperation`. -/
def endOperation (s : State) (n : Nat) (operationid : Int) : State :=
  s.setOperation n operationid none

variable (top : Topology)

/-- `schemaBoilerplate`, `STARTCMD`, at agent `n`. -/
def startcmd (n : Nat) (domainid : Int) (req : Request) (s : State) : State :=
  let operationid := s.operationidcounter n + 1
  let o := {
    domainid
    builtincmd := req.builtincmd
    state := .usm
    msgwaits := top.numtransactionagents + top.numengines }
  let s := { s with
    operationidcounter :=
      Function.update s.operationidcounter n operationid }
  (s.setOperation n operationid (some o)).send (.transactionAgent n)
    (· = .userSchemaMgr) (.request operationid domainid req)

/-- `schemaBoilerplate`, `USMRESPONSECMD`. -/
def relayReply (n : Nat) (o : Operation) (m uninit : UserSchema) (s : State) :
    State :=
  match m.status with
  | .notOk =>
      (s.sendResponse n .notOk []).endOperation n m.operationid
  | .ok =>
      let msg := { newMessage uninit with
        operationid := m.operationid, domainid := o.domainid
        tableid := m.tableid, fieldid := m.fieldid, fieldtype := m.fieldtype
        fieldlen := m.fieldlen, indextype := m.indextype
        argstring := m.argstring }
      let s := s.send (.transactionAgent n) top.isTransactionAgent
        (.relay o.builtincmd msg)
      let s := s.send (.transactionAgent n) top.isEngine
        (.relay o.builtincmd msg)
      s.setOperation n m.operationid (some { o with
        state := .tasengines
        msgwaits := top.numtransactionagents + top.numengines })

/-- `createtable` and `addcolumn`, `USMRESPONSECMD`. That the request was
refused does not keep them from sending the name. -/
def usmresponsecmd (n : Nat) (o : Operation) (m uninit : UserSchema)
    (s : State) : State :=
  let s := s.relayReply top n o m uninit
  let msg := newMessage uninit
  match o.builtincmd with
  | .createtable =>
      s.send (.transactionAgent n) top.isTransactionAgent
        (.tablename { msg with
          domainid := m.domainid, tableid := m.tableid
          argstring := m.argstring })
  | .addcolumn =>
      s.send (.transactionAgent n) top.isTransactionAgent
        (.fieldname { msg with
          domainid := m.domainid, tableid := m.tableid
          fieldid := m.fieldid, argstring := m.argstring })

/-- `createtable` and `addcolumn`, `TASENGINESRESPONSECMD`. -/
def tasenginesresponsecmd (n : Nat) (o : Operation) (m : UserSchema)
    (s : State) : State :=
  match m.status with
  | .notOk =>
      (s.sendResponse n .notOk []).endOperation n m.operationid
  | .ok =>
      if o.msgwaits - 1 ≠ 0 then
        s.setOperation n m.operationid
          (some { o with msgwaits := o.msgwaits - 1 })
      else
        let res := match o.builtincmd with
          | .createtable => [m.tableid]
          | .addcolumn => [m.fieldid]
        (s.sendResponse n .ok res).endOperation n m.operationid

/-- `TOPIC_SCHEMAREPLY`. A reply to an operation that has ended is only
logged. -/
def schemareply (n : Nat) (m uninit : UserSchema) (s : State) : State :=
  match s.pendingOperations n m.operationid with
  | none => s
  | some o =>
      match o.state with
      | .usm => s.usmresponsecmd top n o m uninit
      | .tasengines => s.tasenginesresponsecmd n o m

/-- What `rcv` makes of a message from `snd`. Topics it does not know are
only logged. -/
def receive (snd rcv : Actor) (msg : Message) (uninit : UserSchema)
    (s : State) : Option State :=
  match rcv, msg with
  | .userSchemaMgr, .request operationid domainid req =>
      let (status, m, schemata) :=
        UserSchemaMgr.handle (s.schemata rcv) domainid req uninit
      some ((s.setSchemata rcv schemata).send rcv (· = snd)
        (usmReply operationid status m))
  | .transactionAgent n, .schemareply m =>
      some (s.schemareply top n m uninit)
  | .transactionAgent _, .relay .createtable m => do
      let (schemata, reply) ← createtable (s.schemata rcv) m uninit
      some ((s.setSchemata rcv schemata).send rcv (· = snd) reply)
  | .engine _, .relay .createtable m => do
      let (schemata, reply) ← createtable (s.schemata rcv) m uninit
      some ((s.setSchemata rcv schemata).send rcv (· = snd) reply)
  | .transactionAgent _, .relay .addcolumn m => do
      let (schemata, reply) ←
        addcolumn (s.schemata rcv) m.argstring m uninit
      some ((s.setSchemata rcv schemata).send rcv (· = snd) reply)
  | .engine _, .relay .addcolumn m => do
      let (schemata, reply) ← addcolumn (s.schemata rcv) "" m uninit
      some ((s.setSchemata rcv schemata).send rcv (· = snd) reply)
  | .transactionAgent _, .tablename m => do
      some (s.setSchemata rcv (← tablename (s.schemata rcv) m))
  | .transactionAgent _, .fieldname m => do
      some (s.setSchemata rcv (← fieldname (s.schemata rcv) m))
  | _, _ => some s

/-- `rcv` takes the next message from `snd`. -/
def deliver (snd rcv : Actor) (uninit : UserSchema) (s : State) :
    Option State :=
  match s.chan snd rcv with
  | [] => some s
  | msg :: _ =>
      receive top snd rcv msg uninit { s with chan := s.chan.pop snd rcv }

end State

/-- A request comes in at an agent, or a message at an actor. -/
inductive Action
  | start (n : Nat) (domainid : Int) (req : Request)
  | deliver (snd rcv : Actor) (uninit : UserSchema)

def step (top : Topology) (s : State) : Action → Option State
  | .start n domainid req =>
      if n < top.numtransactionagents then
        some (s.startcmd top n domainid req)
      else some s
  | .deliver snd rcv uninit => s.deliver top snd rcv uninit

/-- The schemata of some domains have been created, and nothing in them. -/
def State.init (domains : Int → Bool) : State where
  schemata _ domainid := if domains domainid then some {} else none

end Infinisql.Ref.Ddl
