import Mathlib.Logic.Function.Basic
import Infinisql.Lib.Codec
import Infinisql.Ref.Defs

/-!
# The gateways between nodes

A serialized message on its way from an actor of one node to another node:
`MboxProducer::sendMsg` and `sendObBatch`, the loop of `ObGateway`, and the
read loop of `IbGateway` with `inbufhandler`. The actor is one, its gateway is
the one its node assigns it, and there is one connection to each other node.

Two framings are nested. A package is the pending messages of one node behind
their total size, each message behind its own, and this is what is compressed
as a whole, and put behind the compressed size, when `compressgw` is set, as
`main` sets it. LZ4 is a parameter.

On the receiving side `pendingReads` has no entry for a connection until a
read ends inside a package. From then on the entry stays, empty or not, and
what is read is only looked at when `read` has nothing more to give.

`inbufhandler` decompresses into a buffer of a size it cannot know, an `int`
that starts with a mebibyte and is doubled as long as LZ4 says it does not
fit. Past the largest `int` there is nothing to say of what it does.

The pending messages of a node that has none are the empty list. Sending goes
over the entries of the map and erases each; the order in which it meets them
is of no consequence, as each has a socket of its own. A message handed on is
given to `toActor` of the receiving node.
-/

namespace Infinisql.Ref

open Infinisql.Lib

abbrev Nodeid := BitVec 16

def OBGWMSGBATCHSIZE : Nat := 5000
def SERIALIZEDMAXSIZE : Nat := 1048576
def SO_RCVBUF : Nat := 16777216
def INT_MAX : Nat := 2147483647

/-- `LZ4_compress`, and `LZ4_decompress_safe` with the size of the output
buffer, which fails with a negative number. -/
structure Lz4 where
  compress : Bytes → Bytes
  decompressSafe : Bytes → Nat → Option Bytes

/-! ## ObGateway -/

/-- The total size the gateway computes. -/
def packagesize (msgs : List Bytes) : Nat :=
  8 + (msgs.map fun msg => 8 + msg.length).sum

/-- `[msgsize, msg]...`. -/
def packageBody (msgs : List Bytes) : Bytes :=
  msgs.flatMap fun msg => leBytes 8 msg.length ++ msg

def serstr (msgs : List Bytes) : Bytes :=
  leBytes 8 (packagesize msgs) ++ packageBody msgs

/-- What is sent for the pending messages of a node. -/
def sendstr (compressgw : Bool) (lz4 : Lz4) (msgs : List Bytes) : Bytes :=
  if compressgw then
    let cstr := lz4.compress (serstr msgs)
    leBytes 8 (8 + cstr.length) ++ cstr
  else serstr msgs

/-! ## IbGateway -/

/-- The loop over the sizes of the output buffer. Doubling the largest power
of two that is an `int` overflows. -/
def decompressed (lz4 : Lz4) : Nat → Nat → Bytes → Option Bytes
  | 0, _, _ => none
  | fuel + 1, bs, src =>
      match lz4.decompressSafe src bs with
      | some dcstr => some dcstr
      | none =>
          if INT_MAX < bs * 2 then none
          else decompressed lz4 fuel (bs * 2) src

/-- The messages of a package behind its total size. A size that is not there,
or that leads past the end, is read from memory that is not the package's. -/
def messages : Nat → Bytes → Option (List Bytes)
  | _, [] => some []
  | 0, _ :: _ => none
  | fuel + 1, inbuf =>
      let s := ofLeBytes (inbuf.take 8)
      let rest := inbuf.drop 8
      if inbuf.length < 8 ∨ rest.length < s then none
      else do
        let more ← messages fuel (rest.drop s)
        some (rest.take s :: more)

/-- The messages it hands on, in their order. -/
def inbufhandler (compressgw : Bool) (lz4 : Lz4) (buf : Bytes) :
    Option (List Bytes) := do
  let inbuf ←
    if compressgw then decompressed lz4 32 SERIALIZEDMAXSIZE (buf.drop 8)
    else some buf
  messages inbuf.length (inbuf.drop 8)

/-- The loop over the packages of a buffer: the messages handed on and the
bytes that are left. A package that claims to have no bytes would keep it
going for ever. -/
def packages (compressgw : Bool) (lz4 : Lz4) :
    Nat → Bytes → Option (List Bytes × Bytes)
  | _, [] => some ([], [])
  | 0, _ :: _ => none
  | fuel + 1, buf =>
      let size := ofLeBytes (buf.take 8)
      if buf.length < 8 ∨ buf.length < size then some ([], buf)
      else do
        let msgs ← inbufhandler compressgw lz4 (buf.take size)
        let (more, rest) ← packages compressgw lz4 fuel (buf.drop size)
        some (msgs ++ more, rest)

/-- A connection at the node that reads it. `polling` says that the read loop
is done with it for now, and `handed` is what was handed on. -/
structure IbConnection where
  pendingReads : Option Bytes := none
  polling : Bool := true
  handed : List Bytes := []

/-- What becomes of the bytes of one `read`; none at all is `EAGAIN`. -/
def readed (compressgw : Bool) (lz4 : Lz4) (inbuf : Bytes)
    (c : IbConnection) : Option IbConnection :=
  match inbuf, c.pendingReads with
  | [], none => some { c with polling := true }
  | [], some str => do
      let (msgs, rest) ← packages compressgw lz4 str.length str
      some { pendingReads := some rest, polling := true,
             handed := c.handed ++ msgs }
  | b :: bs, some str =>
      some { c with pendingReads := some (str ++ b :: bs), polling := false }
  | b :: bs, none => do
      let (msgs, rest) ← packages compressgw lz4 (b :: bs).length (b :: bs)
      some { pendingReads := if rest = [] then none else some rest,
             polling := false, handed := c.handed ++ msgs }

/-! ## The way of a message -/

/-- The producer's batch, the gateway's mailbox and its pending messages, the
bytes under way to each node, and the connections there. `sent` is what the
actor sent to each node. -/
structure Gateways where
  obBatchMsg : Option (List (Nodeid × Bytes)) := none
  mbox : List (List (Nodeid × Bytes)) := []
  pendingMsgs : Nodeid → List Bytes := fun _ => []
  wire : Nodeid → Bytes := fun _ => []
  conn : Nodeid → IbConnection := fun _ => {}
  sent : Nodeid → List Bytes := fun _ => []

namespace Gateways

def sendObBatch (s : Gateways) : Gateways :=
  match s.obBatchMsg with
  | none => s
  | some batch => { s with mbox := s.mbox ++ [batch], obBatchMsg := none }

/-- `sendMsg` to another node, which serializes into the batch. A message to
the own node goes to a mailbox. -/
def sendMsg (nodeid dest : Nodeid) (serializedmsg : Bytes) (s : Gateways) :
    Gateways :=
  if nodeid = dest then s
  else
    let batch := s.obBatchMsg.getD [] ++ [(dest, serializedmsg)]
    let s' := { s with
      obBatchMsg := some batch
      sent := Function.update s.sent dest (s.sent dest ++ [serializedmsg]) }
    if batch.length = OBGWMSGBATCHSIZE then s'.sendObBatch else s'

/-- The gateway takes a batch out of its mailbox. -/
def receive (s : Gateways) : Gateways :=
  match s.mbox with
  | [] => s
  | batch :: mbox =>
      { s with
        mbox
        pendingMsgs := batch.foldl (fun pendingMsgs msg =>
          Function.update pendingMsgs msg.1 (pendingMsgs msg.1 ++ [msg.2]))
          s.pendingMsgs }

/-- The gateway sends all that is pending. -/
def sendPendings (compressgw : Bool) (lz4 : Lz4) (s : Gateways) : Gateways :=
  { s with
    wire := fun n => s.wire n ++
      if s.pendingMsgs n = [] then []
      else sendstr compressgw lz4 (s.pendingMsgs n)
    pendingMsgs := fun _ => [] }

/-- Node `n` reads; of the bytes that are there TCP gives it `k`, or as many
as go into the buffer. -/
def read (compressgw : Bool) (lz4 : Lz4) (n : Nodeid) (k : Nat)
    (s : Gateways) : Option Gateways := do
  let inbuf := (s.wire n).take (min k SO_RCVBUF)
  let c ← readed compressgw lz4 inbuf (s.conn n)
  some { s with
    wire := Function.update s.wire n ((s.wire n).drop inbuf.length)
    conn := Function.update s.conn n c }

end Gateways

inductive GatewayAction
  | sendMsg (dest : Nodeid) (serializedmsg : Bytes)
  | sendObBatch
  | receive
  | sendPendings
  | read (n : Nodeid) (k : Nat)

def gatewayStep (nodeid : Nodeid) (compressgw : Bool) (lz4 : Lz4)
    (s : Gateways) : GatewayAction → Option Gateways
  | .sendMsg dest serializedmsg => some (s.sendMsg nodeid dest serializedmsg)
  | .sendObBatch => some s.sendObBatch
  | .receive => some s.receive
  | .sendPendings => some (s.sendPendings compressgw lz4)
  | .read n k => s.read compressgw lz4 n k

end Infinisql.Ref
