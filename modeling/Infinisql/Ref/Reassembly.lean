import Infinisql.Lib.Steps
import Infinisql.Ref.Gateway
import Infinisql.Ref.SerializedMessage

/-!
# The loops of the inbound gateway, byte by byte

The read loop of `IbGateway` with compression off, for a peer that may send
anything. Here the loops over the packages and over the messages of a package
are a machine that moves a position over the bytes that were received, so that
it can be said where it gets to, and that it gets nowhere. There are two
copies of the outer loop, over `inbuf` and over an entry of `pendingReads`,
and they take the same steps.

A length is used to take bytes before anything is added to the position, so
that a sum which would not be a `size_t` is never formed: taking bytes that
were not received leads to `outside`, and there is nothing to say of what the
program does then. The `MessageSerialized` that is made of a message copies
the fixed part of it off its front.

A descriptor that is closed is not read again. The two ways to that, the end
of the stream and an error, are one.
-/

namespace Infinisql.Ref

open Infinisql.Lib

/-- The eight bytes at a position, as a `size_t`. -/
def sizeAt (received : Bytes) (pos : Nat) : Nat :=
  ofLeBytes ((received.drop pos).take 8)

/-- Where the loops stand: before the test of the outer one; in
`inbufhandler` for the package at `base`, before the test of its loop; behind
the outer loop; or at bytes that were not received. -/
inductive Cursor
  | package (pos : Nat)
  | message (base packagesize pos : Nat)
  | left (pos : Nat)
  | outside
  deriving DecidableEq

/-- The cursor and the messages handed on in this read. -/
structure Reassembly where
  cursor : Cursor
  handed : List Bytes := []
  deriving DecidableEq

/-- What `memcpy` takes off a message. -/
def sizeofMessageStruct : Nat := Pod.sizeof Wire.MessageStruct

/-- One test of a loop and the body behind it. -/
def reassemble (received : Bytes) (r : Reassembly) : Reassembly :=
  match r.cursor with
  | .package pos =>
      if received.length ≤ pos then { r with cursor := .left pos }
      else if received.length - pos < 8 then { r with cursor := .left pos }
      else
        let packagesize := sizeAt received pos
        if received.length - pos < packagesize then
          { r with cursor := .left pos }
        else { r with cursor := .message pos packagesize 8 }
  | .message base packagesize pos =>
      if packagesize ≤ pos then { r with cursor := .package (base + packagesize) }
      else if received.length < base + pos + 8 then
        { r with cursor := .outside }
      else
        let s := sizeAt received (base + pos)
        if received.length < base + pos + 8 + s ∨ s < sizeofMessageStruct then
          { r with cursor := .outside }
        else
          { cursor := .message base packagesize (pos + 8 + s),
            handed := r.handed ++ [(received.drop (base + pos + 8)).take s] }
  | .left _ => r
  | .outside => r

/-- What `read` gives: bytes, `EAGAIN`, or that there is nothing more to
read from this peer. -/
inductive Reading
  | data (inbuf : Bytes)
  | again
  | drop
  deriving DecidableEq

/-- A connection at the gateway. -/
structure IbStream where
  pendingReads : Option Bytes := none
  dropped : Bool := false
  handed : List Bytes := []
  deriving DecidableEq

/-- The bytes the outer loop goes over on this outcome of `read`, if it runs
at all. -/
def IbStream.buffer (c : IbStream) : Reading → Option Bytes
  | .data inbuf =>
      if c.dropped then none
      else match c.pendingReads with
        | none => some inbuf
        | some _ => none
  | .again => if c.dropped then none else c.pendingReads
  | .drop => none

/-- What is kept of the buffer in the end: the remainder goes to
`pendingReads`, and an entry that was there stays. -/
def IbStream.keep (c : IbStream) (received : Bytes) (pos : Nat)
    (handed : List Bytes) : IbStream :=
  { c with
    pendingReads :=
      if pos < received.length then some (received.drop pos)
      else c.pendingReads.map fun _ => []
    handed := c.handed ++ handed }

/-- Where no loop runs: bytes are appended to the entry, and a connection
that ends has none. -/
def IbStream.store (c : IbStream) : Reading → IbStream
  | .data inbuf =>
      if c.dropped then c
      else { c with pendingReads := c.pendingReads.map (· ++ inbuf) }
  | .again => c
  | .drop => { c with pendingReads := none, dropped := true }

/-- The read takes the connection there. A loop that is never left takes it
nowhere. -/
inductive IbStream.Reads (c : IbStream) : Reading → IbStream → Prop
  | store {r : Reading} : c.buffer r = none → Reads c r (c.store r)
  | loop {r : Reading} {received : Bytes} {pos k : Nat} {handed : List Bytes} :
      c.buffer r = some received →
      (reassemble received)^[k] ⟨.package 0, []⟩ = ⟨.left pos, handed⟩ →
      Reads c r (c.keep received pos handed)

/-- One read after another on a new connection. -/
inductive IbStream.Run : List Reading → IbStream → Prop
  | start : Run [] {}
  | read {rs : List Reading} {r : Reading} {c c' : IbStream} :
      Run rs c → c.Reads r c' → Run (rs ++ [r]) c'

end Infinisql.Ref
