import Infinisql.Lib.Frames
import Infinisql.Ref.Reassembly

/-!
# What the inbound gateway owes any peer

Whatever a peer sends and however it arrives, each read is to end, to look
only at bytes that were received, and to hand on whole messages: the handler
never gets past the end of the package it was called for, neither with the
length in front, nor with a message. Where that cannot be, the connection is
to be dropped.

A stream is in order if it is packages as a gateway sends them, the last of
them perhaps not all there yet. Each message of a package is at least as long
as the fixed part of one.
-/

namespace Infinisql.Spec

open Infinisql.Lib Infinisql.Ref

/-- Where the loops are after `k` steps on a buffer. -/
def reassembly (received : Bytes) (k : Nat) : Reassembly :=
  (reassemble received)^[k] ⟨.package 0, []⟩

/-- The loops over this buffer are left, touch nothing else, and hand on
messages that end in their packages. -/
structure Reassembles (received : Bytes) : Prop where
  ends : ∃ k pos, (reassembly received k).cursor = .left pos
  inside : ∀ k, (reassembly received k).cursor ≠ .outside
  whole : ∀ k base packagesize pos,
    (reassembly received k).cursor = .message base packagesize pos →
      pos ≤ packagesize

/-- So it is in every read of these, up to the one that drops the
connection. -/
def Reassembled (rs : List Reading) : Prop :=
  ∀ before r after, rs = before ++ r :: after →
    ∀ c, IbStream.Run before c →
      ∀ received, c.buffer r = some received → Reassembles received

/-- The bytes that are read. -/
def delivered (rs : List Reading) : Bytes :=
  rs.flatMap fun r => match r with
    | .data inbuf => inbuf
    | _ => []

/-- A `read` that gives bytes gives some, and as many as go into the
buffer. -/
def ReadFits : Reading → Prop
  | .data inbuf => inbuf ≠ [] ∧ inbuf.length ≤ SO_RCVBUF
  | _ => True

/-- The stream, cut into reads: all of it or a part, with the connection
dropped at some point or not. -/
structure Cut (stream : Bytes) (rs : List Reading) : Prop where
  fits : ∀ r ∈ rs, ReadFits r
  bytes : delivered rs <+: stream

/-- The stream, cut into reads until there is nothing more for now. -/
structure FullCut (stream : Bytes) (rs : List Reading) : Prop where
  fits : ∀ r ∈ rs, ReadFits r
  open' : .drop ∉ rs
  bytes : delivered rs = stream
  again : ∃ before, rs = before ++ [.again]

/-- The messages of a package that goes through. -/
structure Sendable (msgs : List Bytes) : Prop where
  size : packagesize msgs < 2 ^ 64
  header : ∀ msg ∈ msgs, sizeofMessageStruct ≤ msg.length

/-- Packages one behind the other, and what there is of another one. -/
def WellPackaged (stream : Bytes) : Prop :=
  ∃ (pkgs : List (List Bytes)) (tail : Bytes),
    stream = (pkgs.map serstr).flatten ++ tail ∧
    Incomplete tail ∧ ∀ msgs ∈ pkgs, Sendable msgs

end Infinisql.Spec
