import Infinisql.Ref.Gateway

/-!
# What the transport owes the messages

Between two nodes every message is to arrive once, unaltered, and in the order
it was sent. At any moment what was handed on is the beginning of what was
sent; and when nothing is left on the way and the reader is back to polling,
it is all of it.

Of LZ4 nothing is used but that decompressing gives back what was compressed,
provided there is room for it, and that compressing makes little longer.
-/

namespace Infinisql.Spec

open Infinisql.Ref

def LZ4_MAX_INPUT_SIZE : Nat := 0x7E000000

/-- `LZ4_decompress_safe` inverts `LZ4_compress` and fails where the output
does not fit; `LZ4_compressBound` bounds the one. -/
structure Lz4Laws (lz4 : Lz4) : Prop where
  inverts : ∀ p cap, p.length ≤ LZ4_MAX_INPUT_SIZE →
    lz4.decompressSafe (lz4.compress p) cap =
      if p.length ≤ cap then some p else none
  bound : ∀ p, p.length ≤ LZ4_MAX_INPUT_SIZE →
    (lz4.compress p).length ≤ p.length + p.length / 255 + 16

/-- Nothing for the node is on its way, and its read loop has gone back to
polling. -/
structure Quiet (s : Gateways) (n : Nodeid) : Prop where
  obBatchMsg : s.obBatchMsg = none
  mbox : s.mbox = []
  pendingMsgs : s.pendingMsgs n = []
  wire : s.wire n = []
  polling : (s.conn n).polling = true

/-- Each node was handed the beginning of what was sent to it, and all of it
once nothing is on its way. -/
def Delivered (s : Gateways) : Prop :=
  ∀ n, (s.conn n).handed <+: s.sent n ∧
    (Quiet s n → (s.conn n).handed = s.sent n)

/-- The largest output buffer. -/
def dcstrMax : Nat := 2 ^ 30

/-- A package that goes through: with compression, it fits the largest output
buffer; without, its size is a `size_t`. -/
def PackageFits (compressgw : Bool) (msgs : List Bytes) : Prop :=
  if compressgw then packagesize msgs ≤ dcstrMax
  else packagesize msgs < 2 ^ 64

/-- The step sends no other package. -/
def SendsFitting (compressgw : Bool) (s : Gateways) : GatewayAction → Prop
  | .sendPendings => ∀ n, s.pendingMsgs n ≠ [] →
      PackageFits compressgw (s.pendingMsgs n)
  | _ => True

end Infinisql.Spec
