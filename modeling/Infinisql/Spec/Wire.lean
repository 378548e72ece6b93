import Infinisql.Ref.Message

/-!
# What a message is owed on its way to another node

`sermsg` must fill the string it allocates, from its first byte to its last,
and `Message::des` must make the same message of it. `ReadsBack` says that;
`RoundTrips` adds that the reading stops at the end of the string.

An object says twice of which class it is, by being one and by the payload
type in its header. The constructors and the senders keep the two in line,
and `Typed` says so.
-/

namespace Infinisql.Spec

open Infinisql.Lib Infinisql.Ref.Wire
open Infinisql.Ref (Bytes)

/-- The header names the class of the object. -/
def Typed (msg : MessageVariant) : Prop :=
  msg.base.messageStruct.payloadtype = msg.payloadtype

/-- The string is exactly filled, and the message comes out of it again. -/
def ReadsBack (msg : MessageVariant) : Prop :=
  ∃ s b, msg.sermsg = some ⟨s, s.length⟩ ∧ s.length = msg.size ∧
    MessageVariant.des s = some (msg, b)

/-- It comes out of the whole string and not of a part of it. -/
def RoundTrips (msg : MessageVariant) : Prop :=
  ∃ s, msg.sermsg = some ⟨s, s.length⟩ ∧ s.length = msg.size ∧
    MessageVariant.des s = some (msg, ⟨s, s.length⟩)

theorem RoundTrips.readsBack {msg : MessageVariant} (h : RoundTrips msg) :
    ReadsBack msg := by
  obtain ⟨s, hser, hsize, hdes⟩ := h
  exact ⟨s, _, hser, hsize, hdes⟩

/-- The messages of transactions, of the schema and of deadlock detection. -/
def OfTransaction : MessageVariant → Prop
  | .subtransactionCmd _ | .commitRollback _ | .userSchema _ | .deadlock _ =>
      True
  | _ => False

/-- The messages of replication, and the sockets handed to another actor. -/
def OfReplication : MessageVariant → Prop
  | .dispatch _ | .apply _ | .ackDispatch _ | .ackApply _ | .socket _ => True
  | _ => False

/-! ## Where the sizes are right -/

/-- The bytes of a record behind its key. -/
def recordSpan (r : Record) : Nat := 41 + r.row.length + r.oldrow.length

/-- The bytes of all records of a dispatch message. -/
def recordsSpan (m : MessageDispatch) : Nat :=
  (m.records.entries.map fun p => (p.2.map recordSpan).sum).sum

/-- What is put down for an object, which is what `size` says except where
two maps are written: a count of eight bytes each, the keys, the ids, and a
count and the records of each vector. -/
def written : MessageVariant → Nat
  | .dispatch m => m.toMessage.size + sersize m.dispatchStruct +
      (8 + 16 * m.pidsids.entries.length) +
      (8 + 16 * m.records.entries.length + recordsSpan m)
  | msg => msg.size

/-- The kinds of replication messages that survive the wire. -/
def SizesAgree : MessageVariant → Prop
  | .dispatch m => m.pidsids.entries.length + m.records.entries.length =
      16 + recordsSpan m
  | .apply m => m.indices = []
  | .socket _ => False
  | _ => True

end Infinisql.Spec
