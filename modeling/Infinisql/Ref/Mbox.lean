import Mathlib.Logic.Function.Basic
import Infinisql.Ref.Table

/-!
# The mailbox

`Mbox` is a linked queue of messages: any number of producers link at the
end, one consumer takes from the front. A producer works from `tail`, which
may lag behind the last message, and helps it along. The consumer works from
`current`, the message it returned last, and never looks at `tail`.

A step here is one atomic operation: a load, a compare-and-swap, or the
`__atomic_add_fetch` that numbers a pointer just before it is swapped in. The
other thing that happens to shared memory is `delete`, which is a step of its
own. Reading or swapping the `nextmsg` of a message that has been deleted has
no result in the model.

Messages are named in the order they were allocated. A name is not used again
when its memory is. What the count in a pointer is there to tell apart is
therefore apart already, and it is compared all the same. Messages for other
nodes go to the outbound batch and are not of this file. `head`, the member
`mytail` and the message pointers of the constructor are never read.
-/

namespace Infinisql.Ref

/-- The two halves of the `__int128`: what `getPtr` and `getCount` read. -/
structure MsgPtr where
  ptr : Option Addr
  count : BitVec 64
  deriving DecidableEq, Repr

structure Mbox where
  /-- `nextmsg` of each message that exists. -/
  nextmsg : Addr → Option MsgPtr
  tail : MsgPtr
  current : MsgPtr
  counter : BitVec 64

namespace Mbox

/-- `firstMsg`. -/
def firstMsg : Addr := 0

/-- The constructor. -/
def new : Mbox :=
  { nextmsg := Function.update (fun _ => none) firstMsg (some ⟨none, 5000⟩)
    tail := ⟨some firstMsg, 10000⟩
    current := ⟨some firstMsg, 10000⟩
    counter := 8888 }

/-- `getPtr(p)->nextmsg`. -/
def next (m : Mbox) (p : MsgPtr) : Option MsgPtr := p.ptr.bind m.nextmsg

/-- `getPtr(p)->nextmsg = v`. -/
def setNext (m : Mbox) (p v : MsgPtr) : Mbox :=
  match p.ptr with
  | none => m
  | some n => { m with nextmsg := Function.update m.nextmsg n (some v) }

/-- `msg.nextmsg` of a message that is about to be sent. -/
def create (m : Mbox) (msg : Addr) : Mbox :=
  { m with nextmsg := Function.update m.nextmsg msg (some ⟨none, 5555⟩) }

/-- `delete getPtr(p)`. -/
def release (m : Mbox) (p : MsgPtr) : Mbox :=
  match p.ptr with
  | none => m
  | some n => { m with nextmsg := Function.update m.nextmsg n none }

/-- `__atomic_add_fetch(&counter, 1)`. -/
def addFetch (m : Mbox) : Mbox := { m with counter := m.counter + 1 }

end Mbox

/-! ## `MboxProducer::sendMsg` -/

/-- Where a producer is in `sendMsg`, with what its locals hold there. The
names are of the operation that is next. -/
inductive SendMsg
  | idle
  | loadTail (msg : Addr)
  | loadNext (msg : Addr) (mytail : MsgPtr)
  | compareTail (msg : Addr) (mytail mynext : MsgPtr)
  | countLink (msg : Addr) (mytail mynext : MsgPtr)
  | swapNext (msg : Addr) (mytail mynext : MsgPtr) (count : BitVec 64)
  | countSwing (msg : Addr) (mytail mynext : MsgPtr)
  | swingTail (msg : Addr) (mytail mynext : MsgPtr) (count : BitVec 64)
  | countFinish (msg : Addr) (mytail : MsgPtr)
  | finishTail (msg : Addr) (mytail : MsgPtr) (count : BitVec 64)
  deriving DecidableEq, Repr

namespace Mbox

/-- `__atomic_compare_exchange_n(&tail, &mytail, ..)`. What a failed swap
leaves in `mytail` is loaded again or not read. -/
def swapTail (m : Mbox) (mytail v : MsgPtr) : Mbox :=
  if m.tail = mytail then { m with tail := v } else m

/-- The next operation of a producer. -/
def sendStep (m : Mbox) : SendMsg → Option (Mbox × SendMsg)
  | .idle => some (m, .idle)
  | .loadTail msg => some (m, .loadNext msg m.tail)
  | .loadNext msg mytail =>
      (m.next mytail).map fun mynext => (m, .compareTail msg mytail mynext)
  | .compareTail msg mytail mynext =>
      if mytail = m.tail then
        if mynext.ptr = none then some (m, .countLink msg mytail mynext)
        else some (m, .countSwing msg mytail mynext)
      else some (m, .loadTail msg)
  | .countLink msg mytail mynext =>
      some (m.addFetch, .swapNext msg mytail mynext m.addFetch.counter)
  | .swapNext msg mytail mynext count =>
      (m.next mytail).map fun next =>
        if next = mynext then
          (m.setNext mytail ⟨some msg, count⟩, .countFinish msg mytail)
        else (m, .loadTail msg)
  | .countSwing msg mytail mynext =>
      some (m.addFetch, .swingTail msg mytail mynext m.addFetch.counter)
  | .swingTail msg mytail mynext count =>
      some (m.swapTail mytail ⟨mynext.ptr, count⟩, .loadTail msg)
  | .countFinish msg mytail =>
      some (m.addFetch, .finishTail msg mytail m.addFetch.counter)
  | .finishTail msg mytail count =>
      some (m.swapTail mytail ⟨some msg, count⟩, .idle)

end Mbox

/-- The message that an operation links, if its swap succeeds. -/
def SendMsg.links (m : Mbox) : SendMsg → List Addr
  | .swapNext msg mytail mynext _ =>
      if m.next mytail = some mynext then [msg] else []
  | _ => []

/-! ## `Mbox::receive` -/

/-- Where the consumer is: about to load the `nextmsg` of `current`, or about
to leave `current` for what it loaded. Whether it waits, or returns NULL and
is called again, is the same here. -/
inductive Receive
  | load
  | leave (mynext : MsgPtr)
  deriving DecidableEq, Repr

namespace Mbox

def receiveStep (m : Mbox) : Receive → Option (Mbox × Receive)
  | .load =>
      (m.next m.current).map fun mynext =>
        if mynext.ptr = none then (m, .load) else (m, .leave mynext)
  | .leave mynext =>
      some ({ m.release m.current with current := mynext }, .load)

end Mbox

/-- The message that the consumer returns with the step. -/
def Receive.returns : Receive → List Addr
  | .load => []
  | .leave mynext => mynext.ptr.toList

/-! ## All of them -/

/-- A mailbox and everyone who uses it. The two lists are history: the
messages in the order they were linked, and those that `receive` returned. No
step reads them. -/
structure MboxSystem where
  mbox : Mbox
  producers : Nat → SendMsg
  consumer : Receive
  nextAddr : Addr
  linked : List Addr
  returned : List Addr

/-- A producer calls `sendMsg` with a new message, a producer does its next
operation, or the consumer does. -/
inductive MboxOp
  | sendMsg (producer : Nat)
  | produce (producer : Nat)
  | receive
  deriving DecidableEq, Repr

namespace MboxSystem

def new : MboxSystem :=
  { mbox := .new
    producers := fun _ => .idle
    consumer := .load
    nextAddr := Mbox.firstMsg + 1
    linked := []
    returned := [] }

/-- `new class Message` and the call. A producer that is still in `sendMsg`
does not call it. -/
def sendMsg (s : MboxSystem) (p : Nat) : MboxSystem :=
  if s.producers p = .idle then
    { s with
      mbox := s.mbox.create s.nextAddr
      producers := Function.update s.producers p (.loadTail s.nextAddr)
      nextAddr := s.nextAddr + 1 }
  else s

def step (s : MboxSystem) : MboxOp → Option MboxSystem
  | .sendMsg p => some (s.sendMsg p)
  | .produce p =>
      (s.mbox.sendStep (s.producers p)).map fun (mbox, pc) =>
        { s with
          mbox := mbox
          producers := Function.update s.producers p pc
          linked := s.linked ++ (s.producers p).links s.mbox }
  | .receive =>
      (s.mbox.receiveStep s.consumer).map fun (mbox, pc) =>
        { s with
          mbox := mbox
          consumer := pc
          returned := s.returned ++ s.consumer.returns }

end MboxSystem

end Infinisql.Ref
