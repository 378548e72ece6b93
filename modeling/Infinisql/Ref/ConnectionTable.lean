import Infinisql.Lib.Codec
import Infinisql.Lib.Collections
import Mathlib.Logic.Function.Basic

/-!
# The connections of the inbound gateway

The poll loop of `IbGateway` with the array it polls, `addtofds` and
`removefds`, which rebuild it, the descriptors to be removed and the partial
reads. An array is the list of its entries, the entry of a `pollfd` that was
never written being `none`; of a `pollfd` there is only the descriptor, since
the events asked for are always the same. Every access is checked, and one
that is out of range, or needs the descriptor of an entry that has none, is a
`Fault`.

A round of the loop is told by what `poll` and the system calls after it give,
entry by entry up to the last one with an event; the loop leaves there, having
met `eventcount` of them. What the program cannot see is kept beside it: the
open connections, numbered as they are accepted, and for each byte the
connection it was read from. `handled` are the calls of `inbufhandler`, which
is given a package, for the connection it was being read from; what it makes
of one is the matter of `Ref/Reassembly.lean`. The priority the process asks
for when the first connection comes in is left out.
-/

namespace Infinisql.Inbound

open Infinisql.Lib

abbrev Fd := ℕ

/-- What `read` gives in the end: `EAGAIN`, nothing, or another error. -/
inductive Ending where
  | again
  | eof
  | error
  deriving DecidableEq

/-- What happens at an entry in one round. With `EPOLLERR` or `EPOLLHUP`
nothing else is looked at. With `POLLIN`, the listener accepts: what `accept`
returns, and whether the `setsockopt` after it succeeds. A connection is read
until `read` gives no more bytes. -/
inductive Event where
  | quiet
  | hangup
  | accept (newfd : Option Fd) (setsockopt : Bool)
  | reads (chunks : List (List UInt8)) (ending : Ending)
  deriving DecidableEq

/-- A byte and the connection it was read from. -/
structure Octet where
  value : UInt8
  connection : ℕ
  deriving DecidableEq

/-- A call of `inbufhandler` for a connection. -/
structure Handled where
  connection : ℕ
  package : List Octet
  deriving DecidableEq

structure IbGateway where
  sockfd : Fd
  fds : List (Option Fd)
  nfds : ℕ
  fdremoveset : OrdSet Fd
  pendingReads : Fd → Option (List Octet)
  connections : List (Fd × ℕ)
  accepted : ℕ
  handled : List Handled

inductive Fault where
  | outside
  | unending
  deriving DecidableEq

/-! ## Arrays -/

/-- `fds[n]`. -/
def entryAt (fds : List (Option Fd)) (n : ℕ) : Except Fault (Option Fd) :=
  match fds[n]? with
  | some entry => .ok entry
  | none => .error .outside

/-- `fds[n].fd`. -/
def fdAt (fds : List (Option Fd)) (n : ℕ) : Except Fault Fd :=
  match fds[n]? with
  | some (some fd) => .ok fd
  | _ => .error .outside

/-- `newfds[n] = entry`. -/
def setEntry (newfds : List (Option Fd)) (n : ℕ) (entry : Option Fd) :
    Except Fault (List (Option Fd)) :=
  if n < newfds.length then .ok (newfds.set n entry) else .error .outside

/-- The first `k` rounds of the loop of `addtofds`. -/
def copyEntries (fds : List (Option Fd)) :
    ℕ → List (Option Fd) → Except Fault (List (Option Fd))
  | 0, newfds => .ok newfds
  | n + 1, newfds => do
      let newfds ← copyEntries fds n newfds
      setEntry newfds n (← entryAt fds n)

/-- The first `k` rounds of the loop of `removefds`, with `m`. -/
def keepEntries (fds : List (Option Fd)) (fdremoveset : OrdSet Fd) :
    ℕ → List (Option Fd) → Except Fault (List (Option Fd) × ℕ)
  | 0, newfds => .ok (newfds, 0)
  | n + 1, newfds => do
      let (newfds, m) ← keepEntries fds fdremoveset n newfds
      let fd ← fdAt fds n
      if fd ∈ fdremoveset then .ok (newfds, m)
      else .ok (← setEntry newfds m (← entryAt fds n), m + 1)

/-! ## Packages -/

/-- The first eight bytes, as a `size_t`. -/
def packagesize (buf : List Octet) : ℕ :=
  ofLeBytes ((buf.take 8).map Octet.value)

/-- The loop over the packages of a buffer, at most `k` rounds of it: the
packages, and the remainder. A package is a byte or more, so the length of the
buffer is rounds enough, except that the loop does not get past one of size
0. -/
def cut : ℕ → List Octet → Option (List (List Octet) × List Octet)
  | 0, buf => some ([], buf)
  | k + 1, buf =>
      if buf.length < 8 then some ([], buf)
      else if buf.length < packagesize buf then some ([], buf)
      else if packagesize buf = 0 then none
      else (cut k (buf.drop (packagesize buf))).map fun r =>
        (buf.take (packagesize buf) :: r.1, r.2)

namespace IbGateway

/-! ## The table -/

def addtofds (g : IbGateway) (newfd : Fd) : Except Fault IbGateway := do
  let nfds := g.nfds + 1
  let newfds ← copyEntries g.fds (nfds - 1) (List.replicate nfds none)
  let newfds ← setEntry newfds (nfds - 1) (some newfd)
  .ok { g with fds := newfds, nfds := nfds }

/-- More descriptors to remove than there are entries would ask for an array
of a size that has wrapped around. -/
def removefds (g : IbGateway) : Except Fault IbGateway := do
  if g.fdremoveset.card = 0 then .ok g
  else if g.nfds < g.fdremoveset.card then .error .outside
  else
    let size := g.nfds - g.fdremoveset.card
    let (newfds, _) ← keepEntries g.fds g.fdremoveset size
      (List.replicate size none)
    .ok { g with fds := newfds, nfds := size, fdremoveset := OrdSet.empty }

/-- The gateway before the listener is added. -/
def init (sockfd : Fd) : IbGateway where
  sockfd := sockfd
  fds := []
  nfds := 0
  fdremoveset := OrdSet.empty
  pendingReads := fun _ => none
  connections := []
  accepted := 0
  handled := []

/-- The gateway when it first polls. -/
def listening (sockfd : Fd) : IbGateway :=
  { init sockfd with fds := [some sockfd], nfds := 1 }

example (sockfd : Fd) : (init sockfd).addtofds sockfd = .ok (listening sockfd) :=
  rfl

/-! ## The system calls -/

/-- The connection that is open under a descriptor. -/
def connection (g : IbGateway) (fd : Fd) : ℕ :=
  ((g.connections.find? fun c => decide (c.1 = fd)).map Prod.snd).getD g.accepted

def accept (g : IbGateway) (newfd : Fd) : IbGateway :=
  { g with
    connections := g.connections ++ [(newfd, g.accepted)]
    accepted := g.accepted + 1 }

/-- `close`, and the descriptor goes into the set. -/
def close (g : IbGateway) (fd : Fd) : IbGateway :=
  { g with
    connections := g.connections.filter fun c => decide (c.1 ≠ fd)
    fdremoveset := g.fdremoveset.insert fd }

/-! ## Reading -/

def setPending (g : IbGateway) (fd : Fd) (entry : Option (List Octet)) :
    IbGateway :=
  { g with pendingReads := Function.update g.pendingReads fd entry }

def inbufhandler (g : IbGateway) (fd : Fd) (packages : List (List Octet)) :
    IbGateway :=
  { g with
    handled := g.handled ++ packages.map fun p => ⟨g.connection fd, p⟩ }

/-- `read` gives bytes: behind an entry of `pendingReads`, or cut at once. -/
def readed (g : IbGateway) (fd : Fd) (chunk : List UInt8) :
    Except Fault IbGateway :=
  let inbuf := chunk.map fun b => (⟨b, g.connection fd⟩ : Octet)
  match g.pendingReads fd with
  | some pending => .ok (g.setPending fd (some (pending ++ inbuf)))
  | none =>
      match cut inbuf.length inbuf with
      | none => .error .unending
      | some (packages, rest) =>
          if rest = [] then .ok (g.inbufhandler fd packages)
          else .ok ((g.inbufhandler fd packages).setPending fd (some rest))

/-- `read` gives `EAGAIN`: an entry is cut. -/
def again (g : IbGateway) (fd : Fd) : Except Fault IbGateway :=
  match g.pendingReads fd with
  | none => .ok g
  | some pending =>
      match cut pending.length pending with
      | none => .error .unending
      | some (packages, rest) =>
          .ok ((g.inbufhandler fd packages).setPending fd (some rest))

def readAll (g : IbGateway) (fd : Fd) : List (List UInt8) →
    Except Fault IbGateway
  | [] => .ok g
  | chunk :: chunks => do (← g.readed fd chunk).readAll fd chunks

/-- The last `read`. -/
def finish (g : IbGateway) (fd : Fd) : Ending → Except Fault IbGateway
  | .again => g.again fd
  | .eof => .ok ((g.close fd).setPending fd none)
  | .error => .ok ((g.close fd).setPending fd none)

/-! ## The poll loop -/

/-- What is done for the entry `n`. An event that the entry cannot have does
nothing. -/
def handle (g : IbGateway) (n : ℕ) : Event → Except Fault IbGateway
  | .quiet => .ok g
  | .hangup => do
      let fd ← fdAt g.fds n
      -- the entry of `pendingReads` stays
      if fd = g.sockfd then .ok g else .ok (g.close fd)
  | .accept newfd setsockopt => do
      let fd ← fdAt g.fds n
      if fd = g.sockfd then
        match newfd with
        | none => .ok g
        | some newfd =>
            if setsockopt then (g.accept newfd).addtofds newfd
            else .ok (g.accept newfd)
      else .ok g
  | .reads chunks ending => do
      let fd ← fdAt g.fds n
      if fd = g.sockfd then .ok g
      else (← g.readAll fd chunks).finish fd ending

/-- The entries from `n` on. -/
def handleAll (g : IbGateway) (n : ℕ) : List Event → Except Fault IbGateway
  | [] => .ok g
  | e :: es => do (← g.handle n e).handleAll (n + 1) es

def round (g : IbGateway) (events : List Event) : Except Fault IbGateway := do
  (← g.handleAll 0 events).removefds

end IbGateway

end Infinisql.Inbound
