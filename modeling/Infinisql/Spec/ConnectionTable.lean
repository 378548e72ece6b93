import Infinisql.Lib.Run
import Infinisql.Ref.ConnectionTable
import Infinisql.Ref.Gateway

/-!
# What the inbound gateway owes its connections

Between two rounds the array it polls is the listener and the open
connections, in the order they were accepted, and what has been handed on from
a connection was read from it. No round touches an entry that is not there.

That is asked of every run, whatever the network does and whichever descriptor
the operating system gives to a new connection, as long as it is one that is
not in use. `Sound` is what a round must be like for the code to keep it; it
is about the table before the round and what happens in it.
-/

namespace Infinisql.Inbound

open Infinisql.Lib

namespace IbGateway

/-- A round of the poll loop, if it ends. -/
def next (g : IbGateway) (events : List Event) : Option IbGateway :=
  (g.round events).toOption

/-- What the array is to be, whenever it is polled. -/
structure Tabled (g : IbGateway) : Prop where
  fds : g.fds = (g.sockfd :: g.connections.map Prod.fst).map some
  nfds : g.nfds = g.fds.length
  once : (g.sockfd :: g.connections.map Prod.fst).Nodup
  order : (g.connections.map Prod.snd).Pairwise (· < ·)
  own : ∀ h ∈ g.handled, ∀ o ∈ h.package, o.connection = h.connection

/-- The round does not access an entry that is not there. -/
def Inside (g : IbGateway) (events : List Event) : Prop :=
  g.round events ≠ .error .outside

/-- The descriptor is the one of an open connection. -/
def Open (g : IbGateway) (fd : Fd) : Prop := fd ∈ g.connections.map Prod.fst

/-- What the operating system can let happen at an entry. A new descriptor is
one that is not in use, and `read` gives a buffer full at most. -/
def Fits (g : IbGateway) (fd : Fd) : Event → Prop
  | .quiet => True
  | .hangup => fd = g.sockfd ∨ g.Open fd
  | .accept newfd _ => fd = g.sockfd ∧
      ∀ new ∈ newfd, new ≠ g.sockfd ∧ ¬ g.Open new
  | .reads chunks _ => g.Open fd ∧
      ∀ chunk ∈ chunks, chunk ≠ [] ∧ chunk.length ≤ Ref.SO_RCVBUF

/-- The round can happen. -/
structure Possible (g : IbGateway) (events : List Event) : Prop where
  polled : events.length ≤ g.nfds
  fits : ∀ p ∈ events.zip g.fds, ∀ fd ∈ p.2, g.Fits fd p.1

instance (g : IbGateway) (fd : Fd) : Decidable (g.Open fd) :=
  inferInstanceAs (Decidable (fd ∈ g.connections.map Prod.fst))

instance (g : IbGateway) (fd : Fd) (e : Event) : Decidable (g.Fits fd e) := by
  cases e <;> unfold Fits <;> infer_instance

instance (g : IbGateway) (events : List Event) : Decidable (g.Possible events) :=
  decidable_of_iff (events.length ≤ g.nfds ∧
      ∀ p ∈ events.zip g.fds, ∀ fd ∈ p.2, g.Fits fd p.1)
    ⟨fun h => ⟨h.1, h.2⟩, fun h => ⟨h.polled, h.fits⟩⟩

end IbGateway

/-- The connection is closed: for an error, or because its end is read. -/
def Event.ends : Event → Bool
  | .hangup => true
  | .reads _ .eof => true
  | .reads _ .error => true
  | _ => false

/-- The bytes of a connection that is read up to `EAGAIN`. -/
def Event.chunks? : Event → Option (List (List UInt8))
  | .reads chunks .again => some chunks
  | _ => none

/-- A connection is closed at this entry; the listener never is. -/
def EndsAt (events : List Event) (n : ℕ) : Prop :=
  n ≠ 0 ∧ ∃ e ∈ events[n]?, e.ends = true

/-- The entries that are added in the round. -/
def joined : List Event → ℕ
  | .accept (some _) true :: _ => 1
  | _ => 0

/-- A connection is accepted and not added. -/
def missed : List Event → Bool
  | .accept (some _) false :: _ => true
  | _ => false

/-- The bytes begin with a whole package. -/
def Complete (buf : List Octet) : Prop :=
  8 ≤ buf.length ∧ packagesize buf ≤ buf.length

def octets (connection : ℕ) (chunks : List (List UInt8)) : List Octet :=
  chunks.flatten.map fun b => ⟨b, connection⟩

/-- Where the entry begins with a byte of another connection, the first
package of it does not come to its end. -/
def Unmixed (entry : Option (List Octet)) (connection : ℕ) (e : Event) : Prop :=
  ∀ pending ∈ entry, ∀ o ∈ pending.head?, o.connection ≠ connection →
    ∀ chunks ∈ e.chunks?, ¬ Complete (pending ++ octets connection chunks)

namespace IbGateway

/-- Every connection that is accepted joins the array, the connections that
are closed are the last ones of it, and no connection gives the end of a
package that was left under its descriptor. -/
structure Sound (g : IbGateway) (events : List Event) : Prop where
  added : missed events = false
  last : ∃ j ≤ g.nfds + joined events, ∀ n < g.nfds + joined events,
    EndsAt events n ↔ j ≤ n
  unmixed : ∀ p ∈ g.connections.zip events.tail,
    Unmixed (g.pendingReads p.1.1) p.1.2 p.2

instance (g : IbGateway) (events : List Event) : Decidable (g.Sound events) := by
  have hends : DecidablePred (EndsAt events) := by
    unfold EndsAt
    infer_instance
  have hunmixed : ∀ entry connection e,
      Decidable (Unmixed entry connection e) := by
    unfold Unmixed Complete
    infer_instance
  exact decidable_of_iff (missed events = false ∧
      (∃ j ≤ g.nfds + joined events, ∀ n < g.nfds + joined events,
        EndsAt events n ↔ j ≤ n) ∧
      ∀ p ∈ g.connections.zip events.tail,
        Unmixed (g.pendingReads p.1.1) p.1.2 p.2)
    ⟨fun h => ⟨h.1, h.2.1, h.2.2⟩, fun h => ⟨h.added, h.last, h.unmixed⟩⟩

/-- The property of a run of a gateway. -/
structure KeepsTable (sockfd : Fd) (rounds : List (List Event)) : Prop where
  tabled : AllStates next Tabled (listening sockfd) rounds
  inside : AllCalls next Inside (listening sockfd) rounds

end IbGateway

end Infinisql.Inbound
