import Mathlib.Data.List.Basic

/-!
# FIFO channels between actors

One queue for each ordered pair of actors: what one actor sends to another
arrives in the order it was sent, and nothing more is known of the order in
which messages arrive. `send` puts a message at the end of the channels from
one actor to all that satisfy a predicate, `pop` takes the next message off a
channel.

Invariants over such a network speak of the messages that are on their way,
and whether one is depends on nothing but the channels; so all there is to
know of the two operations is which messages they leave on the way.
-/

namespace Infinisql.Lib

/-- What is on its way from the first to the second. -/
abbrev Channels (A M : Type*) := A → A → List M

namespace Channels

variable {A M : Type*} [DecidableEq A]

def send (chan : Channels A M) (a : A) (dest : A → Bool) (m : M) :
    Channels A M :=
  fun x y => if x = a ∧ dest y then chan x y ++ [m] else chan x y

def pop (chan : Channels A M) (a b : A) : Channels A M :=
  fun x y => if x = a ∧ y = b then (chan x y).tail else chan x y

variable {chan : Channels A M} {a b x y : A} {m m' : M} {dest : A → Bool}

theorem send_of_dest (h : dest y) : chan.send a dest m a y = chan a y ++ [m] :=
  if_pos ⟨rfl, h⟩

theorem send_of_ne (h : x ≠ a) : chan.send a dest m x y = chan x y :=
  if_neg fun hx => h hx.1

theorem send_of_not (h : ¬ dest y) : chan.send a dest m x y = chan x y :=
  if_neg fun hx => h hx.2

theorem pop_self : chan.pop a b a b = (chan a b).tail := if_pos ⟨rfl, rfl⟩

theorem pop_of_ne (h : ¬ (x = a ∧ y = b)) : chan.pop a b x y = chan x y :=
  if_neg h

theorem mem_send : m' ∈ chan.send a dest m x y ↔
    m' ∈ chan x y ∨ (x = a ∧ dest y ∧ m' = m) := by
  unfold send
  split
  · next h => simp [h.1, h.2]
  · next h =>
      constructor
      · exact fun hm => .inl hm
      · rintro (hm | ⟨hx, hy, _⟩)
        · exact hm
        · exact absurd ⟨hx, hy⟩ h

theorem mem_send_self (h : dest y) : m ∈ chan.send a dest m a y :=
  mem_send.mpr (.inr ⟨rfl, h, rfl⟩)

theorem mem_send_of_mem (h : m' ∈ chan x y) : m' ∈ chan.send a dest m x y :=
  mem_send.mpr (.inl h)

theorem mem_of_mem_pop (h : m ∈ chan.pop a b x y) : m ∈ chan x y := by
  unfold pop at h
  split at h
  · exact List.mem_of_mem_tail h
  · exact h

/-- A message is either the one that was taken off or still on its way. -/
theorem mem_pop_or {rest : List M} (hab : chan a b = m :: rest)
    (h : m' ∈ chan x y) :
    (x = a ∧ y = b ∧ m' = m) ∨ m' ∈ chan.pop a b x y := by
  by_cases hxy : x = a ∧ y = b
  · obtain ⟨rfl, rfl⟩ := hxy
    rw [hab] at h
    rcases List.mem_cons.mp h with rfl | h
    · exact .inl ⟨rfl, rfl, rfl⟩
    · right
      rw [pop_self, hab]
      exact h
  · right
    rw [pop_of_ne hxy]
    exact h

end Channels

end Infinisql.Lib
