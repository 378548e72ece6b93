import Mathlib.Algebra.Group.Int.Defs
import Mathlib.Algebra.GroupWithZero.Nat
import Mathlib.Data.List.Basic

/-!
# Writers and readers over a byte buffer

A codec of the hand-written kind: one family of functions writes values into
a buffer of a size computed beforehand, a second computes that size, a third
reads the values back, and the three are kept in step by hand. Nothing in
this file knows what the values are.

The buffer is a list of bytes and a position, and a writer or a reader is a
computation that moves the position and may fail, which is what running off
the end of the buffer is. `Writes m bytes` says all there is to say about a
writer: where the buffer has room for these bytes it puts them at its
position, and where it has not it fails. `Reads m bytes a` says that a reader
takes these bytes for the value `a`. `Carries` joins the two over the same
bytes, and its rules follow the shape of the code: one for a step that is
followed by others, one for the last step, one for a counted loop.

The size is an argument of `Carries` rather than part of the codec, since
whether the computed size is the written one is the question.
-/

namespace Infinisql.Lib

/-- The bytes and the position of the next one. -/
structure Buffer where
  data : List UInt8
  pos : Nat
  deriving DecidableEq

/-- A computation on the buffer that may run off its end. -/
abbrev BufferM := StateT Buffer Option

namespace Buffer

/-- A buffer of zeros. -/
def zeros (size : Nat) : Buffer := ⟨List.replicate size 0, 0⟩

/-- Copy the bytes in at the position. The first of them must be inside the
buffer, and so must the last. -/
def write (bytes : List UInt8) : BufferM Unit := fun b =>
  if b.pos < b.data.length ∧ b.pos + bytes.length ≤ b.data.length then
    some ((), ⟨b.data.take b.pos ++ bytes ++ b.data.drop (b.pos + bytes.length),
      b.pos + bytes.length⟩)
  else none

/-- Copy out the next `n` bytes, under the same conditions. -/
def read (n : Nat) : BufferM (List UInt8) := fun b =>
  if b.pos < b.data.length ∧ b.pos + n ≤ b.data.length then
    some ((b.data.drop b.pos).take n, ⟨b.data, b.pos + n⟩)
  else none

end Buffer

/-! ## Little-endian numbers -/

/-- The low `n` bytes of a number, the lowest first. -/
def leBytes : Nat → Nat → List UInt8
  | 0, _ => []
  | n + 1, v => UInt8.ofNat v :: leBytes n (v / 256)

def ofLeBytes : List UInt8 → Nat
  | [] => 0
  | b :: bs => b.toNat + 256 * ofLeBytes bs

theorem leBytes_succ (n v : Nat) :
    leBytes (n + 1) v = UInt8.ofNat v :: leBytes n (v / 256) := rfl

theorem ofLeBytes_cons (b : UInt8) (bs : List UInt8) :
    ofLeBytes (b :: bs) = b.toNat + 256 * ofLeBytes bs := rfl

@[simp] theorem length_leBytes (n v : Nat) : (leBytes n v).length = n := by
  induction n generalizing v with
  | zero => rfl
  | succ n ih => rw [leBytes_succ, List.length_cons, ih]

theorem ofLeBytes_leBytes (n v : Nat) :
    ofLeBytes (leBytes n v) = v % 256 ^ n := by
  induction n generalizing v with
  | zero =>
      show 0 = v % 256 ^ 0
      omega
  | succ n ih =>
      have hlow : (UInt8.ofNat v).toNat = v % 256 := UInt8.toNat_ofNat'
      rw [leBytes_succ, ofLeBytes_cons, ih, hlow, Nat.pow_succ', Nat.mod_mul]

theorem ofLeBytes_lt (bs : List UInt8) : ofLeBytes bs < 256 ^ bs.length := by
  induction bs with
  | nil => decide
  | cons b bs ih =>
      have hb : b.toNat < 256 := b.toNat_lt
      rw [ofLeBytes_cons, List.length_cons, Nat.pow_succ']
      omega

theorem leBytes_ofLeBytes (bs : List UInt8) :
    leBytes bs.length (ofLeBytes bs) = bs := by
  induction bs with
  | nil => rfl
  | cons b bs ih =>
      have hb : b.toNat < 256 := b.toNat_lt
      rw [List.length_cons, leBytes_succ, ofLeBytes_cons]
      congr 1
      · apply UInt8.toNat_inj.mp
        rw [UInt8.toNat_ofNat']
        omega
      · rw [show (b.toNat + 256 * ofLeBytes bs) / 256 = ofLeBytes bs by omega,
          ih]

/-! ## Plain old data

A type whose values are copied by their bytes. -/

class Pod (α : Type) where
  sizeof : Nat
  toBytes : α → List UInt8
  ofBytes : List UInt8 → α
  sizeof_pos : 0 < sizeof
  length_toBytes : ∀ a, (toBytes a).length = sizeof
  ofBytes_toBytes : ∀ a, ofBytes (toBytes a) = a

namespace Pod

/-- A word of `n` bytes. -/
@[reducible] def word (n : Nat) (h : 0 < n) : Pod (BitVec (8 * n)) where
  sizeof := n
  toBytes v := leBytes n v.toNat
  ofBytes bytes := BitVec.ofNat (8 * n) (ofLeBytes bytes)
  sizeof_pos := h
  length_toBytes v := length_leBytes n v.toNat
  ofBytes_toBytes v := by
    have hpow : 256 ^ n = 2 ^ (8 * n) := by rw [Nat.pow_mul]
    rw [ofLeBytes_leBytes, hpow, Nat.mod_eq_of_lt v.isLt, BitVec.ofNat_toNat,
      BitVec.setWidth_eq]

instance : Pod (BitVec 8) := word 1 (by decide)
instance : Pod (BitVec 16) := word 2 (by decide)
instance : Pod (BitVec 32) := word 4 (by decide)
instance : Pod (BitVec 64) := word 8 (by decide)
instance : Pod (BitVec 128) := word 16 (by decide)

/-- Two values side by side, with nothing between them. -/
instance prod {α β : Type} [Pod α] [Pod β] : Pod (α × β) where
  sizeof := sizeof α + sizeof β
  toBytes p := toBytes p.1 ++ toBytes p.2
  ofBytes bytes :=
    (ofBytes (bytes.take (sizeof α)), ofBytes (bytes.drop (sizeof α)))
  sizeof_pos := Nat.add_pos_left sizeof_pos _
  length_toBytes p := by
    rw [List.length_append, length_toBytes, length_toBytes]
  ofBytes_toBytes p := by
    have htake : (toBytes p.1 ++ toBytes p.2).take (sizeof α) = toBytes p.1 :=
      List.take_left' (length_toBytes p.1)
    have hdrop : (toBytes p.1 ++ toBytes p.2).drop (sizeof α) = toBytes p.2 :=
      List.drop_left' (length_toBytes p.1)
    simp only [htake, hdrop, ofBytes_toBytes]

/-- A type laid out as another one is. -/
@[reducible] def via {α β : Type} [Pod β] (f : α → β) (g : β → α)
    (h : ∀ a, g (f a) = a) : Pod α where
  sizeof := sizeof β
  toBytes a := toBytes (f a)
  ofBytes bytes := g (ofBytes bytes)
  sizeof_pos := sizeof_pos
  length_toBytes a := length_toBytes (f a)
  ofBytes_toBytes a := by rw [ofBytes_toBytes, h]

/-- A boolean is the byte 0 or 1, and any other byte reads as true. -/
instance : Pod Bool :=
  via (β := BitVec 8) (fun b => if b then 1#8 else 0#8) (fun v => v != 0#8)
    (by decide)

end Pod

/-! ## What a writer and a reader do -/

/-- The writer puts these bytes down where they fit, and fails elsewhere. -/
structure Writes (m : BufferM Unit) (bytes : List UInt8) : Prop where
  fits : ∀ front old back, old.length = bytes.length →
    m ⟨front ++ old ++ back, front.length⟩ =
      some ((), ⟨front ++ bytes ++ back, front.length + bytes.length⟩)
  overflow : ∀ front back, back.length < bytes.length →
    m ⟨front ++ back, front.length⟩ = none

/-- The reader takes these bytes for the value, wherever they are. -/
def Reads {α : Type} (m : BufferM α) (bytes : List UInt8) (a : α) : Prop :=
  ∀ front back, m ⟨front ++ bytes ++ back, front.length⟩ =
    some (a, ⟨front ++ bytes ++ back, front.length + bytes.length⟩)

/-- The writer and the reader agree on `n` bytes for the value. -/
def Carries {α : Type} (w : BufferM Unit) (r : BufferM α) (n : Nat) (a : α) :
    Prop :=
  ∃ bytes, bytes.length = n ∧ Writes w bytes ∧ Reads r bytes a

variable {α β : Type} {w w' : BufferM Unit} {r : BufferM α} {n n' : Nat}
  {a : α} {b : β} {bytes bytes' : List UInt8}

theorem bind_eq {m : BufferM α} {f : α → BufferM β} (s : Buffer) :
    (m >>= f) s = (m s).bind fun p => f p.1 p.2 := rfl

theorem writes_nil : Writes (pure ()) [] where
  fits front old back h := by
    obtain rfl := List.length_eq_zero_iff.mp h
    rfl
  overflow front back h := absurd h (by simp)

theorem writes_write (h : 0 < bytes.length) :
    Writes (Buffer.write bytes) bytes where
  fits front old back hlen := by
    have hfit : front.length < (front ++ old ++ back).length ∧
        front.length + bytes.length ≤ (front ++ old ++ back).length := by
      simp only [List.length_append]
      omega
    have htake : (front ++ old ++ back).take front.length = front := by
      rw [List.append_assoc, List.take_left']
      rfl
    have hdrop : (front ++ old ++ back).drop
        (front.length + bytes.length) = back := by
      rw [List.drop_left']
      rw [List.length_append, hlen]
    show (if _ then _ else _) = _
    rw [if_pos hfit, htake, hdrop]
  overflow front back hlen := by
    show (if _ then _ else _) = _
    rw [if_neg]
    simp only [List.length_append]
    omega

/-- One writer after another. -/
theorem Writes.bind (h : Writes w bytes) (h' : Writes w' bytes') :
    Writes (w >>= fun _ => w') (bytes ++ bytes') where
  fits front old back hlen := by
    rw [List.length_append] at hlen
    have hfirst := h.fits front (old.take bytes.length)
      (old.drop bytes.length ++ back) (by rw [List.length_take]; omega)
    have hnext := h'.fits (front ++ bytes) (old.drop bytes.length) back
      (by rw [List.length_drop]; omega)
    have hold : front ++ old ++ back = front ++ old.take bytes.length ++
        (old.drop bytes.length ++ back) := by
      rw [← List.append_assoc, List.append_assoc front (old.take _),
        List.take_append_drop]
    rw [bind_eq, hold, hfirst, Option.bind_some]
    rw [List.length_append] at hnext
    rw [← List.append_assoc, hnext]
    simp only [List.append_assoc, List.length_append, Nat.add_assoc]
  overflow front back hlen := by
    rw [List.length_append] at hlen
    rw [bind_eq]
    rcases Nat.lt_or_ge back.length bytes.length with hshort | hlong
    · rw [h.overflow front back hshort, Option.bind_none]
    · have hfirst := h.fits front (back.take bytes.length)
        (back.drop bytes.length) (by rw [List.length_take]; omega)
      have hnext := h'.overflow (front ++ bytes) (back.drop bytes.length)
        (by rw [List.length_drop]; omega)
      rw [List.append_assoc, List.take_append_drop] at hfirst
      rw [List.length_append] at hnext
      rw [hfirst, Option.bind_some, hnext]

theorem reads_pure : Reads (pure a) [] a := by
  intro front back
  rfl

theorem reads_read (h : 0 < bytes.length) :
    Reads (Buffer.read bytes.length) bytes bytes := by
  intro front back
  have hfit : front.length < (front ++ bytes ++ back).length ∧
      front.length + bytes.length ≤ (front ++ bytes ++ back).length := by
    simp only [List.length_append]
    omega
  have htaken : ((front ++ bytes ++ back).drop front.length).take
      bytes.length = bytes := by
    rw [List.append_assoc, List.drop_left' rfl, List.take_left' rfl]
  show (if _ then _ else _) = _
  rw [if_pos hfit, htaken]

/-- A reader that goes on with the value it read. -/
theorem Reads.bind {f : α → BufferM β} (h : Reads r bytes a)
    (h' : Reads (f a) bytes' b) : Reads (r >>= f) (bytes ++ bytes') b := by
  intro front back
  have hfirst := h front (bytes' ++ back)
  have hnext := h' (front ++ bytes) back
  have hcut : front ++ (bytes ++ bytes') ++ back =
      front ++ bytes ++ (bytes' ++ back) := by
    simp only [List.append_assoc]
  rw [bind_eq, hcut, hfirst, Option.bind_some]
  rw [List.append_assoc (front ++ bytes), List.length_append] at hnext
  rw [hnext, List.length_append, Nat.add_assoc]

theorem Reads.map {g : α → β} (h : Reads r bytes a) :
    Reads (r >>= fun x => pure (g x)) bytes (g a) := by
  have hboth := h.bind (f := fun x => pure (g x)) reads_pure
  rwa [List.append_nil] at hboth

/-! ## The rules of `Carries` -/

theorem carries_nil : Carries (pure ()) (pure a) 0 a :=
  ⟨[], rfl, writes_nil, reads_pure⟩

/-- A step with others after it. -/
theorem Carries.bind {f : α → BufferM β} (h : Carries w r n a)
    (h' : Carries w' (f a) n' b) :
    Carries (w >>= fun _ => w') (r >>= f) (n + n') b := by
  obtain ⟨bytes, hlen, hw, hr⟩ := h
  obtain ⟨bytes', hlen', hw', hr'⟩ := h'
  exact ⟨bytes ++ bytes', by rw [List.length_append, hlen, hlen'],
    hw.bind hw', hr.bind hr'⟩

/-- The last step: the reader makes its result of the value. -/
theorem Carries.last (h : Carries w r n a) (g : α → β) :
    Carries w (r >>= fun x => pure (g x)) n (g a) := by
  obtain ⟨bytes, hlen, hw, hr⟩ := h
  exact ⟨bytes, hlen, hw, hr.map⟩

theorem Carries.of_size (h : Carries w r n a) (hsize : n = n') :
    Carries w r n' a := hsize ▸ h

/-! Plain old data goes by its bytes. -/

theorem toBytes_pos [Pod α] (a : α) : 0 < (Pod.toBytes a).length := by
  rw [Pod.length_toBytes]
  exact Pod.sizeof_pos

theorem reads_pod [Pod α] (a : α) :
    Reads (Buffer.read (Pod.sizeof α) >>= fun bytes =>
      pure (Pod.ofBytes bytes)) (Pod.toBytes a) a := by
  have hread := (reads_read (toBytes_pos a)).map (g := (Pod.ofBytes : _ → α))
  rwa [Pod.ofBytes_toBytes, Pod.length_toBytes] at hread

theorem carries_pod [Pod α] (a : α) :
    Carries (Buffer.write (Pod.toBytes a))
      (Buffer.read (Pod.sizeof α) >>= fun bytes => pure (Pod.ofBytes bytes))
      (Pod.sizeof α) a :=
  ⟨Pod.toBytes a, Pod.length_toBytes a, writes_write (toBytes_pos a),
    reads_pod a⟩

/-! ## Counted loops

The writer goes over a list; the reader makes as many rounds, putting each
value into what it has so far. -/

def writeAll (f : α → BufferM Unit) : List α → BufferM Unit
  | [] => pure ()
  | a :: as => do
      f a
      writeAll f as

def readInto (r : BufferM α) (put : β → α → β) : Nat → β → BufferM β
  | 0, c => pure c
  | n + 1, c => do
      let a ← r
      readInto r put n (put c a)

theorem carries_loop {f : α → BufferM Unit} {size : α → Nat}
    (put : β → α → β) {as : List α}
    (h : ∀ a ∈ as, Carries (f a) r (size a) a) (c : β) :
    Carries (writeAll f as) (readInto r put as.length c)
      (as.map size).sum (as.foldl put c) := by
  induction as generalizing c with
  | nil => exact carries_nil
  | cons a as ih =>
      have hhead := h a (List.mem_cons_self ..)
      have htail := ih (fun x hx => h x (List.mem_cons_of_mem _ hx)) (put c a)
      rw [List.map_cons, List.sum_cons]
      exact hhead.bind htail

/-! ## Writers that cannot go on

A writer may also be wrong wherever it is called, once the position is past
some point. -/

def FailsFrom (n : Nat) (w : BufferM Unit) : Prop :=
  ∀ front back, n ≤ front.length → w ⟨front ++ back, front.length⟩ = none

theorem FailsFrom.bind (h : FailsFrom n w) :
    FailsFrom n (w >>= fun _ => w') := by
  intro front back hn
  rw [bind_eq, h front back hn, Option.bind_none]

theorem Writes.bind_fails (h : Writes w bytes)
    (h' : FailsFrom (n + bytes.length) w') :
    FailsFrom n (w >>= fun _ => w') := by
  intro front back hn
  rw [bind_eq]
  rcases Nat.lt_or_ge back.length bytes.length with hshort | hlong
  · rw [h.overflow front back hshort, Option.bind_none]
  · have hfirst := h.fits front (back.take bytes.length)
      (back.drop bytes.length) (by rw [List.length_take]; omega)
    have hnext := h' (front ++ bytes) (back.drop bytes.length)
      (by rw [List.length_append]; omega)
    rw [List.append_assoc, List.take_append_drop] at hfirst
    rw [List.length_append] at hnext
    rw [hfirst, Option.bind_some, hnext]

theorem Carries.bind_fails (h : Carries w r n a) {m : Nat}
    (h' : FailsFrom (m + n) w') : FailsFrom m (w >>= fun _ => w') := by
  obtain ⟨bytes, rfl, hw, -⟩ := h
  exact hw.bind_fails h'

theorem FailsFrom.mono (h : FailsFrom n w) (hle : n ≤ n') : FailsFrom n' w :=
  fun front back hn => h front back (Nat.le_trans hle hn)

theorem FailsFrom.zeros (h : FailsFrom 0 w) (size : Nat) :
    w (Buffer.zeros size) = none :=
  h [] (List.replicate size 0) (Nat.zero_le _)

/-! ## A buffer of its own

A message is written into a fresh buffer of the computed size and read from
its start. -/

/-- In a buffer at least as long as the bytes, what is left over stays
zero. -/
theorem Writes.zeros (h : Writes w bytes) (hfit : bytes.length ≤ n) :
    w (Buffer.zeros n) = some ((),
      ⟨bytes ++ List.replicate (n - bytes.length) 0, bytes.length⟩) := by
  have hall := h.fits [] (List.replicate bytes.length 0)
    (List.replicate (n - bytes.length) 0) (List.length_replicate ..)
  rw [List.append_assoc, List.replicate_append_replicate,
    Nat.add_sub_cancel' hfit] at hall
  simpa [Buffer.zeros] using hall

theorem Writes.zeros_overflow (h : Writes w bytes) (hover : n < bytes.length) :
    w (Buffer.zeros n) = none :=
  h.overflow [] (List.replicate n 0) (by rwa [List.length_replicate])

/-- In a buffer of the size that is written, everything is written, and
reading it back gives the value and stops at the end. -/
theorem Carries.zeros (h : Carries w r n a) :
    ∃ s, w (Buffer.zeros n) = some ((), ⟨s, n⟩) ∧ s.length = n ∧
      r ⟨s, 0⟩ = some (a, ⟨s, n⟩) := by
  obtain ⟨bytes, rfl, hw, hr⟩ := h
  have hwrite := hw.zeros (Nat.le_refl _)
  rw [Nat.sub_self, List.replicate_zero, List.append_nil] at hwrite
  exact ⟨bytes, hwrite, rfl, by simpa using hr [] []⟩

/-- A buffer of any size: it is filled to its end exactly when the size is
the one that is written. -/
theorem Carries.fills_iff (h : Carries w r n a) (size : Nat) :
    (∃ s, w (Buffer.zeros size) = some ((), ⟨s, s.length⟩)) ↔
      size = n := by
  constructor
  · rintro ⟨s, hs⟩
    obtain ⟨bytes, rfl, hw, -⟩ := h
    rcases Nat.lt_or_ge size bytes.length with hover | hfit
    · rw [hw.zeros_overflow hover] at hs
      cases hs
    · rw [hw.zeros hfit] at hs
      injection hs with hs
      injection hs with _ hs
      injection hs with hdata hpos
      rw [← hdata, List.length_append, List.length_replicate] at hpos
      omega
  · intro hsize
    subst hsize
    obtain ⟨s, hs, hlen, -⟩ := h.zeros
    exact ⟨s, hlen ▸ hs⟩

end Infinisql.Lib
