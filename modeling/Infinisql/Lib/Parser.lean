import Infinisql.Lib.Codec

/-!
# Parsers of binary formats

A parser takes a value off the front of some bytes, or fails. What is said of
one is which bytes it takes for a value, `Takes`, whatever comes behind them,
and there is a rule for each way to put parsers together. Numbers come with
the highest byte first, and with a sign.
-/

namespace Infinisql.Lib

abbrev Parser (α : Type) := StateT (List UInt8) Option α

namespace Parser

variable {α β : Type} {p : Parser α} {s s' : List UInt8} {a : α} {b : β}

/-- The next `n` bytes. -/
def bytes (n : Nat) : Parser (List UInt8) := fun s =>
  if n ≤ s.length then some (s.take n, s.drop n) else none

/-- The bytes up to a zero, which is taken as well. -/
def untilZero : Parser (List UInt8)
  | [] => none
  | b :: s =>
      if b = 0 then some ([], s)
      else (untilZero s).map fun r => (b :: r.1, r.2)

/-- A number of `n` bytes in two's complement, the highest byte first. -/
def signed (n : Nat) (s : List UInt8) : Int :=
  let v := ofLeBytes s.reverse
  if v < 2 ^ (8 * n - 1) then v else v - (2 ^ (8 * n) : Nat)

def int (n : Nat) : Parser Int := do
  let s ← bytes n
  pure (signed n s)

def require (c : Prop) [Decidable c] : Parser Unit := fun s =>
  if c then some ((), s) else none

def lift (a : Option α) : Parser α := fun s => a.map fun a => (a, s)

/-- So many values. -/
def times (p : Parser α) : Nat → Parser (List α)
  | 0 => pure []
  | n + 1 => do
      let a ← p
      let as ← times p n
      pure (a :: as)

/-- A value for each element of a list. -/
def forAll (p : β → Parser α) : List β → Parser (List α)
  | [] => pure []
  | b :: bs => do
      let a ← p b
      let as ← forAll p bs
      pure (a :: as)

/-- Values to the end, in at most so many rounds. -/
def toEnd (p : Parser α) : Nat → Parser (List α)
  | 0 => fun s => if s = [] then some ([], []) else none
  | fuel + 1 => fun s =>
      if s = [] then some ([], [])
      else (do
        let a ← p
        let as ← toEnd p fuel
        pure (a :: as)) s

/-- All of the bytes. -/
def run (p : Parser α) (s : List UInt8) : Option α :=
  match p s with
  | some (a, []) => some a
  | _ => none

/-- The parser takes these bytes for the value. -/
def Takes (p : Parser α) (s : List UInt8) (a : α) : Prop :=
  ∀ rest, p (s ++ rest) = some (a, rest)

theorem takes_pure (a : α) : Takes (pure a) [] a := fun _ => rfl

theorem bind_apply (p : Parser α) (f : α → Parser β) (s : List UInt8) :
    (p >>= f) s = (p s).bind fun r => f r.1 r.2 := rfl

theorem Takes.bind {f : α → Parser β} (h : Takes p s a)
    (h' : Takes (f a) s' b) : Takes (p >>= f) (s ++ s') b := by
  intro rest
  rw [bind_apply, List.append_assoc, h, Option.bind_some]
  exact h' rest

/-- A step that fails behind one that does not. -/
theorem Takes.bind_none {f : α → Parser β} (h : Takes p s a)
    (h' : f a s' = none) : (p >>= f) (s ++ s') = none := by
  rw [bind_apply, h, Option.bind_some]
  exact h'

theorem bind_eq_none {f : α → Parser β} (h : p s = none) :
    (p >>= f) s = none := by
  rw [bind_apply, h, Option.bind_none]

/-- The last step. -/
theorem Takes.map {f : α → β} (h : Takes p s a) :
    Takes (p >>= fun a => pure (f a)) s (f a) := by
  have hboth := h.bind (f := fun a => pure (f a)) (takes_pure (f a))
  rwa [List.append_nil] at hboth

theorem takes_bytes {n : Nat} (h : s.length = n) : Takes (bytes n) s s := by
  intro rest
  have hle : n ≤ (s ++ rest).length := by
    rw [List.length_append]
    omega
  rw [bytes, if_pos hle, List.take_left' h, List.drop_left' h]

theorem takes_untilZero (h : 0 ∉ s) : Takes untilZero (s ++ [0]) s := by
  intro rest
  induction s with
  | nil => rfl
  | cons b s ih =>
      have hb : b ≠ 0 := fun hb => h (hb ▸ List.mem_cons_self ..)
      rw [List.cons_append, List.cons_append, untilZero, if_neg hb,
        ih fun hs => h (List.mem_cons_of_mem _ hs)]
      rfl

theorem takes_require {c : Prop} [Decidable c] (h : c) :
    Takes (require c) [] () := by
  intro rest
  rw [require, if_pos h]
  rfl

theorem takes_lift (a : α) : Takes (lift (some a)) [] a := fun _ => rfl

/-- A step that takes no bytes. -/
theorem Takes.then {f : α → Parser β} (h : Takes p [] a)
    (h' : Takes (f a) s b) : Takes (p >>= f) s b := h.bind h'

/-- The bytes of a number are read as what is left of it in so many. -/
theorem signed_complement {n : Nat} (hn : 0 < n) (v : Int) :
    signed n (leBytes n (v % (2 ^ (8 * n) : Nat)).toNat).reverse =
      v.bmod (2 ^ (8 * n)) := by
  have hpow : 2 ^ (8 * n) = 2 * 2 ^ (8 * n - 1) := by
    rw [← Nat.pow_succ']
    congr 1
    omega
  have hword : 256 ^ n = 2 ^ (8 * n) := by rw [Nat.pow_mul]
  have hpos : 0 < 2 ^ (8 * n - 1) := Nat.two_pow_pos _
  rw [signed, List.reverse_reverse, ofLeBytes_leBytes, hword, Int.bmod]
  generalize 2 ^ (8 * n - 1) = m at hpow hpos ⊢
  rw [hpow]
  have hlow := Int.emod_nonneg v (b := ((2 * m : Nat) : Int)) (by omega)
  have hhigh := Int.emod_lt_of_pos v (b := ((2 * m : Nat) : Int)) (by omega)
  generalize v % ((2 * m : Nat) : Int) = r at hlow hhigh ⊢
  rw [Nat.mod_eq_of_lt (by omega)]
  split <;> split <;> omega

theorem takes_bmod {n : Nat} (hn : 0 < n) (v : Int) :
    Takes (int n) (leBytes n (v % (2 ^ (8 * n) : Nat)).toNat).reverse
      (v.bmod (2 ^ (8 * n))) := by
  have hbytes := (takes_bytes (s := (leBytes n
    (v % (2 ^ (8 * n) : Nat)).toNat).reverse) (n := n)
    (by rw [List.length_reverse, length_leBytes])).map (f := signed n)
  rwa [signed_complement hn] at hbytes

/-- A number that there is room for is read as it was. -/
theorem takes_int {n : Nat} (hn : 0 < n) {v : Int}
    (hlow : -(2 ^ (8 * n - 1) : Nat) ≤ v)
    (hhigh : v < (2 ^ (8 * n - 1) : Nat)) :
    Takes (int n) (leBytes n (v % (2 ^ (8 * n) : Nat)).toNat).reverse v := by
  have hpow : 2 ^ (8 * n) = 2 * 2 ^ (8 * n - 1) := by
    rw [← Nat.pow_succ']
    congr 1
    omega
  have hfits : v.bmod (2 ^ (8 * n)) = v := by
    refine Int.bmod_eq_of_le ?_ ?_ <;> omega
  have hbytes := takes_bmod hn v
  rwa [hfits] at hbytes

theorem takes_times {f : β → List UInt8} {g : β → α} {bs : List β}
    (h : ∀ b ∈ bs, Takes p (f b) (g b)) :
    Takes (times p bs.length) (bs.flatMap f) (bs.map g) := by
  induction bs with
  | nil => exact takes_pure []
  | cons b bs ih =>
      rw [List.flatMap_cons, List.map_cons]
      exact (h b (List.mem_cons_self ..)).bind
        (ih fun c hc => h c (List.mem_cons_of_mem _ hc)).map

theorem takes_forAll_cons {p : β → Parser α} {bs : List β} {as : List α}
    (h : Takes (p b) s a) (hs : Takes (forAll p bs) s' as) :
    Takes (forAll p (b :: bs)) (s ++ s') (a :: as) := h.bind hs.map

theorem toEnd_succ {fuel : Nat} (h : s ≠ []) :
    toEnd p (fuel + 1) s = (p >>= fun a =>
      toEnd p fuel >>= fun as => pure (a :: as)) s := if_neg h

theorem toEnd_eq {f : β → List UInt8} {g : β → α} {bs : List β} {fuel : Nat}
    (h : ∀ b ∈ bs, Takes p (f b) (g b)) (hne : ∀ b ∈ bs, f b ≠ [])
    (hfuel : bs.length ≤ fuel) :
    toEnd p fuel (bs.flatMap f) = some (bs.map g, []) := by
  induction bs generalizing fuel with
  | nil => cases fuel <;> rfl
  | cons b bs ih =>
      cases fuel with
      | zero => simp at hfuel
      | succ fuel =>
          have hcons : f b ++ bs.flatMap f ≠ [] :=
            fun hnil => hne b (List.mem_cons_self ..)
              (List.append_eq_nil_iff.mp hnil).1
          rw [List.flatMap_cons, toEnd_succ hcons, bind_apply,
            h b (List.mem_cons_self ..), Option.bind_some, bind_apply,
            ih (fun c hc => h c (List.mem_cons_of_mem _ hc))
              (fun c hc => hne c (List.mem_cons_of_mem _ hc))
              (Nat.le_of_succ_le_succ hfuel)]
          rfl

theorem run_eq (h : Takes p s a) : run p s = some a := by
  have hs := h []
  rw [List.append_nil] at hs
  rw [run, hs]

end Parser

end Infinisql.Lib
