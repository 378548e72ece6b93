import Infinisql.Lib.Run
import Infinisql.Ref.Mbox

/-!
# What the mailbox delivers

The messages that were ever in the queue form a chain: the first one, and
then every message that was linked, in order. The consumer stands at one
place of it and has deleted all before. `tail` stands at a place too, but
nothing ties the two places together: a producer that has linked its message
and not yet swung `tail` leaves it where it was, and the consumer goes past.

What a producer remembers of `tail` is at or before the place where `tail` is
now, and at that place only if it is the same pointer. This is what makes the
comparison mean something, and with it the chain never branches: the messages
are returned in the order they were linked, each once. It says nothing about
whether the message a producer is about to read still exists.
-/

namespace Infinisql.Proofs

open Infinisql.Lib Infinisql.Ref

/-! ## Places in the chain -/

/-- The messages that were ever in the queue. -/
def chain (s : MboxSystem) : List Addr := Mbox.firstMsg :: s.linked

/-- A pointer names the message at a place. -/
def At (l : List Addr) (p : MsgPtr) (i : Nat) : Prop :=
  ∃ n, l[i]? = some n ∧ p.ptr = some n

theorem At.append {l : List Addr} {p : MsgPtr} {i : Nat} (h : At l p i)
    (m : List Addr) : At (l ++ m) p i := by
  obtain ⟨n, hn, hp⟩ := h
  obtain ⟨hi, _⟩ := List.getElem?_eq_some_iff.mp hn
  exact ⟨n, by rw [List.getElem?_append_left hi, hn], hp⟩

theorem getElem?_inj_of_nodup {l : List Addr} (hl : l.Nodup) {i j : Nat}
    {n : Addr} (hi : l[i]? = some n) (hj : l[j]? = some n) : i = j := by
  obtain ⟨hlt, hget⟩ := List.getElem?_eq_some_iff.mp hi
  obtain ⟨hlt', hget'⟩ := List.getElem?_eq_some_iff.mp hj
  exact (hl.getElem_inj_iff).mp (hget.trans hget'.symm)

theorem At.inj {l : List Addr} (hl : l.Nodup) {p : MsgPtr} {i j : Nat}
    (hi : At l p i) (hj : At l p j) : i = j := by
  obtain ⟨n, hn, hp⟩ := hi
  obtain ⟨m, hm, hp'⟩ := hj
  obtain rfl := Option.some.inj (hp.symm.trans hp')
  exact getElem?_inj_of_nodup hl hn hm

/-- What a producer remembers of `tail`, where `tail` is at place `t`. -/
structure Behind (l : List Addr) (tail : MsgPtr) (t : Nat) (mytail : MsgPtr)
    (i : Nat) : Prop where
  place : At l mytail i
  le : i ≤ t
  same : i = t → mytail = tail

theorem Behind.append {l : List Addr} {tail mytail : MsgPtr} {t i : Nat}
    (h : Behind l tail t mytail i) (m : List Addr) :
    Behind (l ++ m) tail t mytail i :=
  ⟨h.place.append m, h.le, h.same⟩

theorem Behind.advance {l : List Addr} {tail mytail : MsgPtr} {t i : Nat}
    (h : Behind l tail t mytail i) (tail' : MsgPtr) :
    Behind l tail' (t + 1) mytail i := by
  have hle := h.le
  exact ⟨h.place, by omega, fun heq => by omega⟩

/-- Where `tail` still is what the producer remembers, so is its place. -/
theorem Behind.eq_of_eq {l : List Addr} (hl : l.Nodup)
    {tail mytail : MsgPtr} {t i : Nat} (h : Behind l tail t mytail i)
    (htail : At l tail t) (heq : mytail = tail) : i = t := by
  subst heq
  exact h.place.inj hl htail

/-- What the locals of a producer say of the chain. -/
def Stands (l : List Addr) (tail : MsgPtr) (t : Nat) : SendMsg → Prop
  | .idle | .loadTail _ => True
  | .loadNext _ mytail => ∃ i, Behind l tail t mytail i
  | .compareTail _ mytail mynext =>
      ∃ i, Behind l tail t mytail i ∧
        (mynext.ptr ≠ none → At l mynext (i + 1))
  | .countLink _ mytail mynext | .swapNext _ mytail mynext _ =>
      ∃ i, Behind l tail t mytail i ∧ mynext.ptr = none
  | .countSwing _ mytail mynext | .swingTail _ mytail mynext _ =>
      ∃ i, Behind l tail t mytail i ∧ At l mynext (i + 1)
  | .countFinish msg mytail | .finishTail msg mytail _ =>
      ∃ i, Behind l tail t mytail i ∧ l[i + 1]? = some msg

theorem Stands.append {l : List Addr} {tail : MsgPtr} {t : Nat} {pc : SendMsg}
    (h : Stands l tail t pc) (m : List Addr) : Stands (l ++ m) tail t pc := by
  cases pc with
  | idle | loadTail => trivial
  | loadNext msg mytail =>
      obtain ⟨i, hi⟩ := h
      exact ⟨i, hi.append m⟩
  | compareTail msg mytail mynext =>
      obtain ⟨i, hi, hnext⟩ := h
      exact ⟨i, hi.append m, fun hne => (hnext hne).append m⟩
  | countLink msg mytail mynext | swapNext msg mytail mynext count =>
      obtain ⟨i, hi, hnext⟩ := h
      exact ⟨i, hi.append m, hnext⟩
  | countSwing msg mytail mynext | swingTail msg mytail mynext count =>
      obtain ⟨i, hi, hnext⟩ := h
      exact ⟨i, hi.append m, hnext.append m⟩
  | countFinish msg mytail | finishTail msg mytail count =>
      obtain ⟨i, hi, hnext⟩ := h
      obtain ⟨hlt, _⟩ := List.getElem?_eq_some_iff.mp hnext
      exact ⟨i, hi.append m, by rw [List.getElem?_append_left hlt, hnext]⟩

/-- `tail` moves on by one place, and every memory of it stays behind. -/
theorem Stands.advance {l : List Addr} {tail : MsgPtr} {t : Nat} {pc : SendMsg}
    (h : Stands l tail t pc) (tail' : MsgPtr) :
    Stands l tail' (t + 1) pc := by
  cases pc with
  | idle | loadTail => trivial
  | loadNext msg mytail =>
      obtain ⟨i, hi⟩ := h
      exact ⟨i, hi.advance tail'⟩
  | _ =>
      obtain ⟨i, hi, hnext⟩ := h
      exact ⟨i, hi.advance tail', hnext⟩

/-- The message of a producer that has not linked it yet. -/
def unlinked : SendMsg → Option Addr
  | .idle | .countFinish _ _ | .finishTail _ _ _ => none
  | .loadTail msg | .loadNext msg _ | .compareTail msg _ _
  | .countLink msg _ _ | .swapNext msg _ _ _ | .countSwing msg _ _
  | .swingTail msg _ _ _ => some msg

/-! ## The invariant -/

structure MboxInv (s : MboxSystem) : Prop where
  nodup : (chain s).Nodup
  lt : ∀ n ∈ chain s, n < s.nextAddr
  /-- The messages before `current` are deleted, each other names the one
  after it. -/
  next : ∀ i n, (chain s)[i]? = some n →
    if i < s.returned.length then s.mbox.nextmsg n = none
    else ∃ c, s.mbox.nextmsg n = some ⟨(chain s)[i + 1]?, c⟩
  returned : s.returned <+: s.linked
  current : At (chain s) s.mbox.current s.returned.length
  consumer : ∀ mynext, s.consumer = .leave mynext →
    At (chain s) mynext (s.returned.length + 1)
  tail : ∃ t, At (chain s) s.mbox.tail t ∧
    ∀ p, Stands (chain s) s.mbox.tail t (s.producers p)
  own : ∀ p n, unlinked (s.producers p) = some n →
    n < s.nextAddr ∧ n ∉ chain s ∧ s.mbox.nextmsg n = some ⟨none, 5555⟩
  distinct : ∀ p q n, unlinked (s.producers p) = some n →
    unlinked (s.producers q) = some n → p = q

theorem mboxInv_new : MboxInv .new where
  nodup := List.nodup_singleton _
  lt := by simp [chain, MboxSystem.new, Mbox.firstMsg]
  next := by
    intro i n hn
    obtain ⟨hi, hn⟩ := List.getElem?_eq_some_iff.mp hn
    obtain rfl : i = 0 := by
      have : i < 1 := hi
      omega
    obtain rfl : Mbox.firstMsg = n := hn
    exact ⟨5000, rfl⟩
  returned := List.nil_prefix
  current := ⟨_, rfl, rfl⟩
  consumer := fun _ h => absurd h (by simp [MboxSystem.new])
  tail := ⟨0, ⟨_, rfl, rfl⟩, fun _ => trivial⟩
  own := fun _ _ h => absurd h (by simp [MboxSystem.new, unlinked])
  distinct := fun _ _ _ h => absurd h (by simp [MboxSystem.new, unlinked])

/-- A message that is there to be read, at its place. -/
theorem MboxInv.next_eq {s : MboxSystem} (h : MboxInv s) {p v : MsgPtr}
    {i : Nat} (hat : At (chain s) p i) (hnext : s.mbox.next p = some v) :
    s.returned.length ≤ i ∧ v.ptr = (chain s)[i + 1]? := by
  obtain ⟨n, hn, hp⟩ := hat
  rw [Mbox.next, hp, Option.bind_some] at hnext
  have hcell := h.next i n hn
  split at hcell
  · exact absurd (hcell.symm.trans hnext) (by simp)
  · next hlt =>
      obtain ⟨c, hc⟩ := hcell
      obtain rfl := Option.some.inj (hc.symm.trans hnext)
      exact ⟨by omega, rfl⟩

/-! ## What each step keeps -/

@[simp] theorem chain_sendMsg (s : MboxSystem) (p : Nat) :
    chain (s.sendMsg p) = chain s := by
  rw [MboxSystem.sendMsg]
  split <;> rfl

theorem mboxInv_sendMsg {s : MboxSystem} (h : MboxInv s) (p : Nat) :
    MboxInv (s.sendMsg p) := by
  have hchain := chain_sendMsg s p
  rw [MboxSystem.sendMsg] at hchain ⊢
  split
  · next hidle =>
    rw [if_pos hidle] at hchain
    have hnew : ∀ n ∈ chain s, n ≠ s.nextAddr := fun n hn =>
      Nat.ne_of_lt (h.lt n hn)
    have hkeep : ∀ n ≠ s.nextAddr,
        (s.mbox.create s.nextAddr).nextmsg n = s.mbox.nextmsg n :=
      fun n hn => Function.update_of_ne hn _ _
    have hother : ∀ q ≠ p, Function.update s.producers p
        (.loadTail s.nextAddr) q = s.producers q :=
      fun q hq => Function.update_of_ne hq _ _
    have hself : Function.update s.producers p (.loadTail s.nextAddr) p =
        .loadTail s.nextAddr := Function.update_self _ _ _
    have hown : ∀ q n, unlinked (Function.update s.producers p
        (.loadTail s.nextAddr) q) = some n →
        q = p ∧ n = s.nextAddr ∨
          q ≠ p ∧ unlinked (s.producers q) = some n := by
      intro q n hn
      by_cases hq : q = p
      · subst hq
        rw [hself] at hn
        exact .inl ⟨rfl, (Option.some.inj hn).symm⟩
      · rw [hother q hq] at hn
        exact .inr ⟨hq, hn⟩
    constructor
    case nodup => exact hchain ▸ h.nodup
    case lt =>
      intro n hn
      exact Nat.lt_succ_of_lt (h.lt n (hchain ▸ hn))
    case next =>
      intro i n hn
      rw [hchain] at hn ⊢
      show if i < s.returned.length
        then (s.mbox.create s.nextAddr).nextmsg n = none
        else ∃ c, (s.mbox.create s.nextAddr).nextmsg n =
          some ⟨(chain s)[i + 1]?, c⟩
      rw [hkeep n (hnew n (List.mem_of_getElem? hn))]
      exact h.next i n hn
    case returned => exact h.returned
    case current => exact hchain ▸ h.current
    case consumer => exact hchain ▸ h.consumer
    case tail =>
      obtain ⟨t, ht, hstands⟩ := h.tail
      refine ⟨t, hchain ▸ ht, fun q => ?_⟩
      show Stands _ _ _ (Function.update s.producers p _ q)
      by_cases hq : q = p
      · subst hq
        rw [hself]
        trivial
      · rw [hother q hq, hchain]
        exact hstands q
    case own =>
      intro q n hn
      rw [hchain]
      rcases hown q n hn with ⟨_, rfl⟩ | ⟨_, hn⟩
      · refine ⟨Nat.lt_succ_self _, fun hmem => hnew _ hmem rfl, ?_⟩
        exact Function.update_self _ _ _
      · obtain ⟨hlt, hmem, hcell⟩ := h.own q n hn
        refine ⟨Nat.lt_succ_of_lt hlt, hmem, ?_⟩
        exact (hkeep n (Nat.ne_of_lt hlt)).trans hcell
    case distinct =>
      intro q r n hq hr
      rcases hown q n hq with ⟨rfl, hn⟩ | ⟨_, hq⟩
      · rcases hown r n hr with ⟨rfl, _⟩ | ⟨_, hr⟩
        · rfl
        · exact absurd hn (Nat.ne_of_lt (h.own r n hr).1)
      · rcases hown r n hr with ⟨_, hn⟩ | ⟨_, hr⟩
        · exact absurd hn (Nat.ne_of_lt (h.own q n hq).1)
        · exact h.distinct q r n hq hr
  · exact h

/-- The part of the state that a producer's step changes. -/
def produced (s : MboxSystem) (p : Nat) (mbox : Mbox)
    (pc : SendMsg) (linked : List Addr) : MboxSystem :=
  { s with
    mbox := mbox
    producers := Function.update s.producers p pc
    linked := s.linked ++ linked }

theorem chain_produced (s : MboxSystem) (p : Nat) (mbox : Mbox) (pc : SendMsg)
    (linked : List Addr) :
    chain (produced s p mbox pc linked) = chain s ++ linked := rfl

/-- A step that links nothing: the messages stay, and `tail` stays or moves
on by one. -/
theorem mboxInv_produced_nil {s : MboxSystem} (h : MboxInv s) {p t' : Nat}
    {mbox : Mbox} {pc : SendMsg} (hnext : mbox.nextmsg = s.mbox.nextmsg)
    (hcurrent : mbox.current = s.mbox.current)
    (htail : At (chain s) mbox.tail t')
    (hstands : ∀ q, Stands (chain s) mbox.tail t' (s.producers q))
    (hpc : Stands (chain s) mbox.tail t' pc)
    (hown : ∀ n, unlinked pc = some n →
      unlinked (s.producers p) = some n) :
    MboxInv (produced s p mbox pc []) := by
  have hchain : chain (produced s p mbox pc []) = chain s := by
    rw [chain_produced, List.append_nil]
  have hunlinked : ∀ q n, unlinked (Function.update s.producers p pc q) =
      some n → unlinked (s.producers q) = some n := by
    intro q n hn
    by_cases hq : q = p
    · subst hq
      rw [Function.update_self] at hn
      exact hown n hn
    · rw [Function.update_of_ne hq] at hn
      exact hn
  constructor
  case nodup => exact hchain ▸ h.nodup
  case lt => exact hchain ▸ h.lt
  case next =>
    intro i n hn
    rw [hchain] at hn ⊢
    show if i < s.returned.length then mbox.nextmsg n = none
      else ∃ c, mbox.nextmsg n = some ⟨(chain s)[i + 1]?, c⟩
    rw [hnext]
    exact h.next i n hn
  case returned =>
    show s.returned <+: s.linked ++ []
    rw [List.append_nil]
    exact h.returned
  case current =>
    rw [hchain]
    show At (chain s) mbox.current s.returned.length
    rw [hcurrent]
    exact h.current
  case consumer => exact hchain ▸ h.consumer
  case tail =>
    refine ⟨t', hchain ▸ htail, fun q => ?_⟩
    rw [hchain]
    show Stands _ _ _ (Function.update s.producers p pc q)
    by_cases hq : q = p
    · subst hq
      rw [Function.update_self]
      exact hpc
    · rw [Function.update_of_ne hq]
      exact hstands q
  case own =>
    intro q n hn
    rw [hchain]
    obtain ⟨hlt, hmem, hcell⟩ := h.own q n (hunlinked q n hn)
    exact ⟨hlt, hmem, (congrFun hnext n).trans hcell⟩
  case distinct =>
    intro q r n hq hr
    exact h.distinct q r n (hunlinked q n hq) (hunlinked r n hr)

/-- The step that links: the message becomes the last of the chain, and the
last before it names it. -/
theorem mboxInv_link {s : MboxSystem} (h : MboxInv s) {p : Nat} {msg : Addr}
    {mytail mynext : MsgPtr} {count : BitVec 64}
    (hpc : s.producers p = .swapNext msg mytail mynext count)
    (hnext : s.mbox.next mytail = some mynext) :
    MboxInv (produced s p (s.mbox.setNext mytail ⟨some msg, count⟩)
      (.countFinish msg mytail) [msg]) := by
  obtain ⟨t, htail, hstands⟩ := h.tail
  have hp := hstands p
  rw [hpc] at hp
  obtain ⟨i, hbehind, hnull⟩ := hp
  obtain ⟨n, hn, hptr⟩ := hbehind.place
  obtain ⟨hlive, hlast⟩ := h.next_eq hbehind.place hnext
  obtain ⟨hi, _⟩ := List.getElem?_eq_some_iff.mp hn
  have hlen : (chain s).length = i + 1 := by
    have := List.getElem?_eq_none_iff.mp (hlast.symm.trans hnull)
    omega
  obtain ⟨hmsglt, hmsgmem, hmsg⟩ := h.own p msg (by rw [hpc]; rfl)
  have hset : s.mbox.setNext mytail ⟨some msg, count⟩ =
      { s.mbox with
        nextmsg := Function.update s.mbox.nextmsg n
          (some ⟨some msg, count⟩) } := by
    rw [Mbox.setNext, hptr]
  rw [hset]
  generalize hs : produced s p _ _ _ = s'
  have hchain : chain s' = chain s ++ [msg] := hs ▸ rfl
  have hcell : ∀ m ≠ n, s'.mbox.nextmsg m = s.mbox.nextmsg m := by
    intro m hm
    rw [← hs]
    exact Function.update_of_ne hm _ _
  have hself : s'.mbox.nextmsg n = some ⟨some msg, count⟩ := by
    rw [← hs]
    exact Function.update_self _ _ _
  have hother : ∀ q ≠ p, s'.producers q = s.producers q := by
    intro q hq
    rw [← hs]
    exact Function.update_of_ne hq _ _
  have hthis : s'.producers p = .countFinish msg mytail := by
    rw [← hs]
    exact Function.update_self _ _ _
  have hmem : n ∈ chain s := List.mem_of_getElem? hn
  have hmsgn : msg ≠ n := fun heq => hmsgmem (heq ▸ hmem)
  have htail' : s'.mbox.tail = s.mbox.tail := hs ▸ rfl
  have hreturned : s'.returned = s.returned := hs ▸ rfl
  have hlast' : (chain s')[i + 1]? = some msg := by
    rw [hchain, List.getElem?_append_right (by omega), hlen, Nat.sub_self]
    rfl
  have hunlinked : ∀ q m, unlinked (s'.producers q) = some m →
      q ≠ p ∧ unlinked (s.producers q) = some m := by
    intro q m hm
    by_cases hq : q = p
    · rw [hq, hthis] at hm
      exact absurd hm (by simp [unlinked])
    · exact ⟨hq, hother q hq ▸ hm⟩
  constructor
  case nodup =>
    rw [hchain]
    exact List.nodup_append.mpr ⟨h.nodup, List.nodup_singleton _,
      fun a ha b hb heq => hmsgmem (List.mem_singleton.mp hb ▸ heq ▸ ha)⟩
  case lt =>
    intro m hm
    have hnextAddr : s'.nextAddr = s.nextAddr := hs ▸ rfl
    rw [hnextAddr]
    rw [hchain, List.mem_append, List.mem_singleton] at hm
    rcases hm with hm | rfl
    · exact h.lt m hm
    · exact hmsglt
  case next =>
    intro j m hm
    rw [hreturned]
    obtain ⟨hj, _⟩ := List.getElem?_eq_some_iff.mp hm
    rw [hchain, List.length_append, List.length_singleton] at hj
    by_cases hji : j = i
    · subst hji
      have hmn : m = n := by
        rw [hchain, List.getElem?_append_left hi, hn] at hm
        exact (Option.some.inj hm).symm
      rw [hmn, if_neg (by omega), hself, hlast']
      exact ⟨count, rfl⟩
    · by_cases hend : j = i + 1
      · have hmm : m = msg := by
          rw [hend, hlast'] at hm
          exact (Option.some.inj hm).symm
        rw [hmm, if_neg (by omega), hcell msg hmsgn, hmsg]
        refine ⟨5555, ?_⟩
        rw [List.getElem?_eq_none]
        rw [hchain, List.length_append, List.length_singleton]
        omega
      · have hm' : (chain s)[j]? = some m := by
          rw [hchain, List.getElem?_append_left (by omega)] at hm
          exact hm
        have hmn : m ≠ n := fun heq =>
          hji (getElem?_inj_of_nodup h.nodup hm' (heq ▸ hn))
        have hafter : (chain s')[j + 1]? = (chain s)[j + 1]? := by
          rw [hchain, List.getElem?_append_left (by omega)]
        rw [hcell m hmn, hafter]
        exact h.next j m hm'
  case returned =>
    have hlinked : s'.linked = s.linked ++ [msg] := hs ▸ rfl
    rw [hreturned, hlinked]
    exact h.returned.trans (List.prefix_append _ _)
  case current =>
    have hcurrent : s'.mbox.current = s.mbox.current := hs ▸ rfl
    rw [hchain, hreturned, hcurrent]
    exact h.current.append _
  case consumer =>
    have hconsumer : s'.consumer = s.consumer := hs ▸ rfl
    rw [hchain, hreturned, hconsumer]
    exact fun m hm => (h.consumer m hm).append _
  case tail =>
    refine ⟨t, ?_, fun q => ?_⟩
    · rw [hchain, htail']
      exact htail.append _
    · rw [htail']
      by_cases hq : q = p
      · rw [hq, hthis]
        exact ⟨i, hchain ▸ hbehind.append _, hlast'⟩
      · rw [hother q hq, hchain]
        exact (hstands q).append _
  case own =>
    intro q m hm
    obtain ⟨hq, hm⟩ := hunlinked q m hm
    obtain ⟨hlt, hout, hm'⟩ := h.own q m hm
    have hne : m ≠ msg := fun heq =>
      hq (h.distinct q p m hm (by rw [hpc, heq]; rfl))
    have hmn : m ≠ n := fun heq => hout (heq ▸ hmem)
    refine ⟨hs ▸ hlt, ?_, (hcell m hmn).trans hm'⟩
    rw [hchain, List.mem_append, List.mem_singleton]
    rintro (hin | heq)
    · exact hout hin
    · exact hne heq
  case distinct =>
    intro q r m hq hr
    exact h.distinct q r m (hunlinked q m hq).2 (hunlinked r m hr).2

/-- `tail` moves only from what the producer remembers to the message after
it. -/
theorem At.swapTail {s : MboxSystem} (h : MboxInv s) {mytail v : MsgPtr}
    {t i : Nat} (htail : At (chain s) s.mbox.tail t)
    (hstands : ∀ q, Stands (chain s) s.mbox.tail t (s.producers q))
    (hbehind : Behind (chain s) s.mbox.tail t mytail i)
    (hv : At (chain s) v (i + 1)) :
    ∃ t', At (chain s) (s.mbox.swapTail mytail v).tail t' ∧
      ∀ q, Stands (chain s) (s.mbox.swapTail mytail v).tail t'
        (s.producers q) := by
  rw [Mbox.swapTail]
  split
  · next heq =>
      obtain rfl := hbehind.eq_of_eq h.nodup htail heq.symm
      exact ⟨_, hv, fun q => (hstands q).advance v⟩
  · exact ⟨t, htail, hstands⟩

theorem nextmsg_swapTail (m : Mbox) (mytail v : MsgPtr) :
    (m.swapTail mytail v).nextmsg = m.nextmsg := by
  rw [Mbox.swapTail]
  split <;> rfl

theorem current_swapTail (m : Mbox) (mytail v : MsgPtr) :
    (m.swapTail mytail v).current = m.current := by
  rw [Mbox.swapTail]
  split <;> rfl

/-- A producer's step. -/
theorem mboxInv_produce {s : MboxSystem} (h : MboxInv s) {p : Nat}
    {mbox : Mbox} {pc : SendMsg}
    (hs : s.mbox.sendStep (s.producers p) = some (mbox, pc)) :
    MboxInv (produced s p mbox pc ((s.producers p).links s.mbox)) := by
  obtain ⟨t, htail, hstands⟩ := h.tail
  have hp := hstands p
  cases hpc : s.producers p with
  | idle =>
      rw [hpc] at hs
      obtain ⟨rfl, rfl⟩ := Prod.mk.inj (Option.some.inj hs)
      exact mboxInv_produced_nil h rfl rfl htail hstands trivial
        (fun n hn => absurd hn (by simp [unlinked]))
  | loadTail msg =>
      rw [hpc] at hs
      obtain ⟨rfl, rfl⟩ := Prod.mk.inj (Option.some.inj hs)
      exact mboxInv_produced_nil h rfl rfl htail hstands
        ⟨t, htail, le_refl t, fun _ => rfl⟩ (fun n hn => hpc ▸ hn)
  | loadNext msg mytail =>
      rw [hpc] at hs hp
      obtain ⟨i, hbehind⟩ := hp
      obtain ⟨mynext, hnext, heq⟩ := Option.map_eq_some_iff.mp hs
      obtain ⟨rfl, rfl⟩ := Prod.mk.inj heq
      refine mboxInv_produced_nil h rfl rfl htail hstands
        ⟨i, hbehind, fun hne => ?_⟩ (fun n hn => hpc ▸ hn)
      obtain ⟨n, hn⟩ := Option.ne_none_iff_exists'.mp hne
      obtain ⟨_, hafter⟩ := h.next_eq hbehind.place hnext
      exact ⟨n, hafter.symm.trans hn, hn⟩
  | compareTail msg mytail mynext =>
      rw [hpc] at hs hp
      obtain ⟨i, hbehind, hnext⟩ := hp
      rw [Mbox.sendStep] at hs
      split at hs
      · split at hs
        · next hnull =>
            obtain ⟨rfl, rfl⟩ := Prod.mk.inj (Option.some.inj hs)
            exact mboxInv_produced_nil h rfl rfl htail hstands
              ⟨i, hbehind, hnull⟩ (fun n hn => hpc ▸ hn)
        · next hne =>
            obtain ⟨rfl, rfl⟩ := Prod.mk.inj (Option.some.inj hs)
            exact mboxInv_produced_nil h rfl rfl htail hstands
              ⟨i, hbehind, hnext hne⟩ (fun n hn => hpc ▸ hn)
      · obtain ⟨rfl, rfl⟩ := Prod.mk.inj (Option.some.inj hs)
        exact mboxInv_produced_nil h rfl rfl htail hstands trivial
          (fun n hn => hpc ▸ hn)
  | countLink msg mytail mynext =>
      rw [hpc] at hs hp
      obtain ⟨rfl, rfl⟩ := Prod.mk.inj (Option.some.inj hs)
      exact mboxInv_produced_nil h rfl rfl htail hstands hp
        (fun n hn => hpc ▸ hn)
  | swapNext msg mytail mynext count =>
      rw [hpc] at hs hp
      obtain ⟨next, hnext, heq⟩ := Option.map_eq_some_iff.mp hs
      split at heq
      · next hsame =>
          obtain ⟨rfl, rfl⟩ := Prod.mk.inj heq
          rw [SendMsg.links, if_pos (hsame ▸ hnext)]
          exact mboxInv_link h hpc (hsame ▸ hnext)
      · next hsame =>
          obtain ⟨rfl, rfl⟩ := Prod.mk.inj heq
          rw [SendMsg.links, if_neg fun hn =>
            hsame (Option.some.inj (hnext.symm.trans hn))]
          exact mboxInv_produced_nil h rfl rfl htail hstands trivial
            (fun n hn => hpc ▸ hn)
  | countSwing msg mytail mynext =>
      rw [hpc] at hs hp
      obtain ⟨rfl, rfl⟩ := Prod.mk.inj (Option.some.inj hs)
      exact mboxInv_produced_nil h rfl rfl htail hstands hp
        (fun n hn => hpc ▸ hn)
  | swingTail msg mytail mynext count =>
      rw [hpc] at hs hp
      obtain ⟨i, hbehind, n, hn, hptr⟩ := hp
      obtain ⟨rfl, rfl⟩ := Prod.mk.inj (Option.some.inj hs)
      obtain ⟨t', htail', hstands'⟩ :=
        At.swapTail (v := ⟨mynext.ptr, count⟩) h htail hstands hbehind
          ⟨n, hn, hptr⟩
      exact mboxInv_produced_nil h (nextmsg_swapTail _ _ _)
        (current_swapTail _ _ _) htail' hstands' trivial
        (fun n hn => hpc ▸ hn)
  | countFinish msg mytail =>
      rw [hpc] at hs hp
      obtain ⟨rfl, rfl⟩ := Prod.mk.inj (Option.some.inj hs)
      exact mboxInv_produced_nil h rfl rfl htail hstands hp
        (fun n hn => absurd hn (by simp [unlinked]))
  | finishTail msg mytail count =>
      rw [hpc] at hs hp
      obtain ⟨i, hbehind, hmsg⟩ := hp
      obtain ⟨rfl, rfl⟩ := Prod.mk.inj (Option.some.inj hs)
      obtain ⟨t', htail', hstands'⟩ :=
        At.swapTail (v := ⟨some msg, count⟩) h htail hstands hbehind
          ⟨msg, hmsg, rfl⟩
      exact mboxInv_produced_nil h (nextmsg_swapTail _ _ _)
        (current_swapTail _ _ _) htail' hstands' trivial
        (fun n hn => absurd hn (by simp [unlinked]))

/-- The consumer deletes `current` and returns the message after it. -/
theorem mboxInv_leave {s : MboxSystem} (h : MboxInv s) {mynext : MsgPtr}
    (hc : s.consumer = .leave mynext) :
    MboxInv { s with
      mbox := { s.mbox.release s.mbox.current with current := mynext }
      consumer := .load
      returned := s.returned ++ mynext.ptr.toList } := by
  obtain ⟨n, hn, hptr⟩ := h.current
  obtain ⟨m, hm, hnext⟩ := h.consumer mynext hc
  have hrelease : s.mbox.release s.mbox.current =
      { s.mbox with
        nextmsg := Function.update s.mbox.nextmsg n none } := by
    rw [Mbox.release, hptr]
  rw [hrelease, hnext, Option.toList_some]
  generalize hs : MboxSystem.mk _ _ _ _ _ _ = s'
  have hchain : chain s' = chain s := hs ▸ rfl
  have hreturned : s'.returned = s.returned ++ [m] := hs ▸ rfl
  have hlen : s'.returned.length = s.returned.length + 1 := by
    rw [hreturned, List.length_append, List.length_singleton]
  have hcell : ∀ k ≠ n, s'.mbox.nextmsg k = s.mbox.nextmsg k := by
    intro k hk
    rw [← hs]
    exact Function.update_of_ne hk _ _
  have hself : s'.mbox.nextmsg n = none := by
    rw [← hs]
    exact Function.update_self _ _ _
  have hproducers : s'.producers = s.producers := hs ▸ rfl
  constructor
  case nodup => exact hchain ▸ h.nodup
  case lt =>
    intro k hk
    have hnextAddr : s'.nextAddr = s.nextAddr := hs ▸ rfl
    rw [hnextAddr]
    exact h.lt k (hchain ▸ hk)
  case next =>
    intro j k hk
    rw [hchain] at hk ⊢
    rw [hlen]
    by_cases hkn : k = n
    · have hj : j = s.returned.length :=
        getElem?_inj_of_nodup h.nodup (hkn ▸ hk) hn
      rw [hkn, if_pos (by omega)]
      exact hself
    · have hj : j ≠ s.returned.length := by
        intro heq
        rw [heq, hn] at hk
        exact hkn (Option.some.inj hk).symm
      have hold := h.next j k hk
      rw [hcell k hkn]
      split at hold
      · rw [if_pos (by omega)]
        exact hold
      · rw [if_neg (by omega)]
        exact hold
  case returned =>
    have hlinked : s'.linked = s.linked := hs ▸ rfl
    rw [hreturned, hlinked]
    obtain ⟨rest, hrest⟩ := h.returned
    have hfirst : rest[0]? = some m := by
      rw [chain, List.getElem?_cons_succ, ← hrest,
        List.getElem?_append_right (le_refl _), Nat.sub_self] at hm
      exact hm
    cases rest with
    | nil => exact absurd hfirst (by simp)
    | cons k rest =>
        obtain rfl : k = m := Option.some.inj hfirst
        exact ⟨rest, by rw [List.append_assoc, ← hrest]; rfl⟩
  case current =>
    have hcurrent : s'.mbox.current = mynext := hs ▸ rfl
    rw [hchain, hlen, hcurrent]
    exact ⟨m, hm, hnext⟩
  case consumer =>
    intro v hv
    have hconsumer : s'.consumer = .load := hs ▸ rfl
    rw [hconsumer] at hv
    exact absurd hv (by simp)
  case tail =>
    obtain ⟨t, htail, hstands⟩ := h.tail
    have htail' : s'.mbox.tail = s.mbox.tail := hs ▸ rfl
    rw [hchain, hproducers, htail']
    exact ⟨t, htail, hstands⟩
  case own =>
    intro q k hk
    rw [hproducers] at hk
    obtain ⟨hlt, hout, hk'⟩ := h.own q k hk
    have hkn : k ≠ n := fun heq => hout (heq ▸ List.mem_of_getElem? hn)
    rw [hchain]
    exact ⟨hs ▸ hlt, hout, (hcell k hkn).trans hk'⟩
  case distinct => exact hproducers ▸ h.distinct

/-- The consumer loads a `nextmsg` that is there. -/
theorem MboxInv.next_current {s : MboxSystem} (h : MboxInv s) :
    ∃ v, s.mbox.next s.mbox.current = some v ∧
      v.ptr = (chain s)[s.returned.length + 1]? := by
  obtain ⟨n, hn, hptr⟩ := h.current
  have hcell := h.next _ n hn
  rw [if_neg (Nat.lt_irrefl _)] at hcell
  obtain ⟨c, hc⟩ := hcell
  exact ⟨_, by rw [Mbox.next, hptr, Option.bind_some, hc], rfl⟩

theorem mboxInv_load {s : MboxSystem} (h : MboxInv s) {mynext : MsgPtr}
    (hnext : s.mbox.next s.mbox.current = some mynext)
    (hne : mynext.ptr ≠ none) :
    MboxInv { s with consumer := .leave mynext } := by
  obtain ⟨v, hv, hplace⟩ := h.next_current
  obtain rfl := Option.some.inj (hv.symm.trans hnext)
  obtain ⟨m, hm⟩ := Option.ne_none_iff_exists'.mp hne
  have hat : At (chain s) v (s.returned.length + 1) :=
    ⟨m, hplace.symm.trans hm, hm⟩
  exact ⟨h.nodup, h.lt, h.next, h.returned, h.current,
    fun w hw => Receive.leave.inj hw ▸ hat, h.tail, h.own, h.distinct⟩

theorem mboxInv_receive {s s' : MboxSystem} (h : MboxInv s)
    (hs : s.step .receive = some s') : MboxInv s' := by
  obtain ⟨⟨mbox, pc⟩, hstep, rfl⟩ := Option.map_eq_some_iff.mp hs
  cases hc : s.consumer with
  | load =>
      rw [hc] at hstep
      obtain ⟨mynext, hnext, heq⟩ := Option.map_eq_some_iff.mp hstep
      have hnil : s.returned ++ Receive.load.returns = s.returned :=
        List.append_nil _
      split at heq
      · obtain ⟨rfl, rfl⟩ := Prod.mk.inj heq
        dsimp only
        rw [hnil, ← hc]
        exact h
      · next hne =>
          obtain ⟨rfl, rfl⟩ := Prod.mk.inj heq
          dsimp only
          rw [hnil]
          exact mboxInv_load h hnext hne
  | leave mynext =>
      rw [hc] at hstep
      obtain ⟨rfl, rfl⟩ := Prod.mk.inj (Option.some.inj hstep)
      exact mboxInv_leave h hc

theorem mboxInv_step {s s' : MboxSystem} {op : MboxOp} (h : MboxInv s)
    (hs : s.step op = some s') : MboxInv s' := by
  cases op with
  | sendMsg p =>
      obtain rfl := Option.some.inj hs
      exact mboxInv_sendMsg h p
  | produce p =>
      obtain ⟨⟨mbox, pc⟩, hstep, rfl⟩ := Option.map_eq_some_iff.mp hs
      exact mboxInv_produce h hstep
  | receive => exact mboxInv_receive h hs

/-! ## What the consumer returns -/

/-- A consumer that is about to leave `current` returns the next message. -/
theorem receive_leave {s : MboxSystem} (h : MboxInv s) {mynext : MsgPtr}
    (hc : s.consumer = .leave mynext) :
    ∃ s', s.step .receive = some s' ∧ MboxInv s' ∧ s'.linked = s.linked ∧
      s'.returned.length = s.returned.length + 1 := by
  obtain ⟨m, _, hptr⟩ := h.consumer mynext hc
  have hstep : s.step .receive = some { s with
      mbox := { s.mbox.release s.mbox.current with current := mynext }
      consumer := .load
      returned := s.returned ++ mynext.ptr.toList } := by
    rw [MboxSystem.step, hc]
    rfl
  refine ⟨_, hstep, mboxInv_receive h hstep, rfl, ?_⟩
  rw [List.length_append, hptr]
  rfl

/-- A consumer that is left to itself returns every linked message. -/
theorem receive_all {left : Nat} : ∀ {s : MboxSystem}, MboxInv s →
    s.linked.length = s.returned.length + left →
    ∃ n s', run MboxSystem.step s (List.replicate n .receive) = some s' ∧
      s'.returned = s.linked := by
  induction left with
  | zero =>
      intro s h hlen
      exact ⟨0, s, rfl, h.returned.eq_of_length (by omega)⟩
  | succ left ih =>
      intro s h hlen
      -- From a consumer that has loaded the next message, one step returns it.
      have hleave : ∀ {s : MboxSystem} {mynext : MsgPtr}, MboxInv s →
          s.linked.length = s.returned.length + (left + 1) →
          s.consumer = .leave mynext →
          ∃ n s', run MboxSystem.step s (List.replicate n .receive) =
            some s' ∧ s'.returned = s.linked := by
        intro s mynext h hlen hc
        obtain ⟨s₁, h1, hinv, hlinked, hmore⟩ := receive_leave h hc
        obtain ⟨n, s', hrun, hall⟩ := ih hinv (by rw [hlinked, hmore]; omega)
        refine ⟨n + 1, s', ?_, hall.trans hlinked⟩
        exact run_cons.mpr ⟨s₁, h1, hrun⟩
      cases hc : s.consumer with
      | leave mynext => exact hleave h hlen hc
      | load =>
          obtain ⟨v, hv, hplace⟩ := h.next_current
          have hne : v.ptr ≠ none := by
            rw [hplace, chain, List.getElem?_cons_succ,
              List.getElem?_eq_getElem (by omega)]
            simp
          have hstep : s.step .receive = some { s with
              consumer := .leave v, returned := s.returned ++ [] } := by
            rw [MboxSystem.step, hc, Mbox.receiveStep, hv]
            simp only [Option.map_some, if_neg hne]
            rfl
          rw [List.append_nil] at hstep
          obtain ⟨n, s', hrun, hall⟩ :=
            hleave (mboxInv_receive h hstep) hlen rfl
          exact ⟨n + 1, s', run_cons.mpr ⟨_, hstep, hrun⟩, hall⟩

/-- What a queue does, of the messages linked and the messages returned: they
are returned in the order they were linked, each at most once, and none is
withheld. -/
structure DeliversOnce (s : MboxSystem) : Prop where
  once : s.linked.Nodup
  order : s.returned <+: s.linked
  all : ∃ n s', run MboxSystem.step s (List.replicate n .receive) = some s' ∧
    s'.returned = s.linked

theorem MboxInv.deliversOnce {s : MboxSystem} (h : MboxInv s) :
    DeliversOnce s := by
  refine ⟨(List.nodup_cons.mp h.nodup).2, h.returned, ?_⟩
  have hle := h.returned.length_le
  obtain ⟨left, hleft⟩ := Nat.exists_eq_add_of_le hle
  exact receive_all h hleft

/-! ## What is still there -/

/-- The message whose `nextmsg` a producer is bound to read or swap before it
looks at `tail` again. -/
def reaches (tail : MsgPtr) : SendMsg → Option Addr
  | .loadNext _ mytail => mytail.ptr
  | .compareTail _ mytail mynext =>
      if mytail = tail ∧ mynext.ptr = none then mytail.ptr else none
  | .countLink _ mytail _ | .swapNext _ mytail _ _ => mytail.ptr
  | _ => none

/-- A producer loads `tail` only while the message it names is there, and the
consumer leaves a message only when no producer is bound to come back to
it. -/
def KeepsTail (s : MboxSystem) : MboxOp → Prop
  | .sendMsg _ => True
  | .produce p => ∀ msg, s.producers p = .loadTail msg →
      (s.mbox.next s.mbox.tail).isSome
  | .receive => ∀ mynext, s.consumer = .leave mynext →
      ∀ p, reaches s.mbox.tail (s.producers p) ≠ s.mbox.current.ptr

/-- Every message that a producer is bound to come back to is there. -/
def Reachable (s : MboxSystem) : Prop :=
  ∀ p n, reaches s.mbox.tail (s.producers p) = some n →
    (s.mbox.nextmsg n).isSome

/-- A producer stops where `tail` has moved on. -/
theorem reaches_advance {l : List Addr} (hl : l.Nodup) {tail v : MsgPtr}
    {t : Nat} {pc : SendMsg} (h : Stands l tail t pc) (hv : At l v (t + 1))
    {n : Addr} (hr : reaches v pc = some n) : reaches tail pc = some n := by
  cases pc with
  | compareTail msg mytail mynext =>
      obtain ⟨i, hbehind, _⟩ := h
      rw [reaches] at hr
      split at hr
      · next heq =>
          have hi : i = t + 1 := hbehind.place.inj hl (heq.1 ▸ hv)
          have hle := hbehind.le
          omega
      · exact absurd hr (by simp)
  | _ => exact hr

theorem reachable_swapTail {s : MboxSystem} (h : MboxInv s)
    (hr : Reachable s) {mytail v : MsgPtr} {t i : Nat}
    (htail : At (chain s) s.mbox.tail t)
    (hstands : ∀ q, Stands (chain s) s.mbox.tail t (s.producers q))
    (hbehind : Behind (chain s) s.mbox.tail t mytail i)
    (hv : At (chain s) v (i + 1)) (q : Nat) {n : Addr}
    (hq : reaches (s.mbox.swapTail mytail v).tail (s.producers q) =
      some n) : (s.mbox.nextmsg n).isSome := by
  rw [Mbox.swapTail] at hq
  split at hq
  · next heq =>
      obtain rfl := hbehind.eq_of_eq h.nodup htail heq.symm
      exact hr q n (reaches_advance h.nodup (hstands q) hv hq)
  · exact hr q n hq

/-- After a step of a producer: what it is bound to come back to itself, and
what the others are. -/
theorem reachable_produced {s : MboxSystem} {p : Nat} {mbox : Mbox}
    {pc : SendMsg} {linked : List Addr}
    (hself : ∀ n, reaches mbox.tail pc = some n → (mbox.nextmsg n).isSome)
    (hothers : ∀ q n, reaches mbox.tail (s.producers q) = some n →
      (mbox.nextmsg n).isSome) :
    Reachable (produced s p mbox pc linked) := by
  intro q n hn
  by_cases hq : q = p
  · subst hq
    have hpc : (produced s q mbox pc linked).producers q = pc :=
      Function.update_self _ _ _
    rw [hpc] at hn
    exact hself n hn
  · have hpc : (produced s p mbox pc linked).producers q = s.producers q :=
      Function.update_of_ne hq _ _
    rw [hpc] at hn
    exact hothers q n hn

theorem isSome_setNext {m : Mbox} {p v : MsgPtr} {n : Addr}
    (h : (m.nextmsg n).isSome) : ((m.setNext p v).nextmsg n).isSome := by
  rw [Mbox.setNext]
  split
  · exact h
  · next k _ =>
      by_cases hn : n = k
      · subst hn
        show (Function.update m.nextmsg n (some v) n).isSome
        rw [Function.update_self]
        rfl
      · show (Function.update m.nextmsg k (some v) n).isSome
        rw [Function.update_of_ne hn]
        exact h

theorem tail_setNext (m : Mbox) (p v : MsgPtr) :
    (m.setNext p v).tail = m.tail := by
  rw [Mbox.setNext]
  split <;> rfl

/-- A producer's step is defined where what it is bound to come back to is
there, and leaves every such message there. -/
theorem reachable_produce {s : MboxSystem} (h : MboxInv s)
    (hr : Reachable s) {p : Nat} (hok : KeepsTail s (.produce p)) :
    ∃ s', s.step (.produce p) = some s' ∧ Reachable s' := by
  obtain ⟨t, htail, hstands⟩ := h.tail
  have hp := hstands p
  have hthis := hr p
  rw [MboxSystem.step]
  cases hpc : s.producers p with
  | idle =>
      exact ⟨_, rfl,
        reachable_produced (fun _ hn => absurd hn (by simp [reaches]))
        hr⟩
  | loadTail msg =>
      refine ⟨_, rfl, reachable_produced (fun n hn => ?_) hr⟩
      have hlive := hok msg hpc
      rw [Mbox.next, show s.mbox.tail.ptr = some n from hn] at hlive
      exact hlive
  | loadNext msg mytail =>
      rw [hpc] at hp hthis
      obtain ⟨i, n, hn, hptr⟩ := hp.imp fun i hi => hi.place
      obtain ⟨mynext, hnext⟩ := Option.isSome_iff_exists.mp (hthis n hptr)
      have hnext : s.mbox.next mytail = some mynext := by
        rw [Mbox.next, hptr]
        exact hnext
      rw [Mbox.sendStep, hnext]
      refine ⟨_, rfl, reachable_produced (fun m hm => ?_) hr⟩
      rw [reaches] at hm
      split at hm
      · exact hthis m hm
      · exact absurd hm (by simp)
  | compareTail msg mytail mynext =>
      rw [hpc] at hthis
      rw [Mbox.sendStep]
      split
      · next heq =>
          split
          · next hnull =>
              refine ⟨_, rfl, reachable_produced (fun m hm => ?_) hr⟩
              exact hthis m ((if_pos ⟨heq, hnull⟩).trans hm)
          · exact ⟨_, rfl, reachable_produced
              (fun _ hn => absurd hn (by simp [reaches])) hr⟩
      · exact ⟨_, rfl, reachable_produced
          (fun _ hn => absurd hn (by simp [reaches])) hr⟩
  | countLink msg mytail mynext =>
      rw [hpc] at hthis
      exact ⟨_, rfl, reachable_produced hthis hr⟩
  | swapNext msg mytail mynext count =>
      rw [hpc] at hp hthis
      obtain ⟨i, hbehind, _⟩ := hp
      obtain ⟨n, hn, hptr⟩ := hbehind.place
      obtain ⟨next, hnext⟩ := Option.isSome_iff_exists.mp (hthis n hptr)
      have hnext : s.mbox.next mytail = some next := by
        rw [Mbox.next, hptr]
        exact hnext
      rw [Mbox.sendStep, hnext, Option.map_some]
      split
      · refine ⟨_, rfl, reachable_produced
          (fun _ hn => absurd hn (by simp [reaches])) fun q m hm => ?_⟩
        rw [tail_setNext] at hm
        exact isSome_setNext (hr q m hm)
      · exact ⟨_, rfl, reachable_produced
          (fun _ hn => absurd hn (by simp [reaches])) hr⟩
  | countSwing msg mytail mynext =>
      exact ⟨_, rfl,
        reachable_produced (fun _ hn => absurd hn (by simp [reaches]))
        hr⟩
  | swingTail msg mytail mynext count =>
      rw [hpc] at hp
      obtain ⟨i, hbehind, n, hn, hptr⟩ := hp
      refine ⟨_, rfl, reachable_produced
        (fun _ hn => absurd hn (by simp [reaches])) fun q m hm => ?_⟩
      rw [nextmsg_swapTail]
      exact reachable_swapTail (v := ⟨mynext.ptr, count⟩) h hr htail hstands
        hbehind ⟨n, hn, hptr⟩ q hm
  | countFinish msg mytail =>
      exact ⟨_, rfl,
        reachable_produced (fun _ hn => absurd hn (by simp [reaches]))
        hr⟩
  | finishTail msg mytail count =>
      rw [hpc] at hp
      obtain ⟨i, hbehind, hmsg⟩ := hp
      refine ⟨_, rfl, reachable_produced
        (fun _ hn => absurd hn (by simp [reaches])) fun q m hm => ?_⟩
      rw [nextmsg_swapTail]
      exact reachable_swapTail (v := ⟨some msg, count⟩) h hr htail hstands
        hbehind ⟨msg, hmsg, rfl⟩ q hm

theorem reachable_step {s : MboxSystem} {op : MboxOp} (h : MboxInv s)
    (hr : Reachable s) (hok : KeepsTail s op) :
    ∃ s', s.step op = some s' ∧ MboxInv s' ∧ Reachable s' := by
  cases op with
  | sendMsg p =>
      refine ⟨_, rfl, mboxInv_sendMsg h p, ?_⟩
      rw [MboxSystem.sendMsg]
      split
      · refine fun q n hn => ?_
        have hcell : ∀ m, (s.mbox.nextmsg m).isSome →
            ((s.mbox.create s.nextAddr).nextmsg m).isSome := by
          intro m hm
          rw [Mbox.create]
          by_cases heq : m = s.nextAddr
          · subst heq
            dsimp only
            rw [Function.update_self]
            rfl
          · dsimp only
            rw [Function.update_of_ne heq]
            exact hm
        refine hcell n ?_
        by_cases hq : q = p
        · subst hq
          dsimp only at hn
          rw [Function.update_self] at hn
          exact absurd hn (by simp [reaches])
        · dsimp only at hn
          rw [Function.update_of_ne hq] at hn
          exact hr q n hn
      · exact hr
  | produce p =>
      obtain ⟨s', hs, hr'⟩ := reachable_produce h hr hok
      exact ⟨s', hs, mboxInv_step h hs, hr'⟩
  | receive =>
      cases hc : s.consumer with
      | load =>
          obtain ⟨v, hv, _⟩ := h.next_current
          have hstep : ∃ pc, s.step .receive = some { s with
              consumer := pc, returned := s.returned ++ [] } := by
            rw [MboxSystem.step, hc, Mbox.receiveStep, hv, Option.map_some]
            split
            · exact ⟨_, rfl⟩
            · exact ⟨_, rfl⟩
          obtain ⟨pc, hstep⟩ := hstep
          exact ⟨_, hstep, mboxInv_receive h hstep, hr⟩
      | leave mynext =>
          obtain ⟨s', hs, hinv, _⟩ := receive_leave h hc
          refine ⟨s', hs, hinv, fun q n hn => ?_⟩
          rw [MboxSystem.step, hc] at hs
          obtain rfl := Option.some.inj hs
          obtain ⟨k, _, hptr⟩ := h.current
          have hne := hok mynext hc q
          have hq : reaches s.mbox.tail (s.producers q) = some n := by
            rw [← hn, Mbox.release]
            split <;> rfl
          have hnk : n ≠ k := by
            intro heq
            rw [hq, hptr, heq] at hne
            exact hne rfl
          show ((s.mbox.release s.mbox.current).nextmsg n).isSome
          rw [Mbox.release, hptr]
          show (Function.update s.mbox.nextmsg k none n).isSome
          rw [Function.update_of_ne hnk]
          exact hr q n hq

/-! ## The condition is exact -/

/-- A producer that is bound to come back to a deleted message does, if it is
left to itself. -/
theorem undefined_of_reaches {s : MboxSystem} {p : Nat} {n : Addr}
    (hr : reaches s.mbox.tail (s.producers p) = some n)
    (hn : s.mbox.nextmsg n = none) :
    ∃ k, run MboxSystem.step s (List.replicate k (.produce p)) = none := by
  have hnext : ∀ {m : Mbox} {mytail : MsgPtr}, m.nextmsg = s.mbox.nextmsg →
      mytail.ptr = some n → m.next mytail = none := by
    intro m mytail hm hptr
    rw [Mbox.next, hptr, Option.bind_some, hm, hn]
  have hstep : ∀ {s₁ : MboxSystem}, s₁.mbox.sendStep (s₁.producers p) = none →
      run MboxSystem.step s₁ (List.replicate 1 (.produce p)) = none := by
    intro s₁ h
    rw [List.replicate_one, run, MboxSystem.step, h]
    rfl
  have hswap : ∀ (mynext : MsgPtr) {s₁ : MboxSystem} {msg : Addr}
      {mytail : MsgPtr}, s₁.mbox.nextmsg = s.mbox.nextmsg →
      mytail.ptr = some n → s₁.producers p = .countLink msg mytail mynext →
      run MboxSystem.step s₁ (List.replicate 2 (.produce p)) = none := by
    intro mynext s₁ msg mytail hm hptr hpc
    rw [List.replicate_succ, run, MboxSystem.step, hpc]
    refine hstep ?_
    dsimp only
    rw [Function.update_self, Mbox.sendStep,
      @hnext s₁.mbox.addFetch mytail hm hptr]
    rfl
  cases hpc : s.producers p with
  | loadNext msg mytail =>
      rw [hpc] at hr
      refine ⟨1, hstep ?_⟩
      rw [hpc, Mbox.sendStep, hnext rfl hr]
      rfl
  | compareTail msg mytail mynext =>
      rw [hpc, reaches] at hr
      split at hr
      · next heq =>
          refine ⟨3, ?_⟩
          rw [List.replicate_succ, run, MboxSystem.step, hpc, Mbox.sendStep,
            if_pos heq.1, if_pos heq.2]
          exact hswap mynext rfl hr (Function.update_self _ _ _)
      · exact absurd hr (by simp)
  | countLink msg mytail mynext =>
      rw [hpc] at hr
      exact ⟨2, hswap mynext rfl hr hpc⟩
  | swapNext msg mytail mynext count =>
      rw [hpc] at hr
      refine ⟨1, hstep ?_⟩
      rw [hpc, Mbox.sendStep, hnext rfl hr]
      rfl
  | _ =>
      rw [hpc] at hr
      exact absurd hr (by simp [reaches])

/-- A step that breaks `KeepsTail` leaves a producer that has only to go on to
come back to a deleted message. -/
theorem undefined_of_not_keepsTail {s s' : MboxSystem} {op : MboxOp}
    (h : MboxInv s) (hs : s.step op = some s') (hbreak : ¬ KeepsTail s op) :
    ∃ p k, run MboxSystem.step s' (List.replicate k (.produce p)) = none := by
  cases op with
  | sendMsg p => exact absurd trivial hbreak
  | produce p =>
      simp only [KeepsTail, not_forall] at hbreak
      obtain ⟨msg, hpc, hgone⟩ := hbreak
      obtain ⟨t, ⟨n, hn, hptr⟩, _⟩ := h.tail
      rw [MboxSystem.step, hpc] at hs
      obtain rfl := Option.some.inj hs
      refine ⟨p, undefined_of_reaches (n := n) ?_ ?_⟩
      · dsimp only
        rw [Function.update_self]
        exact hptr
      · rw [Mbox.next, hptr] at hgone
        exact Option.not_isSome_iff_eq_none.mp hgone
  | receive =>
      simp only [KeepsTail, not_forall, not_not] at hbreak
      obtain ⟨mynext, hc, p, hp⟩ := hbreak
      obtain ⟨n, _, hptr⟩ := h.current
      rw [MboxSystem.step, hc] at hs
      obtain rfl := Option.some.inj hs
      have hrelease : s.mbox.release s.mbox.current =
          { s.mbox with
            nextmsg := Function.update s.mbox.nextmsg n none } := by
        rw [Mbox.release, hptr]
      refine ⟨p, undefined_of_reaches (n := n) ?_ ?_⟩
      · dsimp only
        rw [hrelease]
        exact hp.trans hptr
      · dsimp only
        rw [hrelease]
        exact Function.update_self _ _ _

/-! ## The runs -/

/-- In every run the messages are returned in linking order, each once. Where
`tail` is loaded and messages are left as `KeepsTail` asks, no producer comes
back to a message that has been deleted. -/
theorem mailbox_of_keepsTail {ops : List MboxOp}
    (hok : AllCalls MboxSystem.step KeepsTail .new ops) :
    (∃ s, run MboxSystem.step .new ops = some s) ∧
      AllStates MboxSystem.step DeliversOnce .new ops := by
  constructor
  · have hnew : Reachable .new := fun p n hn =>
      absurd hn (by simp [MboxSystem.new, reaches])
    obtain ⟨s, hs, _⟩ := AllCalls.run_defined
      (P := fun s => MboxInv s ∧ Reachable s)
      (fun s op hok h => reachable_step h.1 h.2 hok) hok ⟨mboxInv_new, hnew⟩
    exact ⟨s, hs⟩
  · have hinv : AllStates MboxSystem.step MboxInv .new ops :=
      allStates_of_step (Q := fun _ => True)
        (fun s op s' _ h hs => mboxInv_step h hs) (fun _ _ => trivial)
        mboxInv_new
    exact hinv.imp fun s h => h.deliversOnce

/-- Producer 0 sends a message, and it is received. -/
def sendReceive : List MboxOp :=
  .sendMsg 0 :: (List.replicate 7 (.produce 0) ++ [.receive, .receive])

theorem mailbox_of_keepsTail_sendReceive :
    (∃ s, run MboxSystem.step .new sendReceive = some s) ∧
      AllStates MboxSystem.step DeliversOnce .new sendReceive := by
  refine mailbox_of_keepsTail ?_
  refine .cons rfl trivial ?_
  iterate 7 refine .cons rfl (fun _ _ => rfl) ?_
  refine .cons rfl
    (fun v h => absurd h (by simp : Receive.load ≠ .leave v)) ?_
  refine .cons rfl (fun _ _ p => ?_) trivial
  cases p with
  | zero => decide
  | succ p => exact Option.some_ne_none _ |>.symm

/-- Producer 0 links its message and is stopped. The consumer takes it and
deletes the first message, which `tail` still names, and producer 1 comes to
read what follows that. -/
def laggingTail : List MboxOp :=
  .sendMsg 0 :: (List.replicate 5 (.produce 0) ++
    [.receive, .receive, .sendMsg 1, .produce 1])

theorem laggingTail_reads_deleted :
    (run MboxSystem.step .new laggingTail).map
        (fun s => (s.linked, s.returned, s.producers 1, s.mbox.nextmsg 0)) =
      some ([1], [1], .loadNext 2 ⟨some 0, 10000⟩, none) ∧
    run MboxSystem.step .new (laggingTail ++ [.produce 1]) = none := by
  decide

end Infinisql.Proofs
