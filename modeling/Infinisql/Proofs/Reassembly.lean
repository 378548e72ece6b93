import Infinisql.Proofs.Gateways
import Infinisql.Spec.Reassembly

/-!
# The inbound gateway and a peer that sends anything

The gateway drops a connection for no length it finds, so that it does for a
peer what it owes exactly where the peer keeps to the format. On a buffer that
is packages with an incomplete one behind them, the loops go from one message
to the next and from one package to the next, and each step leaves less to go
over. The other way round, from the steps of loops that are left, and that
stay within each package, the packages can be read off: a package that is
shorter than its own length would be left at once with the position behind its
end, one of no length at all is met again and again, and a message that ends
behind its package is either not there or takes the position past the end.
-/

namespace Infinisql.Proofs

open Infinisql.Lib Infinisql.Ref Infinisql.Spec

variable {received tail total : Bytes} {handed : List Bytes}

/-! ## Packages and messages at a position -/

theorem packageBody_cons (msg : Bytes) (msgs : List Bytes) :
    packageBody (msg :: msgs) =
      leBytes 8 msg.length ++ (msg ++ packageBody msgs) := by
  rw [packageBody, List.flatMap_cons, List.append_assoc]
  rfl

theorem selfSized_serstr {msgs : List Bytes} (h : packagesize msgs < 2 ^ 64) :
    SelfSized (serstr msgs) := by
  have hbody := length_packageBody msgs
  rw [serstr, ← hbody]
  exact selfSized_leBytes (by omega)

/-- A number that is written at a position is read there. -/
theorem sizeAt_eq {pos n : Nat} {more : Bytes} (hn : n < 2 ^ 64)
    (h : received.drop pos = leBytes 8 n ++ more) :
    sizeAt received pos = n := by
  rw [sizeAt, h, List.take_left' (length_leBytes ..), ofLeBytes_leBytes]
  exact Nat.mod_eq_of_lt hn

theorem drop_add {pos n : Nat} {front more : Bytes}
    (h : received.drop pos = front ++ more) (hlen : front.length = n) :
    received.drop (pos + n) = more := by
  rw [← List.drop_drop, h, List.drop_left' hlen]

theorem length_of_drop {pos : Nat} {more : Bytes}
    (h : received.drop pos = more) : received.length - pos = more.length := by
  rw [← h, List.length_drop]
/-! ## Packages in order

Behind each cursor there is what is still to be handed on of `total`, and the
incomplete package at the end. -/

inductive Along (received tail : Bytes) (total : List Bytes) :
    Reassembly → Prop
  | package {pos : Nat} {handed : List Bytes} {pkgs : List (List Bytes)} :
      received.drop pos = (pkgs.map serstr).flatten ++ tail →
      (∀ msgs ∈ pkgs, Sendable msgs) → handed ++ pkgs.flatten = total →
      Along received tail total ⟨.package pos, handed⟩
  | message {base packagesize pos : Nat} {handed msgs : List Bytes}
      {pkgs : List (List Bytes)} :
      received.drop (base + pos) =
        packageBody msgs ++ ((pkgs.map serstr).flatten ++ tail) →
      pos + (packageBody msgs).length = packagesize → packagesize < 2 ^ 64 →
      (∀ msg ∈ msgs, sizeofMessageStruct ≤ msg.length) →
      (∀ msgs ∈ pkgs, Sendable msgs) →
      handed ++ (msgs ++ pkgs.flatten) = total →
      Along received tail total ⟨.message base packagesize pos, handed⟩
  | left {pos : Nat} : received.drop pos = tail →
      Along received tail total ⟨.left pos, total⟩

/-- The outer loop is left at a package that is not all there. -/
theorem reassemble_incomplete {pos : Nat}
    (h : Incomplete (received.drop pos)) :
    reassemble received ⟨.package pos, handed⟩ = ⟨.left pos, handed⟩ := by
  have hlen := List.length_drop (i := pos) (l := received)
  unfold reassemble
  dsimp only
  split
  · rfl
  · next hpos =>
      rw [Incomplete] at h
      split
      · rfl
      · next height =>
          rw [if_pos]
          rw [sizeAt]
          omega

/-- At a package that is all there it goes over to the messages. -/
theorem reassemble_package {pos n : Nat} (hsize : sizeAt received pos = n)
    (h8 : 8 ≤ received.length - pos) (hn : n ≤ received.length - pos) :
    reassemble received ⟨.package pos, handed⟩ =
      ⟨.message pos n 8, handed⟩ := by
  unfold reassemble
  dsimp only
  rw [if_neg (by omega), if_neg (by omega), hsize, if_neg (by omega)]

theorem reassemble_end {base n pos : Nat} (h : n ≤ pos) :
    reassemble received ⟨.message base n pos, handed⟩ =
      ⟨.package (base + n), handed⟩ := by
  unfold reassemble
  dsimp only
  rw [if_pos h]

theorem reassemble_message {base n pos s : Nat} (h : pos < n)
    (hsize : sizeAt received (base + pos) = s)
    (hin : base + pos + 8 + s ≤ received.length)
    (hs : sizeofMessageStruct ≤ s) :
    reassemble received ⟨.message base n pos, handed⟩ =
      ⟨.message base n (pos + 8 + s),
        handed ++ [(received.drop (base + pos + 8)).take s]⟩ := by
  unfold reassemble
  dsimp only
  rw [if_neg (by omega), if_neg (by omega), hsize, if_neg (by omega)]

/-- How much there is still to go over. -/
def remaining (received : Bytes) (r : Reassembly) : Nat :=
  match r.cursor with
  | .package pos => 2 * (received.length - pos) + 1
  | .message base _ pos => 2 * (received.length - (base + pos)) + 2
  | _ => 0

theorem sizeofMessageStruct_pos : 0 < sizeofMessageStruct := Pod.sizeof_pos

/-- A step goes on to what is behind, and leaves less of it. -/
theorem Along.step {r : Reassembly} (h : Along received tail handed r)
    (htail : Incomplete tail) :
    Along received tail handed (reassemble received r) ∧
      ((∃ pos, r.cursor = .left pos) ∨
        remaining received (reassemble received r) < remaining received r) := by
  cases h with
  | @package pos handed pkgs hdrop hpkgs htotal =>
      cases pkgs with
      | nil =>
          have hrest : received.drop pos = tail := hdrop
          rw [reassemble_incomplete (hrest ▸ htail)]
          rw [List.flatten_nil, List.append_nil] at htotal
          subst htotal
          exact ⟨.left hrest, .inr (Nat.succ_pos _)⟩
      | cons msgs pkgs =>
          have hmsgs := hpkgs msgs (List.mem_cons_self ..)
          have hlen := length_serstr msgs
          have hbody := length_packageBody msgs
          rw [List.map_cons, List.flatten_cons, List.append_assoc] at hdrop
          have hall := length_of_drop hdrop
          rw [List.length_append] at hall
          have hfront := hdrop
          rw [serstr, List.append_assoc] at hfront
          rw [reassemble_package (sizeAt_eq hmsgs.size hfront) (by omega)
            (by omega)]
          refine ⟨.message (drop_add hfront (length_leBytes ..)) hbody
            hmsgs.size hmsgs.header
            (fun m hm => hpkgs m (List.mem_cons_of_mem _ hm)) htotal, .inr ?_⟩
          show 2 * (received.length - (pos + 8)) + 2 <
            2 * (received.length - pos) + 1
          omega
  | @message base n pos handed msgs pkgs hdrop hsize hn hheader hpkgs htotal =>
      cases msgs with
      | nil =>
          have hend : pos = n := hsize
          rw [reassemble_end (by omega)]
          refine ⟨.package (hend ▸ hdrop) hpkgs htotal, .inr ?_⟩
          show 2 * (received.length - (base + n)) + 1 <
            2 * (received.length - (base + pos)) + 2
          omega
      | cons msg msgs =>
          rw [packageBody_cons, List.length_append, List.length_append,
            length_leBytes] at hsize
          rw [packageBody_cons, List.append_assoc, List.append_assoc] at hdrop
          have hall := length_of_drop hdrop
          rw [List.length_append, List.length_append, length_leBytes] at hall
          have hnext := drop_add hdrop (length_leBytes ..)
          have hpos := sizeofMessageStruct_pos
          have hmsg := hheader msg (List.mem_cons_self ..)
          rw [reassemble_message (by omega) (sizeAt_eq (by omega) hdrop)
            (by omega) hmsg, hnext, List.take_left' rfl]
          refine ⟨.message ?_ (by omega) hn
            (fun m hm => hheader m (List.mem_cons_of_mem _ hm)) hpkgs ?_,
            .inr ?_⟩
          · have hover := drop_add hnext rfl
            rwa [show base + pos + 8 + msg.length =
              base + (pos + 8 + msg.length) by omega] at hover
          · rw [← htotal, List.append_assoc]
            rfl
          · show 2 * (received.length - (base + (pos + 8 + msg.length))) + 2 <
              2 * (received.length - (base + pos)) + 2
            omega
  | left hdrop => exact ⟨.left hdrop, .inl ⟨_, rfl⟩⟩
/-- On packages in order with `tail` behind them the loops do what they are to
do, and hand on the messages. -/
theorem reassembles_packages {pkgs : List (List Bytes)} {tail : Bytes}
    (htail : Incomplete tail) (hpkgs : ∀ msgs ∈ pkgs, Sendable msgs) :
    Reassembles ((pkgs.map serstr).flatten ++ tail) ∧
      ∃ k pos, reassembly ((pkgs.map serstr).flatten ++ tail) k =
          ⟨.left pos, pkgs.flatten⟩ ∧
        ((pkgs.map serstr).flatten ++ tail).drop pos = tail := by
  generalize hreceived : (pkgs.map serstr).flatten ++ tail = received
  have hstart : Along received tail pkgs.flatten ⟨.package 0, []⟩ :=
    .package (by rw [hreceived]; rfl) hpkgs rfl
  have hall : ∀ k, Along received tail pkgs.flatten (reassembly received k) :=
    fun k => iterate_of_closed hstart (fun d hd => (hd.step htail).1) k
  have hends : Attains (reassemble received) (fun _ => False)
      ⟨.package 0, []⟩ fun r => ∃ pos, r.cursor = .left pos := by
    refine .of_measure (remaining received) hstart fun d hd => ?_
    obtain ⟨hnext, hleft | hlt⟩ := hd.step htail
    · exact .inl hleft
    · exact .inr ⟨hnext, hlt⟩
  obtain ⟨k, ⟨pos, hk⟩ | hoff⟩ := hends
  · refine ⟨⟨⟨k, pos, hk⟩, ?_, ?_⟩, k, pos, ?_⟩
    case refine_1 =>
      intro j hj
      have hat := hall j
      generalize reassembly received j = r at hat hj
      cases hat <;> cases hj
    case refine_2 =>
      intro j base packagesize p hj
      have hat := hall j
      generalize reassembly received j = r at hat hj
      cases hat with
      | package => cases hj
      | message hdrop hsize =>
          injection hj with _ hn hp
          omega
      | left => cases hj
    case refine_3 =>
      have hat := hall k
      rw [reassembly] at hat ⊢
      generalize (reassemble received)^[k] ⟨.package 0, []⟩ = r at hat hk ⊢
      cases hat with
      | package => cases hk
      | message => cases hk
      | left hdrop =>
          injection hk with hpos
          subst hpos
          exact ⟨rfl, hdrop⟩
  · exact absurd hoff id

/-- There the loops get where the read loop for well-behaved peers gets. -/
theorem reassembly_packages {lz4 : Lz4} (hlz4 : Lz4Laws lz4)
    {pkgs : List (List Bytes)} {tail : Bytes} (htail : Incomplete tail)
    (hpkgs : ∀ msgs ∈ pkgs, Sendable msgs)
    (hreceived : received = (pkgs.map serstr).flatten ++ tail) :
    ∃ k pos msgs, reassembly received k = ⟨.left pos, msgs⟩ ∧
      packages false lz4 received.length received =
        some (msgs, received.drop pos) := by
  obtain ⟨-, k, pos, hleft, hdrop⟩ := reassembles_packages htail hpkgs
  have hfits : ∀ msgs ∈ pkgs, PackageFits false msgs :=
    fun m hm => (hpkgs m hm).size
  rw [← hreceived] at hleft hdrop
  refine ⟨k, pos, pkgs.flatten, hleft, ?_⟩
  have hwhole := packages_whole hlz4 hfits
    (Nat.le_refl ((pkgs.map serstr).flatten ++ tail).length) htail
  rw [hdrop, hreceived]
  exact hwhole

/-! ## Loops that stay in order

What is behind the cursor, read off the steps that are to come. -/

/-- The packages behind the cursor are in order, or what is left of the one it
is in. -/
def OrderedFrom (received : Bytes) : Cursor → Prop
  | .package pos => WellPackaged (received.drop pos)
  | .message base packagesize pos =>
      base + packagesize ≤ received.length → pos ≤ packagesize →
        ∃ msgs : List Bytes,
          (∀ msg ∈ msgs, sizeofMessageStruct ≤ msg.length) ∧
          received.drop (base + pos) =
            packageBody msgs ++ received.drop (base + packagesize) ∧
          pos + (packageBody msgs).length = packagesize ∧
          WellPackaged (received.drop (base + packagesize))
  | _ => True

theorem wellPackaged_of_incomplete (h : Incomplete tail) : WellPackaged tail :=
  ⟨[], tail, rfl, h, by simp⟩

theorem sizeAt_lt (received : Bytes) (pos : Nat) :
    sizeAt received pos < 2 ^ 64 := by
  have hlt := ofLeBytes_lt ((received.drop pos).take 8)
  have hle : ((received.drop pos).take 8).length ≤ 8 := List.length_take_le ..
  have hpow := Nat.pow_le_pow_right (n := 256) (by decide) hle
  have h256 : 256 ^ 8 = 2 ^ 64 := by decide
  rw [sizeAt]
  omega

/-- Eight bytes that are there are the number that is read. -/
theorem drop_eq_sizeAt {pos : Nat} (h : pos + 8 ≤ received.length) :
    received.drop pos =
      leBytes 8 (sizeAt received pos) ++ received.drop (pos + 8) := by
  have hlen : ((received.drop pos).take 8).length = 8 := by
    rw [List.length_take, List.length_drop]
    omega
  have hback := leBytes_ofLeBytes ((received.drop pos).take 8)
  rw [hlen] at hback
  rw [sizeAt, hback, ← List.drop_drop, List.take_append_drop]

/-- One step back. -/
theorem orderedFrom_of_step {r : Reassembly}
    (hnext : OrderedFrom received (reassemble received r).cursor)
    (hinside : (reassemble received r).cursor ≠ .outside)
    (hwhole : ∀ base packagesize pos,
      (reassemble received r).cursor = .message base packagesize pos →
        pos ≤ packagesize) : OrderedFrom received r.cursor := by
  obtain ⟨cursor, handed⟩ := r
  cases cursor with
  | package pos =>
      show WellPackaged (received.drop pos)
      by_cases hinc : Incomplete (received.drop pos)
      · exact wellPackaged_of_incomplete hinc
      · rw [Incomplete, List.length_drop, ← sizeAt] at hinc
        rw [reassemble_package rfl (by omega) (by omega)] at hnext hwhole
        have h8 := hwhole _ _ _ rfl
        obtain ⟨msgs, hheader, hdrop, hlen, pkgs, tail, hrest, htail, hpkgs⟩ :=
          hnext (by omega) h8
        have hsize := length_packageBody msgs
        have hn := sizeAt_lt received pos
        refine ⟨msgs :: pkgs, tail, ?_, htail, ?_⟩
        · rw [List.map_cons, List.flatten_cons, List.append_assoc, ← hrest,
            serstr, List.append_assoc, ← hdrop, ← hsize, hlen]
          exact drop_eq_sizeAt (by omega)
        · intro m hm
          rcases List.mem_cons.mp hm with rfl | hm
          · exact ⟨by omega, hheader⟩
          · exact hpkgs m hm
  | message base n pos =>
      intro hin hpos
      rcases Nat.lt_or_ge pos n with hlt | hge
      · have hstep : reassemble received ⟨.message base n pos, handed⟩ =
            ⟨.message base n (pos + 8 + sizeAt received (base + pos)),
              handed ++ [(received.drop (base + pos + 8)).take
                (sizeAt received (base + pos))]⟩ ∧
              base + pos + 8 + sizeAt received (base + pos) ≤
                received.length ∧
              sizeofMessageStruct ≤ sizeAt received (base + pos) := by
          unfold reassemble at hinside ⊢
          dsimp only at hinside ⊢
          rw [if_neg (by omega)] at hinside ⊢
          split at hinside
          · exact absurd rfl hinside
          · next h8 =>
              split at hinside
              · exact absurd rfl hinside
              · next hs =>
                  rw [if_neg h8, if_neg hs]
                  exact ⟨rfl, by omega, by omega⟩
        obtain ⟨hstep, hfit, hs⟩ := hstep
        rw [hstep] at hnext hwhole
        have hle := hwhole _ _ _ rfl
        obtain ⟨msgs, hheader, hdrop, hlen, hrest⟩ := hnext hin hle
        have htaken : ((received.drop (base + pos + 8)).take
            (sizeAt received (base + pos))).length =
            sizeAt received (base + pos) := by
          rw [List.length_take, List.length_drop]
          omega
        refine ⟨(received.drop (base + pos + 8)).take
          (sizeAt received (base + pos)) :: msgs, ?_, ?_, ?_, hrest⟩
        · intro m hm
          rcases List.mem_cons.mp hm with rfl | hm
          · omega
          · exact hheader m hm
        · rw [packageBody_cons, htaken, List.append_assoc, List.append_assoc,
            ← hdrop, show base + (pos + 8 + sizeAt received (base + pos)) =
              base + pos + 8 + sizeAt received (base + pos) by omega,
            ← List.drop_drop (i := sizeAt received (base + pos)),
            List.take_append_drop]
          exact drop_eq_sizeAt (by omega)
        · rw [packageBody_cons, List.length_append, List.length_append,
            length_leBytes, htaken]
          omega
      · rw [reassemble_end hge] at hnext
        have hend : pos = n := by omega
        subst hend
        exact ⟨[], by simp, rfl, rfl, hnext⟩
  | left pos => exact trivial
  | outside => exact trivial

/-- A buffer on which the loops do what they are to do is packages in order. -/
theorem wellPackaged_of_reassembles (h : Reassembles received) :
    WellPackaged received := by
  obtain ⟨k, pos, hk⟩ := h.ends
  have hback : ∀ j, j ≤ k → OrderedFrom received
      (reassembly received (k - j)).cursor := by
    intro j
    induction j with
    | zero =>
        intro _
        rw [Nat.sub_zero, hk]
        exact trivial
    | succ j ih =>
        intro hj
        have hnext := ih (by omega)
        have hsucc : reassembly received (k - j) =
            reassemble received (reassembly received (k - (j + 1))) := by
          rw [show k - j = (k - (j + 1)) + 1 by omega, reassembly,
            Function.iterate_succ_apply']
          rfl
        have hinside := h.inside (k - j)
        have hwhole := h.whole (k - j)
        rw [hsucc] at hnext hinside hwhole
        exact orderedFrom_of_step hnext hinside hwhole
  have hfirst := hback k (Nat.le_refl _)
  rwa [Nat.sub_self] at hfirst
/-! ## Streams in order -/

theorem incomplete_of_prefix {buf more : Bytes} (h : Incomplete (buf ++ more)) :
    Incomplete buf := by
  rcases Nat.lt_or_ge buf.length 8 with hshort | hlong
  · exact .inl hshort
  · rw [Incomplete, List.take_append_of_le_length hlong, List.length_append]
      at h
    exact .inr (by omega)

/-- What has arrived of a stream in order is in order. -/
theorem wellPackaged_of_prefix {buf more : Bytes}
    (h : WellPackaged (buf ++ more)) : WellPackaged buf := by
  obtain ⟨pkgs, tail, heq, htail, hpkgs⟩ := h
  rcases List.append_eq_append_iff.mp heq with ⟨rest, hflat, -⟩ |
      ⟨rest, hbuf, htail'⟩
  · have hframes : ∀ f ∈ pkgs.map serstr, SelfSized f := by
      intro f hf
      obtain ⟨msgs, hmsgs, rfl⟩ := List.mem_map.mp hf
      exact selfSized_serstr (hpkgs msgs hmsgs).size
    obtain ⟨fwhole, frest, part, hsplit, hbuf, -, hinc⟩ :=
      cut_frames hframes hflat.symm
    obtain ⟨whole, after, rfl, rfl, -⟩ := List.map_eq_append_iff.mp hsplit
    exact ⟨whole, part, hbuf, hinc,
      fun m hm => hpkgs m (List.mem_append_left _ hm)⟩
  · rw [htail'] at htail
    exact ⟨pkgs, rest, hbuf, incomplete_of_prefix htail, hpkgs⟩

/-- What is behind a package of a stream in order is in order. -/
theorem wellPackaged_of_serstr {msgs : List Bytes} {rest : Bytes}
    (hmsgs : Sendable msgs) (h : WellPackaged (serstr msgs ++ rest)) :
    WellPackaged rest := by
  obtain ⟨pkgs, tail, heq, htail, hpkgs⟩ := h
  have hself := selfSized_serstr hmsgs.size
  have hsize := hself.length_eq rest
  cases pkgs with
  | nil =>
      rw [List.map_nil, List.flatten_nil, List.nil_append] at heq
      have h8 := hself.1
      rw [← heq, Incomplete, hsize, List.length_append] at htail
      omega
  | cons first pkgs =>
      have hfirst := selfSized_serstr (hpkgs first (List.mem_cons_self ..)).size
      rw [List.map_cons, List.flatten_cons, List.append_assoc] at heq
      have hlen := hfirst.length_eq ((pkgs.map serstr).flatten ++ tail)
      rw [← heq, hsize] at hlen
      obtain ⟨-, hrest⟩ := List.append_inj heq hlen
      exact ⟨pkgs, tail, hrest, htail,
        fun m hm => hpkgs m (List.mem_cons_of_mem _ hm)⟩

theorem wellPackaged_of_packages {pkgs : List (List Bytes)} {rest : Bytes}
    (hpkgs : ∀ msgs ∈ pkgs, Sendable msgs)
    (h : WellPackaged ((pkgs.map serstr).flatten ++ rest)) :
    WellPackaged rest := by
  induction pkgs with
  | nil => exact h
  | cons msgs pkgs ih =>
      rw [List.map_cons, List.flatten_cons, List.append_assoc] at h
      exact ih (fun m hm => hpkgs m (List.mem_cons_of_mem _ hm))
        (wellPackaged_of_serstr (hpkgs msgs (List.mem_cons_self ..)) h)

theorem wellPackaged_iff_packages {pkgs : List (List Bytes)} {rest : Bytes}
    (hpkgs : ∀ msgs ∈ pkgs, Sendable msgs) :
    WellPackaged ((pkgs.map serstr).flatten ++ rest) ↔ WellPackaged rest := by
  refine ⟨wellPackaged_of_packages hpkgs, ?_⟩
  rintro ⟨more, tail, rfl, htail, hmore⟩
  refine ⟨pkgs ++ more, tail, ?_, htail, ?_⟩
  · rw [List.map_append, List.flatten_append, List.append_assoc]
  · intro m hm
    rcases List.mem_append.mp hm with hm | hm
    · exact hpkgs m hm
    · exact hmore m hm

theorem reassembles_iff (received : Bytes) :
    Reassembles received ↔ WellPackaged received := by
  constructor
  · exact wellPackaged_of_reassembles
  · rintro ⟨pkgs, tail, rfl, htail, hpkgs⟩
    exact (reassembles_packages htail hpkgs).1

/-! ## One read -/

/-- The bytes that are not used yet. -/
def pendingBytes (c : IbStream) : Bytes := c.pendingReads.getD []

theorem delivered_append (rs : List Reading) (r : Reading) :
    delivered (rs ++ [r]) = delivered rs ++ delivered [r] := by
  rw [delivered, List.flatMap_append]
  rfl

theorem buffer_eq {c : IbStream} {r : Reading}
    (h : c.buffer r = some received) :
    c.dropped = false ∧ received = pendingBytes c ++ delivered [r] := by
  unfold IbStream.buffer at h
  unfold pendingBytes
  cases r with
  | data inbuf =>
      dsimp only at h
      split at h
      · cases h
      · next hopen =>
          cases hpending : c.pendingReads with
          | none =>
              rw [hpending] at h
              injection h with h
              exact ⟨by simpa using hopen, by rw [← h]; simp [delivered]⟩
          | some str =>
              rw [hpending] at h
              cases h
  | again =>
      dsimp only at h
      split at h
      · cases h
      · next hopen =>
          rw [h]
          exact ⟨by simpa using hopen, by simp [delivered]⟩
  | drop => cases h

theorem pendingBytes_keep (c : IbStream) (received : Bytes) (pos : Nat)
    (handed : List Bytes) :
    pendingBytes (c.keep received pos handed) = received.drop pos := by
  unfold pendingBytes IbStream.keep
  dsimp only
  split
  · rfl
  · next hpos =>
      rw [List.drop_eq_nil_of_le (by omega)]
      cases c.pendingReads <;> rfl

/-- What has been read is packages whose messages were handed on and the
bytes that are held, as long as the connection is not dropped. -/
def StreamKept (rs : List Reading) (c : IbStream) : Prop :=
  c.dropped = false → ∃ pkgs : List (List Bytes),
    delivered rs = (pkgs.map serstr).flatten ++ pendingBytes c ∧
    c.handed = pkgs.flatten ∧ ∀ msgs ∈ pkgs, Sendable msgs

theorem left_unique {pos pos' k k' : Nat} {handed handed' : List Bytes}
    (h : reassembly received k = ⟨.left pos, handed⟩)
    (h' : reassembly received k' = ⟨.left pos', handed'⟩) :
    pos = pos' ∧ handed = handed' := by
  have hsame : (⟨.left pos, handed⟩ : Reassembly) = ⟨.left pos', handed'⟩ :=
    fixed_unique rfl rfl h h'
  injection hsame with hcursor hhanded
  injection hcursor with hpos
  exact ⟨hpos, hhanded⟩

/-- A read of bytes that are in order. -/
theorem kept_loop {rs : List Reading} {r : Reading} {c : IbStream}
    {pos k : Nat} (hkept : StreamKept rs c)
    (hbuffer : c.buffer r = some received)
    (hleft : reassembly received k = ⟨.left pos, handed⟩)
    (horder : WellPackaged received) :
    StreamKept (rs ++ [r]) (c.keep received pos handed) ∧
      Incomplete (pendingBytes (c.keep received pos handed)) := by
  obtain ⟨hopen, heq⟩ := buffer_eq hbuffer
  obtain ⟨pkgs, hbytes, hhanded, hpkgs⟩ := hkept hopen
  obtain ⟨more, tail, rfl, htail, hmore⟩ := horder
  obtain ⟨-, k', pos', hleft', hdrop⟩ := reassembles_packages htail hmore
  obtain ⟨rfl, rfl⟩ := left_unique hleft hleft'
  rw [pendingBytes_keep, hdrop]
  refine ⟨fun _ => ⟨pkgs ++ more, ?_, ?_, ?_⟩, htail⟩
  · rw [delivered_append, hbytes, List.append_assoc, ← heq,
      pendingBytes_keep, hdrop, List.map_append, List.flatten_append,
      List.append_assoc]
  · show c.handed ++ more.flatten = _
    rw [hhanded, List.flatten_append]
  · intro m hm
    rcases List.mem_append.mp hm with hm | hm
    · exact hpkgs m hm
    · exact hmore m hm

/-- A read that only stores, or ends the connection. -/
theorem kept_store {rs : List Reading} {r : Reading} {c : IbStream}
    (hkept : StreamKept rs c) (hbuffer : c.buffer r = none) :
    StreamKept (rs ++ [r]) (c.store r) ∧
      ((c.store r).dropped = false → r = .again →
        Incomplete (pendingBytes (c.store r))) := by
  unfold IbStream.buffer at hbuffer
  cases r with
  | data inbuf =>
      refine ⟨fun hopen => ?_, fun _ h => (by cases h)⟩
      dsimp only at hbuffer
      unfold IbStream.store at hopen ⊢
      dsimp only at hopen ⊢
      split at hbuffer
      · next hdropped =>
          rw [if_pos hdropped, hdropped] at hopen
          cases hopen
      · next hdropped =>
          rw [if_neg hdropped] at hopen ⊢
          cases hpending : c.pendingReads with
          | none =>
              rw [hpending] at hbuffer
              cases hbuffer
          | some str =>
              obtain ⟨pkgs, hbytes, hhanded, hpkgs⟩ := hkept hopen
              refine ⟨pkgs, ?_, hhanded, hpkgs⟩
              rw [pendingBytes, hpending] at hbytes
              rw [delivered_append, hbytes, List.append_assoc]
              simp [pendingBytes, delivered]
  | again =>
      dsimp only at hbuffer
      refine ⟨fun hopen => ?_, fun hopen _ => ?_⟩
      · obtain ⟨pkgs, hbytes, hrest⟩ := hkept hopen
        refine ⟨pkgs, ?_, hrest⟩
        rw [delivered_append, hbytes]
        exact List.append_nil _
      · have hopen' : c.dropped = false := hopen
        rw [hopen'] at hbuffer
        show Incomplete (c.pendingReads.getD [])
        rw [show c.pendingReads = none from hbuffer]
        exact incomplete_nil
  | drop =>
      exact ⟨fun hopen => (by cases hopen), fun hopen => (by cases hopen)⟩

/-! ## Runs -/

/-- The loops only go over what is in order, if the stream is. -/
theorem wellPackaged_of_buffer {stream : Bytes} (hstream : WellPackaged stream)
    {rs : List Reading} {r : Reading} {c : IbStream} (hkept : StreamKept rs c)
    (hbuffer : c.buffer r = some received)
    (hbytes : delivered (rs ++ [r]) <+: stream) : WellPackaged received := by
  obtain ⟨hopen, rfl⟩ := buffer_eq hbuffer
  obtain ⟨pkgs, hread, -, hpkgs⟩ := hkept hopen
  obtain ⟨more, rfl⟩ := hbytes
  rw [delivered_append, hread, List.append_assoc, List.append_assoc] at hstream
  have hrest := wellPackaged_of_packages hpkgs hstream
  rw [← List.append_assoc] at hrest
  exact wellPackaged_of_prefix hrest

theorem kept_of_wellPackaged {stream : Bytes} (hstream : WellPackaged stream)
    {rs : List Reading} {c : IbStream} (hrun : IbStream.Run rs c)
    (hbytes : delivered rs <+: stream) : StreamKept rs c := by
  induction hrun with
  | start => exact fun _ => ⟨[], rfl, rfl, by simp⟩
  | @read rs r c c' hrun hread ih =>
      have hbefore : delivered rs <+: stream :=
        (delivered_append rs r ▸ List.prefix_append ..).trans hbytes
      have hkept := ih hbefore
      cases hread with
      | store hbuffer => exact (kept_store hkept hbuffer).1
      | loop hbuffer hleft =>
          exact (kept_loop hkept hbuffer hleft
            (wellPackaged_of_buffer hstream hkept hbuffer hbytes)).1

theorem reassembled_of_wellPackaged {stream : Bytes}
    (hstream : WellPackaged stream) {rs : List Reading} (hbytes : delivered rs <+: stream) :
    Reassembled rs := by
  intro before r after hrs c hrun received hbuffer
  have happend : delivered rs =
      delivered (before ++ [r]) ++ delivered after := by
    rw [hrs, List.append_cons]
    exact List.flatMap_append
  have hread : delivered (before ++ [r]) <+: stream :=
    (happend ▸ List.prefix_append ..).trans hbytes
  have hbefore : delivered before <+: stream :=
    (delivered_append before r ▸ List.prefix_append ..).trans hread
  exact (reassembles_iff received).mpr (wellPackaged_of_buffer hstream
    (kept_of_wellPackaged hstream hrun hbefore) hbuffer hread)

/-- Where every read does what it is to do, there is a state it leads to. -/
theorem run_of_reassembled {rs : List Reading} (h : Reassembled rs) :
    ∃ c, IbStream.Run rs c ∧ StreamKept rs c ∧
      (.drop ∉ rs → c.dropped = false) ∧
      (rs.getLast? = some .again → c.dropped = false →
        Incomplete (pendingBytes c)) := by
  induction rs using List.reverseRecOn with
  | nil =>
      exact ⟨{}, .start, fun _ => ⟨[], rfl, rfl, by simp⟩, fun _ => rfl,
        fun h => (by cases h)⟩
  | append_singleton rs r ih =>
      obtain ⟨c, hrun, hkept, hopen, -⟩ := ih fun before r' after hrs =>
        h before r' (after ++ [r]) (by rw [hrs, List.append_assoc]; rfl)
      have hlast := h rs r [] rfl c hrun
      cases hbuffer : c.buffer r with
      | none =>
          obtain ⟨hkept', hinc⟩ := kept_store hkept hbuffer
          refine ⟨c.store r, .read hrun (.store hbuffer), hkept', ?_, ?_⟩
          · intro hnot
            have hbefore := hopen fun hd => hnot (List.mem_append_left _ hd)
            cases r with
            | data inbuf =>
                unfold IbStream.store
                dsimp only
                rw [if_neg (by rw [hbefore]; decide)]
                exact hbefore
            | again => exact hbefore
            | drop => exact absurd (by simp) hnot
          · intro hag hdropped
            rw [List.getLast?_concat] at hag
            injection hag with hag
            exact hinc hdropped hag
      | some received =>
          have hdo := hlast received hbuffer
          obtain ⟨k, pos, hk⟩ := hdo.ends
          have hleft : reassembly received k =
              ⟨.left pos, (reassembly received k).handed⟩ := by
            rw [← hk]
          obtain ⟨hkept', hinc⟩ := kept_loop hkept hbuffer hleft
            (wellPackaged_of_reassembles hdo)
          exact ⟨_, .read hrun (.loop hbuffer hleft), hkept',
            fun _ => (buffer_eq hbuffer).1, fun _ _ => hinc⟩

/-- Eight zeros: a package that is not even as long as its length. -/
def emptyPackage : Bytes := List.replicate 8 0

/-- The loop comes back to it for ever. -/
theorem emptyPackage_not_reassembled :
    Cut emptyPackage [.data emptyPackage, .again] ∧
      ¬ Reassembled [.data emptyPackage, .again] := by
  refine ⟨⟨?_, by decide⟩, fun h => ?_⟩
  · intro r hr
    simp only [List.mem_cons, List.not_mem_nil, or_false] at hr
    rcases hr with rfl | rfl
    · exact ⟨by decide, show 8 ≤ SO_RCVBUF by decide⟩
    · exact trivial
  · obtain ⟨k, pos, hk⟩ := (h [] _ _ rfl {} .start emptyPackage rfl).ends
    have hround : (reassembly emptyPackage k).cursor = .package 0 ∨
        (reassembly emptyPackage k).cursor = .message 0 0 8 := by
      refine iterate_of_closed (P := fun r : Reassembly =>
        r.cursor = .package 0 ∨ r.cursor = .message 0 0 8) (.inl rfl)
        (fun r hr => ?_) k
      obtain ⟨cursor, handed⟩ := r
      rcases hr with hr | hr
      · cases hr
        exact .inr rfl
      · cases hr
        exact .inl rfl
    rcases hround with hround | hround <;> rw [hk] at hround <;> cases hround

/-- With any cut of a stream into reads, at the end of which there is nothing
more for now, the gateway does what it is to do if and only if the stream is
in order; and it is only on a stream in order that it does so with every cut,
of all or a part of the stream, with the connection dropped or not. -/
theorem reassembled_iff (stream : Bytes) :
    ((∀ rs, Cut stream rs → Reassembled rs) ↔ WellPackaged stream) ∧
      ∀ rs, FullCut stream rs → (Reassembled rs ↔ WellPackaged stream) := by
  have hfull : ∀ rs, FullCut stream rs →
      (Reassembled rs ↔ WellPackaged stream) := by
    intro rs hcut
    constructor
    · intro h
      obtain ⟨c, -, hkept, hopen, hinc⟩ := run_of_reassembled h
      have hdropped := hopen hcut.open'
      obtain ⟨before, hagain⟩ := hcut.again
      have hlast : rs.getLast? = some .again := by
        rw [hagain, List.getLast?_concat]
      obtain ⟨pkgs, hbytes, -, hpkgs⟩ := hkept hdropped
      exact ⟨pkgs, pendingBytes c, by rw [← hcut.bytes, hbytes],
        hinc hlast hdropped, hpkgs⟩
    · intro h
      exact reassembled_of_wellPackaged h
        ⟨[], by rw [hcut.bytes, List.append_nil]⟩
  refine ⟨⟨fun h => ?_,
    fun h rs hcut => reassembled_of_wellPackaged h hcut.bytes⟩,
    hfull⟩
  -- byte by byte
  have hbytes : delivered (stream.map (fun b => .data [b]) ++ [.again]) =
      stream := by
    rw [delivered_append, delivered, List.flatMap_map]
    exact (List.append_nil _).trans (List.flatMap_singleton' stream)
  have hfits : ∀ r ∈ stream.map (fun b => Reading.data [b]) ++ [.again],
      ReadFits r := by
    intro r hr
    rcases List.mem_append.mp hr with hr | hr
    · obtain ⟨b, -, rfl⟩ := List.mem_map.mp hr
      exact ⟨by simp, show 1 ≤ SO_RCVBUF by decide⟩
    · rw [List.mem_singleton.mp hr]
      exact trivial
  have hnot : Reading.drop ∉ stream.map (fun b => Reading.data [b]) ++
      [.again] := by
    intro hd
    rcases List.mem_append.mp hd with hd | hd
    · obtain ⟨b, -, hb⟩ := List.mem_map.mp hd
      cases hb
    · cases List.mem_singleton.mp hd
  exact (hfull _ ⟨hfits, hnot, hbytes, _, rfl⟩).mp
    (h _ ⟨hfits, [], by rw [hbytes, List.append_nil]⟩)

end Infinisql.Proofs
