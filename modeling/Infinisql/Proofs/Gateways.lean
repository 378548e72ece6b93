import Infinisql.Lib.Frames
import Infinisql.Lib.Run
import Infinisql.Spec.Transport

/-!
# Messages between nodes arrive once and in order

For each node the messages sent to it are, at any moment, the ones handed on,
the ones in packages that were sent but not handed on, the pending ones, and
the ones in the gateway's mailbox and in the producer's batch, in that order;
and the bytes that were read but not used together with those under way are
those packages. That is the invariant, and the actions shift messages along
it. Only a read can fail. It cuts the packages that are complete off its
bytes, as `cut_frames` has it, and each of them is taken apart into its
messages, if it fits the buffers.
-/

namespace Infinisql.Proofs

open Infinisql.Lib Infinisql.Ref Infinisql.Spec

/-! ## One package -/

theorem length_packageBody (msgs : List Bytes) :
    8 + (packageBody msgs).length = packagesize msgs := by
  rw [packageBody, packagesize, List.length_flatMap]
  simp only [List.length_append, length_leBytes]

theorem length_serstr (msgs : List Bytes) :
    (serstr msgs).length = packagesize msgs := by
  rw [serstr, List.length_append, length_leBytes, length_packageBody]

theorem messages_succ {fuel : Nat} {inbuf : Bytes} (h : inbuf ≠ []) :
    messages (fuel + 1) inbuf =
      if inbuf.length < 8 ∨
          (inbuf.drop 8).length < ofLeBytes (inbuf.take 8) then none
      else (messages fuel ((inbuf.drop 8).drop (ofLeBytes (inbuf.take 8)))).bind
        fun more => some ((inbuf.drop 8).take (ofLeBytes (inbuf.take 8)) ::
          more) := by
  cases inbuf with
  | nil => exact absurd rfl h
  | cons b bs => rfl

theorem packagesize_cons (msg : Bytes) (msgs : List Bytes) :
    packagesize (msg :: msgs) = 8 + msg.length + packagesize msgs := by
  simp only [packagesize, List.map_cons, List.sum_cons]
  omega

theorem length_le_packagesize (msgs : List Bytes) :
    msgs.length ≤ packagesize msgs := by
  induction msgs with
  | nil => exact Nat.zero_le _
  | cons msg msgs ih =>
      rw [packagesize_cons, List.length_cons]
      omega

/-- Each message is found behind its size. -/
theorem messages_packageBody {msgs : List Bytes} {fuel : Nat}
    (hfuel : msgs.length ≤ fuel) (hsize : packagesize msgs < 2 ^ 64) :
    messages fuel (packageBody msgs) = some msgs := by
  induction msgs generalizing fuel with
  | nil => cases fuel <;> rfl
  | cons msg msgs ih =>
      cases fuel with
      | zero => simp at hfuel
      | succ fuel =>
          have hsum := packagesize_cons msg msgs
          have hmore := ih (Nat.le_of_succ_le_succ hfuel) (by omega)
          have hbody : packageBody (msg :: msgs) =
              leBytes 8 msg.length ++ (msg ++ packageBody msgs) := by
            rw [packageBody, List.flatMap_cons, List.append_assoc]
            rfl
          have hlen : ofLeBytes (leBytes 8 msg.length) = msg.length := by
            rw [ofLeBytes_leBytes]
            exact Nat.mod_eq_of_lt (by omega)
          have htake : (packageBody (msg :: msgs)).take 8 =
              leBytes 8 msg.length := by
            rw [hbody, List.take_left' (length_leBytes ..)]
          have hdrop : (packageBody (msg :: msgs)).drop 8 =
              msg ++ packageBody msgs := by
            rw [hbody, List.drop_left' (length_leBytes ..)]
          have hne : packageBody (msg :: msgs) ≠ [] := by
            rw [hbody, leBytes]
            exact List.cons_ne_nil _ _
          rw [messages_succ hne, htake, hdrop, hlen, if_neg, List.drop_left'
            rfl, List.take_left' rfl, hmore, Option.bind_some]
          rw [hbody]
          simp only [List.length_append, length_leBytes]
          omega

/-- Doubling the buffer gets to one that is large enough, if one is. -/
theorem decompressed_compress {lz4 : Lz4} (hlz4 : Lz4Laws lz4) {p : Bytes}
    (hp : p.length ≤ dcstrMax) {fuel k : Nat} (hfuel : 30 < fuel + k)
    (hk : k ≤ 30) :
    decompressed lz4 fuel (2 ^ k) (lz4.compress p) = some p := by
  have hmax : dcstrMax = 2 ^ 30 := rfl
  have hinput : LZ4_MAX_INPUT_SIZE = 2113929216 := rfl
  induction fuel generalizing k with
  | zero => omega
  | succ fuel ih =>
      rw [decompressed, hlz4.inverts p _ (by omega)]
      rcases Nat.lt_or_ge (2 ^ k) p.length with hsmall | henough
      · have hlt : k < 30 := by
          refine (Nat.pow_lt_pow_iff_right (a := 2) (by decide)).mp ?_
          omega
        have hint : ¬ INT_MAX < 2 ^ k * 2 := by
          have hle : 2 ^ (k + 1) ≤ 2 ^ 30 :=
            Nat.pow_le_pow_right (by decide) hlt
          rw [Nat.pow_succ] at hle
          have hdef : INT_MAX = 2147483647 := rfl
          omega
        rw [if_neg (by omega)]
        dsimp only
        rw [if_neg hint, ← Nat.pow_succ]
        exact ih (by omega) hlt
      · rw [if_pos henough]

/-- The gateway at the other end gets the messages out of a package that
fits. -/
theorem inbufhandler_sendstr {compressgw : Bool} {lz4 : Lz4}
    (hlz4 : Lz4Laws lz4) {msgs : List Bytes}
    (hfits : PackageFits compressgw msgs) :
    inbufhandler compressgw lz4 (sendstr compressgw lz4 msgs) = some msgs := by
  have hlen := length_serstr msgs
  have hcount : msgs.length ≤ (serstr msgs).length := by
    rw [hlen]
    exact length_le_packagesize msgs
  have hdrop : (serstr msgs).drop 8 = packageBody msgs :=
    List.drop_left' (length_leBytes ..)
  cases compressgw with
  | false =>
      have hsize : packagesize msgs < 2 ^ 64 := hfits
      show messages (serstr msgs).length ((serstr msgs).drop 8) = some msgs
      rw [hdrop]
      exact messages_packageBody hcount hsize
  | true =>
      have hsize : packagesize msgs ≤ dcstrMax := hfits
      have hmax : dcstrMax = 2 ^ 30 := rfl
      have hsrc : (sendstr true lz4 msgs).drop 8 =
          lz4.compress (serstr msgs) :=
        List.drop_left' (length_leBytes ..)
      show (decompressed lz4 32 (2 ^ 20) ((sendstr true lz4 msgs).drop 8)).bind
        (fun inbuf => messages inbuf.length (inbuf.drop 8)) = some msgs
      rw [hsrc, decompressed_compress hlz4 (by omega) (by decide) (by decide),
        Option.bind_some, hdrop]
      exact messages_packageBody hcount (by omega)

theorem selfSized_sendstr {compressgw : Bool} {lz4 : Lz4}
    (hlz4 : Lz4Laws lz4) {msgs : List Bytes}
    (hfits : PackageFits compressgw msgs) :
    SelfSized (sendstr compressgw lz4 msgs) := by
  cases compressgw with
  | false =>
      have hsize : packagesize msgs < 2 ^ 64 := hfits
      have hbody := length_packageBody msgs
      show SelfSized (serstr msgs)
      rw [serstr, ← hbody]
      exact selfSized_leBytes (by omega)
  | true =>
      have hsize : packagesize msgs ≤ dcstrMax := hfits
      have hmax : dcstrMax = 2 ^ 30 := rfl
      have hinput : LZ4_MAX_INPUT_SIZE = 2113929216 := rfl
      have hlen := length_serstr msgs
      have hbound := hlz4.bound (serstr msgs) (by omega)
      exact selfSized_leBytes (by omega)

/-! ## One read -/

theorem packages_incomplete {compressgw : Bool} {lz4 : Lz4} {fuel : Nat}
    {buf : Bytes} (hfuel : buf.length ≤ fuel) (h : Incomplete buf) :
    packages compressgw lz4 fuel buf = some ([], buf) := by
  cases buf with
  | nil => cases fuel <;> rfl
  | cons b bs =>
      cases fuel with
      | zero => simp at hfuel
      | succ fuel =>
          exact if_pos h

/-- A package at the front is handed on, and the loop goes on behind it. -/
theorem packages_frame (compressgw : Bool) (lz4 : Lz4) (fuel : Nat)
    {frame : Bytes} (hframe : SelfSized frame) (buf : Bytes) :
    packages compressgw lz4 (fuel + 1) (frame ++ buf) =
      (inbufhandler compressgw lz4 frame).bind fun msgs =>
        (packages compressgw lz4 fuel buf).map fun p =>
          (msgs ++ p.1, p.2) := by
  have hsize := hframe.length_eq buf
  have hpos := hframe.1
  cases hcase : frame ++ buf with
  | nil =>
      have hlen := congrArg List.length hcase
      simp only [List.length_append, List.length_nil] at hlen
      omega
  | cons b bs =>
      show (if _ then _ else _) = _
      rw [← hcase, hsize, if_neg, List.take_left' rfl, List.drop_left' rfl]
      · cases inbufhandler compressgw lz4 frame with
        | none => rfl
        | some msgs => cases packages compressgw lz4 fuel buf <;> rfl
      · rw [List.length_append]
        omega

/-- The loop hands on the packages that are complete, and leaves an
incomplete one. -/
theorem packages_whole {compressgw : Bool} {lz4 : Lz4} (hlz4 : Lz4Laws lz4)
    {whole : List (List Bytes)} {tail : Bytes} {fuel : Nat}
    (hfits : ∀ msgs ∈ whole, PackageFits compressgw msgs)
    (hfuel : ((whole.map (sendstr compressgw lz4)).flatten ++ tail).length ≤
      fuel) (htail : Incomplete tail) :
    packages compressgw lz4 fuel
      ((whole.map (sendstr compressgw lz4)).flatten ++ tail) =
      some (whole.flatten, tail) := by
  induction whole generalizing fuel with
  | nil => exact packages_incomplete hfuel htail
  | cons msgs whole ih =>
      have hfit := hfits msgs (List.mem_cons_self ..)
      have hframe := selfSized_sendstr hlz4 hfit
      have hpos := hframe.1
      rw [List.map_cons, List.flatten_cons, List.append_assoc] at hfuel ⊢
      rw [List.length_append] at hfuel
      cases fuel with
      | zero => omega
      | succ fuel =>
          rw [packages_frame _ _ _ hframe, inbufhandler_sendstr hlz4 hfit,
            Option.bind_some,
            ih (fun m hm => hfits m (List.mem_cons_of_mem _ hm)) (by omega)]
          rfl

/-- The bytes that were read before and not used. -/
def heldBytes (c : IbConnection) : Bytes := c.pendingReads.getD []

/-- What a read does to a stream of fitting packages: some of them are handed
on, and the stream behind them is what is held and what is still to come. -/
structure ReadsOn (compressgw : Bool) (lz4 : Lz4) (c c' : IbConnection)
    (more : Bytes) (whole rest : List (List Bytes)) : Prop where
  handed : c'.handed = c.handed ++ whole.flatten
  stream : heldBytes c' ++ more = (rest.map (sendstr compressgw lz4)).flatten
  polling : c'.polling = true → Incomplete (heldBytes c')

theorem readed_stream {compressgw : Bool} {lz4 : Lz4} (hlz4 : Lz4Laws lz4)
    {c : IbConnection} {inbuf more : Bytes} {pkgs : List (List Bytes)}
    (hfits : ∀ msgs ∈ pkgs, PackageFits compressgw msgs)
    (hstream : heldBytes c ++ (inbuf ++ more) =
      (pkgs.map (sendstr compressgw lz4)).flatten) :
    ∃ c' whole rest, readed compressgw lz4 inbuf c = some c' ∧
      pkgs = whole ++ rest ∧
      ReadsOn compressgw lz4 c c' more whole rest := by
  have hframes : ∀ f ∈ pkgs.map (sendstr compressgw lz4), SelfSized f := by
    intro f hf
    obtain ⟨msgs, hmsgs, rfl⟩ := List.mem_map.mp hf
    exact selfSized_sendstr hlz4 (hfits msgs hmsgs)
  have hcut : ∀ buf, buf ++ more = (pkgs.map (sendstr compressgw lz4)).flatten →
      ∃ whole rest tail, packages compressgw lz4 buf.length buf =
        some (whole.flatten, tail) ∧ pkgs = whole ++ rest ∧
        tail ++ more = (rest.map (sendstr compressgw lz4)).flatten ∧
        Incomplete tail := by
    intro buf hbuf
    obtain ⟨fwhole, frest, tail, hsplit, hbuf', htail, hinc⟩ :=
      cut_frames hframes hbuf
    obtain ⟨whole, rest, rfl, rfl, rfl⟩ := List.map_eq_append_iff.mp hsplit
    refine ⟨whole, rest, tail, ?_, rfl, htail, hinc⟩
    rw [hbuf']
    exact packages_whole hlz4
      (fun m hm => hfits m (List.mem_append_left _ hm)) (Nat.le_refl _) hinc
  cases hpending : c.pendingReads with
  | none =>
      have hheld : heldBytes c = [] := by rw [heldBytes, hpending]; rfl
      rw [hheld, List.nil_append] at hstream
      cases inbuf with
      | nil =>
          refine ⟨{ c with polling := true }, [], pkgs, ?_, rfl, ?_⟩
          · simp only [readed, hpending]
          · constructor
            case handed => rw [List.flatten_nil, List.append_nil]
            case stream =>
              show heldBytes c ++ more = _
              rw [hheld]
              exact hstream
            case polling =>
              intro _
              show Incomplete (heldBytes c)
              rw [hheld]
              exact incomplete_nil
      | cons b bs =>
          obtain ⟨whole, rest, tail, hpkgs, hsplit, htail, hinc⟩ :=
            hcut (b :: bs) hstream
          have hkept : (if tail = [] then none else some tail).getD [] =
              tail := by
            split
            · next hnil => exact hnil.symm
            · rfl
          refine ⟨{ pendingReads := if tail = [] then none else some tail,
                    polling := false, handed := c.handed ++ whole.flatten },
            whole, rest, ?_, hsplit, ?_⟩
          · simp only [readed, hpending, hpkgs]
            rfl
          · constructor
            case handed => rfl
            case stream =>
              show (if tail = [] then none else some tail).getD [] ++ more = _
              rw [hkept]
              exact htail
            case polling => exact fun h => absurd h (by simp)
  | some str =>
      have hheld : heldBytes c = str := by rw [heldBytes, hpending]; rfl
      rw [hheld] at hstream
      cases inbuf with
      | nil =>
          obtain ⟨whole, rest, tail, hpkgs, hsplit, htail, hinc⟩ :=
            hcut str hstream
          refine ⟨{ pendingReads := some tail, polling := true,
                    handed := c.handed ++ whole.flatten },
            whole, rest, ?_, hsplit, ?_⟩
          · simp only [readed, hpending, hpkgs]
            rfl
          · exact ⟨rfl, htail, fun _ => hinc⟩
      | cons b bs =>
          refine ⟨{ c with pendingReads := some (str ++ b :: bs),
                           polling := false }, [], pkgs, ?_, rfl, ?_⟩
          · simp only [readed, hpending]
          · constructor
            case handed => rw [List.flatten_nil, List.append_nil]
            case stream =>
              show str ++ b :: bs ++ more = _
              rw [List.append_assoc]
              exact hstream
            case polling => exact fun h => absurd h (by simp)

/-! ## The invariant -/

/-- What of a batch is for the node. -/
def toNode (n : Nodeid) (batch : List (Nodeid × Bytes)) : List Bytes :=
  (batch.filter fun msg => msg.1 = n).map Prod.snd

/-- The messages for the node are in order along their way, and the bytes on
it are those of `pkgs`. -/
structure OnTheWay (compressgw : Bool) (lz4 : Lz4) (s : Gateways)
    (n : Nodeid) (pkgs : List (List Bytes)) : Prop where
  flow : s.sent n = (s.conn n).handed ++ pkgs.flatten ++ s.pendingMsgs n ++
    toNode n s.mbox.flatten ++ toNode n (s.obBatchMsg.getD [])
  stream : heldBytes (s.conn n) ++ s.wire n =
    (pkgs.map (sendstr compressgw lz4)).flatten
  fits : ∀ msgs ∈ pkgs, PackageFits compressgw msgs
  polling : (s.conn n).polling = true → Incomplete (heldBytes (s.conn n))

def Orderly (compressgw : Bool) (lz4 : Lz4) (s : Gateways) : Prop :=
  ∀ n, ∃ pkgs, OnTheWay compressgw lz4 s n pkgs

theorem orderly_init {compressgw : Bool} {lz4 : Lz4} :
    Orderly compressgw lz4 {} :=
  fun _ => ⟨[], rfl, rfl, fun _ h => absurd h (List.not_mem_nil),
    fun _ => incomplete_nil⟩

/-- What is in order is delivered. -/
theorem Orderly.delivered {compressgw : Bool} {lz4 : Lz4}
    (hlz4 : Lz4Laws lz4) {s : Gateways} (h : Orderly compressgw lz4 s) :
    Delivered s := by
  intro n
  obtain ⟨pkgs, hway⟩ := h n
  have hflow := hway.flow
  refine ⟨?_, fun hquiet => ?_⟩
  · rw [hflow]
    simp only [List.append_assoc]
    exact List.prefix_append _ _
  · have hstream := hway.stream
    rw [hquiet.wire, List.append_nil] at hstream
    have hframes : ∀ f ∈ pkgs.map (sendstr compressgw lz4), SelfSized f := by
      intro f hf
      obtain ⟨msgs, hmsgs, rfl⟩ := List.mem_map.mp hf
      exact selfSized_sendstr hlz4 (hway.fits msgs hmsgs)
    have hinc := hway.polling hquiet.polling
    rw [hstream] at hinc
    have hnone := List.map_eq_nil_iff.mp (eq_nil_of_incomplete hframes hinc)
    rw [hflow, hnone, hquiet.pendingMsgs, hquiet.mbox, hquiet.obBatchMsg]
    simp [toNode]

/-! ## The steps -/

@[simp] theorem toNode_nil (n : Nodeid) : toNode n [] = [] := rfl

@[simp] theorem toNode_append (n : Nodeid) (a b : List (Nodeid × Bytes)) :
    toNode n (a ++ b) = toNode n a ++ toNode n b := by
  rw [toNode, List.filter_append, List.map_append]
  rfl

theorem toNode_singleton (n dest : Nodeid) (msg : Bytes) :
    toNode n [(dest, msg)] = if dest = n then [msg] else [] := by
  unfold toNode
  split
  · next heq => simp [heq]
  · next hne => simp [hne]

/-- What a batch adds to the pending messages of a node. -/
theorem pendingMsgs_batch (n : Nodeid) (batch : List (Nodeid × Bytes))
    (p : Nodeid → List Bytes) :
    (batch.foldl (fun (pendingMsgs : Nodeid → List Bytes) msg =>
      Function.update pendingMsgs msg.1 (pendingMsgs msg.1 ++ [msg.2])) p) n =
      p n ++ toNode n batch := by
  induction batch generalizing p with
  | nil => rw [List.foldl_nil, toNode_nil, List.append_nil]
  | cons msg batch ih =>
      have hcons : toNode n (msg :: batch) =
          toNode n [(msg.1, msg.2)] ++ toNode n batch :=
        toNode_append n [msg] batch
      rw [List.foldl_cons, ih, hcons, toNode_singleton, ← List.append_assoc]
      congr 1
      by_cases heq : msg.1 = n
      · rw [if_pos heq, ← heq, Function.update_self]
      · rw [if_neg heq, Function.update_of_ne (Ne.symm heq), List.append_nil]

section Steps

variable {nodeid : Nodeid} {compressgw : Bool} {lz4 : Lz4} {s : Gateways}

theorem orderly_sendObBatch (h : Orderly compressgw lz4 s) :
    Orderly compressgw lz4 s.sendObBatch := by
  intro n
  obtain ⟨pkgs, hway⟩ := h n
  rw [Gateways.sendObBatch]
  cases hbatch : s.obBatchMsg with
  | none => exact ⟨pkgs, hway⟩
  | some batch =>
      have hflow := hway.flow
      rw [hbatch] at hflow
      refine ⟨pkgs, ?_, hway.stream, hway.fits, hway.polling⟩
      rw [hflow]
      simp

theorem orderly_sendMsg (dest : Nodeid) (msg : Bytes)
    (h : Orderly compressgw lz4 s) :
    Orderly compressgw lz4 (s.sendMsg nodeid dest msg) := by
  unfold Gateways.sendMsg
  split
  · exact h
  · have hput : Orderly compressgw lz4 { s with
        obBatchMsg := some (s.obBatchMsg.getD [] ++ [(dest, msg)])
        sent := Function.update s.sent dest (s.sent dest ++ [msg]) } := by
      intro n
      obtain ⟨pkgs, hway⟩ := h n
      refine ⟨pkgs, ?_, hway.stream, hway.fits, hway.polling⟩
      have hflow := hway.flow
      show Function.update s.sent dest (s.sent dest ++ [msg]) n = _
      by_cases heq : dest = n
      · subst heq
        rw [Function.update_self, hflow]
        simp [toNode_singleton]
      · rw [Function.update_of_ne (Ne.symm heq), hflow]
        simp [toNode_singleton, heq]
    dsimp only
    split
    · exact orderly_sendObBatch hput
    · exact hput

theorem orderly_receive (h : Orderly compressgw lz4 s) :
    Orderly compressgw lz4 s.receive := by
  intro n
  obtain ⟨pkgs, hway⟩ := h n
  rw [Gateways.receive]
  cases hmbox : s.mbox with
  | nil => exact ⟨pkgs, hway⟩
  | cons batch mbox =>
      have hflow := hway.flow
      rw [hmbox] at hflow
      refine ⟨pkgs, ?_, hway.stream, hway.fits, hway.polling⟩
      show s.sent n = (s.conn n).handed ++ pkgs.flatten ++
        (batch.foldl _ s.pendingMsgs) n ++ toNode n mbox.flatten ++ _
      rw [pendingMsgs_batch, hflow]
      simp

/-- The pending messages become one more package. -/
theorem orderly_sendPendings (h : Orderly compressgw lz4 s)
    (hfits : SendsFitting compressgw s .sendPendings) :
    Orderly compressgw lz4 (s.sendPendings compressgw lz4) := by
  intro n
  obtain ⟨pkgs, hway⟩ := h n
  have hflow := hway.flow
  have hstream := hway.stream
  by_cases hnone : s.pendingMsgs n = []
  · refine ⟨pkgs, ?_, ?_, hway.fits, hway.polling⟩
    · show s.sent n = _
      rw [hflow, hnone]
      rfl
    · show heldBytes (s.conn n) ++ (s.wire n ++ if _ then _ else _) = _
      rw [if_pos hnone, List.append_nil, hstream]
  · refine ⟨pkgs ++ [s.pendingMsgs n], ?_, ?_, ?_, hway.polling⟩
    · show s.sent n = _
      rw [hflow]
      simp [Gateways.sendPendings]
    · show heldBytes (s.conn n) ++ (s.wire n ++ if _ then _ else _) = _
      rw [if_neg hnone, ← List.append_assoc, hstream]
      simp
    · intro msgs hmsgs
      rcases List.mem_append.mp hmsgs with hold | hnew
      · exact hway.fits msgs hold
      · rw [List.mem_singleton.mp hnew]
        exact hfits n hnone

theorem orderly_read (hlz4 : Lz4Laws lz4) (h : Orderly compressgw lz4 s)
    (n : Nodeid) (k : Nat) :
    ∃ s', s.read compressgw lz4 n k = some s' ∧
      Orderly compressgw lz4 s' := by
  obtain ⟨pkgs, hway⟩ := h n
  have hsplit : (s.wire n).take (min k SO_RCVBUF) ++ (s.wire n).drop
      ((s.wire n).take (min k SO_RCVBUF)).length = s.wire n := by
    rw [List.length_take, List.take_eq_take_min, List.take_append_drop]
  obtain ⟨c, whole, rest, hread, hpkgs, hon⟩ :=
    readed_stream hlz4 (c := s.conn n) hway.fits (by
      rw [hsplit]
      exact hway.stream)
  refine ⟨_, by rw [Gateways.read, hread]; rfl, ?_⟩
  intro m
  by_cases heq : m = n
  · subst heq
    have hconn : Function.update s.conn m c m = c := Function.update_self ..
    refine ⟨rest, ?_, ?_, ?_, ?_⟩
    · have hflow := hway.flow
      rw [hpkgs, List.flatten_append] at hflow
      show s.sent m = (Function.update s.conn m c m).handed ++ _ ++ _ ++ _ ++ _
      rw [hconn, hon.handed, hflow]
      simp only [List.append_assoc]
    · show heldBytes (Function.update s.conn m c m) ++
        Function.update s.wire m _ m = _
      rw [hconn, Function.update_self]
      exact hon.stream
    · intro msgs hmsgs
      exact hway.fits msgs (hpkgs ▸ List.mem_append_right whole hmsgs)
    · show (Function.update s.conn m c m).polling = true →
        Incomplete (heldBytes (Function.update s.conn m c m))
      rw [hconn]
      exact hon.polling
  · obtain ⟨pkgs', hway'⟩ := h m
    have hconn : Function.update s.conn n c m = s.conn m :=
      Function.update_of_ne heq ..
    refine ⟨pkgs', ?_, ?_, hway'.fits, ?_⟩
    · show s.sent m = (Function.update s.conn n c m).handed ++ _ ++ _ ++ _ ++ _
      rw [hconn]
      exact hway'.flow
    · show heldBytes (Function.update s.conn n c m) ++
        Function.update s.wire n _ m = _
      rw [hconn, Function.update_of_ne heq]
      exact hway'.stream
    · show (Function.update s.conn n c m).polling = true →
        Incomplete (heldBytes (Function.update s.conn n c m))
      rw [hconn]
      exact hway'.polling

/-- Every step that sends no package too large is defined and keeps the
messages in order. -/
theorem orderly_step (hlz4 : Lz4Laws lz4) {a : GatewayAction}
    (hfits : SendsFitting compressgw s a) (h : Orderly compressgw lz4 s) :
    ∃ s', gatewayStep nodeid compressgw lz4 s a = some s' ∧
      Orderly compressgw lz4 s' := by
  cases a with
  | sendMsg dest msg => exact ⟨_, rfl, orderly_sendMsg dest msg h⟩
  | sendObBatch => exact ⟨_, rfl, orderly_sendObBatch h⟩
  | receive => exact ⟨_, rfl, orderly_receive h⟩
  | sendPendings => exact ⟨_, rfl, orderly_sendPendings h hfits⟩
  | read n k => exact orderly_read hlz4 h n k

end Steps

/-- In every run that sends no package too large, no step goes wrong, each
node is handed the messages sent to it in their order, and it is handed all
of them by the time nothing is on its way. -/
theorem delivered_of_sendsFitting {nodeid : Nodeid} {compressgw : Bool}
    {lz4 : Lz4} (hlz4 : Lz4Laws lz4) {as : List GatewayAction}
    (h : AllCalls (gatewayStep nodeid compressgw lz4)
      (SendsFitting compressgw) {} as) :
    AllDefined (gatewayStep nodeid compressgw lz4) Delivered {} as :=
  (h.allDefined (fun _ _ hfits hs => orderly_step hlz4 hfits hs)
    orderly_init).imp fun _ hs => hs.delivered hlz4

/-! ## A package that is too large -/

/-- No buffer is large enough, and the size of the next one is not an
`int`. -/
theorem decompressed_oversize {lz4 : Lz4} (hlz4 : Lz4Laws lz4) {p : Bytes}
    (hover : dcstrMax < p.length) (hp : p.length ≤ LZ4_MAX_INPUT_SIZE)
    {fuel k : Nat} (hk : k ≤ 30) :
    decompressed lz4 fuel (2 ^ k) (lz4.compress p) = none := by
  have hmax : dcstrMax = 2 ^ 30 := rfl
  have hint : INT_MAX = 2147483647 := rfl
  induction fuel generalizing k with
  | zero => rfl
  | succ fuel ih =>
      have hle : 2 ^ k ≤ 2 ^ 30 := Nat.pow_le_pow_right (by decide) hk
      rw [decompressed, hlz4.inverts p _ hp, if_neg (by omega)]
      dsimp only
      rcases Nat.lt_or_ge k 30 with hlt | hge
      · split
        · rfl
        · rw [← Nat.pow_succ]
          exact ih hlt
      · obtain rfl : k = 30 := Nat.le_antisymm hk hge
        rw [if_pos (by decide)]

theorem inbufhandler_oversize {lz4 : Lz4} (hlz4 : Lz4Laws lz4)
    {msgs : List Bytes} (hover : dcstrMax < packagesize msgs)
    (hinput : packagesize msgs ≤ LZ4_MAX_INPUT_SIZE) :
    inbufhandler true lz4 (sendstr true lz4 msgs) = none := by
  have hlen := length_serstr msgs
  have hsrc : (sendstr true lz4 msgs).drop 8 = lz4.compress (serstr msgs) :=
    List.drop_left' (length_leBytes ..)
  show (decompressed lz4 32 (2 ^ 20) ((sendstr true lz4 msgs).drop 8)).bind
    (fun inbuf => messages inbuf.length (inbuf.drop 8)) = none
  rw [hsrc, decompressed_oversize hlz4 (by omega) (by omega) (by decide),
    Option.bind_none]

/-- A read that does not complete a package adds to what is held. -/
theorem readed_grows (compressgw : Bool) (lz4 : Lz4) {c : IbConnection}
    {inbuf : Bytes} (hne : inbuf ≠ [])
    (h : c.pendingReads = none → Incomplete inbuf) :
    ∃ c', readed compressgw lz4 inbuf c = some c' ∧
      heldBytes c' = heldBytes c ++ inbuf := by
  cases inbuf with
  | nil => exact absurd rfl hne
  | cons b bs =>
      cases hpending : c.pendingReads with
      | none =>
          have hpkgs : packages compressgw lz4 (b :: bs).length (b :: bs) =
              some ([], b :: bs) :=
            packages_incomplete (Nat.le_refl _) (h hpending)
          refine ⟨{ pendingReads := some (b :: bs), polling := false,
                    handed := c.handed ++ [] }, ?_, ?_⟩
          · simp only [readed, hpending, hpkgs]
            rfl
          · show b :: bs = c.pendingReads.getD [] ++ b :: bs
            rw [hpending]
            rfl
      | some str =>
          refine ⟨{ c with pendingReads := some (str ++ b :: bs),
                           polling := false }, ?_, ?_⟩
          · simp only [readed, hpending]
          · show str ++ b :: bs = c.pendingReads.getD [] ++ b :: bs
            rw [hpending]
            rfl

section Oversize

variable {nodeid : Nodeid} {compressgw : Bool} {lz4 : Lz4} {n : Nodeid}
  {pkg : Bytes} {s : Gateways}

/-- `EAGAIN` after all of a package with no outcome. -/
theorem read_held_none (hpkg : SelfSized pkg)
    (hnone : inbufhandler compressgw lz4 pkg = none) (k : Nat)
    (hheld : heldBytes (s.conn n) = pkg) (hwire : s.wire n = []) :
    s.read compressgw lz4 n k = none := by
  have hpos := hpkg.1
  have hpending : (s.conn n).pendingReads = some pkg := by
    cases hcase : (s.conn n).pendingReads with
    | none =>
        rw [heldBytes, hcase] at hheld
        rw [← hheld] at hpos
        exact absurd hpos (by decide)
    | some str =>
        rw [heldBytes, hcase] at hheld
        exact congrArg some hheld
  have hpkgs : packages compressgw lz4 pkg.length pkg = none := by
    obtain ⟨fuel, hfuel⟩ := Nat.exists_eq_add_of_le (by omega : 1 ≤ pkg.length)
    have hframe := packages_frame compressgw lz4 fuel hpkg []
    rw [List.append_nil, hnone, Option.bind_none] at hframe
    rw [hfuel, Nat.add_comm 1 fuel]
    exact hframe
  have hread : readed compressgw lz4 [] (s.conn n) = none := by
    simp only [readed, hpending, hpkgs]
    rfl
  rw [Gateways.read, hwire, List.take_nil, hread]
  rfl

/-- A read of a part of the package is defined, and adds to what is held. -/
theorem read_part (compressgw : Bool) (lz4 : Lz4) (hpkg : SelfSized pkg)
    (hlong : SO_RCVBUF < pkg.length)
    (hstream : heldBytes (s.conn n) ++ s.wire n = pkg)
    (hwire : s.wire n ≠ []) :
    ∃ s', s.read compressgw lz4 n SO_RCVBUF = some s' ∧
      heldBytes (s'.conn n) ++ s'.wire n = pkg ∧
      (s'.wire n).length = (s.wire n).length - SO_RCVBUF := by
  have hbuf : 0 < SO_RCVBUF := by decide
  have hpos := List.length_pos_iff.mpr hwire
  have hlen : ((s.wire n).take SO_RCVBUF).length =
      min SO_RCVBUF (s.wire n).length := List.length_take
  have hne : (s.wire n).take SO_RCVBUF ≠ [] := by
    apply List.length_pos_iff.mp
    omega
  have hpart : (s.conn n).pendingReads = none →
      Incomplete ((s.wire n).take SO_RCVBUF) := by
    intro hpending
    have hjoin : (s.wire n).take SO_RCVBUF ++ (s.wire n).drop SO_RCVBUF =
        pkg := by
      rw [List.take_append_drop, ← hstream, heldBytes, hpending]
      rfl
    exact hpkg.incomplete_of_lt hjoin (by omega)
  obtain ⟨c, hread, hheld⟩ := readed_grows compressgw lz4 hne hpart
  have hdrop : (s.wire n).drop ((s.wire n).take SO_RCVBUF).length =
      (s.wire n).drop SO_RCVBUF := by
    rw [hlen]
    rcases Nat.le_total SO_RCVBUF (s.wire n).length with hle | hle
    · rw [Nat.min_eq_left hle]
    · rw [Nat.min_eq_right hle, List.drop_length, List.drop_eq_nil_of_le hle]
  refine ⟨{ s with
    wire := Function.update s.wire n ((s.wire n).drop SO_RCVBUF)
    conn := Function.update s.conn n c }, ?_, ?_, ?_⟩
  · rw [Gateways.read, Nat.min_self, hread, hdrop]
    rfl
  · show heldBytes (Function.update s.conn n c n) ++
      Function.update s.wire n _ n = _
    rw [Function.update_self, Function.update_self, hheld, List.append_assoc,
      List.take_append_drop, hstream]
  · show (Function.update s.wire n _ n).length = _
    rw [Function.update_self, List.length_drop]

/-- However often the connection is read, the read that completes a package
with no outcome has none. -/
theorem run_reads_none (hpkg : SelfSized pkg)
    (hlong : SO_RCVBUF < pkg.length)
    (hnone : inbufhandler compressgw lz4 pkg = none) (j : Nat)
    (hstream : heldBytes (s.conn n) ++ s.wire n = pkg)
    (hj : (s.wire n).length ≤ j * SO_RCVBUF) :
    run (gatewayStep nodeid compressgw lz4) s
      (List.replicate (j + 1) (.read n SO_RCVBUF)) = none := by
  induction j generalizing s with
  | zero =>
      have hwire : s.wire n = [] :=
        List.length_eq_zero_iff.mp (by omega)
      rw [hwire, List.append_nil] at hstream
      show (s.read compressgw lz4 n SO_RCVBUF).bind _ = none
      rw [read_held_none hpkg hnone _ hstream hwire, Option.bind_none]
  | succ j ih =>
      rw [List.replicate_succ, run]
      show (s.read compressgw lz4 n SO_RCVBUF).bind _ = none
      by_cases hwire : s.wire n = []
      · rw [hwire, List.append_nil] at hstream
        rw [read_held_none hpkg hnone _ hstream hwire, Option.bind_none]
      · obtain ⟨s', hread, hstream', hlen⟩ :=
          read_part compressgw lz4 hpkg hlong hstream hwire
        rw [hread, Option.bind_some]
        refine ih hstream' ?_
        rw [Nat.succ_mul] at hj
        omega

end Oversize

/-! ## Runs -/

/-- LZ4 with nothing to gain. -/
def storedLz4 : Lz4 where
  compress p := p
  decompressSafe src cap := if src.length ≤ cap then some src else none

theorem lz4Laws_storedLz4 : Lz4Laws storedLz4 where
  inverts _ _ _ := rfl
  bound p _ := by
    show p.length ≤ _
    omega

/-- A message whose package is longer than the largest output buffer. -/
def bigMessage : Bytes := List.replicate (2 ^ 30) 0

/-- It is sent to node 2, and node 2 reads until there is nothing more. -/
def bigRun : List GatewayAction :=
  [.sendMsg 2 bigMessage, .sendObBatch, .receive, .sendPendings] ++
    List.replicate 66 (.read 2 SO_RCVBUF)

/-- The way of one message onto the wire. -/
theorem run_sendOne (msg : Bytes) :
    ∃ s, run (gatewayStep 1 true storedLz4) {}
      [.sendMsg 2 msg, .sendObBatch, .receive, .sendPendings] = some s ∧
      s.wire 2 = sendstr true storedLz4 [msg] ∧ s.conn 2 = {} :=
  ⟨_, rfl, rfl, rfl⟩

/-- The read that completes the package of the big message never gets it
decompressed, and doubles the size of the buffer past the largest `int`. -/
theorem bigRun_not_delivered :
    ¬ AllDefined (gatewayStep 1 true storedLz4) Delivered {} bigRun := by
  intro h
  have hbig : packagesize [bigMessage] = 2 ^ 30 + 16 := by
    rw [packagesize_cons, bigMessage, List.length_replicate]
    rfl
  have hmax : dcstrMax = 2 ^ 30 := rfl
  have hinput : LZ4_MAX_INPUT_SIZE = 2113929216 := rfl
  have hserstr : (storedLz4.compress (serstr [bigMessage])).length =
      2 ^ 30 + 16 := by
    rw [← hbig, ← length_serstr]
    rfl
  have hlen : (sendstr true storedLz4 [bigMessage]).length = 2 ^ 30 + 24 := by
    have hparts : (sendstr true storedLz4 [bigMessage]).length =
        8 + (storedLz4.compress (serstr [bigMessage])).length := by
      show (leBytes 8 _ ++ storedLz4.compress (serstr [bigMessage])).length = _
      rw [List.length_append, length_leBytes]
    omega
  obtain ⟨s, hs, hwire, hconn⟩ := run_sendOne bigMessage
  obtain ⟨s', hs'⟩ := Option.isSome_iff_exists.mp h.run_isSome
  obtain ⟨s₁, hs₁, hreads⟩ := run_append.mp hs'
  obtain rfl : s = s₁ := Option.some.inj (hs.symm.trans hs₁)
  have hbuf : SO_RCVBUF = 2 ^ 24 := rfl
  have hself : SelfSized (sendstr true storedLz4 [bigMessage]) :=
    selfSized_leBytes (by omega)
  have hnone : inbufhandler true storedLz4
      (sendstr true storedLz4 [bigMessage]) = none :=
    inbufhandler_oversize lz4Laws_storedLz4 (by omega) (by omega)
  have hstream : heldBytes (s.conn 2) ++ s.wire 2 =
      sendstr true storedLz4 [bigMessage] := by
    have hempty : heldBytes {} = [] := rfl
    rw [hconn, hwire, hempty, List.nil_append]
  have hundefined : run (gatewayStep 1 true storedLz4) s
      (List.replicate (65 + 1) (.read 2 SO_RCVBUF)) = none :=
    run_reads_none hself (by omega) hnone 65 hstream (by rw [hwire]; omega)
  rw [hundefined] at hreads
  cases hreads

/-- Two messages in one package, which is read in pieces that end inside its
size and inside a message. -/
def piecewise : List GatewayAction :=
  [.sendMsg 2 [1, 2, 3], .sendMsg 2 [4], .sendObBatch, .receive,
   .sendPendings, .read 2 5, .read 2 0, .read 2 20, .read 2 100, .read 2 0]

theorem delivered_of_sendsFitting_piecewise :
    AllDefined (gatewayStep 1 false storedLz4) Delivered {} piecewise := by
  refine delivered_of_sendsFitting lz4Laws_storedLz4 ?_
  refine .cons rfl trivial (.cons rfl trivial (.cons rfl trivial
    (.cons rfl trivial (.cons rfl ?_ (.cons rfl trivial (.cons rfl trivial
      (.cons rfl trivial (.cons rfl trivial (.cons rfl trivial
        trivial)))))))))
  intro n hne
  by_cases h : n = 2
  · subst h
    show packagesize [[1, 2, 3], [4]] < 2 ^ 64
    decide
  · refine absurd ?_ hne
    show Function.update (Function.update (fun _ => []) 2 _) 2 _ n = []
    rw [Function.update_of_ne h, Function.update_of_ne h]

end Infinisql.Proofs
