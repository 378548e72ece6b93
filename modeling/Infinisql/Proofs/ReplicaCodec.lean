import Infinisql.Proofs.MessageCodec

/-!
# The codecs of replication messages

What `package` of a replication message writes and what `unpack` reads are in
step but for two places, and the two maps of a dispatch message are neither of
them: the maps are written and read alike. It is their size that is wrong, one
byte for a count of eight and nothing for the records, so `package` runs off
the end of the string unless the records happen to take exactly as many bytes
as the counts have too many. The two places are the flags of an index item,
which are assigned through a pointer to the string, and the socket of a socket
message, which `unpack` does not read.
-/

namespace Infinisql.Proofs

open Infinisql.Lib Infinisql.Ref.Wire Infinisql.Spec
open Infinisql.Ref (Bytes FieldInput FieldValue)

instance : LawfulSerial MessageStruct := lawful_pod _
instance : LawfulSerial SocketStruct := lawful_pod _
instance : LawfulSerial AckdispatchStruct := lawful_pod _
instance : LawfulSerial AckapplyStruct := lawful_pod _

/-! ## The maps -/

theorem UnorderedMap.ext_entries {κ ν : Type} {d d' : UnorderedMap κ ν}
    (h : d.entries = d'.entries) : d = d' := by
  cases d
  cases d'
  cases h
  rfl

/-- Assigning the entries of a map one after another to an empty one gives the
map. -/
theorem foldl_set {ν : Type} (d : UnorderedMap (BitVec 64) ν) :
    d.entries.foldl (fun d p => d.set p.1 p.2) {} = d := by
  have hput : ∀ (c : UnorderedMap (BitVec 64) ν) (p : BitVec 64 × ν),
      p.1 ∉ c.entries.map Prod.fst →
      (c.set p.1 p.2).entries = c.entries ++ [p] := by
    intro c p hnew
    rw [UnorderedMap.set, dif_neg hnew]
  exact UnorderedMap.ext_entries (foldl_fresh hput d.entries
    ⟨[], List.nodup_nil⟩ d.nodup)

/-- What the entries of a map take, each its key and its value. -/
def entriesSize {ν : Type} [Serial ν] (d : UnorderedMap (BitVec 64) ν) : Nat :=
  (d.entries.map fun p => sersize p.1 + sersize p.2).sum

/-- A map of lawful values is written and read alike, in eight bytes for the
count and what the entries take. -/
theorem carries_map {ν : Type} [Serial ν] [LawfulSerial ν]
    (d : UnorderedMap (BitVec 64) ν) (h : 8 + entriesSize d < 2 ^ 64) :
    Carries
      (do
        serCount d.entries.length
        writeAll (fun p => do ser p.1; ser p.2) d.entries)
      (do
        let s ← desCount
        readInto
          (do
            let val1 ← (des : BufferM (BitVec 64))
            let val2 ← (des : BufferM ν)
            pure (val1, val2))
          (fun d p => d.set p.1 p.2) s {})
      (8 + entriesSize d) d := by
  have hsizes := List.length_le_sum_of_one_le
    (d.entries.map fun p => sersize p.1 + sersize p.2) (by
      intro n hn
      obtain ⟨p, -, rfl⟩ := List.mem_map.mp hn
      exact Nat.add_pos_left (sersize_pos p.1) _)
  rw [List.length_map] at hsizes
  have hentry : ∀ p ∈ d.entries, Carries
      (do ser p.1; ser p.2)
      (do
        let val1 ← (des : BufferM (BitVec 64))
        let val2 ← (des : BufferM ν)
        pure (val1, val2))
      (sersize p.1 + sersize p.2) p := by
    intro p hp
    have hle : sersize p.1 + sersize p.2 ≤ entriesSize d :=
      List.le_sum_of_mem (List.mem_map_of_mem hp)
    exact (carries p.1 (by omega)).bind ((carries p.2 (by omega)).last _)
  have hloop := carries_loop
    (fun (d : UnorderedMap (BitVec 64) ν) p => d.set p.1 p.2) hentry {}
  rw [foldl_set] at hloop
  have hlen : d.entries.length ≤ entriesSize d := hsizes
  exact (carries_count (by omega)).bind hloop

theorem sersize_record (r : Record) : sersize r = recordSpan r := by
  show 8 + 1 + 8 + 8 + (8 + r.row.length) + (8 + r.oldrow.length) = _
  rw [recordSpan]
  omega

theorem entriesSize_pidsids (d : UnorderedMap (BitVec 64) (BitVec 64)) :
    entriesSize d = 16 * d.entries.length := by
  show (d.entries.map fun _ => 16).sum = _
  rw [List.map_const', List.sum_replicate_nat, Nat.mul_comm]

theorem entriesSize_records (m : MessageDispatch) :
    entriesSize m.records = 16 * m.records.entries.length + recordsSpan m := by
  rw [entriesSize, recordsSpan]
  induction m.records.entries with
  | nil => rfl
  | cons p ps ih =>
      have hhead : sersize p.1 + sersize p.2 =
          16 + (p.2.map recordSpan).sum := by
        show 8 + (8 + (p.2.map sersize).sum) = _
        rw [List.map_congr_left fun r _ => sersize_record r]
        omega
      simp only [List.map_cons, List.sum_cons, List.length_cons, ih, hhead]
      omega

/-! ## The five classes -/

theorem carriesMsg_dispatch (m : MessageDispatch)
    (h : written (.dispatch m) < 2 ^ 64) :
    CarriesMsg m.messageStruct m.package MessageDispatch.unpack
      (written (.dispatch m)) m := by
  have hwritten : written (.dispatch m) = m.toMessage.size +
    sersize m.dispatchStruct + (8 + 16 * m.pidsids.entries.length) +
    (8 + 16 * m.records.entries.length + recordsSpan m) := rfl
  have hpidsids := entriesSize_pidsids m.pidsids
  have hrecords := entriesSize_records m
  have hdispatch := carries m.dispatchStruct (by omega)
  have hids := carries_map m.pidsids (by omega)
  have hvectors := carries_map m.records (by omega)
  exact ((carriesMsg_message m.toMessage).bind (hdispatch.bind
    (hids.bind (hvectors.last _)))).of_size (by omega)

theorem carriesMsg_ackDispatch (m : MessageAckDispatch) :
    CarriesMsg m.messageStruct m.package MessageAckDispatch.unpack m.size m :=
  (carriesMsg_message m.toMessage).bind
    ((carries_pod m.ackdispatchStruct).last _)

theorem carriesMsg_ackApply (m : MessageAckApply) :
    CarriesMsg m.messageStruct m.package MessageAckApply.unpack m.size m :=
  (carriesMsg_message m.toMessage).bind
    ((carries_pod m.ackapplyStruct).last _)

theorem carriesMsg_apply (m : MessageApply) (h : m.size < 2 ^ 64)
    (hempty : m.indices = []) :
    CarriesMsg m.messageStruct m.package MessageApply.unpack m.size m := by
  have hsize : m.size = m.toMessage.size + sersize m.applyStruct +
    sersize m.rows + sersize m.indices := rfl
  have happly := carries m.applyStruct (by omega)
  have hrows := carries m.rows (by omega)
  have hindices : Carries (ser m.indices) des (sersize m.indices)
      m.indices := by
    rw [hempty]
    exact (carries_count (n := 0) (by decide)).bind
      (f := fun s => readInto des (fun d val => d ++ [val]) s []) carries_nil
  exact ((carriesMsg_message m.toMessage).bind (happly.bind (hrows.bind
    (hindices.last _)))).of_size (by omega)

theorem serFlags_fails {n : Nat} (flags : BitVec 8) (hpos : 0 < n) :
    FailsFrom n (serFlags flags) := by
  intro front back hn
  have hne : ¬ front.length = 0 := by omega
  rw [serFlags, if_neg hne]

/-- An index item cannot be written but at the very start of the string. -/
theorem applyindex_fails {n : Nat} {d : Applyindex}
    (h : sersize d < 2 ^ 64) : FailsFrom n (ser d) := by
  have hsize : sersize d = sersize d.fieldVal + sersize d.entry + 1 +
    sersize d.tableid + sersize d.fieldid := rfl
  have hpos := sersize_pos d.entry
  have hfieldVal := carries d.fieldVal (by omega)
  have hentry := carries d.entry (by omega)
  exact hfieldVal.bind_fails (hentry.bind_fails
    (serFlags_fails d.flags (by omega)).bind)

theorem apply_fails {m : MessageApply} (h : m.size < 2 ^ 64)
    (hitems : m.indices ≠ []) : FailsFrom 0 m.package := by
  have hsize : m.size = m.toMessage.size + sersize m.applyStruct +
    sersize m.rows + sersize m.indices := rfl
  have hrows := carries m.rows (by omega)
  have hindices : FailsFrom (0 + m.toMessage.size + sersize m.applyStruct +
      sersize m.rows) (ser m.indices) := by
    cases hcase : m.indices with
    | nil => exact absurd hcase hitems
    | cons d ds =>
        have hvec : sersize m.indices = 8 + (sersize d +
            (ds.map sersize).sum) := by
          rw [hcase]
          rfl
        have hcount := carries_pod (BitVec.ofNat 64 (d :: ds).length)
        have hitem : sersize d < 2 ^ 64 := by omega
        exact hcount.bind_fails (applyindex_fails hitem).bind
  have happly := carries m.applyStruct (by omega)
  exact (carriesMsg_message m.toMessage).carries.bind_fails
    (happly.bind_fails (hrows.bind_fails hindices))

/-! ## Both ends -/

/-- The string is filled exactly when its size is what is written. -/
theorem size_of_readsBack {α : Type} {msg : MessageVariant}
    {w : BufferM Unit} {r : BufferM α} {n : Nat} {m : α}
    (h : Carries w r n m) (hser : msg.sermsg = serobj msg.size w)
    (hback : ReadsBack msg) : msg.size = n := by
  obtain ⟨s, b, hs, -, -⟩ := hback
  refine (h.fills_iff msg.size).mp ⟨s, ?_⟩
  rw [hser, serobj, Option.map_eq_some_iff] at hs
  obtain ⟨⟨u, b'⟩, hw, rfl⟩ := hs
  exact hw

theorem carriesMsg_socket (m : MessageSocket) :
    CarriesMsg m.messageStruct m.package
      (Message.unpack >>= fun _ => (des : BufferM SocketStruct)) m.size
      m.socketStruct :=
  (carriesMsg_message m.toMessage).bind (carries_pod m.socketStruct)

/-- A socket message is one byte shorter than the two headers that are read
from it. -/
theorem socket_unpack_none {s : Bytes} (h : s.length = 19) :
    MessageSocket.unpack ⟨s, 0⟩ = none := by
  have hfirst : Buffer.read 10 ⟨s, 0⟩ =
      some ((s.drop 0).take 10, ⟨s, 0 + 10⟩) :=
    if_pos (show 0 < s.length ∧ 0 + 10 ≤ s.length by omega)
  have hsecond : Buffer.read 10 ⟨s, 0 + 10⟩ = none :=
    if_neg (show ¬ (0 + 10 < s.length ∧ 0 + 10 + 10 ≤ s.length) by omega)
  have hheader : (des : BufferM MessageStruct) =
      Buffer.read 10 >>= fun bytes => pure (Pod.ofBytes bytes) := rfl
  simp only [MessageSocket.unpack, Message.unpack, hheader, bind_eq, hfirst,
    Option.bind_some]
  show ((Buffer.read 10 ⟨s, 0 + 10⟩).bind _).bind _ = none
  rw [hsecond]
  rfl

theorem socket_not_readsBack {m : MessageSocket}
    (htype : m.messageStruct.payloadtype = .socket) :
    ¬ ReadsBack (.socket m) := by
  intro ⟨s, b, hser, hlen, hdes⟩
  obtain ⟨s', hwrite, -, -, b', hhdr⟩ := (carriesMsg_socket m).zeros
  have hserobj : (MessageVariant.socket m).sermsg = some ⟨s', m.size⟩ := by
    rw [← serobj_eq hwrite]
    simp only [MessageVariant.sermsg, MessageVariant.base, htype]
  rw [hserobj] at hser
  injection hser with hser
  injection hser with hdata hpos
  subst hdata
  have hnone := socket_unpack_none (s := s') hlen
  have hthis : MessageVariant.des s' = none := by
    simp [MessageVariant.des, hhdr, htype, Functor.map, StateT.map, hnone]
  rw [hthis] at hdes
  cases hdes

/-- A replication message comes through exactly when the sizes and positions
of its kind are right: a dispatch message when the counts that take too little
and the records that are not counted make up for each other, an apply message
when it has no index items, the acknowledgements always and a socket
never. -/
theorem readsBack_iff_sizesAgree {msg : MessageVariant}
    (hclass : OfReplication msg) (htyped : Typed msg)
    (hsize : written msg < 2 ^ 64) : ReadsBack msg ↔ SizesAgree msg := by
  cases msg with
  | dispatch m =>
      have htype : m.messageStruct.payloadtype = .dispatch := htyped
      have hcarries := carriesMsg_dispatch m hsize
      have hser : (MessageVariant.dispatch m).sermsg =
          serobj m.size m.package := by
        simp only [MessageVariant.sermsg, MessageVariant.base, htype]
      have hagree : m.size = written (.dispatch m) ↔
          SizesAgree (.dispatch m) := by
        show m.toMessage.size + sersize m.dispatchStruct +
          (m.pidsids.entries.length + m.pidsids.entries.length * 2 * 8) +
          (m.records.entries.length + m.records.entries.length * 2 * 8) =
          m.toMessage.size + sersize m.dispatchStruct +
          (8 + 16 * m.pidsids.entries.length) +
          (8 + 16 * m.records.entries.length + recordsSpan m) ↔
          m.pidsids.entries.length + m.records.entries.length =
            16 + recordsSpan m
        omega
      rw [← hagree]
      constructor
      · intro hback
        exact size_of_readsBack hcarries.carries hser hback
      · intro heq
        rw [← heq] at hcarries
        refine RoundTrips.readsBack
          (roundTrips_of_carriesMsg .dispatch hcarries hser ?_ rfl)
        intro s b hhdr
        simp [MessageVariant.des, MessageVariant.base, hhdr, htype]
  | apply m =>
      have htype : m.messageStruct.payloadtype = .apply := htyped
      have hser : (MessageVariant.apply m).sermsg =
          serobj m.size m.package := by
        simp only [MessageVariant.sermsg, MessageVariant.base, htype]
      constructor
      · intro hback
        obtain ⟨s, b, hs, -⟩ := hback
        by_contra hitems
        have hnone := (apply_fails hsize hitems).zeros m.size
        rw [hser, serobj, hnone] at hs
        cases hs
      · intro hempty
        refine RoundTrips.readsBack (roundTrips_of_carriesMsg .apply
          (carriesMsg_apply m hsize hempty) hser ?_ rfl)
        intro s b hhdr
        simp [MessageVariant.des, MessageVariant.base, hhdr, htype]
  | ackDispatch m =>
      have htype : m.messageStruct.payloadtype = .ackDispatch := htyped
      refine iff_of_true (RoundTrips.readsBack (roundTrips_of_carriesMsg
        .ackDispatch (carriesMsg_ackDispatch m) ?_ ?_ rfl)) trivial
      · simp only [MessageVariant.sermsg, MessageVariant.base, htype,
          MessageVariant.size]
      · intro s b hhdr
        simp [MessageVariant.des, MessageVariant.base, hhdr, htype]
  | ackApply m =>
      have htype : m.messageStruct.payloadtype = .ackApply := htyped
      refine iff_of_true (RoundTrips.readsBack (roundTrips_of_carriesMsg
        .ackApply (carriesMsg_ackApply m) ?_ ?_ rfl)) trivial
      · simp only [MessageVariant.sermsg, MessageVariant.base, htype,
          MessageVariant.size]
      · intro s b hhdr
        simp [MessageVariant.des, MessageVariant.base, hhdr, htype]
  | socket m =>
      exact iff_of_false (socket_not_readsBack htyped) id
  | message _ | userSchema _ | deadlock _ | subtransactionCmd _
  | commitRollback _ => exact hclass.elim

/-- One record of one partition, as the commit of one inserted row sends
it. -/
def oneRecord : MessageVariant :=
  .dispatch
    { messageStruct := { payloadtype := .dispatch, topic := 28 }
      dispatchStruct := { transactionid := 7, domainid := 1 }
      pidsids := { entries := [(2, 11)] }
      records := { entries := [(2, [{ rowid := 5, primitive := 1,
                                      tableid := 3, row := [0, 65] }])] } }

theorem readsBack_iff_sizesAgree_oneRecord :
    ReadsBack oneRecord ↔ SizesAgree oneRecord :=
  readsBack_iff_sizesAgree trivial rfl (by decide)

/-- The writing runs off the end of the string: 60 bytes are allocated for
the 117 of the message. -/
theorem oneRecord_not_readsBack : ¬ ReadsBack oneRecord := by
  intro ⟨s, b, hser, _⟩
  have hnone : oneRecord.sermsg = none := by decide +kernel
  rw [hnone] at hser
  cases hser

end Infinisql.Proofs
