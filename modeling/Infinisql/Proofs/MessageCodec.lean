import Mathlib.Algebra.Order.BigOperators.Group.List
import Mathlib.Algebra.Order.Group.Nat
import Infinisql.Spec.Wire

/-!
# The codecs of transaction and schema messages

`LawfulSerial` says of a type that its three overloads agree: what `ser`
writes has the length `sersize` computes, and `des` makes the same value of
it. The instances follow the source's overloads level by level, each from
those of its members; for the vectors one lemma covers the loops, and the two
vectors whose size is a product are brought to the sum. The types that are
missing here are missing for a reason: the maps and the index items of
replication are not lawful.

The only thing asked of a value is that its size is a `size_t`, which is what
keeps the counts of its strings and vectors from wrapping in the eight bytes
they are written in.

A message starts with its header, and `Message::des` looks at the header
before it knows the class. `CarriesMsg` is `Carries` with that remembered.
-/

namespace Infinisql.Proofs

open Infinisql.Lib Infinisql.Ref.Wire Infinisql.Spec
open Infinisql.Ref (Bytes FieldInput FieldValue)

/-- The three overloads of the type agree. -/
class LawfulSerial (α : Type) [Serial α] : Prop where
  sersize_pos : ∀ a : α, 0 < sersize a
  carries : ∀ a : α, sersize a < 2 ^ 64 → Carries (ser a) des (sersize a) a

export LawfulSerial (sersize_pos carries)

/-! ## Scalars and packed structures -/

theorem lawful_pod (α : Type) [Pod α] : @LawfulSerial α (Serial.pod α) :=
  @LawfulSerial.mk α (Serial.pod α) (fun _ => Pod.sizeof_pos)
    fun a _ => carries_pod a

instance : LawfulSerial (BitVec 64) := lawful_pod _
instance : LawfulSerial (BitVec 32) := lawful_pod _
instance : LawfulSerial (BitVec 16) := lawful_pod _
instance : LawfulSerial (BitVec 8) := lawful_pod _
instance : LawfulSerial Bool := lawful_pod _
instance : LawfulSerial UserschemaStruct := lawful_pod _
instance : LawfulSerial Procedures := lawful_pod _
instance : LawfulSerial DeadlockStruct := lawful_pod _
instance : LawfulSerial SubtransactionStruct := lawful_pod _
instance : LawfulSerial NonLockingIndexEntry := lawful_pod _
instance : LawfulSerial DispatchStruct := lawful_pod _
instance : LawfulSerial ApplyStruct := lawful_pod _

/-! ## Containers -/

theorem carries_count {n : Nat} (h : n < 2 ^ 64) :
    Carries (serCount n) desCount 8 n := by
  have hval : (BitVec.ofNat 64 n).toNat = n := by
    rw [BitVec.toNat_ofNat, Nat.mod_eq_of_lt h]
  have hcount := (carries_pod (BitVec.ofNat 64 n)).last BitVec.toNat
  rw [hval] at hcount
  exact hcount

instance : LawfulSerial Bytes where
  sersize_pos d := Nat.add_pos_left (by decide) _
  carries d h := by
    have hsize : sersize d = 8 + d.length := rfl
    refine (carries_count (by omega)).bind ?_
    cases d with
    | nil => exact carries_nil
    | cons b bs =>
        exact ⟨b :: bs, rfl, writes_write (Nat.succ_pos _),
          reads_read (Nat.succ_pos _)⟩

theorem foldl_push {α : Type} (d c : List α) :
    d.foldl (fun d val => d ++ [val]) c = c ++ d := by
  induction d generalizing c with
  | nil => rw [List.foldl_nil, List.append_nil]
  | cons a d ih => rw [List.foldl_cons, ih, List.append_assoc,
      List.singleton_append]

/-- The size of a vector of items of one size. -/
theorem sersizeVector_const {α : Type} [Serial α] (d : List α) (k : Nat)
    (h : ∀ a : α, sersize a = k) :
    sersizeVector d = 8 + d.length * k := by
  have hmap : d.map sersize = List.replicate d.length k := by
    rw [← List.map_const']
    exact List.map_congr_left fun a _ => h a
  rw [sersizeVector, hmap, List.sum_replicate_nat]

theorem sersize_le_sum {α : Type} [Serial α] {d : List α} {a : α} (h : a ∈ d) :
    sersize a ≤ (d.map sersize).sum :=
  List.le_sum_of_mem (List.mem_map_of_mem h)

section Vector

variable {α : Type} [Serial α] [LawfulSerial α]

/-- A vector has no more items than bytes. -/
theorem length_le_sum (d : List α) : d.length ≤ (d.map sersize).sum := by
  have hle := List.length_le_sum_of_one_le (d.map sersize) (by
    intro n hn
    obtain ⟨a, -, rfl⟩ := List.mem_map.mp hn
    exact sersize_pos a)
  rwa [List.length_map] at hle

/-- The loop of items, whatever they are put into. -/
theorem carries_items {β : Type} (put : β → α → β) (d : List α) (c : β)
    (h : (d.map sersize).sum < 2 ^ 64) :
    Carries (writeAll ser d) (readInto des put d.length c)
      (d.map sersize).sum (d.foldl put c) :=
  carries_loop put (fun a ha => carries a (by
    have hle := sersize_le_sum ha
    omega)) c

theorem carries_vector (d : List α) (h : sersizeVector d < 2 ^ 64) :
    Carries (serVector d) desVector (sersizeVector d) d := by
  have hsize : sersizeVector d = 8 + (d.map sersize).sum := rfl
  have hlen := length_le_sum d
  have hitems := carries_items (fun d val => d ++ [val]) d []
    (by omega)
  rw [foldl_push, List.nil_append] at hitems
  exact (carries_count (by omega)).bind hitems

end Vector

instance : LawfulSerial (List (BitVec 64)) where
  sersize_pos d := Nat.add_pos_left (by decide) _
  carries d h := by
    have hsize := sersizeVector_const d 8 fun _ => rfl
    have hvec := carries_vector d (by rw [hsize]; exact h)
    rw [hsize] at hvec
    exact hvec

instance : LawfulSerial (List NonLockingIndexEntry) where
  sersize_pos d := Nat.add_pos_left (by decide) _
  carries d h := by
    have hsize := sersizeVector_const d (Pod.sizeof NonLockingIndexEntry)
      fun _ => rfl
    have hvec := carries_vector d (by rw [hsize]; exact h)
    rw [hsize] at hvec
    exact hvec

/-! ## Level 1 -/

/-- Putting new things one after another into a container that adds a new one
at the end. -/
theorem foldl_fresh {γ α κ : Type} {contents : γ → List α} {key : α → κ}
    {put : γ → α → γ} (hput : ∀ c a, key a ∉ (contents c).map key →
      contents (put c a) = contents c ++ [a]) (l : List α) (c : γ)
    (h : ((contents c ++ l).map key).Nodup) :
    contents (l.foldl put c) = contents c ++ l := by
  induction l generalizing c with
  | nil => rw [List.foldl_nil, List.append_nil]
  | cons a l ih =>
      have hnew : key a ∉ (contents c).map key := by
        intro hmem
        rw [List.map_append, List.map_cons] at h
        exact (List.nodup_append.mp h).2.2 _ hmem _ (List.mem_cons_self ..) rfl
      have hstep : contents (put c a) ++ l = contents c ++ a :: l := by
        rw [hput c a hnew, List.append_assoc, List.singleton_append]
      rw [List.foldl_cons, ih (put c a) (by rwa [hstep]), hstep]

theorem UnorderedSet.ext_elems {α : Type} {d d' : UnorderedSet α}
    (h : d.elems = d'.elems) : d = d' := by
  cases d
  cases d'
  cases h
  rfl

/-- Inserting the elements of a set one after another into an empty one gives
the set. -/
theorem foldl_insert {α : Type} [DecidableEq α] (d : UnorderedSet α) :
    d.elems.foldl UnorderedSet.insert {} = d := by
  have hput : ∀ (c : UnorderedSet α) (a : α), id a ∉ c.elems.map id →
      (c.insert a).elems = c.elems ++ [a] := by
    intro c a hnew
    have hnotin : a ∉ c.elems := by rwa [List.map_id] at hnew
    rw [UnorderedSet.insert, dif_neg hnotin]
  exact UnorderedSet.ext_elems (foldl_fresh hput d.elems ⟨[], List.nodup_nil⟩
    (by rw [List.nil_append, List.map_id]; exact d.nodup))

instance : LawfulSerial (UnorderedSet Bytes) where
  sersize_pos d := Nat.add_pos_left (by decide) _
  carries d h := by
    have hsize : sersize d = 8 + (d.elems.map sersize).sum := rfl
    have hlen := length_le_sum d.elems
    have hitems := carries_items UnorderedSet.insert d.elems {}
      (by omega)
    rw [foldl_insert] at hitems
    exact (carries_count (by omega)).bind hitems

instance : LawfulSerial FieldValue where
  sersize_pos d := Nat.add_pos_right _ (sersize_pos d.isnull)
  carries d h := by
    have hsize : sersize d = Pod.sizeof FieldInput + sersize d.str +
      sersize d.isnull := rfl
    have hstr := carries d.str (by omega)
    have hisnull := carries d.isnull (by omega)
    exact ((carries_pod d.value).bind (hstr.bind (hisnull.last _))).of_size
      (by omega)

instance : LawfulSerial ReturnRow where
  sersize_pos d := Nat.add_pos_right _ (sersize_pos d.row)
  carries d h := by
    have hsize : sersize d = sersize d.rowid +
      sersize d.previoussubtransactionid + sersize d.locktype +
      sersize d.row := rfl
    have hrowid := carries d.rowid (by omega)
    have hprevious := carries d.previoussubtransactionid (by omega)
    have hlocktype := carries d.locktype (by omega)
    have hrow := carries d.row (by omega)
    exact (hrowid.bind (hprevious.bind (hlocktype.bind
      (hrow.last _)))).of_size (by omega)

instance : LawfulSerial Record where
  sersize_pos d := Nat.add_pos_right _ (sersize_pos d.oldrow)
  carries d h := by
    have hsize : sersize d = sersize d.rowid + sersize d.primitive +
      sersize d.tableid + sersize d.previoussubtransactionid +
      sersize d.row + sersize d.oldrow := rfl
    have hrowid := carries d.rowid (by omega)
    have hprimitive := carries d.primitive (by omega)
    have htableid := carries d.tableid (by omega)
    have hprevious := carries d.previoussubtransactionid (by omega)
    have hrow := carries d.row (by omega)
    have holdrow := carries d.oldrow (by omega)
    exact (hrowid.bind (hprimitive.bind (htableid.bind (hprevious.bind
      (hrow.bind (holdrow.last _)))))).of_size (by omega)

/-! ## Level 2 -/

instance : LawfulSerial NewDeadLockLists where
  sersize_pos d := Nat.add_pos_right _ (sersize_pos d.waiting)
  carries d h := by
    have hsize : sersize d = sersize d.locked + sersize d.waiting := rfl
    have hlocked := carries d.locked (by omega)
    have hwaiting := carries d.waiting (by omega)
    exact (hlocked.bind (hwaiting.last _)).of_size (by omega)

instance : LawfulSerial (List FieldValue) where
  sersize_pos d := Nat.add_pos_left (by decide) _
  carries := carries_vector

instance : LawfulSerial (List ReturnRow) where
  sersize_pos d := Nat.add_pos_left (by decide) _
  carries := carries_vector

instance : LawfulSerial (List Record) where
  sersize_pos d := Nat.add_pos_left (by decide) _
  carries := carries_vector

instance : LawfulSerial RowOrField where
  sersize_pos d := Nat.add_pos_right _ (sersize_pos d.fieldVal)
  carries d h := by
    have hsize : sersize d = sersize d.isrow + sersize d.tableid +
      sersize d.rowid + sersize d.fieldid + sersize d.engineid +
      sersize d.deleteindexentry + sersize d.isnotaddunique +
      sersize d.isreplace + sersize d.newrowid + sersize d.newengineid +
      sersize d.fieldVal := rfl
    have hisrow := carries d.isrow (by omega)
    have htableid := carries d.tableid (by omega)
    have hrowid := carries d.rowid (by omega)
    have hfieldid := carries d.fieldid (by omega)
    have hengineid := carries d.engineid (by omega)
    have hdelete := carries d.deleteindexentry (by omega)
    have hnotaddunique := carries d.isnotaddunique (by omega)
    have hreplace := carries d.isreplace (by omega)
    have hnewrowid := carries d.newrowid (by omega)
    have hnewengineid := carries d.newengineid (by omega)
    have hfieldVal := carries d.fieldVal (by omega)
    exact (hisrow.bind (htableid.bind (hrowid.bind (hfieldid.bind
      (hengineid.bind (hdelete.bind (hnotaddunique.bind (hreplace.bind
        (hnewrowid.bind (hnewengineid.bind
          (hfieldVal.last _))))))))))).of_size (by omega)

/-! ## Level 3 -/

instance : LawfulSerial SearchParams where
  sersize_pos d := Nat.add_pos_right _ (sersize_pos d.regexString)
  carries d h := by
    have hsize : sersize d = sersize d.op + sersize d.values +
      sersize d.regexString := rfl
    have hop := carries d.op (by omega)
    have hvalues := carries d.values (by omega)
    have hregex := carries d.regexString (by omega)
    exact (hop.bind (hvalues.bind (hregex.last _))).of_size (by omega)

instance : LawfulSerial (List RowOrField) where
  sersize_pos d := Nat.add_pos_left (by decide) _
  carries := carries_vector

/-! ## Messages -/

/-- The writer and the reader agree on `n` bytes for the message, and the
bytes start with the header. -/
def CarriesMsg {α : Type} (hdr : MessageStruct) (w : BufferM Unit)
    (r : BufferM α) (n : Nat) (m : α) : Prop :=
  ∃ tail, (Pod.toBytes hdr ++ tail).length = n ∧
    Writes w (Pod.toBytes hdr ++ tail) ∧ Reads r (Pod.toBytes hdr ++ tail) m

section CarriesMsg

variable {α β : Type} {hdr : MessageStruct} {w w' : BufferM Unit}
  {r : BufferM α} {n n' : Nat} {m : α} {b : β}

theorem CarriesMsg.carries (h : CarriesMsg hdr w r n m) : Carries w r n m := by
  obtain ⟨tail, hlen, hw, hr⟩ := h
  exact ⟨_, hlen, hw, hr⟩

theorem CarriesMsg.bind {f : α → BufferM β} (h : CarriesMsg hdr w r n m)
    (h' : Carries w' (f m) n' b) :
    CarriesMsg hdr (w >>= fun _ => w') (r >>= f) (n + n') b := by
  obtain ⟨tail, hlen, hw, hr⟩ := h
  obtain ⟨bytes, hlen', hw', hr'⟩ := h'
  refine ⟨tail ++ bytes, ?_, ?_, ?_⟩
  · rw [← List.append_assoc, List.length_append, hlen, hlen']
  · rw [← List.append_assoc]
    exact hw.bind hw'
  · rw [← List.append_assoc]
    exact hr.bind hr'

theorem CarriesMsg.of_size (h : CarriesMsg hdr w r n m) (hsize : n = n') :
    CarriesMsg hdr w r n' m := hsize ▸ h

/-- In a string of the right size the message and its header can both be
read. -/
theorem CarriesMsg.zeros (h : CarriesMsg hdr w r n m) :
    ∃ s, w (Buffer.zeros n) = some ((), ⟨s, n⟩) ∧ s.length = n ∧
      r ⟨s, 0⟩ = some (m, ⟨s, n⟩) ∧
      ∃ b, (des : BufferM MessageStruct) ⟨s, 0⟩ = some (hdr, b) := by
  obtain ⟨tail, rfl, hw, hr⟩ := h
  have hwrite := hw.zeros (Nat.le_refl _)
  rw [Nat.sub_self, List.replicate_zero, List.append_nil] at hwrite
  have hread := hr [] []
  rw [List.append_nil] at hread
  have hhdr := reads_pod hdr [] tail
  exact ⟨_, hwrite, rfl, by simpa using hread, _, hhdr⟩

end CarriesMsg

theorem carriesMsg_message (m : Message) :
    CarriesMsg m.messageStruct m.package Message.unpack m.size m := by
  refine ⟨[], ?_, ?_, ?_⟩
  · rw [List.append_nil]
    exact Pod.length_toBytes m.messageStruct
  · rw [List.append_nil]
    exact writes_write (toBytes_pos _)
  · rw [List.append_nil]
    exact (reads_pod m.messageStruct).map

theorem carriesMsg_transaction (m : MessageTransaction) :
    CarriesMsg m.messageStruct m.package MessageTransaction.unpack m.size m :=
  (carriesMsg_message m.toMessage).bind
    ((carries_pod m.transactionStruct).last _)

theorem carriesMsg_userSchema (m : MessageUserSchema) (h : m.size < 2 ^ 64) :
    CarriesMsg m.messageStruct m.package MessageUserSchema.unpack m.size m := by
  have hsize : m.size = m.toMessage.size + sersize m.userschemaStruct +
    sersize m.procs + sersize m.argstring + sersize m.pathname +
    sersize m.procname + sersize m.username + sersize m.domainname +
    sersize m.password := rfl
  have huserschema := carries m.userschemaStruct (by omega)
  have hprocs := carries m.procs (by omega)
  have hargstring := carries m.argstring (by omega)
  have hpathname := carries m.pathname (by omega)
  have hprocname := carries m.procname (by omega)
  have husername := carries m.username (by omega)
  have hdomainname := carries m.domainname (by omega)
  have hpassword := carries m.password (by omega)
  exact ((carriesMsg_message m.toMessage).bind (huserschema.bind (hprocs.bind
    (hargstring.bind (hpathname.bind (hprocname.bind (husername.bind
      (hdomainname.bind (hpassword.last _))))))))).of_size (by omega)

theorem carriesMsg_deadlock (m : MessageDeadlock) (h : m.size < 2 ^ 64) :
    CarriesMsg m.messageStruct m.package MessageDeadlock.unpack m.size m := by
  have hsize : m.size = m.toMessage.size + sersize m.deadlockStruct +
    sersize m.deadlockNode + sersize m.nodes := rfl
  have hdeadlock := carries m.deadlockStruct (by omega)
  have hdeadlockNode := carries m.deadlockNode (by omega)
  have hnodes := carries m.nodes (by omega)
  exact ((carriesMsg_message m.toMessage).bind (hdeadlock.bind
    (hdeadlockNode.bind (hnodes.last _)))).of_size (by omega)

theorem carriesMsg_subtransactionCmd (m : MessageSubtransactionCmd)
    (h : m.size < 2 ^ 64) :
    CarriesMsg m.messageStruct m.package MessageSubtransactionCmd.unpack m.size
      m := by
  have hsize : m.size = m.toMessageTransaction.size +
    sersize m.subtransactionStruct + sersize m.row + sersize m.fieldVal +
    sersize m.indexHits + sersize m.searchParameters + sersize m.rowids +
    sersize m.returnRows := rfl
  have hsubtransaction := carries m.subtransactionStruct (by omega)
  have hrow := carries m.row (by omega)
  have hfieldVal := carries m.fieldVal (by omega)
  have hindexHits := carries m.indexHits (by omega)
  have hsearch := carries m.searchParameters (by omega)
  have hrowids := carries m.rowids (by omega)
  have hreturnRows := carries m.returnRows (by omega)
  exact ((carriesMsg_transaction m.toMessageTransaction).bind
    (hsubtransaction.bind (hrow.bind (hfieldVal.bind (hindexHits.bind
      (hsearch.bind (hrowids.bind (hreturnRows.last _)))))))).of_size
    (by omega)

theorem carriesMsg_commitRollback (m : MessageCommitRollback)
    (h : m.size < 2 ^ 64) :
    CarriesMsg m.messageStruct m.package MessageCommitRollback.unpack m.size
      m := by
  have hsize : m.size = m.toMessageTransaction.size + sersize m.rofs := rfl
  have hrofs := carries m.rofs (by omega)
  exact (carriesMsg_transaction m.toMessageTransaction).bind (hrofs.last _)

/-! ## Both ends -/

theorem serobj_eq {size : Nat} {w : BufferM Unit} {b : Buffer}
    (h : w (Buffer.zeros size) = some ((), b)) :
    serobj size w = some b := by
  rw [serobj, h]
  rfl

/-- What is left for a class: that `sermsg` and `Message::des` find their way
to its functions. -/
theorem roundTrips_of_carriesMsg {α : Type} {msg : MessageVariant}
    {w : BufferM Unit} {r : BufferM α} {m : α} (make : α → MessageVariant)
    (h : CarriesMsg msg.base.messageStruct w r msg.size m)
    (hser : msg.sermsg = serobj msg.size w)
    (hdes : ∀ s b, (des : BufferM MessageStruct) ⟨s, 0⟩ =
      some (msg.base.messageStruct, b) →
      MessageVariant.des s = (make <$> r) ⟨s, 0⟩)
    (hmake : make m = msg) : RoundTrips msg := by
  obtain ⟨s, hwrite, hlen, hread, b, hhdr⟩ := h.zeros
  rw [← hlen] at hwrite hread
  refine ⟨s, hser.trans (hlen ▸ serobj_eq hwrite), hlen, ?_⟩
  rw [hdes s b hhdr]
  show (r ⟨s, 0⟩).bind (fun p => some (make p.1, p.2)) = _
  rw [hread, Option.bind_some, hmake]

/-- Every message of a transaction, of the schema or of deadlock detection
fills the string `sermsg` allocates for it and comes out of the whole of it
unchanged. -/
theorem roundTrips_ofTransaction {msg : MessageVariant}
    (hclass : OfTransaction msg) (htyped : Typed msg)
    (hsize : msg.size < 2 ^ 64) : RoundTrips msg := by
  cases msg with
  | userSchema m =>
      have htype : m.messageStruct.payloadtype = .userSchema := htyped
      refine roundTrips_of_carriesMsg .userSchema
        (carriesMsg_userSchema m hsize) ?_ ?_ rfl
      · simp only [MessageVariant.sermsg, MessageVariant.base, htype,
          MessageVariant.size]
      · intro s b hhdr
        simp [MessageVariant.des, MessageVariant.base, hhdr, htype]
  | deadlock m =>
      have htype : m.messageStruct.payloadtype = .deadlock := htyped
      refine roundTrips_of_carriesMsg .deadlock
        (carriesMsg_deadlock m hsize) ?_ ?_ rfl
      · simp only [MessageVariant.sermsg, MessageVariant.base, htype,
          MessageVariant.size]
      · intro s b hhdr
        simp [MessageVariant.des, MessageVariant.base, hhdr, htype]
  | subtransactionCmd m =>
      have htype : m.messageStruct.payloadtype = .subtransaction := htyped
      refine roundTrips_of_carriesMsg .subtransactionCmd
        (carriesMsg_subtransactionCmd m hsize) ?_ ?_ rfl
      · simp only [MessageVariant.sermsg, MessageVariant.base, htype,
          MessageVariant.size]
      · intro s b hhdr
        simp [MessageVariant.des, MessageVariant.base, hhdr, htype]
  | commitRollback m =>
      have htype : m.messageStruct.payloadtype = .commitRollback := htyped
      refine roundTrips_of_carriesMsg .commitRollback
        (carriesMsg_commitRollback m hsize) ?_ ?_ rfl
      · simp only [MessageVariant.sermsg, MessageVariant.base, htype,
          MessageVariant.size]
      · intro s b hhdr
        simp [MessageVariant.des, MessageVariant.base, hhdr, htype]
  | message _ | socket _ | dispatch _ | ackDispatch _ | apply _ | ackApply _ =>
      exact hclass.elim

/-- A command with an empty string and a non-empty one, a hit, a value, and a
returned row, and nothing in the other vectors. -/
def someCommand : MessageVariant :=
  .subtransactionCmd
    { messageStruct := { payloadtype := .subtransaction, topic := 27 }
      row := [1, 2, 3]
      indexHits := [{ rowid := 5, engineid := 1 }]
      searchParameters := { op := 14, values := [{ str := [7] }] }
      returnRows := [{ rowid := 9, row := [8] }] }

theorem roundTrips_ofTransaction_someCommand : RoundTrips someCommand :=
  roundTrips_ofTransaction trivial rfl (by decide)

end Infinisql.Proofs
