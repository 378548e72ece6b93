import Infinisql.Spec.RowCodec
import Infinisql.Proofs.RowRoundTrip

/-!
# Rows there and back

`makerow` writes from the front of its buffer, so at every field the buffer is
what has been written and a rest of zeros, and there is room for the field
because its size has been counted: `putfields_next`. The row it leaves is the
one of `Ref.makerow`, `makerow_eq`.

`unmakerow` goes over the same positions. It reads each field unless the null
byte is the last byte of the row, and then there is no field behind it. So it
is the position of the last field that decides, `getfields_next`, and that
position is counted against the size of the buffer, `endsEarly_iff`.
-/

namespace Infinisql.Rows

open Infinisql.Lib
open Infinisql.Ref (Bytes Field FieldInput FieldValue Fieldtype Indextype space
  zeros addRowsize fieldsize fieldbytes makefield)
open Infinisql.Proofs (length_toBytes length_fieldbytes_charx
  length_makefield_le fieldsize_pos length_makefield_pos getLsbD_ofBytes_toBytes
  setWidth_ofBytes_toBytes foldl_addRowsize_none)

variable {fields : List Field} {vs : List FieldValue} {f : Field}
  {v : FieldValue} {row done rest tail : Bytes}

/-! ## The size of the buffer -/

/-- How the member says what `Ref.rowsize` says. -/
def sizeMember : Option Nat → Int
  | none => -1
  | some size => size

theorem addfield_rowsize {t : Table} {size : Option Nat}
    (h : t.rowsize = sizeMember size) :
    (addfield t f.type f.length f.indextype).1.rowsize =
      sizeMember (addRowsize size f) := by
  cases size with
  | none =>
      show (if t.rowsize ≠ -1 then _ else t.rowsize) = _
      rw [h]
      rfl
  | some size =>
      have hne : t.rowsize ≠ -1 := by
        rw [h]
        show (size : Int) ≠ -1
        omega
      show (if t.rowsize ≠ -1 then _ else t.rowsize) = _
      rw [if_pos hne, h]
      unfold addsize addRowsize
      cases f.type <;> simp only [sizeMember] <;> omega

variable (fields) in
theorem addfields_eq : (addfields fields).fields = fields ∧
    (addfields fields).rowsize = sizeMember (Ref.rowsize fields) := by
  have hrun : ∀ (fields : List Field) (t : Table) (size : Option Nat),
      t.rowsize = sizeMember size →
      (fields.foldl (fun t f =>
          (addfield t f.type f.length f.indextype).1) t).fields =
        t.fields ++ fields ∧
      (fields.foldl (fun t f =>
          (addfield t f.type f.length f.indextype).1) t).rowsize =
        sizeMember (fields.foldl addRowsize size) := by
    intro fields
    induction fields with
    | nil => exact fun t size h => ⟨(List.append_nil _).symm, h⟩
    | cons f fields ih =>
        intro t size h
        obtain ⟨hfields, hsize⟩ := ih _ _ (addfield_rowsize (f := f) h)
        rw [List.foldl_cons, List.foldl_cons]
        exact ⟨hfields.trans (List.append_assoc _ _ _), hsize⟩
  exact hrun fields newTable (some 0) rfl

@[simp] theorem addfields_fields : (addfields fields).fields = fields :=
  (addfields_eq _).1

theorem sizefields_eq : ∀ {fields : List Field} {vs : List FieldValue}
    {s : Sizes}, vs.length = fields.length →
    (sizefields s fields vs).rsize =
        s.rsize + (List.zipWith fieldsize fields vs).sum ∧
      ((sizefields s fields vs).hasvarchar = true ↔
        s.hasvarchar = true ∨ ∃ f ∈ fields, f.type = .varchar)
  | [], [], s, _ => ⟨rfl, by simp [sizefields]⟩
  | f :: fields, v :: vs, s, h => by
      obtain ⟨hsize, hvarchar⟩ := sizefields_eq (s := sizefield s f v)
        (Nat.succ.inj h)
      have hfield : (sizefield s f v).rsize = s.rsize + fieldsize f v := by
        rw [sizefield, fieldsize]
        cases f.type <;> dsimp only <;> omega
      have hflag : (sizefield s f v).hasvarchar = true ↔
          s.hasvarchar = true ∨ f.type = .varchar := by
        rw [sizefield]
        cases f.type <;> simp
      constructor
      · rw [sizefields, hsize, hfield, List.zipWith_cons_cons, List.sum_cons]
        omega
      · rw [sizefields, hvarchar, hflag, or_assoc]
        simp only [List.mem_cons, exists_eq_or_imp]

/-- The extra bytes of a fixed size. -/
def spare (fields : List Field) : Nat :=
  (fields.filter fun f => f.type = .float).length

theorem addRowsize_foldl : ∀ {fields : List Field} {vs : List FieldValue}
    {size : Nat}, vs.length = fields.length →
    fields.foldl addRowsize (some size) =
      if ∃ f ∈ fields, f.type = .varchar then none
      else some (size + (List.zipWith fieldsize fields vs).sum + spare fields)
  | [], [], size, _ => by simp [spare]
  | f :: fields, v :: vs, size, h => by
      have ih : ∀ size, fields.foldl addRowsize (some size) = _ :=
        fun size => addRowsize_foldl (Nat.succ.inj h)
      rw [List.foldl_cons, addRowsize, List.zipWith_cons_cons, List.sum_cons,
        fieldsize]
      unfold spare at ih ⊢
      cases hf : f.type <;>
        simp only [ih, foldl_addRowsize_none, List.mem_cons, exists_eq_or_imp,
          hf, reduceCtorEq, false_or, true_or, if_true, decide_false,
          List.filter_cons, decide_true, Bool.false_eq_true, if_false,
          List.length_cons] <;>
        split <;> first | rfl | (congr 1; omega)

/-- The size of the buffer: the fields, and what is spare. -/
theorem size_eq (h : vs.length = fields.length) :
    (Ref.rowsize fields).getD (List.zipWith fieldsize fields vs).sum =
      (List.zipWith fieldsize fields vs).sum +
        if ∃ f ∈ fields, f.type = .varchar then 0 else spare fields := by
  rw [Ref.rowsize, addRowsize_foldl h]
  split
  · rfl
  · rw [Option.getD_some, Nat.zero_add]

theorem buffersize_eq (h : vs.length = fields.length) :
    buffersize (addfields fields) vs =
      ((Ref.rowsize fields).getD (List.zipWith fieldsize fields vs).sum,
        (addfields fields).rowsize) := by
  obtain ⟨hfields, hrowsize⟩ := addfields_eq fields
  unfold buffersize
  rw [hfields]
  cases hsize : Ref.rowsize fields with
  | some size =>
      rw [hsize] at hrowsize
      rw [hrowsize, if_pos (by show (size : Int) ≠ -1; omega)]
      rfl
  | none =>
      rw [hsize] at hrowsize
      obtain ⟨hsum, hvarchar⟩ := sizefields_eq (s := ⟨0, -1, false⟩) h
      have hany : ∃ f ∈ fields, f.type = .varchar := by
        by_contra hnone
        rw [Ref.rowsize, addRowsize_foldl h, if_neg hnone] at hsize
        exact absurd hsize (by simp)
      rw [hrowsize, if_neg (by simp [sizeMember])]
      show ((sizefields ⟨0, -1, false⟩ fields vs).rsize, _) = _
      rw [hsum, show sizeMember none = -1 from rfl,
        if_pos (hvarchar.mpr (.inr hany)), Nat.zero_add]
      rfl

/-! ## What is counted and what is written -/

theorem fieldsize_eq_one : fieldsize f v = 1 ↔ Empty f := by
  rw [fieldsize, Empty]
  cases f.type <;> simp
  omega

/-- A null takes less than has been counted for it. -/
theorem length_makefield_eq : (makefield f v).length = fieldsize f v ↔
    (v.isnull = true → Empty f) := by
  cases hv : v.isnull with
  | true =>
      have hfield : (makefield f v).length = 1 := by
        rw [makefield, hv]
        rfl
      rw [hfield, eq_comm, fieldsize_eq_one]
      exact ⟨fun h _ => h, fun h => h rfl⟩
  | false =>
      refine iff_of_true ?_ fun h => absurd h (by simp)
      rw [makefield, hv, if_neg (by simp), List.length_cons, fieldsize]
      cases hf : f.type with
      | charx =>
          rw [length_fieldbytes_charx hf]
          dsimp only
          omega
      | varchar =>
          rw [fieldbytes, hf]
          dsimp only
          rw [List.length_append, length_toBytes]
          omega
      | nofieldtype =>
          rw [fieldbytes, hf]
          rfl
      | _ =>
          rw [fieldbytes, hf]
          dsimp only
          rw [length_toBytes]

/-- All fields together: none takes more than has been counted, and all of them
take as much if no null takes less. -/
theorem length_flatten_le : ∀ {fields : List Field} {vs : List FieldValue},
    vs.length = fields.length →
    (List.zipWith makefield fields vs).flatten.length ≤
        (List.zipWith fieldsize fields vs).sum ∧
      ((List.zipWith makefield fields vs).flatten.length =
          (List.zipWith fieldsize fields vs).sum ↔
        List.Forall₂ (fun f v => v.isnull = true → Empty f) fields vs)
  | [], [], _ => ⟨Nat.le_refl _, iff_of_true rfl .nil⟩
  | f :: fields, v :: vs, h => by
      obtain ⟨hle, heq⟩ := length_flatten_le (Nat.succ.inj h)
      have hfield := length_makefield_le f v
      rw [List.zipWith_cons_cons, List.zipWith_cons_cons, List.flatten_cons,
        List.sum_cons, List.length_append, List.forall₂_cons, ← heq,
        ← length_makefield_eq]
      constructor <;> omega

/-! ## Writing -/

theorem put_next {piece : Bytes} (h : piece.length ≤ rest.length) :
    put (done ++ rest) done.length piece =
      some (done ++ piece ++ rest.drop piece.length,
        (done ++ piece).length) := by
  rw [put, write_next h, Option.map_some, List.length_append]

theorem putvalue_next (hv : v.isnull = false)
    (h : (fieldbytes f v).length ≤ rest.length) :
    putvalue f v (done ++ rest) done.length =
      some (done ++ fieldbytes f v ++ rest.drop (fieldbytes f v).length,
        (done ++ fieldbytes f v).length) := by
  unfold putvalue
  cases hf : f.type with
  | int | uint | bool | float | char =>
      rw [fieldbytes, hf] at h ⊢
      dsimp only at h ⊢
      rw [put_next h]
  | charx =>
      have hbytes : (padded f v).str.take f.length = fieldbytes f v := by
        rw [padded, if_pos ⟨hv, hf⟩, fieldbytes, hf]
      dsimp only
      rw [hbytes, write_next h, Option.map_some, List.length_append,
        length_fieldbytes_charx hf]
  | varchar =>
      have hbytes : fieldbytes f v = FieldInput.toBytes
          (BitVec.ofNat 128 v.str.length) 8 ++ v.str := by
        rw [fieldbytes, hf]
      have hlen := length_toBytes (BitVec.ofNat 128 v.str.length) 8
      rw [hbytes, List.length_append, hlen] at h
      have hrest : v.str.length ≤ (rest.drop (FieldInput.toBytes
          (BitVec.ofNat 128 v.str.length) 8).length).length := by
        rw [List.length_drop, hlen]
        omega
      dsimp only
      rw [put_next (by omega), Option.bind_some]
      dsimp only
      rw [put_next hrest, hbytes, List.drop_drop, List.append_assoc done,
        ← List.length_append]
  | nofieldtype =>
      have hbytes : fieldbytes f v = [] := by
        rw [fieldbytes, hf]
      rw [hbytes, List.append_nil]
      rfl

theorem putfield_next (h : (makefield f v).length ≤ rest.length) :
    putfield f v (done ++ rest) done.length =
      some (done ++ makefield f v ++ rest.drop (makefield f v).length,
        (done ++ makefield f v).length) := by
  unfold putfield
  unfold makefield at h ⊢
  cases hv : v.isnull with
  | true =>
      rw [hv] at h
      exact put_next h
  | false =>
      rw [hv, if_neg (by simp), List.length_cons] at h
      rw [if_pos rfl, if_neg (by simp), put_next (by
        rw [List.length_singleton]; omega), Option.bind_some]
      dsimp only
      rw [putvalue_next hv (by
        rw [List.length_drop, List.length_singleton]; omega), List.drop_drop,
        List.append_assoc done, List.length_singleton, List.singleton_append,
        List.length_cons, Nat.add_comm 1]

/-- All fields, into a buffer with room for them. -/
theorem putfields_next : ∀ (fields : List Field) (vs : List FieldValue)
    (done rest : Bytes),
    (List.zipWith makefield fields vs).flatten.length ≤ rest.length →
    putfields fields vs (done ++ rest) done.length =
      some (done ++ (List.zipWith makefield fields vs).flatten ++
        rest.drop (List.zipWith makefield fields vs).flatten.length)
  | [], _, done, rest, _ => by
      simp [putfields]
  | _ :: _, [], done, rest, _ => by
      simp [putfields]
  | f :: fields, v :: vs, done, rest, h => by
      rw [List.zipWith_cons_cons, List.flatten_cons,
        List.length_append] at h ⊢
      have ih := putfields_next fields vs (done ++ makefield f v)
        (rest.drop (makefield f v).length) (by rw [List.length_drop]; omega)
      rw [putfields, putfield_next (by omega), Option.bind_some]
      dsimp only
      rw [ih, List.drop_drop]
      simp only [List.append_assoc]

/-- The row is that of `Ref.makerow`, and the table is as it was. -/
theorem makerow_eq (h : vs.length = fields.length) (res : Bytes) :
    ∃ row, Ref.makerow fields vs = some row ∧
      makerow (addfields fields) vs res = some ⟨true, addfields fields,
        List.zipWith padded fields vs, row⟩ := by
  have hrow : Ref.makerow fields vs = some
      ((List.zipWith makefield fields vs).flatten ++
        zeros ((Ref.rowsize fields).getD
            (List.zipWith fieldsize fields vs).sum -
          (List.zipWith makefield fields vs).flatten.length)) := by
    unfold Ref.makerow
    rw [if_neg (not_not_intro h)]
  have hroom : (List.zipWith makefield fields vs).flatten.length ≤
      (zeros ((Ref.rowsize fields).getD
        (List.zipWith fieldsize fields vs).sum)).length := by
    rw [zeros, List.length_replicate, size_eq h]
    have := (length_flatten_le h).1
    omega
  refine ⟨_, hrow, ?_⟩
  unfold makerow
  rw [addfields_fields, if_neg (not_not_intro h), buffersize_eq h]
  dsimp only
  have hput := putfields_next _ _ [] _ hroom
  rw [List.nil_append, List.nil_append, List.length_nil] at hput
  rw [hput, Option.map_some, zeros, List.drop_replicate]
  obtain ⟨hfields, -⟩ := addfields_eq fields
  congr
  exact hfields.symm
/-! ## Reading -/

theorem getLsbD_copyInto {value old : FieldInput} {n i : Nat}
    (h : i < 8 * n) :
    (copyInto (value.toBytes n) old).getLsbD i = value.getLsbD i := by
  rw [copyInto, length_toBytes, BitVec.getLsbD_or, BitVec.getLsbD_shiftLeft,
    getLsbD_ofBytes_toBytes value h]
  simp [h]

theorem setWidth_copyInto {value old : FieldInput} {n w : Nat}
    (h : w ≤ 8 * n) :
    (copyInto (value.toBytes n) old).setWidth w = value.setWidth w := by
  refine BitVec.eq_of_getLsbD_eq fun i hi => ?_
  rw [BitVec.getLsbD_setWidth, BitVec.getLsbD_setWidth,
    getLsbD_copyInto (by omega)]

theorem copyInto_all (value old : FieldInput) :
    copyInto (value.toBytes 16) old = value :=
  BitVec.eq_of_getLsbD_eq fun _ hi => getLsbD_copyInto (by omega)

/-- The member that has been copied, at the position behind it. -/
theorem getmember_next {value : FieldInput} {n : Nat} {old : FieldValue}
    (hrow : row = done ++ (value.toBytes n ++ rest)) :
    getmember n row done.length old =
      some ({ old with value := copyInto (value.toBytes n) old.value },
        (done ++ value.toBytes n).length) := by
  have hread := readAt_next done (value.toBytes n) rest
  rw [length_toBytes] at hread
  rw [getmember, hrow, hread, Option.map_some, List.length_append,
    length_toBytes]

/-- A value behind its null byte. -/
theorem getvalue_next (old : FieldValue) (hf : Accepts f v)
    (hv : v.isnull = false) (hold : old.isnull = false)
    (hrow : row = done ++ (fieldbytes f v ++ rest)) :
    ∃ w, getvalue f row done.length old =
        some (w, (done ++ fieldbytes f v).length) ∧ SameValue f v w := by
  have hsame : ∀ n, fieldbytes f v = v.value.toBytes n →
      getmember n row done.length old =
        some ({ old with value := copyInto (v.value.toBytes n) old.value },
          (done ++ fieldbytes f v).length) := by
    intro n hbytes
    rw [hbytes] at hrow ⊢
    exact getmember_next hrow
  unfold getvalue SameValue
  cases htype : f.type with
  | int =>
      exact ⟨_, hsame 8 (by rw [fieldbytes, htype]), hold.trans hv.symm,
        fun _ => congrArg BitVec.toInt (setWidth_copyInto (by omega))⟩
  | uint =>
      exact ⟨_, hsame 8 (by rw [fieldbytes, htype]), hold.trans hv.symm,
        fun _ => congrArg BitVec.toNat (setWidth_copyInto (by omega))⟩
  | bool =>
      exact ⟨_, hsame 1 (by rw [fieldbytes, htype]), hold.trans hv.symm,
        fun _ => congrArg (· != 0#8) (setWidth_copyInto (by omega))⟩
  | float =>
      exact ⟨_, hsame 16 (by rw [fieldbytes, htype]), hold.trans hv.symm,
        fun _ => copyInto_all v.value old.value⟩
  | char =>
      exact ⟨_, hsame 1 (by rw [fieldbytes, htype]), hold.trans hv.symm,
        fun _ => setWidth_copyInto (by omega)⟩
  | charx =>
      have hlen := length_fieldbytes_charx (v := v) htype
      have hread := assign_next done (fieldbytes f v) rest
      rw [hlen, ← hrow] at hread
      dsimp only
      rw [hread, Option.map_some, List.length_append, hlen]
      refine ⟨_, rfl, hold.trans hv.symm, fun _ => ?_⟩
      have hle := hf.charx htype hv
      show fieldbytes f v ++ zeros (f.length - f.length) = _
      rw [Nat.sub_self, zeros, List.replicate_zero, List.append_nil,
        fieldbytes, htype]
      refine List.take_of_length_le ?_
      rw [List.length_append, List.length_replicate]
      omega
  | varchar =>
      have hbytes : fieldbytes f v = FieldInput.toBytes
          (BitVec.ofNat 128 v.str.length) 8 ++ v.str := by
        rw [fieldbytes, htype]
      have hlen := length_toBytes (BitVec.ofNat 128 v.str.length) 8
      have hnat : (FieldInput.ofBytes (FieldInput.toBytes
          (BitVec.ofNat 128 v.str.length) 8)).uinteger = v.str.length := by
        rw [FieldInput.uinteger, setWidth_ofBytes_toBytes _ (by omega),
          BitVec.toNat_setWidth, BitVec.toNat_ofNat]
        have := hf.size
        omega
      have hsize := readAt_next done
        (FieldInput.toBytes (BitVec.ofNat 128 v.str.length) 8) (v.str ++ rest)
      have hstr := assign_next
        (done ++ FieldInput.toBytes (BitVec.ofNat 128 v.str.length) 8) v.str
        rest
      rw [hbytes, List.append_assoc] at hrow
      rw [hlen, ← hrow] at hsize
      rw [List.append_assoc, List.length_append, hlen, ← hrow] at hstr
      dsimp only
      rw [hsize, Option.bind_some, hnat, hstr, Option.map_some, hbytes,
        List.length_append, List.length_append, hlen, Nat.add_assoc]
      exact ⟨_, rfl, hold.trans hv.symm, fun _ => rfl⟩
  | nofieldtype =>
      have hbytes : fieldbytes f v = [] := by
        rw [fieldbytes, htype]
      rw [hbytes, List.append_nil]
      exact ⟨old, rfl, hold.trans hv.symm, fun _ => trivial⟩

/-- Where the null byte of the last field is, if there is a field. -/
def lastOffset (fields : List Field) (vs : List FieldValue) : Nat :=
  (List.zipWith makefield fields vs).dropLast.flatten.length

theorem lastOffset_cons (h : vs.length = fields.length) (hne : fields ≠ []) :
    lastOffset (f :: fields) (v :: vs) =
      (makefield f v).length + lastOffset fields vs := by
  cases fields with
  | nil => exact absurd rfl hne
  | cons g fields =>
      cases vs with
      | nil => exact absurd h (by simp)
      | cons w vs =>
          rw [lastOffset, lastOffset, List.zipWith_cons_cons,
            List.zipWith_cons_cons, List.dropLast_cons_cons, List.flatten_cons,
            List.length_append]

/-- All fields that are left, if the null byte of the last of them is not the
last byte of the row. -/
theorem getfields_next (h : List.Forall₂ Accepts fields vs) :
    ∀ (done : Bytes) {olds : List FieldValue}, olds.length = fields.length →
      row = done ++ ((List.zipWith makefield fields vs).flatten ++ tail) →
      ∃ ok ws, getfields row fields done.length olds = some (ok, ws) ∧
        (ok = true ↔ fields = [] ∨
          done.length + lastOffset fields vs + 1 < row.length) ∧
        (ok = true → SameValues fields vs ws) := by
  induction h with
  | nil =>
      intro done olds hlen _
      obtain rfl := List.eq_nil_of_length_eq_zero hlen
      exact ⟨true, [], rfl, iff_of_true rfl (.inl rfl), fun _ =>
        ⟨rfl, fun n f v w hf => absurd hf (by simp)⟩⟩
  | @cons f v fields vs hf hrest ih =>
      intro done olds hlen hrow
      cases olds with
      | nil => exact absurd hlen (by simp)
      | cons old olds =>
      have hlen := Nat.succ.inj hlen
      have hlast : fields = [] ∧ lastOffset (f :: fields) (v :: vs) = 0 ∨
          fields ≠ [] ∧ lastOffset (f :: fields) (v :: vs) =
            (makefield f v).length + lastOffset fields vs := by
        by_cases hnil : fields = []
        · subst hnil
          obtain rfl := List.eq_nil_of_length_eq_zero hrest.length_eq.symm
          exact .inl ⟨rfl, rfl⟩
        · exact .inr ⟨hnil, lastOffset_cons hrest.length_eq.symm hnil⟩
      rw [List.zipWith_cons_cons, List.flatten_cons, List.append_assoc] at hrow
      have hmake := length_makefield_pos f v
      have hroom : done.length + (makefield f v).length ≤ row.length := by
        rw [hrow, List.length_append, List.length_append]
        omega
      unfold getfields
      by_cases hend : row.length ≠ 0 ∧ row.length - 1 ≤ done.length
      · rw [if_pos hend]
        refine ⟨false, _, rfl, iff_of_false (by simp) ?_, nofun⟩
        rintro (hnil | hlt)
        · exact absurd hnil (by simp)
        · omega
      · rw [if_neg hend]
        -- What the fields behind this one come to, from the value read here.
        have hnext : ∀ w, SameValue f v w → ∃ ok ws,
            ((getfields row fields (done ++ makefield f v).length olds).map
              fun r => (r.1, w :: r.2)) = some (ok, ws) ∧
            (ok = true ↔ f :: fields = [] ∨
              done.length + lastOffset (f :: fields) (v :: vs) + 1 <
                row.length) ∧
            (ok = true → SameValues (f :: fields) (v :: vs) ws) := by
          intro w hw
          obtain ⟨ok, ws, hget, hok, hvalues⟩ := ih _ hlen
            (hrow.trans (List.append_assoc _ _ _).symm)
          rw [hget, Option.map_some]
          refine ⟨ok, w :: ws, rfl, ?_, ?_⟩
          · rw [hok, List.length_append]
            rcases hlast with ⟨hnil, hzero⟩ | ⟨hne, hcons⟩
            · refine iff_of_true (.inl hnil) (.inr ?_)
              omega
            · rw [or_iff_right hne, or_iff_right (List.cons_ne_nil _ _), hcons,
                Nat.add_assoc done.length]
          · intro htrue
            obtain ⟨hcount, hsame⟩ := hvalues htrue
            refine ⟨congrArg Nat.succ hcount, fun n g u w' hg hu hw' => ?_⟩
            cases n with
            | zero =>
                obtain rfl := Option.some.inj hg
                obtain rfl := Option.some.inj hu
                obtain rfl := Option.some.inj hw'
                exact hw
            | succ n => exact hsame n g u w' hg hu hw'
        cases hnull : v.isnull with
        | true =>
            have hfield : makefield f v = [1] := by
              rw [makefield, hnull]
              rfl
            rw [hfield] at hrow hnext
            have hread := readAt_next done [1]
              ((List.zipWith makefield fields vs).flatten ++ tail)
            rw [← hrow, List.length_singleton] at hread
            rw [hread, Option.bind_some, if_neg (by decide)]
            rw [List.length_append, List.length_singleton] at hnext
            exact hnext _ ⟨hnull.symm, fun h => absurd (hnull.symm.trans h)
              (by simp)⟩
        | false =>
            have hfield : makefield f v = [0] ++ fieldbytes f v := by
              rw [makefield, hnull]
              rfl
            rw [hfield, List.append_assoc] at hrow
            rw [hfield] at hnext
            have hread := readAt_next done [0] (fieldbytes f v ++
              ((List.zipWith makefield fields vs).flatten ++ tail))
            rw [← hrow, List.length_singleton] at hread
            rw [hread, Option.bind_some, if_pos rfl]
            obtain ⟨w, hget, hw⟩ := getvalue_next
              { old with isnull := false } hf hnull rfl
              (hrow.trans (List.append_assoc _ _ _).symm)
            rw [List.length_append, List.length_singleton,
              List.append_assoc] at hget
            rw [hget, Option.bind_some]
            exact hnext w hw

/-! ## The last byte -/

/-- The row ends with the null byte of its last field. -/
theorem endsEarly_iff (h : vs.length = fields.length) (hne : fields ≠ []) :
    lastOffset fields vs + 1 <
        (Ref.rowsize fields).getD (List.zipWith fieldsize fields vs).sum ↔
      ¬ EndsEarly fields vs := by
  obtain ⟨init, f, rfl⟩ := (List.eq_nil_or_concat fields).resolve_left hne
  have hvs : vs ≠ [] := by
    intro hnil
    rw [hnil, List.concat_eq_append, List.length_append] at h
    exact absurd h (by simp)
  obtain ⟨front, v, rfl⟩ := (List.eq_nil_or_concat vs).resolve_left hvs
  rw [List.concat_eq_append, List.concat_eq_append] at *
  have hlen : front.length = init.length := by
    rw [List.length_append, List.length_append] at h
    exact Nat.add_right_cancel h
  have hlast : lastOffset (init ++ [f]) (front ++ [v]) =
      (List.zipWith makefield init front).flatten.length := by
    rw [lastOffset, List.zipWith_append hlen.symm]
    show ((List.zipWith makefield init front) ++
      [makefield f v]).dropLast.flatten.length = _
    rw [List.dropLast_concat]
  have hsum : (List.zipWith fieldsize (init ++ [f]) (front ++ [v])).sum =
      (List.zipWith fieldsize init front).sum + fieldsize f v := by
    rw [List.zipWith_append hlen.symm, List.sum_append]
    exact congrArg _ (Nat.add_zero _)
  obtain ⟨hle, heq⟩ := length_flatten_le hlen
  have hpos := fieldsize_pos f v
  have hroom : ((∃ g ∈ init ++ [f], g.type = .varchar) ∨
      ∀ g ∈ init ++ [f], g.type ≠ .float) ↔
      (if ∃ g ∈ init ++ [f], g.type = .varchar then 0
        else spare (init ++ [f])) = 0 := by
    split
    · next hex => exact iff_of_true (.inl hex) rfl
    · next hnone =>
        rw [or_iff_right hnone, spare, List.length_eq_zero_iff,
          List.filter_eq_nil_iff]
        simp only [decide_eq_true_eq, ne_eq]
  have hends : EndsEarly (init ++ [f]) (front ++ [v]) ↔
      fieldsize f v = 1 ∧
      (List.zipWith makefield init front).flatten.length =
        (List.zipWith fieldsize init front).sum ∧
      (if ∃ g ∈ init ++ [f], g.type = .varchar then 0
        else spare (init ++ [f])) = 0 := by
    rw [heq, fieldsize_eq_one, ← hroom]
    constructor
    · rintro ⟨⟨g, hg, hempty⟩, hnulls, hspare⟩
      rw [List.getLast?_concat] at hg
      obtain rfl := Option.some.inj hg
      refine ⟨hempty, ?_, hspare⟩
      have hfront := List.forall₂_take init.length hnulls
      rwa [List.take_left, ← hlen, List.take_left] at hfront
    · rintro ⟨hempty, hnulls, hspare⟩
      refine ⟨⟨f, List.getLast?_concat, hempty⟩, ?_, hspare⟩
      exact List.rel_append hnulls (.cons (fun _ => hempty) .nil)
  rw [size_eq h, hlast, hsum, hends]
  omega

/-- Every row comes back, unless it ends early. -/
theorem roundTrips_iff (h : List.Forall₂ Accepts fields vs) :
    RoundTrips (addfields fields) vs ↔ ¬ EndsEarly fields vs := by
  have hlen := h.length_eq.symm
  have hread : ∀ res resultFields, ∃ row ok ws,
      makerow (addfields fields) vs res = some ⟨true, addfields fields,
        List.zipWith padded fields vs, row⟩ ∧
      unmakerow (addfields fields) row resultFields = some (ok, ws) ∧
      (ok = true ↔ ¬ EndsEarly fields vs) ∧
      (ok = true → SameValues fields vs ws) := by
    intro res resultFields
    obtain ⟨row, hrow, hmake⟩ := makerow_eq hlen res
    unfold Ref.makerow at hrow
    rw [if_neg (not_not_intro hlen)] at hrow
    injection hrow with hrow
    have hcount : (resultFields.take fields.length ++ List.replicate
        (fields.length - resultFields.length)
        ({} : FieldValue)).length = fields.length := by
      rw [List.length_append, List.length_take, List.length_replicate]
      omega
    obtain ⟨ok, ws, hget, hok, hvalues⟩ := getfields_next h [] hcount
      hrow.symm
    refine ⟨row, ok, ws, hmake, ?_, hok.trans ?_, hvalues⟩
    · unfold unmakerow
      rw [addfields_fields]
      exact hget
    · by_cases hnil : fields = []
      · refine iff_of_true (.inl hnil) fun hends => ?_
        obtain ⟨f, hlast, -⟩ := hends.last
        rw [hnil] at hlast
        exact absurd hlast (by simp)
      · have hsize : row.length = (Ref.rowsize fields).getD
            (List.zipWith fieldsize fields vs).sum := by
          have hle := (length_flatten_le hlen).1
          rw [← hrow, zeros, List.length_append, List.length_replicate,
            size_eq hlen]
          omega
        rw [or_iff_right hnil, hsize, List.length_nil, Nat.zero_add]
        exact endsEarly_iff hlen hnil
  constructor
  · intro htrips
    obtain ⟨made, values, hmake, -, -, hunmake, -⟩ := htrips [] []
    obtain ⟨row, ok, ws, hmake', hunmake', hok, -⟩ := hread [] []
    rw [hmake] at hmake'
    obtain rfl := Option.some.inj hmake'
    rw [hunmake] at hunmake'
    injection hunmake' with hpair
    injection hpair with htrue
    exact hok.mp htrue.symm
  · intro hends res resultFields
    obtain ⟨row, ok, ws, hmake, hunmake, hok, hvalues⟩ :=
      hread res resultFields
    have htrue := hok.mpr hends
    rw [htrue] at hunmake
    rw [addfields_fields]
    exact ⟨_, ws, hmake, rfl, rfl, hunmake, hvalues htrue⟩

/-- A null, and behind it a string of two bytes in a field of three. -/
theorem roundTrips_null_charx :
    RoundTrips (addfields [⟨.int, 0, .none⟩, ⟨.charx, 3, .none⟩])
      [{ isnull := true }, { str := [97, 98] }] ↔
    ¬ EndsEarly [⟨.int, 0, .none⟩, ⟨.charx, 3, .none⟩]
      [{ isnull := true }, { str := [97, 98] }] :=
  roundTrips_iff (.cons ⟨nofun, by decide⟩
    (.cons ⟨fun _ _ => by decide, by decide⟩ .nil))

/-- The row of a table with one `CHAR(0)` is one byte, at which `unmakerow`
returns false. -/
theorem roundTrips_empty :
    ¬ RoundTrips (addfields [⟨.charx, 0, .none⟩]) [{}] := by
  intro h
  obtain ⟨made, values, hmake, -, -, hunmake, -⟩ := h [] []
  cases hmake
  cases hunmake

end Infinisql.Rows
