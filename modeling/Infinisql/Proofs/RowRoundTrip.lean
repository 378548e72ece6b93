import Infinisql.Proofs.RowValues

/-!
# From values to a row and back

`unmakerow` gives back what `makerow` was given, up to what a field can hold:
the low bytes of the union that the field's type names, a `CHARX` string
padded or cut to the field's length. `stored` is that value.

The one field that does not come back is a null in a column of no size at the
end of a row. Its null byte is the last of the string, where `unmakerow` gives
up, and it comes out as an empty string.
-/

namespace Infinisql.Proofs

open Infinisql.Ref

/-! ## The union, byte by byte -/

theorem getLsbD_ofBytes (bytes : Bytes) : ∀ i : Nat,
    (FieldInput.ofBytes bytes).getLsbD i =
      (decide (i < 128) && (bytes.getD (i / 8) 0).toNat.testBit (i % 8)) := by
  induction bytes with
  | nil => simp [FieldInput.ofBytes]
  | cons b bytes ih =>
      intro i
      have hcons : FieldInput.ofBytes (b :: bytes) =
          (FieldInput.ofBytes bytes <<< 8) ||| BitVec.ofNat 128 b.toNat := rfl
      rw [hcons, BitVec.getLsbD_or, BitVec.getLsbD_shiftLeft, ih,
        BitVec.getLsbD_ofNat]
      by_cases h8 : i < 8
      · rw [Nat.div_eq_of_lt h8, Nat.mod_eq_of_lt h8]
        simp [h8]
      · obtain ⟨j, rfl⟩ : ∃ j, i = j + 8 := ⟨i - 8, by omega⟩
        have hb : b.toNat.testBit (j + 8) = false :=
          Nat.testBit_lt_two_pow (Nat.lt_of_lt_of_le b.toNat_lt
            (Nat.pow_le_pow_right (by omega) (by omega)))
        have hdiv : (j + 8) / 8 = j / 8 + 1 := by omega
        have hmod : (j + 8) % 8 = j % 8 := by omega
        rw [hdiv, hmod, hb, Nat.add_sub_cancel]
        by_cases h128 : j + 8 < 128
        · have hj : j < 128 := by omega
          simp [h128, hj]
        · simp [h128]

theorem getD_toBytes (v : FieldInput) {n k : Nat} (h : k < n) :
    (v.toBytes n).getD k 0 =
      UInt8.ofNat (v.extractLsb' (8 * k) 8).toNat := by
  simp [FieldInput.toBytes, h]

/-- A copy of the low bytes has the low bits. -/
theorem getLsbD_ofBytes_toBytes (v : FieldInput) {n i : Nat} (h : i < 8 * n) :
    (FieldInput.ofBytes (v.toBytes n)).getLsbD i = v.getLsbD i := by
  rw [getLsbD_ofBytes, getD_toBytes v (show i / 8 < n by omega)]
  have hlt : (v.extractLsb' (8 * (i / 8)) 8).toNat < 2 ^ 8 :=
    (v.extractLsb' (8 * (i / 8)) 8).isLt
  rw [UInt8.toNat_ofNat', Nat.mod_eq_of_lt hlt, BitVec.testBit_toNat,
    BitVec.getLsbD_extractLsb']
  have hmod : i % 8 < 8 := Nat.mod_lt _ (by omega)
  have hadd : 8 * (i / 8) + i % 8 = i := Nat.div_add_mod i 8
  rw [hadd]
  by_cases h128 : i < 128
  · simp [hmod, h128]
  · rw [BitVec.getLsbD_of_ge v i (by omega)]
    simp

theorem extractLsb'_ofBytes_toBytes (v : FieldInput) {n start len : Nat}
    (h : start + len ≤ 8 * n) :
    (FieldInput.ofBytes (v.toBytes n)).extractLsb' start len =
      v.extractLsb' start len := by
  refine BitVec.eq_of_getLsbD_eq fun i hi => ?_
  rw [BitVec.getLsbD_extractLsb', BitVec.getLsbD_extractLsb',
    getLsbD_ofBytes_toBytes v (by omega)]

theorem setWidth_ofBytes_toBytes (v : FieldInput) {n w : Nat}
    (h : w ≤ 8 * n) :
    (FieldInput.ofBytes (v.toBytes n)).setWidth w = v.setWidth w := by
  refine BitVec.eq_of_getLsbD_eq fun i hi => ?_
  rw [BitVec.getLsbD_setWidth, BitVec.getLsbD_setWidth,
    getLsbD_ofBytes_toBytes v (by omega)]

theorem toBytes_ofBytes_toBytes (v : FieldInput) (n : Nat) :
    (FieldInput.ofBytes (v.toBytes n)).toBytes n = v.toBytes n := by
  rw [FieldInput.toBytes, FieldInput.toBytes]
  refine List.map_congr_left fun i hi => ?_
  have hi : i < n := List.mem_range.mp hi
  rw [← FieldInput.toBytes, extractLsb'_ofBytes_toBytes v (by omega)]

/-! ## One field -/

/-- What a row holds of a field's value. -/
def stored (f : Field) (v : FieldValue) : FieldValue :=
  if v.isnull then { isnull := true }
  else
    match f.type with
    | .int | .uint => { value := .ofBytes (v.value.toBytes 8) }
    | .bool | .char => { value := .ofBytes (v.value.toBytes 1) }
    | .float => { value := .ofBytes (v.value.toBytes 16) }
    | .charx => { str := fieldbytes f v }
    | .varchar => { str := v.str }
    | .nofieldtype => {}

/-- A string is no longer than its length member can say. -/
def Fits (f : Field) (v : FieldValue) : Prop :=
  f.type = .varchar → v.str.length < 2 ^ 64

theorem length_toBytes (v : FieldInput) (n : Nat) :
    (v.toBytes n).length = n := by
  rw [FieldInput.toBytes, List.length_map, List.length_range]

theorem readBytes_append (pre bytes rest : Bytes) :
    readBytes (pre ++ (bytes ++ rest)) pre.length bytes.length = bytes := by
  rw [readBytes, List.drop_left, List.take_left]

theorem length_fieldbytes_charx {f : Field} {v : FieldValue}
    (hf : f.type = .charx) : (fieldbytes f v).length = f.length := by
  rw [fieldbytes, hf]
  dsimp only
  rw [List.length_take, List.length_append, List.length_replicate]
  omega

/-- The value after a null byte that says it is there. -/
theorem unmakefield_fieldbytes {f : Field} {v : FieldValue}
    {row pre rest : Bytes}
    (hv : v.isnull = false) (hfits : Fits f v)
    (hrow : row = pre ++ (fieldbytes f v ++ rest)) :
    unmakefield f row pre.length =
      (stored f v, pre.length + (fieldbytes f v).length) := by
  have hread : ∀ n, n = (fieldbytes f v).length →
      readBytes row pre.length n = fieldbytes f v := by
    intro n hn
    rw [hn, hrow, readBytes_append]
  rw [unmakefield, stored, hv, if_neg (by simp)]
  cases hf : f.type with
  | int | uint | bool | float | char =>
      have hlen := length_toBytes v.value
      have hbytes : fieldbytes f v = v.value.toBytes (match f.type with
          | .int | .uint => 8
          | .bool | .char => 1
          | _ => 16) := by
        rw [fieldbytes, hf]
      rw [hf] at hbytes
      dsimp only at hbytes ⊢
      rw [hread _ (by rw [hbytes, hlen]), hbytes, hlen]
  | charx =>
      have hlen := length_fieldbytes_charx (v := v) hf
      dsimp only
      rw [hread _ hlen.symm, hlen, Nat.sub_self]
      simp [zeros]
  | varchar =>
      have hbytes : fieldbytes f v = FieldInput.toBytes
          (BitVec.ofNat 128 v.str.length) 8 ++ v.str := by
        rw [fieldbytes, hf]
      have hlen := length_toBytes (BitVec.ofNat 128 v.str.length) 8
      have hsize : readBytes row pre.length 8 =
          FieldInput.toBytes (BitVec.ofNat 128 v.str.length) 8 := by
        have h := readBytes_append pre
          (FieldInput.toBytes (BitVec.ofNat 128 v.str.length) 8) (v.str ++ rest)
        rw [hlen] at h
        rw [hrow, hbytes, List.append_assoc, h]
      have hnat : (FieldInput.ofBytes (FieldInput.toBytes
          (BitVec.ofNat 128 v.str.length) 8)).uinteger = v.str.length := by
        rw [FieldInput.uinteger, setWidth_ofBytes_toBytes _ (by omega),
          BitVec.toNat_setWidth, BitVec.toNat_ofNat]
        have := hfits hf
        omega
      have hstr : readBytes row (pre.length + 8) v.str.length = v.str := by
        have h := readBytes_append (pre ++ FieldInput.toBytes
          (BitVec.ofNat 128 v.str.length) 8) v.str rest
        rw [List.length_append, hlen] at h
        rw [hrow, hbytes, List.append_assoc, ← List.append_assoc pre, h]
      dsimp only
      rw [hsize, hnat, hstr, hbytes, List.length_append, hlen, Nat.add_assoc]
  | nofieldtype =>
      have hbytes : fieldbytes f v = [] := by
        rw [fieldbytes, hf]
      rw [hbytes]
      rfl

/-! ## The row -/

/-- A null in a column of no size cannot be told from the end of the row. -/
def Told (f : Field) (v : FieldValue) : Prop :=
  v.isnull = true → 2 ≤ fieldsize f v

theorem fieldsize_pos (f : Field) (v : FieldValue) : 1 ≤ fieldsize f v := by
  rw [fieldsize]
  split <;> omega

theorem length_makefield_pos (f : Field) (v : FieldValue) :
    1 ≤ (makefield f v).length := by
  rw [makefield]
  split
  · exact le_refl 1
  · rw [List.length_cons]
    omega

theorem length_makefield_le (f : Field) (v : FieldValue) :
    (makefield f v).length ≤ fieldsize f v := by
  rw [makefield]
  split
  · exact fieldsize_pos f v
  · rw [List.length_cons, fieldsize]
    cases hf : f.type with
    | charx =>
        rw [length_fieldbytes_charx hf]
        dsimp only
        omega
    | varchar =>
        rw [fieldbytes, hf]
        dsimp only
        rw [List.length_append, length_toBytes]
        omega
    | nofieldtype =>
        rw [fieldbytes, hf]
        simp
    | _ =>
        rw [fieldbytes, hf]
        dsimp only
        rw [length_toBytes]

/-- A field of no size holds nothing. -/
theorem stored_of_fieldsize {f : Field} {v : FieldValue}
    (hv : v.isnull = false) (h : fieldsize f v ≤ 1) : stored f v = {} := by
  rw [stored, hv, if_neg (by simp)]
  rw [fieldsize] at h
  cases hf : f.type with
  | charx =>
      rw [hf] at h
      have hlen := length_fieldbytes_charx (v := v) hf
      have hnil : fieldbytes f v = [] :=
        List.eq_nil_of_length_eq_zero (by dsimp only at h; omega)
      dsimp only
      rw [hnil]
  | nofieldtype => rfl
  | _ =>
      rw [hf] at h
      dsimp only at h
      omega

/-- Where field `n` starts: after what was copied for those before it. -/
def fieldOffset (fields : List Field) (vs : List FieldValue) (n : Nat) : Nat :=
  ((List.zipWith makefield fields vs).take n).flatten.length

theorem fieldOffset_succ (g : Field) (fields : List Field) (w : FieldValue)
    (vs : List FieldValue) (n : Nat) :
    fieldOffset (g :: fields) (w :: vs) (n + 1) =
      (makefield g w).length + fieldOffset fields vs n := by
  simp only [fieldOffset, List.zipWith_cons_cons, List.take_succ_cons,
    List.flatten_cons, List.length_append]

theorem fieldOffset_add_fieldsize {fields : List Field} :
    ∀ {vs : List FieldValue} {n : Nat} {f : Field} {v : FieldValue},
      fields[n]? = some f → vs[n]? = some v →
      fieldOffset fields vs n + fieldsize f v ≤
        (List.zipWith fieldsize fields vs).sum := by
  induction fields with
  | nil =>
      intro vs n f v hf _
      exact absurd hf (by simp)
  | cons g fields ih =>
      intro vs n f v hf hv
      cases vs with
      | nil => exact absurd hv (by simp)
      | cons w vs =>
          rw [List.zipWith_cons_cons, List.sum_cons]
          cases n with
          | zero =>
              obtain rfl := Option.some.inj hf
              obtain rfl := Option.some.inj hv
              rw [fieldOffset, List.take_zero, List.flatten_nil,
                List.length_nil]
              omega
          | succ n =>
              have hrest : fieldOffset fields vs n + fieldsize f v ≤
                  (List.zipWith fieldsize fields vs).sum := ih hf hv
              have hle := length_makefield_le g w
              rw [fieldOffset_succ]
              omega

/-- What the loop of `unmakerow` reads from `pos`; a field that it does not get
to is not read. -/
def reads (row : Bytes) : List Field → Nat → List (Option FieldValue)
  | [], _ => []
  | f :: fields, pos =>
      if row.length ≠ 0 ∧ row.length - 1 ≤ pos then
        (f :: fields).map fun _ => none
      else if row.getD pos 0 = 0 then
        let (v, pos') := unmakefield f row (pos + 1)
        some v :: reads row fields pos'
      else some { isnull := true } :: reads row fields (pos + 1)

theorem unmakefields_eq_reads (row : Bytes) (fields : List Field) (pos : Nat) :
    unmakefields row fields pos =
      (reads row fields pos).map fun v => v.getD {} := by
  induction fields generalizing pos with
  | nil => rfl
  | cons f fields ih =>
      rw [unmakefields, reads]
      split
      · rw [List.map_map]
        rfl
      · split
        · rw [List.map_cons, ← ih]
          rfl
        · rw [List.map_cons, ← ih]
          rfl

/-- The loop, from where the fields before have been read: each field comes
out as it is stored, unless its null byte is the last of the string. -/
theorem reads_flatten {row tail : Bytes} {fields : List Field}
    {vs : List FieldValue} (hfits : List.Forall₂ Fits fields vs) :
    ∀ pre : Bytes,
      row = pre ++ ((List.zipWith makefield fields vs).flatten ++ tail) →
      ∀ (n : Nat) (f : Field) (v : FieldValue), fields[n]? = some f →
        vs[n]? = some v →
        (reads row fields pre.length).getD n none =
          if row.length ≤ pre.length + fieldOffset fields vs n + 1 then none
          else some (stored f v) := by
  induction hfits with
  | nil =>
      intro pre _ n f v hf
      exact absurd hf (by simp)
  | @cons f v fields vs hfit hrest ih =>
      intro pre hrow n g w hg hw
      rw [List.zipWith_cons_cons, List.flatten_cons, List.append_assoc] at hrow
      have hmake := length_makefield_pos f v
      have hlen : pre.length + (makefield f v).length ≤ row.length := by
        rw [hrow, List.length_append, List.length_append]
        omega
      have hoffset : fieldOffset (f :: fields) (v :: vs) n = match n with
          | 0 => 0
          | k + 1 => (makefield f v).length + fieldOffset fields vs k := by
        cases n with
        | zero => rfl
        | succ k => exact fieldOffset_succ f fields v vs k
      rw [reads, hoffset]
      by_cases hend : row.length ≠ 0 ∧ row.length - 1 ≤ pre.length
      · rw [if_pos hend, if_pos (by omega), List.getD_eq_getElem?_getD,
          List.getElem?_map, hg]
        rfl
      · rw [if_neg hend]
        have hget : row.getD pre.length 0 = if v.isnull then 1 else 0 := by
          rw [hrow, List.getD_eq_getElem?_getD,
            List.getElem?_append_right (le_refl _), Nat.sub_self, makefield]
          split <;> rfl
        have hnext := ih (pre ++ makefield f v)
          (by rw [hrow, List.append_assoc])
        rw [List.length_append] at hnext
        cases hnull : v.isnull with
        | true =>
            have hfield : (makefield f v).length = 1 := by
              rw [makefield, hnull]
              rfl
            rw [hnull, if_pos rfl] at hget
            rw [hget, if_neg (by decide)]
            rw [hfield] at hnext ⊢
            cases n with
            | succ n =>
                rw [← Nat.add_assoc]
                exact hnext n g w hg hw
            | zero =>
                obtain rfl := Option.some.inj hg
                obtain rfl := Option.some.inj hw
                dsimp only
                rw [if_neg (by omega), stored, hnull, if_pos rfl]
                rfl
        | false =>
            have hfield : makefield f v = 0 :: fieldbytes f v := by
              rw [makefield, hnull, if_neg (by simp)]
            rw [hnull, if_neg (by simp)] at hget
            rw [hget, if_pos rfl]
            have hbytes : row = (pre ++ [0]) ++ (fieldbytes f v ++
                ((List.zipWith makefield fields vs).flatten ++ tail)) := by
              rw [hrow, hfield, List.append_assoc]
              rfl
            have hread := unmakefield_fieldbytes hnull hfit hbytes
            rw [List.length_append, List.length_singleton] at hread
            rw [hread]
            dsimp only
            have hafter : pre.length + 1 + (fieldbytes f v).length =
                pre.length + (makefield f v).length := by
              rw [hfield, List.length_cons]
              omega
            rw [hafter]
            cases n with
            | succ n =>
                dsimp only
                rw [← Nat.add_assoc]
                exact hnext n g w hg hw
            | zero =>
                obtain rfl := Option.some.inj hg
                obtain rfl := Option.some.inj hw
                dsimp only
                rw [if_neg (by omega)]
                rfl

/-- A fixed row size leaves room for every field. -/
theorem fieldsize_le_addRowsize {f : Field} {size size' : Nat}
    (v : FieldValue) (h : addRowsize (some size) f = some size') :
    size + fieldsize f v ≤ size' := by
  rw [addRowsize] at h
  rw [fieldsize]
  cases hf : f.type with
  | varchar =>
      rw [hf] at h
      exact absurd h (by simp)
  | _ =>
      rw [hf] at h
      injection h with h
      dsimp only at h ⊢
      omega

theorem foldl_addRowsize_none (fields : List Field) :
    fields.foldl addRowsize none = none := by
  induction fields with
  | nil => rfl
  | cons f fields ih => exact ih

theorem sum_fieldsize_le_rowsize {fields : List Field} :
    ∀ {size size' : Nat} {vs : List FieldValue}, fields.length = vs.length →
      fields.foldl addRowsize (some size) = some size' →
      size + (List.zipWith fieldsize fields vs).sum ≤ size' := by
  induction fields with
  | nil =>
      intro size size' vs _ h
      injection h with h
      rw [List.zipWith_nil_left, List.sum_nil]
      omega
  | cons f fields ih =>
      intro size size' vs hlen h
      cases vs with
      | nil => exact absurd hlen (by simp)
      | cons v vs =>
          rw [List.foldl_cons] at h
          cases hadd : addRowsize (some size) f with
          | none =>
              rw [hadd, foldl_addRowsize_none] at h
              exact absurd h (by simp)
          | some size₁ =>
              rw [hadd] at h
              have h1 := fieldsize_le_addRowsize v hadd
              have h2 := ih (Nat.succ.inj hlen) h
              rw [List.zipWith_cons_cons, List.sum_cons]
              omega

/-- The row string of values has room for what was counted for each. -/
theorem makerow_eq_some {fields : List Field} {vs : List FieldValue}
    {row : Bytes} (hrow : makerow fields vs = some row) :
    fields.length = vs.length ∧
      (∃ tail, row = (List.zipWith makefield fields vs).flatten ++ tail) ∧
      (List.zipWith fieldsize fields vs).sum ≤ row.length := by
  rw [makerow] at hrow
  split at hrow
  · exact absurd hrow (by simp)
  · next hlen =>
  have hlen : fields.length = vs.length := (not_not.mp hlen).symm
  injection hrow with hrow
  refine ⟨hlen, ⟨_, hrow.symm⟩, ?_⟩
  rw [← hrow, List.length_append, zeros, List.length_replicate]
  cases hrs : rowsize fields with
  | none =>
      rw [Option.getD_none]
      omega
  | some size =>
      have hle := sum_fieldsize_le_rowsize hlen hrs
      rw [Option.getD_some]
      omega

theorem reads_makerow {fields : List Field} {vs : List FieldValue}
    {row : Bytes} {n : Nat} {f : Field} {v : FieldValue}
    (hrow : makerow fields vs = some row) (hfits : List.Forall₂ Fits fields vs)
    (hf : fields[n]? = some f) (hv : vs[n]? = some v) :
    (reads row fields 0).getD n none =
      if row.length ≤ fieldOffset fields vs n + 1 then none
      else some (stored f v) := by
  obtain ⟨_, ⟨tail, heq⟩, _⟩ := makerow_eq_some hrow
  have h := reads_flatten hfits [] heq n f v hf hv
  rw [List.length_nil, Nat.zero_add] at h
  exact h

theorem valueOf_eq_reads (fields : List Field) (row : Bytes) (n : Nat) :
    valueOf fields row n = ((reads row fields 0).getD n none).getD {} := by
  rw [valueOf, unmakerow, unmakefields_eq_reads, List.getD_eq_getElem?_getD,
    List.getD_eq_getElem?_getD, List.getElem?_map]
  cases (reads row fields 0)[n]? <;> rfl

/-- Field by field, what `unmakerow` makes of what `makerow` made. -/
theorem valueOf_makerow_of_fits {fields : List Field} {vs : List FieldValue}
    {row : Bytes} {n : Nat} {f : Field} {v : FieldValue}
    (hrow : makerow fields vs = some row) (hfits : List.Forall₂ Fits fields vs)
    (hf : fields[n]? = some f) (hv : vs[n]? = some v) :
    valueOf fields row n =
      if row.length ≤ fieldOffset fields vs n + 1 then {} else stored f v := by
  rw [valueOf_eq_reads, reads_makerow hrow hfits hf hv]
  split <;> rfl

theorem valueOf_makerow_eq {fields : List Field} {vs : List FieldValue}
    {row : Bytes} {n : Nat} {f : Field} {v : FieldValue}
    (hrow : makerow fields vs = some row)
    (hsize : ∀ v ∈ vs, v.str.length < 2 ^ 64)
    (hf : fields[n]? = some f) (hv : vs[n]? = some v) :
    valueOf fields row n =
      if row.length ≤ fieldOffset fields vs n + 1 then {} else stored f v := by
  refine valueOf_makerow_of_fits hrow ?_ hf hv
  refine List.forall₂_iff_get.mpr ⟨(makerow_eq_some hrow).1, ?_⟩
  exact fun i _ hi _ => hsize _ (List.get_mem vs ⟨i, hi⟩)

/-- `unmakerow` undoes `makerow`, field by field. -/
theorem valueOf_makerow {fields : List Field} {vs : List FieldValue}
    {row : Bytes} {n : Nat} {f : Field} {v : FieldValue}
    (hrow : makerow fields vs = some row)
    (hsize : ∀ v ∈ vs, v.str.length < 2 ^ 64)
    (hf : fields[n]? = some f) (hv : vs[n]? = some v) (htold : Told f v) :
    valueOf fields row n = stored f v := by
  rw [valueOf_makerow_eq hrow hsize hf hv]
  split
  · next hend =>
      -- Only a column of no size is left, and it is not null.
      obtain ⟨_, _, hroom⟩ := makerow_eq_some hrow
      have hoffset := fieldOffset_add_fieldsize hf hv
      have hv : v.isnull = false := by
        cases hnull : v.isnull with
        | false => rfl
        | true =>
            have := htold hnull
            omega
      exact (stored_of_fieldsize hv (by omega)).symm
  · rfl
/-! ## When two lists of values make one row -/

theorem stored_isnull (f : Field) (v : FieldValue) :
    (stored f v).isnull = v.isnull := by
  rw [stored]
  split
  · next h => exact h.symm
  · next h => split <;> exact (Bool.eq_false_iff.mpr h).symm

/-- The bytes of a field's value are those of its copy. -/
theorem fieldbytes_congr {f : Field} {v w : FieldValue}
    (hv : v.isnull = false) (hw : w.isnull = false)
    (h : stored f v = stored f w) : fieldbytes f v = fieldbytes f w := by
  rw [stored, stored, hv, hw, if_neg (by simp), if_neg (by simp)] at h
  rw [fieldbytes, fieldbytes]
  have hbytes : ∀ n, FieldInput.ofBytes (v.value.toBytes n) =
      FieldInput.ofBytes (w.value.toBytes n) →
      v.value.toBytes n = w.value.toBytes n := by
    intro n heq
    rw [← toBytes_ofBytes_toBytes v.value, heq, toBytes_ofBytes_toBytes]
  cases hf : f.type <;> rw [hf] at h
  case int | uint | bool | float | char =>
    injection h with h
    exact hbytes _ h
  case charx =>
    injection h with _ h
    rw [fieldbytes, fieldbytes, hf] at h
    exact h
  case varchar =>
    injection h with _ h
    dsimp only
    rw [h]

theorem makefield_congr {f : Field} {v w : FieldValue}
    (h : stored f v = stored f w) : makefield f v = makefield f w := by
  have hnull : v.isnull = w.isnull := by
    rw [← stored_isnull f v, h, stored_isnull]
  rw [makefield, makefield, hnull]
  split
  · rfl
  · next hw =>
      have hw : w.isnull = false := Bool.eq_false_iff.mpr hw
      rw [fieldbytes_congr (hnull.trans hw) hw h]

/-- The string of a null is empty. -/
def Canonical (v : FieldValue) : Prop := v.isnull = true → v.str = []

theorem fieldsize_congr {f : Field} {v w : FieldValue} (hv : Canonical v)
    (hw : Canonical w) (h : stored f v = stored f w) :
    fieldsize f v = fieldsize f w := by
  have hnull : v.isnull = w.isnull := by
    rw [← stored_isnull f v, h, stored_isnull]
  rw [fieldsize, fieldsize]
  cases hf : f.type with
  | varchar =>
      cases hn : w.isnull with
      | true => rw [hv (hnull.trans hn), hw hn]
      | false =>
          rw [stored, stored, hnull, hn, if_neg (by simp), if_neg (by simp),
            hf] at h
          injection h with _ h
          rw [h]
  | _ => rfl

/-- Values with the same copies make the same row. -/
theorem makerow_congr {fields : List Field} {vs ws : List FieldValue}
    (hlen : vs.length = ws.length)
    (h : ∀ (n : Nat) (f : Field) (v w : FieldValue), fields[n]? = some f →
      vs[n]? = some v → ws[n]? = some w →
      stored f v = stored f w ∧ Canonical v ∧ Canonical w) :
    makerow fields vs = makerow fields ws := by
  have hlists : List.zipWith makefield fields vs =
        List.zipWith makefield fields ws ∧
      List.zipWith fieldsize fields vs =
        List.zipWith fieldsize fields ws := by
    induction fields generalizing vs ws with
    | nil => exact ⟨rfl, rfl⟩
    | cons f fields ih =>
        cases vs with
        | nil =>
            obtain rfl := List.eq_nil_of_length_eq_zero hlen.symm
            exact ⟨rfl, rfl⟩
        | cons v vs =>
        cases ws with
        | nil => exact absurd hlen (by simp)
        | cons w ws =>
        obtain ⟨hstored, hv, hw⟩ := h 0 f v w rfl rfl rfl
        obtain ⟨h1, h2⟩ := ih (Nat.succ.inj hlen) fun n => h (n + 1)
        simp only [List.zipWith_cons_cons]
        rw [h1, h2, makefield_congr hstored, fieldsize_congr hv hw hstored]
        exact ⟨rfl, rfl⟩
  rw [makerow, makerow, hlists.1, hlists.2, hlen]

theorem length_eq_of_toBytes {m n : Nat} (hm : m < 2 ^ 64) (hn : n < 2 ^ 64)
    (h : FieldInput.toBytes (BitVec.ofNat 128 m) 8 =
      FieldInput.toBytes (BitVec.ofNat 128 n) 8) : m = n := by
  have hwidth : ∀ k, k < 2 ^ 64 →
      ((FieldInput.ofBytes (FieldInput.toBytes (BitVec.ofNat 128 k) 8)).setWidth
        64).toNat = k := by
    intro k hk
    rw [setWidth_ofBytes_toBytes _ (by omega), BitVec.toNat_setWidth,
      BitVec.toNat_ofNat]
    omega
  have hread := hwidth m hm
  rw [h, hwidth n hn] at hread
  exact hread.symm

/-- A field's bytes say what its copy is and where they end. -/
theorem makefield_inj {f : Field} {v w : FieldValue} {x y : Bytes}
    (hv : Fits f v) (hw : Fits f w)
    (h : makefield f v ++ x = makefield f w ++ y) :
    stored f v = stored f w ∧ x = y := by
  rw [makefield, makefield] at h
  cases hnv : v.isnull with
  | true =>
      cases hnw : w.isnull with
      | true =>
          rw [hnv, hnw] at h
          refine ⟨?_, List.append_cancel_left h⟩
          rw [stored, stored, hnv, hnw, if_pos rfl, if_pos rfl]
      | false =>
          rw [hnv, hnw] at h
          exact absurd (List.head_eq_of_cons_eq h) (by decide)
  | false =>
      cases hnw : w.isnull with
      | true =>
          rw [hnv, hnw] at h
          exact absurd (List.head_eq_of_cons_eq h) (by decide)
      | false =>
          rw [hnv, hnw, if_neg (by simp), if_neg (by simp)] at h
          have h : fieldbytes f v ++ x = fieldbytes f w ++ y :=
            List.tail_eq_of_cons_eq h
          rw [stored, stored, hnv, hnw, if_neg (by simp), if_neg (by simp)]
          have hsame : (fieldbytes f v).length = (fieldbytes f w).length →
              fieldbytes f v = fieldbytes f w ∧ x = y := List.append_inj h
          cases hf : f.type with
          | int | uint | bool | float | char =>
              simp only [fieldbytes, hf, length_toBytes, forall_const] at hsame
              exact ⟨by rw [hsame.1], hsame.2⟩
          | charx =>
              have hbytes := hsame (by
                rw [length_fieldbytes_charx hf, length_fieldbytes_charx hf])
              exact ⟨by rw [hbytes.1], hbytes.2⟩
          | varchar =>
              rw [fieldbytes, fieldbytes, hf] at h
              dsimp only at h ⊢
              rw [List.append_assoc, List.append_assoc] at h
              obtain ⟨hcount, hrest⟩ := List.append_inj h (by
                rw [length_toBytes, length_toBytes])
              have hlen := length_eq_of_toBytes (hv hf) (hw hf) hcount
              obtain ⟨hstr, hend⟩ := List.append_inj hrest hlen
              exact ⟨by rw [hstr], hend⟩
          | nofieldtype =>
              rw [fieldbytes, fieldbytes, hf] at h
              exact ⟨rfl, h⟩

/-- One row is made of values with the same copies. -/
theorem makerow_inj {fields : List Field} {vs ws : List FieldValue}
    {row : Bytes} (hv : makerow fields vs = some row)
    (hw : makerow fields ws = some row)
    (hfits : ∀ (n : Nat) (f : Field) (v w : FieldValue),
      fields[n]? = some f → vs[n]? = some v → ws[n]? = some w →
      v = w ∨ Fits f v ∧ Fits f w) :
    ∀ (n : Nat) (f : Field) (v w : FieldValue), fields[n]? = some f →
      vs[n]? = some v → ws[n]? = some w → stored f v = stored f w := by
  have hlenv := (makerow_eq_some hv).1
  have hlenw := (makerow_eq_some hw).1
  obtain ⟨x, hx⟩ := (makerow_eq_some hv).2.1
  obtain ⟨y, hy⟩ := (makerow_eq_some hw).2.1
  have h : (List.zipWith makefield fields vs).flatten ++ x =
      (List.zipWith makefield fields ws).flatten ++ y := hx.symm.trans hy
  clear hv hw hx hy
  induction fields generalizing vs ws with
  | nil =>
      intro n f v w hf
      exact absurd hf (by simp)
  | cons g fields ih =>
      cases vs with
      | nil => exact absurd hlenv (by simp)
      | cons a vs =>
      cases ws with
      | nil => exact absurd hlenw (by simp)
      | cons b ws =>
      rw [List.zipWith_cons_cons, List.zipWith_cons_cons, List.flatten_cons,
        List.flatten_cons, List.append_assoc, List.append_assoc] at h
      have hfirst : stored g a = stored g b ∧
          (List.zipWith makefield fields vs).flatten ++ x =
            (List.zipWith makefield fields ws).flatten ++ y := by
        rcases hfits 0 g a b rfl rfl rfl with rfl | ⟨ha, hb⟩
        · exact ⟨rfl, List.append_cancel_left h⟩
        · exact makefield_inj ha hb h
      intro n f v w hf hv hw
      cases n with
      | zero =>
          obtain rfl := Option.some.inj hf
          obtain rfl := Option.some.inj hv
          obtain rfl := Option.some.inj hw
          exact hfirst.1
      | succ n =>
          exact ih (fun k => hfits (k + 1)) (Nat.succ.inj hlenv)
            (Nat.succ.inj hlenw) hfirst.2 n f v w hf hv hw

end Infinisql.Proofs
