import Infinisql.Ref.Row

/-!
# What a row string holds

The values that `unmakerow` can give. Whatever the string, a field comes out
as the default value, as a null with nothing beside it, or as what its type
reads at some position. So the value of an integer or a character field is
as narrow as its type, and there the comparison through the `floating`
member, which the commit uses for every type, is the comparison of the
values: read as an extended double, sixteen bytes whose upper half is zero
are a denormal.
-/

namespace Infinisql.Proofs

open Infinisql.Ref

/-- The value of a field in a row string. -/
def valueOf (fields : List Field) (row : Bytes) (n : Nat) : FieldValue :=
  (unmakerow fields row).getD n {}

theorem ofBytes_lt {bytes : Bytes} (h : bytes.length ≤ 16) :
    (FieldInput.ofBytes bytes).toNat < 2 ^ (8 * bytes.length) := by
  induction bytes with
  | nil => simp [FieldInput.ofBytes]
  | cons b bytes ih =>
      have ih := ih (by simp at h; omega)
      have hb : b.toNat < 2 ^ 8 := b.toNat_lt
      have hlen : 2 ^ 8 ≤ 2 ^ (8 * (bytes.length + 1)) :=
        Nat.pow_le_pow_right (by omega) (by omega)
      simp only [FieldInput.ofBytes, List.foldr_cons, List.length_cons]
      rw [BitVec.toNat_or]
      refine Nat.or_lt_two_pow ?_ ?_
      · rw [BitVec.toNat_shiftLeft, Nat.shiftLeft_eq]
        refine Nat.lt_of_le_of_lt (Nat.mod_le _ _) ?_
        have hpow : 2 ^ (8 * (bytes.length + 1)) =
            2 ^ (8 * bytes.length) * 2 ^ 8 := by
          rw [← Nat.pow_add, Nat.mul_add]
        rw [hpow]
        exact Nat.mul_lt_mul_of_pos_right ih (by decide)
      · rw [BitVec.toNat_ofNat]
        exact Nat.lt_of_le_of_lt (Nat.mod_le _ _) (Nat.lt_of_lt_of_le hb hlen)

/-- Read as an extended double, a 64-bit value is a denormal: its number of
units. -/
theorem floating_of_lt {v : FieldInput} (h : v.toNat < 2 ^ 64) :
    v.floating = v.toNat := by
  have hsig : (v.extractLsb' 0 64).toNat = v.toNat := by
    rw [BitVec.extractLsb'_toNat, Nat.shiftRight_zero, Nat.mod_eq_of_lt h]
  have hexp : (v.extractLsb' 64 15).toNat = 0 := by
    rw [BitVec.extractLsb'_toNat, Nat.shiftRight_eq_div_pow,
      Nat.div_eq_of_lt h]
  have hsign : v.getLsbD 79 = false := by
    rw [← BitVec.testBit_toNat]
    exact Nat.testBit_lt_two_pow (Nat.lt_of_lt_of_le h (by decide))
  simp only [FieldInput.floating, hsig, hexp, hsign]
  simp


/-- The bits of the key of an integer or a character field. -/
def keyBits : Fieldtype → Nat
  | .char => 8
  | _ => 64

/-- A value of such a field as `unmakerow` gives it. -/
structure Narrow (t : Fieldtype) (v : FieldValue) : Prop where
  value : v.value.toNat < 2 ^ keyBits t
  str : v.str = []
  null : v.isnull = true → v.value = 0#128

theorem unmakefield_narrow {f : Field} {row : Bytes} {pos : Nat}
    (hf : f.type = .int ∨ f.type = .uint ∨ f.type = .char) :
    Narrow f.type (unmakefield f row pos).1 := by
  have hread : ∀ n, n ≤ 16 →
      (FieldInput.ofBytes (readBytes row pos n)).toNat < 2 ^ (8 * n) := by
    intro n hn
    have hlen : (readBytes row pos n).length ≤ n := List.length_take_le ..
    exact Nat.lt_of_lt_of_le (ofBytes_lt (by omega))
      (Nat.pow_le_pow_right (by omega) (by omega))
  unfold unmakefield
  rcases hf with hf | hf | hf <;> rw [hf]
  · exact ⟨hread 8 (by omega), rfl, by simp⟩
  · exact ⟨hread 8 (by omega), rfl, by simp⟩
  · exact ⟨hread 1 (by omega), rfl, by simp⟩

/-- What `unmakerow` makes of a field: the default, a null, or what it read
somewhere in the string. -/
theorem unmakefields_cases (row : Bytes) {f : Field} {fields : List Field} :
    ∀ {n : Nat} (pos : Nat), fields[n]? = some f →
      (unmakefields row fields pos).getD n {} = {} ∨
      (unmakefields row fields pos).getD n {} = { isnull := true } ∨
      ∃ pos', (unmakefields row fields pos).getD n {} =
        (unmakefield f row pos').1 := by
  induction fields with
  | nil => simp
  | cons g fields ih =>
      intro n pos hf
      unfold unmakefields
      split
      · left
        rw [List.getD_eq_getElem?_getD, List.getElem?_map, hf]
        rfl
      · split
        · cases n with
          | zero =>
              obtain rfl := Option.some.inj hf
              exact .inr (.inr ⟨_, rfl⟩)
          | succ n => exact ih _ hf
        · cases n with
          | zero => exact .inr (.inl rfl)
          | succ n => exact ih _ hf

theorem valueOf_narrow {fields : List Field} {row : Bytes} {n : Nat}
    {f : Field} (hn : fields[n]? = some f)
    (hf : f.type = .int ∨ f.type = .uint ∨ f.type = .char) :
    Narrow f.type (valueOf fields row n) := by
  have hzero : (0#128).toNat < 2 ^ keyBits f.type := Nat.two_pow_pos _
  rcases unmakefields_cases row 0 hn with h | h | ⟨pos, h⟩
  · rw [valueOf, unmakerow, h]
    exact ⟨hzero, rfl, fun _ => rfl⟩
  · rw [valueOf, unmakerow, h]
    exact ⟨hzero, rfl, fun _ => rfl⟩
  · rw [valueOf, unmakerow, h]
    exact unmakefield_narrow hf

/-- The key of such a value tells it apart from others. -/
theorem key_injective {t : Fieldtype} {v v' : FieldValue}
    (ht : t = .int ∨ t = .uint ∨ t = .char) (h : Narrow t v)
    (h' : Narrow t v') (hkey : v.key t = v'.key t) : v.value = v'.value := by
  have hv := h.value
  have hv' := h'.value
  refine BitVec.eq_of_toNat_eq ?_
  have hwidth : ∀ {w : Nat}, v.value.toNat < 2 ^ w →
      v'.value.toNat < 2 ^ w →
      v.value.setWidth w = v'.value.setWidth w →
      v.value.toNat = v'.value.toNat := by
    intro w h1 h2 heq
    have heq := congrArg BitVec.toNat heq
    rwa [BitVec.toNat_setWidth, BitVec.toNat_setWidth, Nat.mod_eq_of_lt h1,
      Nat.mod_eq_of_lt h2] at heq
  rcases ht with rfl | rfl | rfl
  · injection hkey with hkey
    injection hkey with hkey
    exact hwidth hv hv' (BitVec.eq_of_toInt_eq hkey)
  · injection hkey with hkey
    injection hkey with hkey
    exact hwidth hv hv' (BitVec.eq_of_toNat_eq hkey)
  · injection hkey with hkey
    injection hkey with hkey
    exact hwidth hv hv' hkey

end Infinisql.Proofs
