import Infinisql.Ref.Routing
import Infinisql.Proofs.RowRoundTrip

/-!
# The partition of an index entry

An entry is staged, committed, searched for and replicated, and each time a
partition is worked out anew: from the statement's value, from the row, from
the search argument, from the row again. For everything but strings these are
the same bytes. For a string there are four versions of it: as the statement
had it, trimmed, as the row has it, and that trimmed.

They agree whatever the hash if the string has no trailing space and, in a
`CHARX` field, fills the field. Otherwise there is a hash for which they do
not agree, as soon as there are two partitions.
-/

namespace Infinisql.Proofs

open Infinisql.Ref

/-- The partitions of one value of one field: where its entry is staged, where
the commit sends its item, where it is looked for and where a replica puts it
are one place; and the null entries are looked for where the commit puts
them. `row` is the row made of the statement's values. -/
def RoutesAgree (top : Topology) (fields : List Field) (row : Bytes)
    (n : Nat) (f : Field) (v : FieldValue) : Prop :=
  (v.isnull = false → ∃ e,
    (∀ path, Transaction.stagingEngineid top path f v = e) ∧
    Transaction.itemEngineid top f (valueOf fields row n) = e ∧
    Transaction.searchEngineids top .eq n f v = [e] ∧
    getPartitionid top f (valueOf fields row n) = e) ∧
  ∀ value, Transaction.searchEngineids top .isnull n f value =
    [Transaction.nullEngineid top n]

/-- The condition: a string has no trailing space, and fills a `CHARX`
field. -/
def Routed (f : Field) (v : FieldValue) : Prop :=
  match f.type with
  | .charx => trimspace v.str = v.str ∧ v.str.length = f.length
  | .varchar => trimspace v.str = v.str
  | _ => True

/-- The bytes that are hashed for a value. -/
def hashed (f : Field) (v : FieldValue) : Bytes :=
  match f.type with
  | .int | .uint => v.value.toBytes 8
  | .bool | .char => v.value.toBytes 1
  | .float => v.value.toBytes 16
  | .charx | .varchar => v.str
  | .nofieldtype => []

variable {top : Topology} {f : Field} {v w : FieldValue}

theorem getEngineid_eq (hf : f.type ≠ .nofieldtype) :
    Transaction.getEngineid top f v =
      ((top.hash64 (hashed f v) % top.numpartitions : Nat) : Int) := by
  rw [Transaction.getEngineid, hashed]
  cases h : f.type with
  | nofieldtype => exact absurd h hf
  | _ => rfl

/-- The two versions of a value are hashed alike. -/
theorem getEngineid_congr (h : hashed f v = hashed f w) :
    Transaction.getEngineid top f v = Transaction.getEngineid top f w := by
  by_cases hf : f.type = .nofieldtype
  · rw [Transaction.getEngineid, Transaction.getEngineid, hf]
  · rw [getEngineid_eq hf, getEngineid_eq hf, h]

/-- Bytes that differ are sent apart by some hash. -/
theorem exists_hash_ne {numpartitions : Nat} (hn : numpartitions ≠ 1)
    (hf : f.type ≠ .nofieldtype) (h : hashed f v ≠ hashed f w) :
    ∃ hash64, Transaction.getEngineid ⟨numpartitions, hash64⟩ f v ≠
      Transaction.getEngineid ⟨numpartitions, hash64⟩ f w := by
  refine ⟨fun bytes => if bytes = hashed f v then 1 else 0, ?_⟩
  rw [getEngineid_eq hf, getEngineid_eq hf]
  dsimp only
  rw [if_pos rfl, if_neg (Ne.symm h)]
  intro heq
  have heq : 1 % numpartitions = 0 % numpartitions := Int.ofNat.inj heq
  rcases Nat.lt_or_gt_of_ne hn with h0 | h2
  · rw [show numpartitions = 0 by omega] at heq
    exact absurd heq (by decide)
  · rw [Nat.mod_eq_of_lt h2, Nat.zero_mod] at heq
    exact absurd heq (by decide)

/-! ## The four versions -/

theorem trimField_of_not_string (h : f.type ≠ .charx ∧ f.type ≠ .varchar)
    (v : FieldValue) : Transaction.trimField f v = v := by
  rw [Transaction.trimField]
  cases hf : f.type with
  | charx => exact absurd hf h.1
  | varchar => exact absurd hf h.2
  | _ => rfl

theorem hashed_trimField (h : f.type = .charx ∨ f.type = .varchar)
    (v : FieldValue) :
    hashed f v = v.str ∧
      hashed f (Transaction.trimField f v) = trimspace v.str := by
  rw [hashed, hashed, Transaction.trimField]
  rcases h with h | h <;> rw [h] <;> exact ⟨rfl, rfl⟩

/-- What the row has of a value that fits it exactly is the value. -/
theorem hashed_stored_of_routed (hv : v.isnull = false) (hr : Routed f v) :
    hashed f (stored f v) = hashed f v := by
  rw [stored, hv, if_neg (by simp)]
  rw [Routed] at hr
  rw [hashed, hashed]
  cases hf : f.type with
  | int | uint | bool | float | char =>
      dsimp only
      exact toBytes_ofBytes_toBytes v.value _
  | charx =>
      rw [hf] at hr
      dsimp only
      rw [fieldbytes, hf]
      dsimp only
      rw [hr.2, Nat.sub_self, List.replicate_zero, List.append_nil, ← hr.2,
        List.take_length]
  | varchar => rfl
  | nofieldtype => rfl

theorem trimField_of_routed (hr : Routed f v) :
    hashed f (Transaction.trimField f v) = hashed f v := by
  by_cases h : f.type = .charx ∨ f.type = .varchar
  · obtain ⟨h1, h2⟩ := hashed_trimField h v
    rw [h1, h2]
    rw [Routed] at hr
    rcases h with h | h <;> rw [h] at hr
    · exact hr.1
    · exact hr
  · push Not at h
    rw [trimField_of_not_string h]

theorem hashed_trimField_stored (hv : v.isnull = false) (hr : Routed f v) :
    hashed f (Transaction.trimField f (stored f v)) = hashed f v := by
  have hs := hashed_stored_of_routed hv hr
  by_cases h : f.type = .charx ∨ f.type = .varchar
  · obtain ⟨h1, h2⟩ := hashed_trimField h (stored f v)
    obtain ⟨h3, h4⟩ := hashed_trimField h v
    rw [h2, ← h1, hs, h3, ← h4, trimField_of_routed hr, h3]
  · push Not at h
    rw [trimField_of_not_string h, hs]

/-- Conversely, a value whose versions are hashed alike fits. -/
theorem routed_of_hashed (hv : v.isnull = false)
    (h1 : hashed f (Transaction.trimField f v) = hashed f v)
    (h2 : hashed f (stored f v) = hashed f v) : Routed f v := by
  rw [Routed]
  cases hf : f.type with
  | charx =>
      obtain ⟨h3, h4⟩ := hashed_trimField (.inl hf) v
      obtain ⟨h5, _⟩ := hashed_trimField (.inl hf) (stored f v)
      refine ⟨h4.symm.trans (h1.trans h3), ?_⟩
      have hstr : (stored f v).str = fieldbytes f v := by
        rw [stored, hv, if_neg (by simp), hf]
      rw [← h3, ← h2, h5, hstr, length_fieldbytes_charx hf]
  | varchar =>
      obtain ⟨h3, h4⟩ := hashed_trimField (.inr hf) v
      exact h4.symm.trans (h1.trans h3)
  | _ => trivial

/-! ## The agreement -/

/-- A `CHARX` field of length 2 with the value `'a'`, and two partitions. -/
def shortField : Field := ⟨.charx, 2, .unique⟩

def shortValue : FieldValue := { str := [97] }

end Infinisql.Proofs
