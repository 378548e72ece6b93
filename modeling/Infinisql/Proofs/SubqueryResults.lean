import Infinisql.Proofs.Parsing
import Infinisql.Proofs.RowRoundTrip

/-!
# What is read of a subquery's results

A search looks for the results of a subquery at the wrong node. `evaluate`
hands the operator over, whose operand is empty, so that the comparison or the
sum works on the number of the query, and EXISTS and UNIQUE read eight bytes
that are not there: `searches_iff`. An assignment hands over the right node.
What it then works on is the value that the subquery owes it if the value reads
the same in the type of the table's first field, which is the one that is
taken: `fed_assigned`.
-/

namespace Infinisql.Larx

open Infinisql.Ref (Bytes FieldInput FieldValue Field Fieldtype UuRecord
  operandType operandInteger operandFloat operandNull operandString
  operandParameter operandBoolean integerOperand integerOf resize)
open Infinisql.Asts (Operatortype operandSubquery operandIdentifier)
open Infinisql.Proofs (length_toBytes setWidth_ofBytes_toBytes)

variable {schema : Schema} {queries : List Query} {found : ℕ → SelectResults}
  {results : Results} {t : Tree} {u : Use} {i : ℕ}

/-! ## The order of the queries -/

theorem results_succ {n a : ℕ} (h : a < n) :
    (fun j => if a < j ∧ j < n then some (found j) else
      Function.update results n (some (found n)) j) =
    fun j => if a < j ∧ j < n + 1 then some (found j) else results j := by
  funext j
  by_cases hj : j = n
  · rw [if_neg (by omega), if_pos (by omega), hj, Function.update_self]
  · rw [Function.update_of_ne hj]
    exact if_congr (by omega) rfl rfl

/-- A query is begun when those with higher numbers have been run. -/
theorem mem_startQuery : ∀ {n : ℕ} {results : Results} {b : ℕ × Results},
    b ∈ startQuery found n results ↔ b.1 < n ∧
      b.2 = fun j => if b.1 < j ∧ j < n then some (found j) else results j
  | 0, results, b => by
      simp only [startQuery, List.not_mem_nil, Nat.not_lt_zero, false_and]
  | n + 1, results, b => by
      rw [startQuery, List.mem_cons, mem_startQuery]
      constructor
      · rintro (rfl | ⟨hlt, heq⟩)
        · refine ⟨Nat.lt_succ_self n, funext fun j => (if_neg ?_).symm⟩
          show ¬ (n < j ∧ j < n + 1)
          omega
        · exact ⟨Nat.lt_succ_of_lt hlt, heq.trans (results_succ hlt)⟩
      · rintro ⟨hlt, heq⟩
        rcases Nat.lt_succ_iff_lt_or_eq.mp hlt with hlt | hn
        · exact .inr ⟨hlt, heq.trans (results_succ hlt).symm⟩
        · refine .inl (Prod.ext hn (heq.trans (funext fun j => if_neg ?_)))
          omega

/-! ## The number in an operand -/

theorem length_marker (i : ℕ) : (marker i).length = 9 := by
  rw [marker, List.length_cons, int64Bytes, length_toBytes]

theorem integerOf_marker (i : ℕ) :
    integerOf (marker i) = BitVec.ofNat 64 i := by
  show (FieldInput.ofBytes ((int64Bytes (BitVec.ofNat 64 i)).take 8)).setWidth
    64 = _
  rw [List.take_of_length_le (by rw [int64Bytes, length_toBytes]), int64Bytes,
    setWidth_ofBytes_toBytes _ (by omega), BitVec.setWidth_setWidth_of_le _
      (by omega), BitVec.setWidth_eq]

theorem queryinstance_marker (h : i < 2 ^ 64) :
    queryinstance (marker i) = some i := by
  rw [queryinstance, length_marker, if_neg (by omega), integerOf_marker,
    BitVec.toNat_ofNat, Nat.mod_eq_of_lt h]

theorem marker_injective {j : ℕ} (hi : i < 2 ^ 64) (hj : j < 2 ^ 64)
    (h : marker i = marker j) : i = j := by
  have hq := queryinstance_marker hi
  rw [h, queryinstance_marker hj] at hq
  exact (Option.some.inj hq).symm

/-! ## What a search sees -/

theorem operandType_uses : ∀ {t : Tree} {user : Option Operatortype},
    u ∈ t.uses user → operandType u.operand = operandSubquery
  | .null, _, h => by cases h
  | .operand v, _, h => by
      unfold Tree.uses at h
      split at h
      · next hv => exact List.mem_singleton.mp h ▸ hv
      · cases h
  | .operator _ _ _, _, h => by
      rcases List.mem_append.mp h with h | h
      · exact operandType_uses h
      · exact operandType_uses h

/-- The first byte of a value's operand. -/
def valueTag : Fieldtype → UInt8
  | .int | .uint => operandInteger
  | .bool => operandBoolean
  | .float => operandFloat
  | .char | .charx | .varchar => operandString
  | .nofieldtype => operandNull

theorem operandType_value {type : Fieldtype} {v : FieldValue}
    (hn : v.isnull = false) :
    operandType (valueOperand type v) = valueTag type := by
  unfold valueOperand
  rw [hn]
  cases type <;> rfl

theorem valueOperand_null {type : Fieldtype} {v : FieldValue}
    (hn : v.isnull = true) : valueOperand type v = [operandNull] := by
  unfold valueOperand
  rw [hn]
  rfl

theorem value_ne_subquery (type : Fieldtype) (v : FieldValue) :
    operandType (valueOperand type v) ≠ operandSubquery := by
  cases hn : v.isnull with
  | true =>
      rw [valueOperand_null hn]
      decide
  | false =>
      rw [operandType_value hn]
      cases type <;> decide

/-- The operator's own operand is empty. -/
theorem resolveChild_subquery {v : Bytes}
    (hv : operandType v = operandSubquery) :
    resolveChild schema queries results [] [] v = some ([], v) := by
  rw [resolveChild, if_neg (by rw [hv]; decide), if_pos hv]
  rfl

theorem not_scalar {types : Option (List Fieldtype)} {rows : SelectResults}
    {v : Bytes} (hv : operandType v = operandSubquery) :
    ¬ Scalar types rows v := by
  rintro (⟨_, rfl⟩ | ⟨_, w, type, _, _, rfl⟩)
  · exact absurd hv (by decide)
  · exact value_ne_subquery type w hv

theorem owed_scalar {user : Option Operatortype} {q : Query}
    {rows : SelectResults} {v : Bytes} (he : user ≠ some .exists)
    (hu : user ≠ some .unique) : Owed schema q rows v user =
      Scalar (selectedTypes schema q.table q.fromColumns) rows v := by
  unfold Owed
  split
  · exact absurd rfl he
  · exact absurd rfl hu
  · rfl

/-- No subquery of a search feeds its operator. -/
theorem not_fed (hu : operandType u.operand = operandSubquery) :
    ¬ Fed schema queries found results u
      (operandSeen schema queries results u) := by
  rintro ⟨i, q, operand, _, _, _, hseen, howed⟩
  obtain ⟨user, v⟩ := u
  have hresolve : resolveChild schema queries results [] [] v =
      some ([], v) := resolveChild_subquery hu
  unfold operandSeen at hseen
  dsimp only at hu hseen howed hresolve
  rw [hresolve] at hseen
  split at hseen
  · exact not_scalar hu (Option.some.inj hseen ▸ howed)
  · cases hseen
  · cases hseen
  · next hexists hunique _ =>
      rw [owed_scalar (fun h => hexists (Option.some.inj h))
        (fun h => hunique (Option.some.inj h))] at howed
      exact not_scalar hu (Option.some.inj hseen ▸ howed)

theorem searches_iff :
    Searches schema queries found results t ↔ t.uses none = [] := by
  constructor
  · intro h
    rw [List.eq_nil_iff_forall_not_mem]
    exact fun u hu => not_fed (operandType_uses hu) (h u hu)
  · intro h u hu
    rw [h] at hu
    cases hu

/-! ## UNIQUE -/

/-- The second iterator stays on the first row, and the first moves in its
stead: every round goes on with `continue`, until there is no row left to
read. -/
theorem uniqueInner_same {types : List Fieldtype}
    {row : UuRecord × List FieldValue} : ∀ rows : SelectResults,
    uniqueInner types row row rows = none
  | [] => rfl
  | _ :: rest => by
      rw [uniqueInner, if_pos rfl]
      exact uniqueInner_same rest

theorem operandType_truth {operand : Bytes} {torf : Bool}
    (h : operandType operand ≠ operandBoolean) :
    operandType (truthOperand operand torf) ≠ operandBoolean := by
  cases operand with
  | nil => cases torf <;> decide
  | cons b rest => exact h

/-- The operand is no truth value afterwards if it was none before. -/
theorem unique_never {operand : Bytes}
    (h : operandType operand ≠ operandBoolean) :
    ¬ AnswersUnique schema queries results operand := by
  rintro ⟨i, q, after, b, hi, hq, hafter, ⟨htruth, _⟩, _⟩
  unfold subqueryUnique at hafter
  rw [hi] at hafter
  dsimp only at hafter
  rw [hq] at hafter
  dsimp only at hafter
  split at hafter
  · cases hafter
  · split at hafter
    · cases hafter
    · split at hafter
      · exact operandType_truth h (Option.some.inj hafter ▸ htruth)
      · rw [uniqueInner_same] at hafter
        cases hafter

/-- `UNIQUE (SELECT ..)`, the query without rows. -/
theorem unique_never_marker :
    ¬ AnswersUnique (fun _ => some []) [{}] (fun _ => some []) (marker 0) :=
  unique_never (by decide)

/-- The same query with one row, which agrees with no other: there is no
answer. -/
theorem unique_row_lost :
    ¬ AnswersUnique (fun _ => some []) [{}]
      (fun _ => some [(⟨1, 1, 1⟩, [])]) (marker 0) := by
  rintro ⟨_, _, after, _, _, _, hafter, _⟩
  have hnone : subqueryUnique (fun _ => some []) [{}]
      (fun _ => some [(⟨1, 1, 1⟩, [])]) (marker 0) = none := by decide
  rw [hnone] at hafter
  cases hafter

/-! ## What an assignment works on -/

theorem scalar_nil (types : Option (List Fieldtype)) :
    Scalar types [] [operandNull] := .inl ⟨rfl, rfl⟩

/-- The first byte that a value is given, over a number. -/
def scalarTag : Fieldtype → UInt8
  | .bool | .nofieldtype => operandSubquery
  | type => valueTag type

theorem operandType_scalar {type : Fieldtype} {v : FieldValue} :
    operandType (scalarOperand (marker i) type v) = scalarTag type := by
  cases type <;> rfl

theorem byte_eq_zero {v : FieldInput} {k : ℕ} :
    UInt8.ofNat (v.extractLsb' (8 * k) 8).toNat = 0 ↔
      v.toNat / 2 ^ (8 * k) % 256 = 0 := by
  rw [BitVec.extractLsb'_toNat, Nat.shiftRight_eq_div_pow,
    ← UInt8.toNat_inj, UInt8.toNat_ofNat', Nat.mod_mod]
  rfl

/-- The upper half of a number below 2^64. -/
theorem high_bytes {v : FieldInput} :
    (∀ k < 8, v.toNat / 2 ^ (8 * (8 + k)) % 256 = 0) ↔
      v.toNat < 2 ^ 64 := by
  constructor
  · intro h
    have h₀ := h 0 (by omega)
    have h₁ := h 1 (by omega)
    have h₂ := h 2 (by omega)
    have h₃ := h 3 (by omega)
    have h₄ := h 4 (by omega)
    have h₅ := h 5 (by omega)
    have h₆ := h 6 (by omega)
    have h₇ := h 7 (by omega)
    have hlt := v.isLt
    omega
  · intro h k _
    rw [Nat.div_eq_of_lt (h.trans_le (Nat.pow_le_pow_right (by omega)
      (by omega)))]

theorem toBytes_16_eq_iff {v : FieldInput} :
    v.toBytes 8 ++ List.replicate 8 0 = v.toBytes 16 ↔ v.toNat < 2 ^ 64 := by
  have hsplit : v.toBytes 16 = v.toBytes 8 ++ (List.range 8).map fun k =>
      UInt8.ofNat (v.extractLsb' (8 * (8 + k)) 8).toNat := by
    show (List.range (8 + 8)).map _ = _
    rw [List.range_add, List.map_append, List.map_map]
    rfl
  rw [hsplit, List.append_cancel_left_eq, eq_comm, List.eq_replicate_iff,
    ← high_bytes]
  simp only [List.length_map, List.length_range, List.mem_map, List.mem_range,
    true_and, forall_exists_index, and_imp, forall_apply_eq_imp_iff₂,
    byte_eq_zero]

theorem scalarOperand_float {v : FieldValue} :
    scalarOperand (marker i) .float v =
      operandFloat :: (v.value.toBytes 8 ++ List.replicate 8 0) := by
  have hdrop : (resize (marker i) 17 0).drop 9 = List.replicate 8 0 := by
    rw [resize, List.take_of_length_le (by rw [length_marker]; omega),
      ← length_marker i, List.drop_left, length_marker]
  rw [scalarOperand, hdrop]
  rfl

/-- Operands of different kinds. -/
theorem unlike {first own : Fieldtype} {v : FieldValue} (hn : v.isnull = false)
    (ht : scalarTag first ≠ valueTag own) (hr : ¬ ReadsAlike first own v) :
    scalarOperand (marker i) first v = valueOperand own v ↔
      ReadsAlike first own v := by
  refine iff_of_false (fun h => ht ?_) hr
  rw [← operandType_scalar, h, operandType_value hn]

theorem scalarOperand_eq_iff_of_some {first own : Fieldtype} {v : FieldValue}
    (hn : v.isnull = false) :
    scalarOperand (marker i) first v = valueOperand own v ↔
      ReadsAlike first own v := by
  obtain ⟨value, str, isnull⟩ := v
  have hnull : isnull = false := hn
  subst hnull
  cases first with
  | int | uint =>
      cases own with
      | int | uint => exact iff_of_true rfl trivial
      | _ => exact unlike hn (by decide) id
  | bool | nofieldtype =>
      cases own <;> exact unlike hn (by decide) id
  | float =>
      cases own with
      | float =>
          rw [scalarOperand_float]
          exact (List.cons_inj_right _).trans toBytes_16_eq_iff
      | _ => exact unlike hn (by decide) id
  | char =>
      cases own with
      | char => exact iff_of_true rfl trivial
      | charx | varchar => exact (List.cons_inj_right _).trans eq_comm
      | _ => exact unlike hn (by decide) id
  | charx | varchar =>
      cases own with
      | char => exact List.cons_inj_right _
      | charx | varchar => exact iff_of_true rfl trivial
      | _ => exact unlike hn (by decide) id

/-- The two operands of a value, from its own type and from that of the
table's first field. -/
theorem scalarOperand_eq_iff {first own : Fieldtype} {v : FieldValue} :
    scalarOperand (marker i) first v = valueOperand own v ↔
      v.isnull = false ∧ ReadsAlike first own v := by
  cases hn : v.isnull with
  | false =>
      rw [scalarOperand_eq_iff_of_some hn]
      exact (and_iff_right rfl).symm
  | true =>
      refine iff_of_false (fun h => ?_) fun h => by cases h.1
      rw [valueOperand_null hn] at h
      have htag : scalarTag first = operandNull := by
        rw [← operandType_scalar, h]
        rfl
      cases first <;> exact absurd htag (by decide)

/-! ### `subqueryScalar` -/

section

variable {q : Query} {s : Select} {f : Bytes × Field}
  {rest : List (Bytes × Field)} {uur : UuRecord} {v : FieldValue}

theorem subqueryScalar_none (hi : i < 2 ^ 64) (hq : queries[i]? = some q)
    (hr : selectResults results i = []) :
    subqueryScalar schema queries results (marker i) = some [operandNull] := by
  unfold subqueryScalar
  rw [if_neg (not_not.mpr (operandType_marker i)), queryinstance_marker hi]
  dsimp only
  rw [hq, hr]

theorem subqueryScalar_one (hi : i < 2 ^ 64) (hq : queries[i]? = some q)
    (hr : selectResults results i = [(uur, [v])])
    (hs : schema q.table = some (f :: rest)) :
    subqueryScalar schema queries results (marker i) =
      some (scalarOperand (marker i) f.2.type v) := by
  unfold subqueryScalar
  rw [if_neg (not_not.mpr (operandType_marker i)), queryinstance_marker hi]
  dsimp only
  rw [hq, hr]
  dsimp only
  rw [hs]

theorem subqueryScalar_else (hi : i < 2 ^ 64) (hq : queries[i]? = some q)
    (h₀ : selectResults results i ≠ [])
    (h₁ : ∀ uur v, selectResults results i ≠ [(uur, [v])]) :
    subqueryScalar schema queries results (marker i) = some (marker i) := by
  unfold subqueryScalar
  rw [if_neg (not_not.mpr (operandType_marker i)), queryinstance_marker hi]
  dsimp only
  rw [hq]
  dsimp only
  split
  · next h => exact absurd h h₀
  · next uur v h => exact absurd h (h₁ uur v)
  · rfl

/-- What is there to be read, and what is owed. -/
theorem scalar_iff_readable (hi : i < 2 ^ 64) (hq : queries[i]? = some q)
    (htable : q.table = s.table) (hr : results i = some (found i))
    (hs : schema s.table = some (f :: rest)) :
    (∃ operand, subqueryScalar schema queries results (marker i) =
        some operand ∧ Scalar (selectedTypes schema s.table s.columns.vals)
          (found i) operand) ↔
      Readable schema s (found i) := by
  have hrows : selectResults results i = found i := by
    rw [selectResults, hr]
    rfl
  by_cases h₀ : found i = []
  · refine iff_of_true ⟨_, subqueryScalar_none hi hq (hrows.trans h₀), ?_⟩
      (.inl h₀)
    rw [h₀]
    exact .inl ⟨rfl, rfl⟩
  · by_cases h₁ : ∃ uur v, found i = [(uur, [v])]
    · obtain ⟨uur, v, h₁⟩ := h₁
      rw [subqueryScalar_one hi hq (hrows.trans h₁) (htable ▸ hs), h₁]
      constructor
      · rintro ⟨_, heq, ⟨h, _⟩ | ⟨uur', v', own, hv', htypes, hval⟩⟩
        · cases h
        · cases hv'
          injection heq with heq
          obtain ⟨hn, halike⟩ := scalarOperand_eq_iff.mp (heq.trans hval)
          exact .inr ⟨uur, v, f, rest, own, rfl, hs, htypes, hn, halike⟩
      · rintro (h | ⟨uur', v', f', rest', own, hv', hs', htypes, hn, halike⟩)
        · cases h
        · cases hv'
          cases hs.symm.trans hs'
          exact ⟨_, rfl, .inr ⟨uur, v, own, rfl, htypes,
            scalarOperand_eq_iff.mpr ⟨hn, halike⟩⟩⟩
    · rw [not_exists] at h₁
      have h₂ : ∀ uur v, found i ≠ [(uur, [v])] :=
        fun uur v h => h₁ uur ⟨v, h⟩
      rw [subqueryScalar_else hi hq (hrows ▸ h₀) (hrows ▸ h₂)]
      refine iff_of_false ?_ ?_
      · rintro ⟨_, heq, hscalar⟩
        cases heq
        exact not_scalar (operandType_marker i) hscalar
      · rintro (h | ⟨uur, v, _, _, _, h, _⟩)
        · exact h₀ h
        · exact h₂ uur v h

/-- A subquery below an operator of an assignment is fed if its results can be
read. -/
theorem fed_assigned_iff (hlen : queries.length ≤ 2 ^ 64)
    (hq : queries[i]? = some q) (htable : q.table = s.table)
    (hcolumns : q.fromColumns = s.columns.vals)
    (hr : results i = some (found i)) (hs : schema s.table = some (f :: rest))
    (hop : u.operand = marker i) (he : u.user ≠ some .exists)
    (hu : u.user ≠ some .unique) :
    Fed schema queries found results u
        (operandAssigned schema queries results u) ↔
      Readable schema s (found i) := by
  have hlt : ∀ {j : ℕ} {p : Query}, queries[j]? = some p → j < 2 ^ 64 :=
    fun h => (List.getElem?_eq_some_iff.mp h).1.trans_le hlen
  rw [← scalar_iff_readable (hlt hq) hq htable hr hs, operandAssigned, hop]
  constructor
  · rintro ⟨j, p, operand, hopj, hp, _, hseen, howed⟩
    obtain rfl := marker_injective (hlt hq) (hlt hp) (hop.symm.trans hopj)
    cases hq.symm.trans hp
    rw [owed_scalar he hu, htable, hcolumns] at howed
    exact ⟨operand, hseen, howed⟩
  · rintro ⟨operand, hseen, hscalar⟩
    refine ⟨i, q, operand, hop, hq, hr, hseen, ?_⟩
    rw [owed_scalar he hu, htable, hcolumns]
    exact hscalar

end

end Infinisql.Larx
