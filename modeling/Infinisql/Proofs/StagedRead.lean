import Infinisql.Spec.SearchPredicate
import Infinisql.Proofs.RowRoundTrip
import Infinisql.Proofs.UpdateRows

/-!
# What a transaction finds among its own rows

`stagedPredicate` should find the staged rows of the table that are not deleted
and satisfy the predicate, and where it finds enough for the engines not to be
asked no other row should satisfy it.

It compares bare members. A null leaves what the row before had in the slot,
so a null is compared by that, and a deleted row is compared by what an empty
string decodes to. For a comparison the code is right, in whatever order the
map has the rows, exactly if neither is ever let through, if the bare
comparison says of every other row what the predicate does, and if no row
beside the staged ones satisfies an equality that a staged row answered. Where
there is no case for the operator it finds nothing, and the operators of one
operand have no result once a row of the table is staged.
-/

namespace Infinisql.Proofs

open Infinisql.Ref Infinisql.Spec Infinisql.Lib

/-! ## The statement -/

variable {matching : Bytes → Bytes → Bool} {fields : List Field} {n : Nat}
  {f : Field} {p : SearchPredicate} {m : Predicate Key} {right : Bytes}
  {tableid : Int} {inValues : List FieldValue}
  {committed : List (UuRecord × Bytes)}
  {stagedRows : List (UuRecord × StagedRow)}

/-- A predicate on field `n`, its meaning and its right operand. -/
structure PredicateOn (matching : Bytes → Bytes → Bool) (fields : List Field)
    (n : Nat) (f : Field) (p : SearchPredicate) (m : Predicate Key)
    (right : Bytes) : Prop where
  id : n < 2 ^ 64
  field : fields[n]? = some f
  meaning : p.meaning matching f = some m
  right : p.rightoperand n = some right

/-- The row as the transaction sees it. -/
def currentRow (stagedRow : StagedRow) : Bytes :=
  (stagedRow2ReturnRow stagedRow).row

/-- A staged row of the table that is not to be deleted. -/
def Live (tableid : Int) (x : UuRecord × StagedRow) : Prop :=
  x.1.tableid = tableid ∧ x.2.cmd ≠ .delete

/-- The string is the row of some values. -/
def RowOf (fields : List Field) (row : Bytes) : Prop :=
  ∃ vs, makerow fields vs = some row ∧ List.Forall₂ Fits fields vs

/-- The staged rows are a map, and the strings of the table's are rows. -/
structure Staged (fields : List Field) (tableid : Int)
    (stagedRows : List (UuRecord × StagedRow)) : Prop where
  nodup : (stagedRows.map Prod.fst).Nodup
  rows : ∀ x ∈ stagedRows, Live tableid x → RowOf fields (currentRow x.2)

/-- The search finds the transaction's own rows, and if the engines are not
asked it finds them all. -/
def FindsOwn (fields : List Field) (n : Nat) (f : Field) (p : SearchPredicate)
    (m : Predicate Key) (right : Bytes) (tableid : Int)
    (inValues : List FieldValue) (committed : List (UuRecord × Bytes))
    (stagedRows : List (UuRecord × StagedRow)) : Prop :=
  ∃ equalhit results,
    Statement.stagedPredicate fields p.operatortype tableid (p.leftoperand n)
      right inValues stagedRows (fun _ => none) = some (equalhit, results) ∧
    (∀ uur r, results uur = some r ↔
      ∃ x ∈ stagedRows, x.1 = uur ∧ Live tableid x ∧
        Satisfies fields n f m (currentRow x.2) ∧
        r = stagedRow2ReturnRow x.2) ∧
    (Ast.asksEngines p.operatortype equalhit = false →
      ∀ c ∈ committed, c.1 ∉ stagedRows.map Prod.fst →
        ¬ Satisfies fields n f m c.2)

/-! ## When it does -/

/-- The character that a string is compared by. -/
def firstCharacter (s : Bytes) : Key :=
  .character (FieldInput.ofBytes (s.take 1)).character

/-- What the code makes of a literal. -/
def bareKey (f : Field) : Value → Key
  | .null => if f.type = .char then .character 0 else .str []
  | .integer v => .integer v.toInt
  | .float v => .floating v.floating
  | .boolean v => .boolean v
  | .string v => if f.type = .char then firstCharacter v else .str v

/-- What the code makes of a range. Of two strings it takes the first two
characters there are. -/
def bareRange (f : Field) : Value → Value → Key × Key
  | .string v, .string w =>
      (firstCharacter (v ++ w), firstCharacter ((v ++ w).drop 1))
  | v, w => (bareKey f v, bareKey f w)

def within (range : Key × Key) (k : Key) : Bool :=
  !k.lt range.1 && !range.2.lt k

/-- The bare comparison. -/
def Compares (f : Field) : SearchPredicate → Key → Bool
  | .compare c v, k => c.holds Key.lt k (bareKey f v)
  | .between v w, k => within (bareRange f v w) k
  | .notbetween v w, k => !within (bareRange f v w) k
  | _, _ => false

/-- The operand has what the code reads of it: no integer for a float, no null
for a number, nothing for a `BOOL`. -/
def Readable (f : Field) : SearchPredicate → Bool
  | .compare _ v =>
      match f.type, v with
      | .int, .integer _ | .float, .float _ => true
      | .char, _ | .charx, _ | .varchar, _ => true
      | _, _ => false
  | .between v w | .notbetween v w =>
      match f.type, v, w with
      | .int, .integer _, .integer _ | .float, .float _, .float _ => true
      | .char, .string v, .string w => v ++ w ≠ []
      | _, _, _ => false
  | _ => false

/-- For the value of a row the bare comparison is the right one. It is for
numbers, and for one character. -/
def AgreesOn (f : Field) (p : SearchPredicate) (k : Key) : Prop :=
  match p, k with
  | .compare _ .null, k => Compares f p k = false
  | .compare _ (.string v), .str s =>
      s = v ↔ trimspace s = trimspace v
  | .between (.string v) (.string w), k
  | .notbetween (.string v) (.string w), k =>
      within (bareRange f (.string v) (.string w)) k =
        within (firstCharacter v, firstCharacter w) k
  | _, _ => True

/-- The value of the field in a row. -/
def ownKey (fields : List Field) (n : Nat) (f : Field) (row : Bytes) :
    Option Key :=
  (valueOf fields row n).key f.type

/-- The condition for a comparison that there is a case for. -/
structure ComparesOwn (fields : List Field) (n : Nat) (f : Field)
    (p : SearchPredicate) (m : Predicate Key) (tableid : Int)
    (committed : List (UuRecord × Bytes))
    (stagedRows : List (UuRecord × StagedRow)) : Prop where
  readable : Readable f p
  /-- No deleted row is let through. -/
  deleted : ∀ x ∈ stagedRows, x.1.tableid = tableid → x.2.cmd = .delete →
    ∀ k, ownKey fields n f [] = some k → Compares f p k = false
  /-- No null is let through, by nothing or by the value of another row. -/
  null : ∀ x ∈ stagedRows, Live tableid x →
    (valueOf fields (currentRow x.2) n).isnull = true →
    (∀ k, ({} : FieldValue).key f.type = some k → Compares f p k = false) ∧
    ∀ y ∈ stagedRows, Live tableid y →
      (valueOf fields (currentRow y.2) n).isnull = false →
      ∀ k, ownKey fields n f (currentRow y.2) = some k → Compares f p k = false
  /-- The other rows are compared as they should be. -/
  agrees : ∀ x ∈ stagedRows, Live tableid x →
    (valueOf fields (currentRow x.2) n).isnull = false →
    ∀ k, ownKey fields n f (currentRow x.2) = some k → AgreesOn f p k
  /-- An equality on an `INT` that a staged row satisfies, no other row does. -/
  hides : f.type = .int → p.operatortype = .eq →
    ∀ x ∈ stagedRows, Live tableid x →
      Satisfies fields n f m (currentRow x.2) →
      ∀ c ∈ committed, c.1 ∉ stagedRows.map Prod.fst →
        ¬ Satisfies fields n f m c.2

/-- The condition. -/
def FindsOwnWhen (fields : List Field) (n : Nat) (f : Field)
    (p : SearchPredicate) (m : Predicate Key) (tableid : Int)
    (committed : List (UuRecord × Bytes))
    (stagedRows : List (UuRecord × StagedRow)) : Prop :=
  if ∀ x ∈ stagedRows, x.1.tableid ≠ tableid then True
  else if Statement.unary p.operatortype then False
  else if Statement.hasCase f.type p.operatortype then
    ComparesOwn fields n f p m tableid committed stagedRows
  else
    ∀ x ∈ stagedRows, Live tableid x →
      ¬ Satisfies fields n f m (currentRow x.2)

/-! ## Decoding over the row before -/

theorem isnull_unmakefield (f : Field) (row : Bytes) (pos : Nat) :
    (unmakefield f row pos).1.isnull = false := by
  rw [unmakefield]
  cases f.type <;> rfl

/-- A slot after a row: what was read, over what was there. -/
theorem getD_unmakefieldsInto (row : Bytes) {f : Field} :
    ∀ {fields : List Field} {olds : List FieldValue} {pos n : Nat},
      olds.length = fields.length → fields[n]? = some f →
      (unmakefieldsInto row fields olds pos).getD n {} =
        match (reads row fields pos).getD n none with
        | none => olds.getD n {}
        | some v =>
            if v.isnull then { olds.getD n {} with isnull := true }
            else (olds.getD n {}).overwrite f v := by
  intro fields
  induction fields with
  | nil => exact fun _ hf => absurd hf (by simp)
  | cons g fields ih =>
      intro olds pos n hlen hf
      cases olds with
      | nil => exact absurd hlen (by simp)
      | cons old olds =>
          have hlen : olds.length = fields.length := Nat.succ.inj hlen
          rw [unmakefieldsInto, reads]
          split
          · simp only [List.getD_eq_getElem?_getD, List.getElem?_map, hf]
            rfl
          · split
            · cases n with
              | zero =>
                  obtain rfl := Option.some.inj hf
                  simp only [List.getD_cons_zero]
                  rw [isnull_unmakefield, if_neg (by simp)]
              | succ n =>
                  simp only [List.getD_cons_succ]
                  exact ih hlen hf
            · cases n with
              | zero => rfl
              | succ n =>
                  simp only [List.getD_cons_succ]
                  exact ih hlen hf

theorem length_unmakefieldsInto (row : Bytes) :
    ∀ {fields : List Field} {olds : List FieldValue} {pos : Nat},
      (unmakefieldsInto row fields olds pos).length = olds.length := by
  intro fields
  induction fields with
  | nil => exact fun {olds _} => by cases olds <;> rfl
  | cons f fields ih =>
      intro olds pos
      cases olds with
      | nil => rfl
      | cons old olds =>
          rw [unmakefieldsInto]
          split
          · rfl
          · split
            · exact congrArg Nat.succ ih
            · exact congrArg Nat.succ ih

theorem key_overwrite (f : Field) (old v : FieldValue) :
    (old.overwrite f v).key f.type = v.key f.type := by
  rw [FieldValue.overwrite, FieldValue.key.eq_def, FieldValue.key.eq_def]
  cases f.type <;> rfl

/-- The key that a row is compared by, with `old` in the slot before. -/
def seenKey (fields : List Field) (n : Nat) (f : Field) (old : Key)
    (row : Bytes) : Key :=
  if (valueOf fields row n).isnull then old
  else (ownKey fields n f row).getD old

/-- The slot of field `n` holds a value with this key; of a column of no size
there is one only. -/
structure Slot (fields : List Field) (n : Nat) (f : Field)
    (fieldValues : List FieldValue) (old : Key) : Prop where
  length : fieldValues.length = fields.length
  key : (fieldValues.getD n {}).key f.type = some old
  empty : f.type = .charx → f.length = 0 → old = .str []

/-- An empty string is read to the last field. -/
theorem reads_nil {f : Field} :
    ∀ {fields : List Field} {pos n : Nat}, fields[n]? = some f →
      ∃ pos', (reads [] fields pos).getD n none =
        some (unmakefield f [] pos').1 := by
  intro fields
  induction fields with
  | nil => exact fun hf => absurd hf (by simp)
  | cons g fields ih =>
      intro pos n hf
      rw [reads, if_neg (by simp), if_pos (by simp)]
      cases n with
      | zero =>
          obtain rfl := Option.some.inj hf
          exact ⟨_, rfl⟩
      | succ n =>
          simp only [List.getD_cons_succ]
          exact ih hf

theorem str_unmakefield_empty {f : Field} (hf : f.type = .charx)
    (hlen : f.length = 0) (row : Bytes) (pos : Nat) :
    (unmakefield f row pos).1.key f.type = some (.str []) := by
  rw [unmakefield, hf]
  simp [FieldValue.key, readBytes, hlen, zeros]

theorem str_stored_empty {f : Field} (hf : f.type = .charx)
    (hlen : f.length = 0) (v : FieldValue) :
    (stored f v).key f.type = some (.str []) := by
  rw [stored, hf]
  split
  · rfl
  · simp [FieldValue.key, fieldbytes, hf, hlen]

/-- What is read of field `n` of a row of values: only a column of no size is
not got to. -/
theorem reads_rowOf {row : Bytes} (hrow : RowOf fields row)
    (hf : fields[n]? = some f) (htype : f.type ≠ .nofieldtype) :
    (∃ v, (reads row fields 0).getD n none = some (stored f v)) ∨
      (reads row fields 0).getD n none = none ∧ f.type = .charx ∧
        f.length = 0 := by
  obtain ⟨vs, hmake, hfits⟩ := hrow
  obtain ⟨hlen, _, hroom⟩ := makerow_eq_some hmake
  have hn : n < vs.length := by
    rw [← hlen]
    exact (List.getElem?_eq_some_iff.mp hf).1
  have hv : vs[n]? = some vs[n] := List.getElem?_eq_getElem hn
  have hread := reads_makerow hmake hfits hf hv
  by_cases hshort : row.length ≤ fieldOffset fields vs n + 1
  · right
    rw [if_pos hshort] at hread
    have hoffset := fieldOffset_add_fieldsize hf hv
    have hsize : fieldsize f vs[n] ≤ 1 := by omega
    rw [fieldsize] at hsize
    refine ⟨hread, ?_⟩
    cases hft : f.type with
    | charx =>
        rw [hft] at hsize
        exact ⟨rfl, by dsimp only at hsize; omega⟩
    | nofieldtype => exact absurd hft htype
    | _ =>
        rw [hft] at hsize
        dsimp only at hsize
        omega
  · left
    rw [if_neg hshort] at hread
    exact ⟨_, hread⟩

/-- The step of the loop that decodes a row. -/
theorem slot_unmakerowInto {row : Bytes} {fieldValues : List FieldValue}
    {old : Key} (hrow : row = [] ∨ RowOf fields row)
    (hf : fields[n]? = some f) (htype : f.type ≠ .nofieldtype)
    (h : Slot fields n f fieldValues old) :
    Slot fields n f (unmakerowInto fields row fieldValues)
      (seenKey fields n f old row) := by
  have hslot := @getD_unmakefieldsInto row f fields fieldValues 0 n h.length hf
  have hvalue := valueOf_eq_reads fields row n
  obtain ⟨kd, hkd⟩ := key_isSome (valueOf fields row n) htype
  have hseen : seenKey fields n f old row =
      if (valueOf fields row n).isnull then old else kd := by
    rw [seenKey, ownKey, hkd]
    rfl
  have hread : (∃ v : FieldValue, (reads row fields 0).getD n none = some v ∧
      (f.type = .charx → f.length = 0 → v.key f.type = some (.str []))) ∨
      (reads row fields 0).getD n none = none ∧ f.type = .charx ∧
        f.length = 0 := by
    rcases hrow with rfl | hrow
    · obtain ⟨pos, hpos⟩ := @reads_nil f fields 0 n hf
      exact .inl ⟨_, hpos, fun h1 h2 => str_unmakefield_empty h1 h2 [] pos⟩
    · rcases reads_rowOf hrow hf htype with ⟨v, hv⟩ | hnone
      · exact .inl ⟨_, hv, fun h1 h2 => str_stored_empty h1 h2 v⟩
      · exact .inr hnone
  rw [hseen]
  rcases hread with ⟨v, hv, hempty⟩ | ⟨hnone, hcharx, hlen⟩
  · rw [hv] at hslot hvalue
    rw [Option.getD_some] at hvalue
    dsimp only at hslot
    rw [hvalue] at hkd ⊢
    refine ⟨(length_unmakefieldsInto row).trans h.length, ?_, ?_⟩
    · rw [unmakerowInto, hslot]
      split
      · exact h.key
      · rw [key_overwrite, hkd]
    · intro h1 h2
      split
      · exact h.empty h1 h2
      · exact Option.some.inj (hkd.symm.trans (hempty h1 h2))
  · -- A column of no size: the slot stays, and it is empty.
    rw [hnone] at hslot hvalue
    rw [Option.getD_none] at hvalue
    have hold := h.empty hcharx hlen
    have hkd : kd = .str [] := by
      rw [hvalue, hcharx] at hkd
      exact (Option.some.inj hkd).symm
    rw [hvalue, if_neg (by simp), hkd]
    refine ⟨(length_unmakefieldsInto row).trans h.length, ?_, fun _ _ => rfl⟩
    rw [unmakerowInto, hslot, ← hold]
    exact h.key

/-- The vector as the search starts. -/
theorem slot_start (htype : f.type ≠ .nofieldtype) :
    ∃ k, ({} : FieldValue).key f.type = some k ∧
      Slot fields n f (List.replicate fields.length {}) k := by
  obtain ⟨k, hk⟩ := key_isSome {} htype
  refine ⟨k, hk, List.length_replicate, ?_, ?_⟩
  · rw [List.getD_eq_getElem?_getD, List.getElem?_replicate]
    split <;> exact hk
  · intro h1 _
    rw [h1] at hk
    exact (Option.some.inj hk).symm

/-! ## What is read of the operand -/

theorem ofBytes_toBytes_16 (v : FieldInput) :
    FieldInput.ofBytes (v.toBytes 16) = v := by
  have h := @setWidth_ofBytes_toBytes v 16 128 (by omega)
  rw [BitVec.setWidth_eq, BitVec.setWidth_eq] at h
  exact h

theorem length_integerOperand (v : BitVec 64) :
    (integerOperand v).length = 9 := by
  rw [integerOperand, List.length_cons, length_toBytes]

/-- The values that a range or a comparison of a type is read as, from where
they are. -/
theorem operandKey_int {operand : Bytes} {pos : Nat} {v : BitVec 64}
    {pre rest : Bytes} (hpos : pre.length = pos)
    (h : operand = pre ++
      (FieldInput.toBytes (v.setWidth 128) 8 ++ rest)) :
    Statement.operandKey .int operand pos = some (.integer v.toInt) := by
  have hread : readBytes operand pos 8 =
      FieldInput.toBytes (v.setWidth 128) 8 := by
    have hread := readBytes_append pre
      (FieldInput.toBytes (v.setWidth 128) 8) rest
    rw [length_toBytes, hpos] at hread
    rw [h]
    exact hread
  have hlen : pos + 8 ≤ operand.length := by
    rw [h, List.length_append, List.length_append, length_toBytes]
    omega
  rw [Statement.operandKey]
  dsimp only
  rw [if_pos hlen, hread, Option.map_some, FieldInput.integer,
    setWidth_ofBytes_toBytes _ (by omega)]
  simp

theorem operandKey_float {operand : Bytes} {pos : Nat} {v : FieldInput}
    {pre rest : Bytes} (hpos : pre.length = pos)
    (h : operand = pre ++ (v.toBytes 16 ++ rest)) :
    Statement.operandKey .float operand pos = some (.floating v.floating) := by
  have hread : readBytes operand pos 16 = v.toBytes 16 := by
    have hread := readBytes_append pre (v.toBytes 16) rest
    rw [length_toBytes, hpos] at hread
    rw [h]
    exact hread
  have hlen : pos + 16 ≤ operand.length := by
    rw [h, List.length_append, List.length_append, length_toBytes]
    omega
  rw [Statement.operandKey]
  dsimp only
  rw [if_pos hlen, hread, Option.map_some, ofBytes_toBytes_16]

theorem operandKey_char {operand : Bytes} {pos : Nat} {pre s : Bytes}
    (hpos : pre.length = pos) (h : operand = pre ++ s) :
    Statement.operandKey .char operand pos = some (firstCharacter s) := by
  have hread : readBytes operand pos 1 = s.take 1 := by
    rw [h, readBytes, ← hpos, List.drop_left]
  have hlen : pos ≤ operand.length := by
    rw [h, List.length_append]
    omega
  rw [Statement.operandKey, if_pos hlen, hread, firstCharacter]

/-- An operand that is too short for a number. -/
theorem operandKey_int_short {operand : Bytes} {pos : Nat}
    (h : operand.length < pos + 8) :
    Statement.operandKey .int operand pos = none := by
  rw [Statement.operandKey]
  dsimp only
  rw [if_neg (by omega)]
  rfl

theorem operandKey_float_short {operand : Bytes} {pos : Nat}
    (h : operand.length < pos + 16) :
    Statement.operandKey .float operand pos = none := by
  rw [Statement.operandKey]
  dsimp only
  rw [if_neg (by omega)]
  rfl
/-- A literal to the right of a comparison. -/
theorem rightKeys_operand {op : Operatortype} {c : Comparison} {v : Value}
    {k : Option Key} (hk : v.keyOn f = some k)
    (hop : op ≠ .between ∧ op ≠ .notbetween)
    (htype : f.type ≠ .uint ∧ f.type ≠ .nofieldtype) :
    (Statement.rightKeys f.type op v.operand).1 =
      if Readable f (.compare c v) then some (bareKey f v) else none := by
  have hrange : ¬ (op = .between ∨ op = .notbetween) := not_or.mpr hop
  rw [Statement.rightKeys.eq_def, if_neg hrange]
  obtain ⟨type, length, indextype⟩ := f
  cases type with
  | nofieldtype => exact absurd rfl htype.2
  | uint => exact absurd rfl htype.1
  | int =>
      rw [if_neg (by simp)]
      cases v with
      | null =>
          show Statement.operandKey .int [operandNull] 1 = none
          exact operandKey_int_short (by decide)
      | integer w =>
          show Statement.operandKey .int (integerOperand w) 1 =
            some (.integer w.toInt)
          refine @operandKey_int _ 1 w [operandInteger] [] rfl ?_
          rw [List.append_nil]
          rfl
      | _ => exact absurd hk (by simp [Value.keyOn])
  | bool =>
      rw [if_neg (by simp)]
      cases v with
      | null => rfl
      | boolean w => cases w <;> rfl
      | _ => exact absurd hk (by simp [Value.keyOn])
  | float =>
      cases v with
      | null =>
          rw [if_neg (by simp [Value.operand])]
          show Statement.operandKey .float [operandNull] 1 = none
          exact operandKey_float_short (by decide)
      | integer w =>
          have hlen := length_integerOperand w
          rw [if_neg (by simp [Value.operand, hlen])]
          show Statement.operandKey .float (integerOperand w) 1 = none
          exact operandKey_float_short (by omega)
      | float w =>
          rw [if_pos (by simp [Value.operand, length_toBytes])]
          show Statement.operandKey .float (operandFloat :: w.toBytes 16) 1 =
            some (.floating w.floating)
          refine @operandKey_float _ 1 w [operandFloat] [] rfl ?_
          rw [List.append_nil]
          rfl
      | _ => exact absurd hk (by simp [Value.keyOn])
  | char =>
      rw [if_neg (by simp)]
      cases v with
      | null => rfl
      | string w => exact @operandKey_char _ 1 [operandString] w rfl rfl
      | _ => exact absurd hk (by simp [Value.keyOn])
  | charx | varchar =>
      rw [if_neg (by simp)]
      cases v with
      | null => rfl
      | string w => rfl
      | _ => exact absurd hk (by simp [Value.keyOn])

/-- The operand of a range. -/
theorem rightKeys_range {op : Operatortype} {v w : Value} {a b : Option Key}
    (hv : v.keyOn f = some a) (hw : w.keyOn f = some b)
    (hright : v.betweenOperand w = some right)
    (hop : op = .between ∨ op = .notbetween)
    (htype : f.type = .int ∨ f.type = .bool ∨ f.type = .float ∨
      f.type = .char) :
    if Readable f (.between v w) then
      Statement.rightKeys f.type op right =
        (some (bareRange f v w).1, some (bareRange f v w).2)
    else
      (Statement.rightKeys f.type op right).1 = none ∨
        (Statement.rightKeys f.type op right).2 = none := by
  rw [Statement.rightKeys.eq_def, if_pos hop]
  obtain ⟨type, length, indextype⟩ := f
  cases v with
  | null => exact absurd hright (by simp [Value.betweenOperand])
  | boolean v => exact absurd hright (by simp [Value.betweenOperand])
  | integer v =>
      cases w with
      | integer w =>
          injection hright with hright
          rcases htype with rfl | rfl | rfl | rfl
          · show (Statement.operandKey .int right 1,
              Statement.operandKey .int right 9) =
              (some (.integer v.toInt), some (.integer w.toInt))
            rw [@operandKey_int right 1 v [operandInteger] _ rfl hright.symm]
            rw [@operandKey_int right 9 w (operandInteger ::
              FieldInput.toBytes (v.setWidth 128) 8) []
              (by rw [List.length_cons, length_toBytes])
              (by rw [List.append_nil]; exact hright.symm)]
          · exact absurd hv (by simp [Value.keyOn])
          · right
            refine operandKey_float_short ?_
            rw [← hright]
            simp [length_toBytes]
          · exact absurd hv (by simp [Value.keyOn])
      | _ => exact absurd hright (by simp [Value.betweenOperand])
  | float v =>
      cases w with
      | float w =>
          injection hright with hright
          rcases htype with rfl | rfl | rfl | rfl
          · exact absurd hv (by simp [Value.keyOn])
          · exact absurd hv (by simp [Value.keyOn])
          · show (Statement.operandKey .float right 1,
              Statement.operandKey .float right 17) =
              (some (.floating v.floating), some (.floating w.floating))
            rw [@operandKey_float right 1 v [operandFloat] _ rfl hright.symm]
            rw [@operandKey_float right 17 w (operandFloat :: v.toBytes 16) []
              (by rw [List.length_cons, length_toBytes])
              (by rw [List.append_nil]; exact hright.symm)]
          · exact absurd hv (by simp [Value.keyOn])
      | _ => exact absurd hright (by simp [Value.betweenOperand])
  | string v =>
      cases w with
      | string w =>
          injection hright with hright
          rcases htype with rfl | rfl | rfl | rfl
          · exact absurd hv (by simp [Value.keyOn])
          · exact absurd hv (by simp [Value.keyOn])
          · exact absurd hv (by simp [Value.keyOn])
          · have hlen : right.length = 9 + (v ++ w).length := by
              rw [← hright]
              simp only [List.length_append, List.length_cons, length_toBytes]
            cases hvw : v ++ w with
            | nil =>
                rw [if_neg (by simp [Readable, hvw])]
                right
                rw [hvw] at hlen
                have hshort : ¬ 10 ≤ right.length := by
                  rw [hlen]
                  simp
                show Statement.operandKey .char right 10 = none
                rw [Statement.operandKey]
                exact if_neg hshort
            | cons c rest =>
                rw [if_pos (by simp [Readable, hvw])]
                rw [hvw] at hright
                show (Statement.operandKey .char right 9,
                  Statement.operandKey .char right 10) =
                  (some (firstCharacter (v ++ w)),
                    some (firstCharacter ((v ++ w).drop 1)))
                rw [hvw, @operandKey_char right 9 (operandString ::
                  FieldInput.toBytes (BitVec.ofNat 128 v.length) 8) (c :: rest)
                  (by rw [List.length_cons, length_toBytes]) hright.symm]
                rw [@operandKey_char right 10 (operandString ::
                  FieldInput.toBytes (BitVec.ofNat 128 v.length) 8 ++ [c]) rest
                  (by simp [length_toBytes])
                  (by rw [List.append_assoc]; exact hright.symm)]
                rfl
      | _ => exact absurd hright (by simp [Value.betweenOperand])

theorem comparison_compare (c : Comparison) (v : Value) (x y : Option Key)
    (k : Key) :
    Statement.comparison (SearchPredicate.compare c v).operatortype x y k =
      x.map (c.holds Key.lt k) := by
  cases c <;> rfl

theorem comparison_range {op : Operatortype} {range : Key × Key} {k : Key} :
    (op = .between →
      Statement.comparison op (some range.1) (some range.2) k =
        some (within range k)) ∧
    (op = .notbetween →
      Statement.comparison op (some range.1) (some range.2) k =
        some (!within range k)) := by
  refine ⟨fun h => h ▸ rfl, fun h => ?_⟩
  rw [h, within, Bool.not_and, Bool.not_not, Bool.not_not]
  rfl

theorem comparison_range_none {op : Operatortype}
    (hop : op = .between ∨ op = .notbetween) {x y : Option Key}
    (h : x = none ∨ y = none) (k : Key) :
    Statement.comparison op x y k = none := by
  rcases h with rfl | rfl
  · rcases hop with rfl | rfl <;> rfl
  · rcases hop with rfl | rfl <;> cases x <;> rfl

/-- Where there is a case for it, a comparison is the bare one, if the operand
can be read. -/
theorem comparison_eq (h : PredicateOn matching fields n f p m right)
    (hunary : Statement.unary p.operatortype = false)
    (hcase : Statement.hasCase f.type p.operatortype = true) (k : Key) :
    Statement.comparison p.operatortype
        (Statement.rightKeys f.type p.operatortype right).1
        (Statement.rightKeys f.type p.operatortype right).2 k =
      if Readable f p then some (Compares f p k) else none := by
  have hmeaning := h.meaning
  have hright := h.right
  have hnotype : f.type ≠ .uint ∧ f.type ≠ .nofieldtype := by
    constructor <;> intro htype <;> rw [htype] at hcase <;>
      exact absurd hcase (by simp [Statement.hasCase])
  cases p with
  | compare c v =>
      injection hright with hright
      rw [SearchPredicate.meaning, Option.map_eq_some_iff] at hmeaning
      obtain ⟨key, hkey, _⟩ := hmeaning
      rw [← hright, comparison_compare,
        @rightKeys_operand f _ c v key hkey
          (by cases c <;> exact ⟨by simp [SearchPredicate.operatortype],
            by simp [SearchPredicate.operatortype]⟩) hnotype]
      split
      · rfl
      · rfl
  | between v w | notbetween v w =>
      rw [SearchPredicate.meaning] at hmeaning
      have htype : f.type = .int ∨ f.type = .bool ∨ f.type = .float ∨
          f.type = .char := by
        cases hf : f.type <;> rw [hf] at hcase <;>
          simp [Statement.hasCase, SearchPredicate.operatortype] at hcase ⊢
      cases hv : v.keyOn f with
      | none =>
          rw [hv] at hmeaning
          exact absurd hmeaning (by simp)
      | some a =>
          cases hw : w.keyOn f with
          | none =>
              rw [hv, hw] at hmeaning
              exact absurd hmeaning (by simp)
          | some b =>
              have hrange (op : Operatortype) (hop) :=
                @rightKeys_range f right op v w a b hv hw hright hop htype
              show Statement.comparison _ _ _ k =
                if Readable f (.between v w) then _ else none
              by_cases hread : Readable f (.between v w)
              · rw [if_pos hread]
                first
                  | rw [show SearchPredicate.operatortype (.between v w) =
                      Operatortype.between from rfl]
                    have hkeys := hrange .between (.inl rfl)
                    rw [if_pos hread] at hkeys
                    rw [hkeys]
                    exact comparison_range.1 rfl
                  | rw [show SearchPredicate.operatortype (.notbetween v w) =
                      Operatortype.notbetween from rfl]
                    have hkeys := hrange .notbetween (.inr rfl)
                    rw [if_pos hread] at hkeys
                    rw [hkeys]
                    exact comparison_range.2 rfl
              · rw [if_neg hread]
                first
                  | have hkeys := hrange .between (.inl rfl)
                    rw [if_neg hread] at hkeys
                    exact comparison_range_none (.inl rfl) hkeys k
                  | have hkeys := hrange .notbetween (.inr rfl)
                    rw [if_neg hread] at hkeys
                    exact comparison_range_none (.inr rfl) hkeys k
  | isnull | isnotnull | isin | notin =>
      exact absurd hunary (by simp [Statement.unary,
        SearchPredicate.operatortype])
  | like pattern | notlike pattern =>
      cases hf : f.type <;> rw [hf] at hcase <;>
        simp [Statement.hasCase, SearchPredicate.operatortype] at hcase

theorem holds_range (range : Key × Key) (k : Key) :
    (Predicate.between (some range.1) (some range.2)).holds Key.lt (some k) =
      within range k ∧
    (Predicate.notbetween (some range.1) (some range.2)).holds Key.lt (some k) =
      !within range k := by
  refine ⟨rfl, ?_⟩
  rw [within, Bool.not_and, Bool.not_not, Bool.not_not]
  rfl

/-- The meaning of a range that can be read: between the values themselves,
or of two strings between their first characters. -/
theorem range_of_readable {v w : Value} {a b : Option Key} {v0 : FieldValue}
    {k : Key} (hv : v.keyOn f = some a) (hw : w.keyOn f = some b)
    (hread : Readable f (.between v w) = true)
    (hk : v0.key f.type = some k) :
    ∃ range : Key × Key, a = some range.1 ∧ b = some range.2 ∧ k.trim = k ∧
      (within range k = within (bareRange f v w) k ↔
        AgreesOn f (.between v w) k) := by
  obtain ⟨type, length, indextype⟩ := f
  cases type with
  | int =>
      obtain rfl := Option.some.inj hk
      cases v with
      | integer v =>
          cases w with
          | integer w =>
              obtain rfl := Option.some.inj hv
              obtain rfl := Option.some.inj hw
              exact ⟨(_, _), rfl, rfl, rfl, iff_of_true rfl trivial⟩
          | _ => exact absurd hread (by simp [Readable])
      | _ => exact absurd hread (by simp [Readable])
  | float =>
      obtain rfl := Option.some.inj hk
      cases v with
      | float v =>
          cases w with
          | float w =>
              obtain rfl := Option.some.inj hv
              obtain rfl := Option.some.inj hw
              exact ⟨(_, _), rfl, rfl, rfl, iff_of_true rfl trivial⟩
          | _ => exact absurd hread (by simp [Readable])
      | _ => exact absurd hread (by simp [Readable])
  | char =>
      obtain rfl := Option.some.inj hk
      cases v with
      | string v =>
          cases w with
          | string w =>
              obtain rfl := Option.some.inj hv
              obtain rfl := Option.some.inj hw
              exact ⟨(firstCharacter v, firstCharacter w), rfl, rfl, rfl,
                eq_comm⟩
          | _ => exact absurd hread (by simp [Readable])
      | _ => exact absurd hread (by simp [Readable])
  | _ => exact absurd hread (by simp [Readable])

/-- The bare comparison says what the predicate does exactly of the values it
agrees on. -/
theorem agreesOn_iff (h : PredicateOn matching fields n f p m right)
    (hcase : Statement.hasCase f.type p.operatortype = true)
    (hread : Readable f p = true) {v0 : FieldValue} {k : Key}
    (hk : v0.key f.type = some k) :
    m.holds Key.lt (some k.trim) = Compares f p k ↔ AgreesOn f p k := by
  have hmeaning := h.meaning
  cases p with
  | compare c v =>
      rw [SearchPredicate.meaning, Option.map_eq_some_iff] at hmeaning
      obtain ⟨key, hkey, rfl⟩ := hmeaning
      obtain ⟨type, length, indextype⟩ := f
      cases v with
      | null =>
          obtain rfl := Option.some.inj hkey
          show false = Compares _ _ k ↔ AgreesOn _ _ k
          rw [AgreesOn]
          exact eq_comm
      | integer w =>
          cases type with
          | int =>
              obtain rfl := Option.some.inj hkey
              obtain rfl := Option.some.inj hk
              exact iff_of_true rfl trivial
          | uint | float => exact absurd hread (by simp [Readable])
          | _ => exact absurd hkey (by simp [Value.keyOn])
      | float w =>
          cases type with
          | float =>
              obtain rfl := Option.some.inj hkey
              obtain rfl := Option.some.inj hk
              exact iff_of_true rfl trivial
          | _ => exact absurd hkey (by simp [Value.keyOn])
      | boolean w =>
          cases type with
          | bool => exact absurd hread (by simp [Readable])
          | _ => exact absurd hkey (by simp [Value.keyOn])
      | string w =>
          cases type with
          | char =>
              obtain rfl := Option.some.inj hkey
              obtain rfl := Option.some.inj hk
              exact iff_of_true rfl trivial
          | charx | varchar =>
              obtain rfl := Option.some.inj hkey
              obtain rfl := Option.some.inj hk
              have hstr (s t : Bytes) : Key.str s = Key.str t ↔ s = t :=
                ⟨Key.str.inj, congrArg Key.str⟩
              cases c with
              | eq =>
                  show decide (Key.str (trimspace _) = Key.str (trimspace w)) =
                    decide (Key.str _ = Key.str w) ↔ (_ ↔ _)
                  rw [decide_eq_decide, hstr, hstr]
                  exact iff_comm
              | ne =>
                  show decide (Key.str (trimspace _) ≠ Key.str (trimspace w)) =
                    decide (Key.str _ ≠ Key.str w) ↔ (_ ↔ _)
                  rw [decide_eq_decide, Ne, Ne, hstr, hstr, not_iff_not]
                  exact iff_comm
              | _ => exact absurd hcase (by simp [Statement.hasCase,
                  SearchPredicate.operatortype])
          | _ => exact absurd hkey (by simp [Value.keyOn])
  | between v w =>
      rw [SearchPredicate.meaning] at hmeaning
      split at hmeaning
      · next a b hv hw =>
          obtain ⟨range, rfl, rfl, htrim, hiff⟩ :=
            range_of_readable hv hw hread hk
          obtain rfl := Option.some.inj hmeaning
          rw [htrim, (holds_range range k).1]
          exact hiff
      · exact absurd hmeaning (by simp)
  | notbetween v w =>
      rw [SearchPredicate.meaning] at hmeaning
      split at hmeaning
      · next a b hv hw =>
          obtain ⟨range, rfl, rfl, htrim, hiff⟩ :=
            @range_of_readable f v w a b v0 k hv hw hread hk
          obtain rfl := Option.some.inj hmeaning
          rw [htrim, (holds_range range k).2]
          show (!within range k) = (!within (bareRange f v w) k) ↔ _
          rw [Bool.not_inj_iff]
          exact hiff.trans (by cases v <;> cases w <;> exact Iff.rfl)
      · exact absurd hmeaning (by simp)
  | _ => exact absurd hread (by simp [Readable])

/-! ## The loop -/

/-- The rows of the table in the order of the loop, with the keys they are
compared by. -/
def scanned (fields : List Field) (n : Nat) (f : Field) (tableid : Int) :
    Key → List (UuRecord × StagedRow) → List ((UuRecord × StagedRow) × Key)
  | _, [] => []
  | old, x :: rest =>
      if x.1.tableid = tableid then
        let k := seenKey fields n f old (currentRow x.2)
        (x, k) :: scanned fields n f tableid k rest
      else scanned fields n f tableid old rest

/-- The results, from the rows let through. -/
def putAll (c : Key → Bool) :
    List ((UuRecord × StagedRow) × Key) → Statement.PredicateResults →
      Statement.PredicateResults
  | [], results => results
  | (x, k) :: rest, results =>
      putAll c rest
        (if c k then
          Function.update results x.1 (some (stagedRow2ReturnRow x.2))
        else results)

theorem stagedLoop_other {op : Operatortype} {fieldid : Option Nat}
    {rows rest : List (UuRecord × StagedRow)} {x : UuRecord × StagedRow}
    {fieldValues : List FieldValue} {results : Statement.PredicateResults}
    {hit : Bool} (hx : x.1.tableid ≠ tableid) :
    Statement.stagedLoop fields op tableid fieldid right inValues rows
        (x :: rest) fieldValues results hit =
      Statement.stagedLoop fields op tableid fieldid right inValues rows rest
        fieldValues results hit := by
  obtain ⟨uur, stagedRow⟩ := x
  exact if_pos hx

/-- The body of the loop for a comparison that there is a case for. -/
theorem stagedLoop_own {op : Operatortype}
    {rows rest : List (UuRecord × StagedRow)} {x : UuRecord × StagedRow}
    {fieldValues : List FieldValue} {results : Statement.PredicateResults}
    {hit : Bool} (hunary : Statement.unary op = false)
    (hf : fields[n]? = some f) (hcase : Statement.hasCase f.type op = true)
    (hx : x.1.tableid = tableid) {lhs : Key}
    (hlhs : ((unmakerowInto fields (currentRow x.2) fieldValues).getD n
      {}).key f.type = some lhs) :
    Statement.stagedLoop fields op tableid (some n) right inValues rows
        (x :: rest) fieldValues results hit =
      match Statement.comparison op (Statement.rightKeys f.type op right).1
        (Statement.rightKeys f.type op right).2 lhs with
      | none => none
      | some false =>
          Statement.stagedLoop fields op tableid (some n) right inValues rows
            rest (unmakerowInto fields (currentRow x.2) fieldValues) results hit
      | some true =>
          Statement.stagedLoop fields op tableid (some n) right inValues rows
            rest (unmakerowInto fields (currentRow x.2) fieldValues)
            (Function.update results x.1 (some (stagedRow2ReturnRow x.2)))
            (hit || (f.type = .int && op = .eq)) := by
  obtain ⟨uur, stagedRow⟩ := x
  rw [currentRow] at hlhs
  rw [Statement.stagedLoop]
  dsimp only
  rw [if_neg (not_not.mpr hx), hf]
  dsimp only
  rw [hcase, Bool.not_true, if_neg (by simp)]
  cases op with
  | isnull | isnotnull | «in» | notin =>
      exact absurd hunary (by simp [Statement.unary])
  | _ =>
      dsimp only
      rw [hlhs]
      rfl

theorem key_of_slot {fieldValues : List FieldValue} {old : Key}
    {x : UuRecord × StagedRow}
    (hrow : x.2.cmd = .delete ∨ RowOf fields (currentRow x.2))
    (hf : fields[n]? = some f) (htype : f.type ≠ .nofieldtype)
    (h : Slot fields n f fieldValues old) :
    Slot fields n f (unmakerowInto fields (currentRow x.2) fieldValues)
      (seenKey fields n f old (currentRow x.2)) := by
  refine slot_unmakerowInto (hrow.imp_left fun hcmd => ?_) hf htype h
  rw [currentRow, stagedRow2ReturnRow, hcmd]

theorem type_of_hasCase {op : Operatortype}
    (h : Statement.hasCase f.type op = true) : f.type ≠ .nofieldtype := by
  intro htype
  rw [htype] at h
  exact absurd h (by simp [Statement.hasCase])

/-- The whole loop: an induction on the rows, with the key in the slot. -/
theorem stagedLoop_eq (h : PredicateOn matching fields n f p m right)
    (hunary : Statement.unary p.operatortype = false)
    (hcase : Statement.hasCase f.type p.operatortype = true)
    (hread : Readable f p = true) {all : List (UuRecord × StagedRow)} :
    ∀ {rows : List (UuRecord × StagedRow)} {old : Key}
      {fieldValues : List FieldValue} {results : Statement.PredicateResults}
      {hit : Bool},
      (∀ x ∈ rows, x.1.tableid = tableid →
        x.2.cmd = .delete ∨ RowOf fields (currentRow x.2)) →
      Slot fields n f fieldValues old →
      Statement.stagedLoop fields p.operatortype tableid (some n) right
          inValues all rows fieldValues results hit =
        some (hit || ((f.type = .int && p.operatortype = .eq) &&
            (scanned fields n f tableid old rows).any
              fun y => Compares f p y.2),
          putAll (Compares f p) (scanned fields n f tableid old rows)
            results) := by
  intro rows
  induction rows with
  | nil =>
      intro old fieldValues results hit _ _
      rw [Statement.stagedLoop, scanned, List.any_nil, Bool.and_false,
        Bool.or_false]
      rfl
  | cons x rest ih =>
      intro old fieldValues results hit hrows hslot
      have hrest : ∀ y ∈ rest, y.1.tableid = tableid →
          y.2.cmd = .delete ∨ RowOf fields (currentRow y.2) :=
        fun y hy => hrows y (List.mem_cons_of_mem _ hy)
      by_cases hx : x.1.tableid = tableid
      · have hslot' := key_of_slot (hrows x (List.mem_cons_self ..) hx) h.field
          (type_of_hasCase hcase) hslot
        rw [stagedLoop_own hunary h.field hcase hx hslot'.key,
          comparison_eq h hunary hcase, if_pos hread, scanned, if_pos hx]
        dsimp only
        cases hc : Compares f p (seenKey fields n f old (currentRow x.2)) with
        | false =>
            dsimp only
            rw [ih hrest hslot', List.any_cons, hc, Bool.false_or, putAll, hc,
              if_neg (by simp)]
        | true =>
            have habsorb : ∀ a b : Bool, (a || a && b) = a := by decide
            dsimp only
            rw [ih hrest hslot', List.any_cons, hc, Bool.true_or, putAll, hc,
              if_pos rfl, Bool.or_assoc, habsorb, Bool.and_true]
      · rw [stagedLoop_other hx, scanned, if_neg hx]
        exact ih hrest hslot

theorem putAll_of_notMem {c : Key → Bool} {uur : UuRecord} :
    ∀ {l : List ((UuRecord × StagedRow) × Key)}
      {results : Statement.PredicateResults},
      (∀ y ∈ l, y.1.1 ≠ uur) → putAll c l results uur = results uur := by
  intro l
  induction l with
  | nil => exact fun _ => rfl
  | cons y rest ih =>
      intro results h
      have hy := h y (List.mem_cons_self ..)
      rw [putAll, ih fun z hz => h z (List.mem_cons_of_mem _ hz)]
      split
      · exact Function.update_of_ne (Ne.symm hy) _ _
      · rfl

/-- Every row decides for itself. -/
theorem putAll_of_mem {c : Key → Bool} {y : (UuRecord × StagedRow) × Key} :
    ∀ {l : List ((UuRecord × StagedRow) × Key)}
      {results : Statement.PredicateResults},
      (l.map fun y => y.1.1).Nodup → y ∈ l →
      putAll c l results y.1.1 =
        if c y.2 then some (stagedRow2ReturnRow y.1.2)
        else results y.1.1 := by
  intro l
  induction l with
  | nil => exact fun _ hy => absurd hy (by simp)
  | cons z rest ih =>
      intro results hnodup hy
      rw [List.map_cons, List.nodup_cons] at hnodup
      rw [putAll]
      rcases List.mem_cons.mp hy with rfl | hy
      · have hrest : ∀ w ∈ rest, w.1.1 ≠ y.1.1 := fun w hw heq =>
          hnodup.1 (List.mem_map.mpr ⟨w, hw, heq⟩)
        rw [putAll_of_notMem hrest]
        split
        · exact Function.update_self ..
        · rfl
      · have hne : z.1.1 ≠ y.1.1 := fun heq =>
          hnodup.1 (heq ▸ List.mem_map.mpr ⟨y, hy, rfl⟩)
        rw [ih hnodup.2 hy]
        split
        · rfl
        · split
          · exact Function.update_of_ne (Ne.symm hne) _ _
          · rfl

theorem putAll_none {c : Key → Bool} {l : List ((UuRecord × StagedRow) × Key)}
    (hnodup : (l.map fun y => y.1.1).Nodup) (uur : UuRecord) (r : ReturnRow) :
    putAll c l (fun _ => none) uur = some r ↔
      ∃ y ∈ l, y.1.1 = uur ∧ c y.2 = true ∧ r = stagedRow2ReturnRow y.1.2 := by
  constructor
  · intro h
    by_cases hmem : ∃ y ∈ l, y.1.1 = uur
    · obtain ⟨y, hy, rfl⟩ := hmem
      rw [putAll_of_mem hnodup hy] at h
      split at h
      · next hc => exact ⟨y, hy, rfl, hc, (Option.some.inj h).symm⟩
      · exact absurd h (by simp)
    · rw [putAll_of_notMem fun y hy heq => hmem ⟨y, hy, heq⟩] at h
      exact absurd h (by simp)
  · rintro ⟨y, hy, rfl, hc, rfl⟩
    rw [putAll_of_mem hnodup hy, if_pos hc]

theorem scanned_sublist :
    ∀ {rows : List (UuRecord × StagedRow)} {old : Key},
      ((scanned fields n f tableid old rows).map Prod.fst).Sublist rows := by
  intro rows
  induction rows with
  | nil => exact fun {_} => List.Sublist.refl _
  | cons x rest ih =>
      intro old
      rw [scanned]
      split
      · exact ih.cons_cons x
      · exact ih.cons x

theorem nodup_scanned {rows : List (UuRecord × StagedRow)} {old : Key}
    (h : (rows.map Prod.fst).Nodup) :
    ((scanned fields n f tableid old rows).map fun y => y.1.1).Nodup := by
  have hsub := (@scanned_sublist fields n f tableid rows old).map Prod.fst
  rw [List.map_map] at hsub
  exact hsub.nodup h

theorem exists_scanned {x : UuRecord × StagedRow}
    (hx : x.1.tableid = tableid) :
    ∀ {rows : List (UuRecord × StagedRow)} {old : Key}, x ∈ rows →
      ∃ k, (x, k) ∈ scanned fields n f tableid old rows := by
  intro rows
  induction rows with
  | nil => exact fun h => absurd h (by simp)
  | cons y rest ih =>
      intro old h
      rw [scanned]
      rcases List.mem_cons.mp h with rfl | h
      · rw [if_pos hx]
        exact ⟨_, List.mem_cons_self ..⟩
      · split
        · obtain ⟨k, hk⟩ := ih h
          exact ⟨k, List.mem_cons_of_mem _ hk⟩
        · exact ih h

theorem ownKey_isSome (htype : f.type ≠ .nofieldtype) (row : Bytes) :
    ∃ k, ownKey fields n f row = some k :=
  key_isSome _ htype

/-- What a row is compared by: its value, or for a null what was there first
or the value of another row. -/
theorem mem_scanned (htype : f.type ≠ .nofieldtype)
    {y : (UuRecord × StagedRow) × Key} :
    ∀ {rows : List (UuRecord × StagedRow)} {old : Key},
      y ∈ scanned fields n f tableid old rows →
      y.1 ∈ rows ∧ y.1.1.tableid = tableid ∧
        (if (valueOf fields (currentRow y.1.2) n).isnull then
          y.2 = old ∨ ∃ z ∈ rows, z.1.tableid = tableid ∧
            (valueOf fields (currentRow z.2) n).isnull = false ∧
            ownKey fields n f (currentRow z.2) = some y.2
        else ownKey fields n f (currentRow y.1.2) = some y.2) := by
  intro rows
  induction rows with
  | nil => exact fun h => absurd h (by simp [scanned])
  | cons x rest ih =>
      intro old h
      rw [scanned] at h
      split at h
      · next hx =>
          obtain ⟨kx, hkx⟩ := @ownKey_isSome fields n f htype (currentRow x.2)
          rcases List.mem_cons.mp h with rfl | h
          · refine ⟨List.mem_cons_self .., hx, ?_⟩
            dsimp only
            rw [seenKey, hkx]
            split
            · exact .inl rfl
            · rfl
          · obtain ⟨hmem, htable, hkey⟩ := ih h
            refine ⟨List.mem_cons_of_mem _ hmem, htable, ?_⟩
            split
            · next hnull =>
                rw [if_pos hnull] at hkey
                rcases hkey with hold | ⟨z, hz, hrest⟩
                · rw [hold, seenKey, hkx]
                  cases hxnull : (valueOf fields (currentRow x.2) n).isnull with
                  | true => exact .inl rfl
                  | false =>
                      exact .inr ⟨x, List.mem_cons_self .., hx, hxnull, hkx⟩
                · exact .inr ⟨z, List.mem_cons_of_mem _ hz, hrest⟩
            · next hnull =>
                rw [if_neg hnull] at hkey
                exact hkey
      · obtain ⟨hmem, htable, hkey⟩ := ih h
        refine ⟨List.mem_cons_of_mem _ hmem, htable, ?_⟩
        split
        · next hnull =>
            rw [if_pos hnull] at hkey
            exact hkey.imp_right fun ⟨z, hz, hrest⟩ =>
              ⟨z, List.mem_cons_of_mem _ hz, hrest⟩
        · next hnull =>
            rw [if_neg hnull] at hkey
            exact hkey

/-! ## The condition is the exact one -/

theorem leftoperand_field (n : Nat)
    (hunary : Statement.unary p.operatortype = false) :
    p.leftoperand n = SearchPredicate.fieldidOperand n := by
  rw [SearchPredicate.leftoperand, hunary, if_neg (by simp)]

theorem fieldidOf_fieldidOperand (hn : n < 2 ^ 64) :
    Statement.fieldidOf (SearchPredicate.fieldidOperand n) = some n := by
  have hlen : (SearchPredicate.fieldidOperand n).length = 9 := by
    rw [SearchPredicate.fieldidOperand, List.length_cons, length_toBytes]
  rw [Statement.fieldidOf, hlen, if_neg (by omega), integerOf,
    SearchPredicate.fieldidOperand, List.drop_one, List.tail_cons,
    List.take_of_length_le (by rw [length_toBytes]),
    setWidth_ofBytes_toBytes _ (by omega)]
  simp only [BitVec.setWidth_ofNat_of_le (show 64 ≤ 128 by omega),
    BitVec.toNat_ofNat, Nat.mod_eq_of_lt hn]

/-- The search is the loop, with the field that the left operand names. -/
theorem stagedPredicate_eq (hn : n < 2 ^ 64)
    (results : Statement.PredicateResults) :
    Statement.stagedPredicate fields p.operatortype tableid (p.leftoperand n)
        right inValues stagedRows results =
      Statement.stagedLoop fields p.operatortype tableid
        (if Statement.unary p.operatortype then none else some n) right
        inValues stagedRows stagedRows (List.replicate fields.length {})
        results false := by
  rw [Statement.stagedPredicate]
  cases hunary : Statement.unary p.operatortype with
  | true =>
      rw [Bool.not_true, Bool.false_and, if_neg (by simp), if_pos rfl,
        SearchPredicate.leftoperand, hunary, if_pos rfl]
      rfl
  | false =>
      rw [leftoperand_field n hunary, fieldidOf_fieldidOperand hn]
      rfl

/-- Rows of other tables are passed over. -/
theorem stagedLoop_others {op : Operatortype} {fieldid : Option Nat}
    {all : List (UuRecord × StagedRow)} :
    ∀ {rows : List (UuRecord × StagedRow)} {fieldValues : List FieldValue}
      {results : Statement.PredicateResults} {hit : Bool},
      (∀ x ∈ rows, x.1.tableid ≠ tableid) →
      Statement.stagedLoop fields op tableid fieldid right inValues all rows
        fieldValues results hit = some (hit, results) := by
  intro rows
  induction rows with
  | nil => exact fun _ => rfl
  | cons x rest ih =>
      intro fieldValues results hit h
      rw [stagedLoop_other (h x (List.mem_cons_self ..))]
      exact ih fun y hy => h y (List.mem_cons_of_mem _ hy)

/-- A row of the table decides the result, where its body does whatever the
values are. -/
theorem stagedLoop_of_own {op : Operatortype} {fieldid : Option Nat}
    {all : List (UuRecord × StagedRow)} {hit : Bool}
    {results : Statement.PredicateResults}
    {out : Option (Bool × Statement.PredicateResults)}
    (hown : ∀ (x : UuRecord × StagedRow) rest fieldValues,
      x.1.tableid = tableid →
      Statement.stagedLoop fields op tableid fieldid right inValues all
        (x :: rest) fieldValues results hit = out) :
    ∀ {rows : List (UuRecord × StagedRow)} {fieldValues : List FieldValue},
      (∃ x ∈ rows, x.1.tableid = tableid) →
      Statement.stagedLoop fields op tableid fieldid right inValues all rows
        fieldValues results hit = out := by
  intro rows
  induction rows with
  | nil => exact fun ⟨_, h, _⟩ => absurd h (by simp)
  | cons x rest ih =>
      rintro fieldValues ⟨y, hy, htable⟩
      by_cases hx : x.1.tableid = tableid
      · exact hown x rest fieldValues hx
      · rw [stagedLoop_other hx]
        refine ih ⟨y, ?_, htable⟩
        rcases List.mem_cons.mp hy with rfl | hy
        · exact absurd htable hx
        · exact hy

/-- No row is let through: the search finds its own if there are none. -/
theorem findsOwn_of_nothing
    (hrun : Statement.stagedPredicate fields p.operatortype tableid
      (p.leftoperand n) right inValues stagedRows (fun _ => none) =
        some (false, fun _ => none)) :
    FindsOwn fields n f p m right tableid inValues committed stagedRows ↔
      ∀ x ∈ stagedRows, Live tableid x →
        ¬ Satisfies fields n f m (currentRow x.2) := by
  constructor
  · rintro ⟨hit, results, hsome, hresults, _⟩ x hx hlive hsat
    rw [hrun, Option.some_inj, Prod.mk.injEq] at hsome
    obtain ⟨_, rfl⟩ := hsome
    have h := (hresults x.1 _).mpr ⟨x, hx, rfl, hlive, hsat, rfl⟩
    exact absurd h (by simp)
  · intro h
    refine ⟨false, fun _ => none, hrun, fun uur r => ?_, fun hask => ?_⟩
    · constructor
      · exact fun hr => absurd hr (by simp)
      · rintro ⟨x, hx, _, hlive, hsat, _⟩
        exact absurd hsat (h x hx hlive)
    · cases hop : p.operatortype <;> rw [hop] at hask <;>
        exact absurd hask (by simp [Ast.asksEngines])

theorem satisfies_iff {row : Bytes} {k : Key}
    (hnull : (valueOf fields row n).isnull = false)
    (hk : ownKey fields n f row = some k) :
    Satisfies fields n f m row ↔ m.holds Key.lt (some k.trim) = true := by
  have hk' : (valueOf fields row n).key f.type = some k := hk
  rw [valueOf] at hnull hk'
  rw [Satisfies, columnKey, hnull, if_neg (by simp), hk']
  rfl

theorem meaning_ne_isnull (h : PredicateOn matching fields n f p m right)
    (hunary : Statement.unary p.operatortype = false) : m ≠ .isnull := by
  have hmeaning := h.meaning
  rintro rfl
  cases p with
  | isnull | isnotnull | isin | notin =>
      exact absurd hunary (by simp [Statement.unary,
        SearchPredicate.operatortype])
  | compare c v =>
      rw [SearchPredicate.meaning, Option.map_eq_some_iff] at hmeaning
      obtain ⟨_, _, h⟩ := hmeaning
      exact absurd h (by simp)
  | _ =>
      rw [SearchPredicate.meaning] at hmeaning
      split at hmeaning <;> exact absurd hmeaning (by simp)

theorem not_satisfies_null (h : PredicateOn matching fields n f p m right)
    (hunary : Statement.unary p.operatortype = false) {row : Bytes}
    (hnull : (valueOf fields row n).isnull = true) :
    ¬ Satisfies fields n f m row := by
  rw [valueOf] at hnull
  rw [Satisfies, columnKey, hnull, if_pos rfl,
    Predicate.holds_none Key.lt (meaning_ne_isnull h hunary)]
  simp

theorem isnull_valueOf_nil (hf : fields[n]? = some f) :
    (valueOf fields [] n).isnull = false := by
  obtain ⟨pos, hpos⟩ := @reads_nil f fields 0 n hf
  rw [valueOf_eq_reads, hpos, Option.getD_some]
  exact isnull_unmakefield f [] pos

theorem currentRow_delete {stagedRow : StagedRow}
    (h : stagedRow.cmd = .delete) : currentRow stagedRow = [] := by
  rw [currentRow, stagedRow2ReturnRow, h]

theorem Staged.row (h : Staged fields tableid stagedRows)
    {x : UuRecord × StagedRow} (hx : x ∈ stagedRows)
    (htable : x.1.tableid = tableid) :
    x.2.cmd = .delete ∨ RowOf fields (currentRow x.2) := by
  by_cases hcmd : x.2.cmd = .delete
  · exact .inl hcmd
  · exact .inr (h.rows x hx ⟨htable, hcmd⟩)

theorem Staged.perm (h : Staged fields tableid stagedRows)
    {order : List (UuRecord × StagedRow)} (hperm : order.Perm stagedRows) :
    Staged fields tableid order :=
  ⟨(hperm.map Prod.fst).nodup_iff.mpr h.nodup,
    fun x hx => h.rows x (hperm.mem_iff.mp hx)⟩

/-- A readable comparison, run. -/
theorem stagedPredicate_compare (h : PredicateOn matching fields n f p m right)
    (hstaged : Staged fields tableid stagedRows)
    (hunary : Statement.unary p.operatortype = false)
    (hcase : Statement.hasCase f.type p.operatortype = true)
    (hread : Readable f p = true) {old : Key}
    (hold : ({} : FieldValue).key f.type = some old) :
    Statement.stagedPredicate fields p.operatortype tableid (p.leftoperand n)
        right inValues stagedRows (fun _ => none) =
      some ((f.type = .int && p.operatortype = .eq) &&
          (scanned fields n f tableid old stagedRows).any
            fun y => Compares f p y.2,
        putAll (Compares f p) (scanned fields n f tableid old stagedRows)
          fun _ => none) := by
  obtain ⟨k, hk, hslot⟩ :=
    @slot_start fields n f (type_of_hasCase hcase)
  obtain rfl := Option.some.inj (hold.symm.trans hk)
  rw [stagedPredicate_eq h.id, hunary, if_neg (by simp),
    stagedLoop_eq h hunary hcase hread
      (fun x hx htable => hstaged.row hx htable) hslot, Bool.false_or]

/-- Where the search finds its own, what a row is compared by decides right. -/
theorem compares_of_findsOwn (h : PredicateOn matching fields n f p m right)
    (hstaged : Staged fields tableid stagedRows)
    (hunary : Statement.unary p.operatortype = false)
    (hcase : Statement.hasCase f.type p.operatortype = true)
    (hread : Readable f p = true) {old : Key}
    (hold : ({} : FieldValue).key f.type = some old)
    (hfinds : FindsOwn fields n f p m right tableid inValues committed
      stagedRows) {y : (UuRecord × StagedRow) × Key}
    (hy : y ∈ scanned fields n f tableid old stagedRows) :
    Compares f p y.2 = true ↔
      Live tableid y.1 ∧ Satisfies fields n f m (currentRow y.1.2) := by
  obtain ⟨hit, results, hsome, hresults, _⟩ := hfinds
  rw [stagedPredicate_compare h hstaged hunary hcase hread hold,
    Option.some_inj, Prod.mk.injEq] at hsome
  obtain ⟨_, rfl⟩ := hsome
  have hput := hresults y.1.1 (stagedRow2ReturnRow y.1.2)
  rw [putAll_none (nodup_scanned hstaged.nodup)] at hput
  have hmem := (mem_scanned (type_of_hasCase hcase) hy).1
  constructor
  · intro hc
    obtain ⟨z, hz, heq, hlive, hsat, _⟩ := hput.mp ⟨y, hy, rfl, hc, rfl⟩
    obtain rfl := List.inj_on_of_nodup_map hstaged.nodup hz hmem heq
    exact ⟨hlive, hsat⟩
  · rintro ⟨hlive, hsat⟩
    obtain ⟨z, hz, heq, hc, _⟩ := hput.mpr ⟨y.1, hmem, rfl, hlive, hsat, rfl⟩
    obtain rfl := List.inj_on_of_nodup_map (nodup_scanned hstaged.nodup) hz hy
      heq
    exact hc

/-- A row of the table put first is compared by its value, a null by what is
there at the start. -/
theorem compares_head (h : PredicateOn matching fields n f p m right)
    (hstaged : Staged fields tableid stagedRows)
    (hunary : Statement.unary p.operatortype = false)
    (hcase : Statement.hasCase f.type p.operatortype = true)
    (hread : Readable f p = true) {old : Key}
    (hold : ({} : FieldValue).key f.type = some old)
    (hfinds : ∀ order, order.Perm stagedRows →
      FindsOwn fields n f p m right tableid inValues committed order)
    {x : UuRecord × StagedRow} (hx : x ∈ stagedRows)
    (htable : x.1.tableid = tableid) :
    Compares f p (seenKey fields n f old (currentRow x.2)) = true ↔
      Live tableid x ∧ Satisfies fields n f m (currentRow x.2) := by
  obtain ⟨before, after, hrows⟩ := List.append_of_mem hx
  have hperm : (x :: (before ++ after)).Perm stagedRows := by
    rw [hrows]
    exact List.perm_middle.symm
  have hmem : (x, seenKey fields n f old (currentRow x.2)) ∈
      scanned fields n f tableid old (x :: (before ++ after)) := by
    rw [scanned, if_pos htable]
    exact List.mem_cons_self ..
  exact compares_of_findsOwn h (hstaged.perm hperm) hunary hcase hread hold
    (hfinds _ hperm) hmem

/-- A null put after another row is compared by that row's value. -/
theorem compares_second (h : PredicateOn matching fields n f p m right)
    (hstaged : Staged fields tableid stagedRows)
    (hunary : Statement.unary p.operatortype = false)
    (hcase : Statement.hasCase f.type p.operatortype = true)
    (hread : Readable f p = true) {old k : Key}
    (hold : ({} : FieldValue).key f.type = some old)
    (hfinds : ∀ order, order.Perm stagedRows →
      FindsOwn fields n f p m right tableid inValues committed order)
    {x y : UuRecord × StagedRow} (hx : x ∈ stagedRows) (hy : y ∈ stagedRows)
    (htable : x.1.tableid = tableid) (hytable : y.1.tableid = tableid)
    (hnull : (valueOf fields (currentRow x.2) n).isnull = true)
    (hynull : (valueOf fields (currentRow y.2) n).isnull = false)
    (hk : ownKey fields n f (currentRow y.2) = some k) :
    Compares f p k = false := by
  have hne : x ≠ y := by
    rintro rfl
    rw [hnull] at hynull
    exact absurd hynull (by simp)
  obtain ⟨before, after, hrows⟩ := List.append_of_mem hy
  have hx' : x ∈ before ++ after := by
    rw [hrows] at hx
    rcases List.mem_append.mp hx with hx | hx
    · exact List.mem_append_left _ hx
    · rcases List.mem_cons.mp hx with hx | hx
      · exact absurd hx hne
      · exact List.mem_append_right _ hx
  obtain ⟨before', after', hrest⟩ := List.append_of_mem hx'
  have hperm : (y :: x :: (before' ++ after')).Perm stagedRows := by
    rw [hrows]
    refine List.Perm.trans ?_ List.perm_middle.symm
    rw [hrest]
    exact List.perm_middle.symm.cons y
  have hseen : seenKey fields n f k (currentRow x.2) = k := by
    rw [seenKey, hnull, if_pos rfl]
  have hmem : (x, k) ∈ scanned fields n f tableid old
      (y :: x :: (before' ++ after')) := by
    have hyseen : seenKey fields n f old (currentRow y.2) = k := by
      rw [seenKey, hynull, if_neg (by simp), hk, Option.getD_some]
    simp only [scanned, if_pos hytable, if_pos htable, hyseen, hseen]
    exact List.mem_cons_of_mem _ (List.mem_cons_self ..)
  have hiff := compares_of_findsOwn h (hstaged.perm hperm) hunary hcase hread
    hold (hfinds _ hperm) hmem
  cases hc : Compares f p k with
  | false => rfl
  | true => exact absurd (hiff.mp hc).2 (not_satisfies_null h hunary hnull)

/-- For a comparison with a case and an operand that can be read. -/
theorem findsOwn_compare_iff (h : PredicateOn matching fields n f p m right)
    (hstaged : Staged fields tableid stagedRows)
    (hunary : Statement.unary p.operatortype = false)
    (hcase : Statement.hasCase f.type p.operatortype = true)
    (hread : Readable f p = true) :
    (∀ order, order.Perm stagedRows →
      FindsOwn fields n f p m right tableid inValues committed order) ↔
      ComparesOwn fields n f p m tableid committed stagedRows := by
  have htype := type_of_hasCase hcase
  obtain ⟨old, hold⟩ := key_isSome {} htype
  constructor
  · intro hfinds
    have hhead := fun (x : UuRecord × StagedRow) (hx : x ∈ stagedRows) htable =>
      @compares_head matching fields n f p m right tableid inValues committed
        stagedRows h hstaged hunary hcase hread old hold hfinds x hx htable
    refine ⟨hread, ?_, ?_, ?_, ?_⟩
    · intro x hx htable hcmd k hk
      have hiff := hhead x hx htable
      rw [currentRow_delete hcmd, seenKey, isnull_valueOf_nil h.field,
        if_neg (by simp), hk, Option.getD_some] at hiff
      cases hc : Compares f p k with
      | false => rfl
      | true => exact absurd hcmd (hiff.mp hc).1.2
    · intro x hx hlive hnull
      refine ⟨fun k hk => ?_, fun y hy hylive hynull k hk => ?_⟩
      · obtain rfl := Option.some.inj (hold.symm.trans hk)
        have hiff := hhead x hx hlive.1
        rw [seenKey, hnull, if_pos rfl] at hiff
        cases hc : Compares f p old with
        | false => rfl
        | true =>
            exact absurd (hiff.mp hc).2 (not_satisfies_null h hunary hnull)
      · exact compares_second h hstaged hunary hcase hread hold hfinds hx hy
          hlive.1 hylive.1 hnull hynull hk
    · intro x hx hlive hnull k hk
      have hiff := hhead x hx hlive.1
      rw [seenKey, hnull, if_neg (by simp), hk, Option.getD_some,
        satisfies_iff hnull hk] at hiff
      refine (agreesOn_iff h hcase hread hk).mp (Bool.eq_iff_iff.mpr ?_)
      exact ⟨fun hm => hiff.mpr ⟨hlive, hm⟩, fun hc => (hiff.mp hc).2⟩
    · intro hint heq x hx hlive hsat
      obtain ⟨hit, results, hsome, hresults, hask⟩ := hfinds _ (.refl _)
      have hput := (hresults x.1 _).mpr ⟨x, hx, rfl, hlive, hsat, rfl⟩
      rw [stagedPredicate_compare h hstaged hunary hcase hread hold,
        Option.some_inj, Prod.mk.injEq] at hsome
      obtain ⟨hhit, rfl⟩ := hsome
      obtain ⟨y, hy, _, hc, _⟩ :=
        (putAll_none (nodup_scanned hstaged.nodup) _ _).mp hput
      refine hask ?_
      rw [← hhit, heq, hint, List.any_eq_true.mpr ⟨y, hy, hc⟩]
      rfl
  · intro hwhen order hperm
    have horder := hstaged.perm hperm
    -- Each row is compared rightly, whatever is in the slot by then.
    have hright (y) (hy : y ∈ scanned fields n f tableid old order) :
        Compares f p y.2 = true ↔
          Live tableid y.1 ∧ Satisfies fields n f m (currentRow y.1.2) := by
      obtain ⟨hmem, htable, hkey⟩ := mem_scanned htype hy
      have hmem := hperm.mem_iff.mp hmem
      by_cases hcmd : y.1.2.cmd = .delete
      · rw [currentRow_delete hcmd, isnull_valueOf_nil h.field,
          if_neg (by simp)] at hkey
        rw [hwhen.deleted y.1 hmem htable hcmd _ hkey]
        exact ⟨fun hc => absurd hc (by simp), fun hc => absurd hcmd hc.1.2⟩
      · have hlive : Live tableid y.1 := ⟨htable, hcmd⟩
        cases hnull : (valueOf fields (currentRow y.1.2) n).isnull with
        | false =>
            rw [hnull, if_neg (by simp)] at hkey
            rw [satisfies_iff hnull hkey,
              (agreesOn_iff h hcase hread hkey).mpr
                (hwhen.agrees _ hmem hlive hnull _ hkey)]
            exact ⟨fun hc => ⟨hlive, hc⟩, fun hc => hc.2⟩
        | true =>
            rw [hnull, if_pos rfl] at hkey
            obtain ⟨hstart, hothers⟩ := hwhen.null _ hmem hlive hnull
            have hfalse : Compares f p y.2 = false := by
              rcases hkey with hkey | ⟨z, hz, hztable, hznull, hzkey⟩
              · rw [hkey]
                exact hstart old hold
              · have hz := hperm.mem_iff.mp hz
                by_cases hzcmd : z.2.cmd = .delete
                · rw [currentRow_delete hzcmd] at hzkey
                  exact hwhen.deleted z hz hztable hzcmd _ hzkey
                · exact hothers z hz ⟨hztable, hzcmd⟩ hznull _ hzkey
            rw [hfalse]
            exact ⟨fun hc => absurd hc (by simp),
              fun hc => absurd hc.2 (not_satisfies_null h hunary hnull)⟩
    refine ⟨_, _, stagedPredicate_compare h horder hunary hcase hread hold,
      fun uur r => ?_, fun hask => ?_⟩
    · rw [putAll_none (nodup_scanned horder.nodup)]
      constructor
      · rintro ⟨y, hy, huur, hc, hr⟩
        obtain ⟨hlive, hsat⟩ := (hright y hy).mp hc
        exact ⟨y.1, (mem_scanned htype hy).1, huur, hlive, hsat, hr⟩
      · rintro ⟨x, hx, huur, hlive, hsat, hr⟩
        obtain ⟨k, hk⟩ := @exists_scanned fields n f tableid x hlive.1 order
          old hx
        exact ⟨(x, k), hk, huur, (hright _ hk).mpr ⟨hlive, hsat⟩, hr⟩
    · -- The engines are not asked: an equality on an integer was answered.
      have hhit : p.operatortype = .eq ∧ f.type = .int ∧
          ∃ y ∈ scanned fields n f tableid old order,
            Compares f p y.2 = true := by
        cases hop : p.operatortype <;> rw [hop] at hask <;>
          simp [Ast.asksEngines] at hask
        obtain ⟨hint, uur, sr, k, hy, hc⟩ := hask
        exact ⟨rfl, hint, ((uur, sr), k), hy, hc⟩
      obtain ⟨hop, hint, y, hy, hc⟩ := hhit
      obtain ⟨hlive, hsat⟩ := (hright y hy).mp hc
      have hmem := hperm.mem_iff.mp (mem_scanned htype hy).1
      intro c hc hother
      refine hwhen.hides hint hop y.1 hmem hlive hsat c hc fun hin => ?_
      exact hother ((hperm.map Prod.fst).mem_iff.mpr hin)

theorem stagedLoop_unary {op : Operatortype}
    {all rest : List (UuRecord × StagedRow)} {x : UuRecord × StagedRow}
    {fieldValues : List FieldValue} {results : Statement.PredicateResults}
    {hit : Bool} (hx : x.1.tableid = tableid) :
    Statement.stagedLoop fields op tableid none right inValues all (x :: rest)
      fieldValues results hit = none := by
  obtain ⟨uur, stagedRow⟩ := x
  rw [Statement.stagedLoop]
  exact if_neg (not_not.mpr hx)

theorem stagedLoop_noCase {op : Operatortype}
    {all rest : List (UuRecord × StagedRow)} {x : UuRecord × StagedRow}
    {fieldValues : List FieldValue} {results : Statement.PredicateResults}
    {hit : Bool} (hf : fields[n]? = some f)
    (hcase : Statement.hasCase f.type op = false)
    (hx : x.1.tableid = tableid) :
    Statement.stagedLoop fields op tableid (some n) right inValues all
      (x :: rest) fieldValues results hit = some (hit, results) := by
  obtain ⟨uur, stagedRow⟩ := x
  rw [Statement.stagedLoop]
  dsimp only
  rw [if_neg (not_not.mpr hx), hf]
  dsimp only
  rw [hcase, Bool.not_false, if_pos rfl]

/-- An operand that cannot be read leaves the search without a result. -/
theorem stagedLoop_unreadable (h : PredicateOn matching fields n f p m right)
    (hunary : Statement.unary p.operatortype = false)
    (hcase : Statement.hasCase f.type p.operatortype = true)
    (hread : Readable f p = false)
    {all rest : List (UuRecord × StagedRow)} {x : UuRecord × StagedRow}
    {fieldValues : List FieldValue} {results : Statement.PredicateResults}
    {hit : Bool} (hx : x.1.tableid = tableid) :
    Statement.stagedLoop fields p.operatortype tableid (some n) right inValues
      all (x :: rest) fieldValues results hit = none := by
  obtain ⟨k, hk⟩ := key_isSome
    ((unmakerowInto fields (currentRow x.2) fieldValues).getD n {})
    (type_of_hasCase hcase)
  rw [stagedLoop_own hunary h.field hcase hx hk,
    comparison_eq h hunary hcase, hread, if_neg (by simp)]

/-- `b = 10`. -/
def equalsTen : SearchPredicate := .compare .eq (.integer 10)

def equalsTenKey : Predicate Key := .compare .eq (some (.integer 10))

theorem predicateOn_equalsTen :
    PredicateOn (fun _ _ => false) twoInts 1 ⟨.int, 0, .none⟩ equalsTen
      equalsTenKey (integerOperand 10) :=
  ⟨by decide, rfl, rfl, rfl⟩

/-- A row that a search has found, staged. -/
def selectedRow (rowid : Int) (a b : BitVec 64) : UuRecord × StagedRow :=
  (⟨rowid, 1, 0⟩,
    { cmd := .nocommand, originalrowid := rowid
      originalRow := rowOfInts a b })

theorem rowOf_rowOfInts (a b : BitVec 64) : RowOf twoInts (rowOfInts a b) := by
  refine ⟨_, rfl, .cons ?_ (.cons ?_ .nil)⟩
  · exact fun h => absurd h (by decide)
  · exact fun h => absurd h (by decide)

theorem staged_selectedRow (a b : BitVec 64) :
    Staged twoInts 1 [selectedRow 1 a b] := by
  refine ⟨by simp, fun x hx _ => ?_⟩
  obtain rfl := List.mem_singleton.mp hx
  exact rowOf_rowOfInts a b

end Infinisql.Proofs
