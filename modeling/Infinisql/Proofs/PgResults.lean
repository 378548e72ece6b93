import Infinisql.Proofs.OutputStream
import Infinisql.Spec.PgResults

/-!
# A client reads the result that was selected

What a session puts into its output for a result is a description and the
rows, as messages, and each is taken apart again by the parser of its format,
field by field. Two things set limits to this. INT and UINT are described
alike, so that what a client can know of types is what they are called in the
protocol. And lengths are numbers of four bytes with a sign: a message that is
longer than such a number has a length that is not its own.
-/

namespace Infinisql.Proofs.Client

open Infinisql.Lib Infinisql.Lib.Parser
open Infinisql.Ref (Bytes FieldValue Fieldtype)
open Infinisql.Ref.Output
open Infinisql.Spec.Output (BackendMessage description rowDescription values
  dataRow)
open Infinisql.Spec.Client

/-! ## Numbers -/

theorem takes_htobe {n : Nat} (hn : 0 < n) {v : Int}
    (hlow : -(2 ^ (8 * n - 1) : Nat) ≤ v)
    (hhigh : v < (2 ^ (8 * n - 1) : Nat)) :
    Takes (Parser.int n) (htobe n v) v := takes_int hn hlow hhigh

theorem takes_length {n : Nat} (h : n < 2 ^ 31) :
    Takes (Parser.int 4) (htobe 4 n) n := by
  refine takes_htobe (by decide) ?_ ?_
  · exact Int.le_trans (by decide) (Int.natCast_nonneg n)
  · exact_mod_cast h

theorem lt_of_mem_repr {n : Nat} {c : Char} (h : c ∈ n.repr.toList) :
    c.toNat < 256 := by
  rw [Nat.toList_repr] at h
  have hdigit := Nat.isDigit_of_mem_toDigits (by decide) (by decide) h
  rw [Char.isDigit, Bool.and_eq_true, decide_eq_true_eq, decide_eq_true_eq]
    at hdigit
  have hle : c.toNat ≤ 57 := hdigit.2
  omega

theorem lt_of_mem_toString {v : Int} {c : Char} (h : c ∈ (toString v).toList) :
    c.toNat < 256 := by
  have hrepr : toString v = v.repr := rfl
  rw [hrepr, Int.repr_eq_if] at h
  split at h
  · exact lt_of_mem_repr h
  · rw [String.toList_append] at h
    rcases List.mem_append.mp h with h | h
    · rw [List.mem_singleton.mp h]
      decide
    · exact lt_of_mem_repr h

/-- The digits of a number are read as the number. -/
theorem ofDecimal_decimal (v : Int) : ofDecimal (decimal v) = some v := by
  have hchars : (decimal v).map (fun b => Char.ofNat b.toNat) =
      (toString v).toList := by
    rw [decimal, ascii, List.map_map]
    refine (List.map_congr_left fun c hc => ?_).trans (List.map_id _)
    show Char.ofNat (UInt8.ofNat c.toNat).toNat = c
    rw [UInt8.toNat_ofNat', Nat.mod_eq_of_lt (lt_of_mem_toString hc),
      Char.ofNat_toNat]
  rw [ofDecimal, hchars, String.ofList_toList]
  exact Int.toInt?_repr v

/-! ## Columns -/

/-- What a type is called, and its object identifier. -/
theorem typeOf_of_pgType {type : Fieldtype} {t : PgType}
    (h : pgType type = some t) :
    ∃ oid len : Int, Pg.typeOf type = some (oid, len) ∧
      PgType.ofOid oid = some t ∧
      Takes (Parser.int 4) (htobe 4 oid) oid ∧
      Takes (Parser.int 2) (htobe 2 len) len := by
  cases type with
  | nofieldtype | float => cases h
  | int | uint | bool | char | charx | varchar =>
      cases h
      exact ⟨_, _, rfl, rfl, takes_htobe (by decide) (by decide) (by decide),
        takes_htobe (by decide) (by decide) (by decide)⟩

theorem takes_column {field : Fieldtypename} {t : PgType}
    (htype : pgType field.type = some t) (hname : 0 ∉ field.name) :
    Takes column (description field) ⟨field.name, t⟩ := by
  obtain ⟨oid, len, htypeOf, hoid, hoid4, hlen2⟩ := typeOf_of_pgType htype
  have hzero4 : Takes (Parser.int 4) (htobe 4 0) 0 :=
    takes_htobe (by decide) (by decide) (by decide)
  have hzero2 : Takes (Parser.int 2) (htobe 2 0) 0 :=
    takes_htobe (by decide) (by decide) (by decide)
  have hend : Takes (do
      require ((0 : Int) = 0)
      let type ← lift (PgType.ofOid oid)
      pure (⟨field.name, type⟩ : Column)) [] ⟨field.name, t⟩ := by
    rw [hoid]
    exact (takes_require rfl).then ((takes_lift t).then (takes_pure _))
  have hall : Takes column ((field.name ++ [0]) ++ (htobe 4 0 ++ (htobe 2 0 ++
      (htobe 4 oid ++ (htobe 2 len ++ (htobe 4 0 ++ (htobe 2 0 ++ [])))))))
      ⟨field.name, t⟩ := by
      refine (takes_untilZero hname).bind ?_
      refine hzero4.bind ?_
      refine hzero2.bind ?_
      refine hoid4.bind ?_
      refine hlen2.bind ?_
      refine hzero4.bind ?_
      exact hzero2.bind hend
  rw [description, htypeOf]
  simpa only [List.append_assoc, List.append_nil] using hall

theorem columnsOf_cons {field : Fieldtypename} {fields : List Fieldtypename}
    {t : PgType} (h : pgType field.type = some t) :
    columnsOf (field :: fields) = ⟨field.name, t⟩ :: columnsOf fields := by
  rw [columnsOf, List.filterMap_cons_some (by rw [h]; rfl)]
  rfl

/-! ## Values -/

/-- The text of a value is read as the value. -/
theorem read_textOf {host : Host} {type : Fieldtype} {t : PgType}
    {val : FieldValue} {text : Bytes} (htype : pgType type = some t)
    (htext : Pg.textOf host type val = some text) :
    t.read text = some (datumOf type val) := by
  cases type with
  | nofieldtype | float => cases htype
  | int =>
      cases htype
      cases htext
      show (ofDecimal (decimal val.value.integer)).map Datum.int8 = _
      rw [ofDecimal_decimal]
      rfl
  | uint =>
      cases htype
      cases htext
      show (ofDecimal (decimal val.value.uinteger)).map Datum.int8 = _
      rw [ofDecimal_decimal]
      rfl
  | bool =>
      cases htype
      cases htext
      show PgType.bool.read _ = some (Datum.bool val.value.boolean)
      cases val.value.boolean <;> rfl
  | char =>
      cases htype
      cases htext
      rfl
  | charx | varchar =>
      cases htype
      cases htext
      rfl

theorem takes_null (type : PgType) :
    Takes (datum type) (htobe 4 (-1)) none := by
  have hlen : Takes (Parser.int 4) (htobe 4 (-1)) (-1) :=
    takes_htobe (by decide) (by decide) (by decide)
  have hall : Takes (datum type) (htobe 4 (-1) ++ []) none := by
    refine hlen.bind ?_
    rw [if_pos rfl]
    exact takes_pure none
  rwa [List.append_nil] at hall

theorem takes_datum {type : PgType} {text : Bytes} {v : Datum}
    (hread : type.read text = some v) (hlen : text.length < 2 ^ 31) :
    Takes (datum type) (htobe 4 text.length ++ text) (some v) := by
  refine (takes_length hlen).bind ?_
  rw [if_neg (by omega)]
  have hnonneg : (0 : Int) ≤ text.length := Int.natCast_nonneg _
  refine (takes_require hnonneg).then ?_
  have hend : Takes (do
      let v ← lift (type.read text)
      pure (some v)) [] (some v) := by
    rw [hread]
    exact (takes_lift v).then (takes_pure _)
  have hall : Takes (do
      let text ← Parser.bytes text.length
      let v ← lift (type.read text)
      pure (some v)) (text ++ []) (some v) := (takes_bytes rfl).bind hend
  rwa [List.append_nil] at hall

theorem values_cons (host : Host) (field : Fieldtypename)
    (fields : List Fieldtypename) (val : FieldValue) (vals : List FieldValue) :
    values host (field :: fields) (val :: vals) =
      (if val.isnull then htobe 4 (-1)
        else htobe 4 ((Pg.textOf host field.type val).getD []).length ++
          (Pg.textOf host field.type val).getD []) ++
        values host fields vals := rfl

/-- The values of a row, one behind the other. -/
theorem takes_values {host : Host} {fields : List Fieldtypename}
    {vals : List FieldValue}
    (htypes : ∀ field ∈ fields, (pgType field.type).isSome)
    (hvals : vals.length = fields.length)
    (hlen : (values host fields vals).length < 2 ^ 31) :
    Takes (forAll (fun col => datum col.type) (columnsOf fields))
      (values host fields vals) (datumsOf fields vals) := by
  induction fields generalizing vals with
  | nil => exact takes_pure []
  | cons field fields ih =>
      obtain ⟨t, ht⟩ := Option.isSome_iff_exists.mp
        (htypes field (List.mem_cons_self ..))
      cases vals with
      | nil => simp at hvals
      | cons val vals =>
          rw [values_cons, List.length_append] at hlen
          have hlength : vals.length = fields.length :=
            Nat.succ_injective hvals
          have hrest := ih (fun f hf => htypes f (List.mem_cons_of_mem _ hf))
            hlength (by omega)
          rw [columnsOf_cons ht, values_cons]
          refine takes_forAll_cons (a := if val.isnull then none
            else some (datumOf field.type val)) ?_ hrest
          by_cases hnull : val.isnull
          · rw [if_pos hnull, if_pos hnull]
            exact takes_null t
          · rw [if_neg hnull] at hlen
            rw [if_neg hnull, if_neg hnull]
            obtain ⟨text, htext⟩ := Output.textOf_isSome host field val
            rw [htext, Option.getD_some] at hlen ⊢
            rw [List.length_append] at hlen
            exact takes_datum (read_textOf ht htext) (by omega)

/-! ## Messages -/

theorem length_htobe (n : Nat) (v : Int) : (htobe n v).length = n := by
  rw [htobe, List.length_reverse, length_leBytes]

theorem length_ascii_toString (c : Char) : (ascii c.toString).length = 1 := by
  simp [ascii]

theorem takes_message {α : Type} {p : Parser α} {m : BackendMessage} {a : α}
    (hcount : LengthFits m) (hbody : Takes p m.body a) :
    Takes (message m.type p) m.bytes a := by
  have hlength : Takes (Parser.int 4) (htobe 4 (m.body.length + 4))
      (m.body.length + 4 : Nat) := takes_length hcount
  have hfour : (4 : Int) ≤ ((m.body.length + 4 : Nat) : Int) := by omega
  have htake : Takes (Parser.bytes
      (((m.body.length + 4 : Nat) : Int) - 4).toNat) m.body m.body :=
    takes_bytes (by omega)
  have hframe : Takes (body m.type) (ascii m.type.toString ++
      (htobe 4 (m.body.length + 4) ++ m.body)) m.body :=
    (takes_bytes (length_ascii_toString _)).bind
      ((takes_require rfl).then (hlength.bind
        ((takes_require hfour).then htake)))
  have hrun : Takes (lift (Parser.run p m.body)) [] a := by
    rw [run_eq hbody]
    exact takes_lift a
  have hall : Takes (message m.type p) (ascii m.type.toString ++
      (htobe 4 (m.body.length + 4) ++ m.body) ++ []) a := hframe.bind hrun
  rwa [List.append_nil, ← List.append_assoc] at hall

/-- As many fields as there are, if they can be counted. -/
theorem take_numfields {fields : List Fieldtypename}
    (h : fields.length < 2 ^ 15) :
    fields.take (Pg.numfields fields) = fields := by
  rw [Pg.numfields, Nat.mod_eq_of_lt (by omega), if_pos h]
  exact List.take_length

theorem takes_count {n : Nat} (h : n < 2 ^ 15) :
    Takes (Parser.int 2) (htobe 2 n) n := by
  refine takes_htobe (by decide) ?_ ?_
  · exact Int.le_trans (by decide) (Int.natCast_nonneg n)
  · exact_mod_cast h

theorem columnsOf_eq_map {fields : List Fieldtypename}
    (h : ∀ field ∈ fields, (pgType field.type).isSome) :
    columnsOf fields = fields.map fun field =>
      ⟨field.name, (pgType field.type).getD .int8⟩ := by
  induction fields with
  | nil => rfl
  | cons field fields ih =>
      obtain ⟨t, ht⟩ := Option.isSome_iff_exists.mp
        (h field (List.mem_cons_self ..))
      rw [columnsOf_cons ht, ih fun f hf => h f (List.mem_cons_of_mem _ hf),
        List.map_cons, ht]
      rfl

theorem takes_columns {results : Results} (h : Selected results) :
    Takes columns (rowDescription results.selectFields).body
      (columnsOf results.selectFields) := by
  have hnonneg : (0 : Int) ≤ results.selectFields.length :=
    Int.natCast_nonneg _
  have hfield : ∀ field ∈ results.selectFields,
      Takes column (description field)
        ⟨field.name, (pgType field.type).getD .int8⟩ := by
    intro field hfield
    obtain ⟨t, ht⟩ := Option.isSome_iff_exists.mp (h.types field hfield)
    rw [ht]
    exact takes_column ht (h.names field hfield)
  have htimes := takes_times hfield
  have hall := (takes_count h.count).bind (f := fun n => do
    require (0 ≤ n)
    times column n.toNat) ((takes_require hnonneg).then (by
      rw [Int.toNat_natCast]
      exact htimes))
  rw [← columnsOf_eq_map h.types] at hall
  rw [rowDescription, take_numfields h.count]
  exact hall

theorem length_columnsOf {results : Results} (h : Selected results) :
    (columnsOf results.selectFields).length = results.selectFields.length := by
  rw [columnsOf_eq_map h.types, List.length_map]

theorem takes_row {host : Host} {results : Results} (h : Selected results)
    {vals : List FieldValue} (hvals : vals ∈ results.selectResults)
    (hcount : LengthFits (dataRow host results.selectFields vals)) :
    Takes (row (columnsOf results.selectFields))
      (dataRow host results.selectFields vals).body
      (datumsOf results.selectFields vals) := by
  rw [LengthFits, dataRow, take_numfields h.count] at hcount
  rw [dataRow, take_numfields h.count]
  rw [List.length_append] at hcount
  refine (takes_count h.count).bind ((takes_require ?_).then
    (takes_values h.types (h.rows vals hvals) (by omega)))
  rw [length_columnsOf h]
/-! ## Results -/

/-- The messages of a result. -/
def messagesOf (host : Host) (results : Results) : List BackendMessage :=
  rowDescription results.selectFields ::
    results.selectResults.map (dataRow host results.selectFields)

theorem length_bytes_pos (m : BackendMessage) : 0 < m.bytes.length := by
  rw [BackendMessage.bytes, List.length_append, List.length_append,
    length_ascii_toString]
  omega

theorem length_le_bytes (ms : List BackendMessage) :
    ms.length ≤ (ms.flatMap BackendMessage.bytes).length := by
  induction ms with
  | nil => exact Nat.zero_le _
  | cons m ms ih =>
      have hpos := length_bytes_pos m
      rw [List.flatMap_cons, List.length_append, List.length_cons]
      omega

theorem result_messagesOf {host : Host} {results : Results}
    (h : Selected results)
    (hcount : ∀ m ∈ messagesOf host results, LengthFits m) :
    result (Spec.Output.bytes (messagesOf host results)) =
      some (columnsOf results.selectFields,
        results.selectResults.map (datumsOf results.selectFields)) := by
  have hdesc := takes_message (hcount _ (List.mem_cons_self ..))
    (takes_columns h)
  have hrows : ∀ vals ∈ results.selectResults,
      Takes (message 'D' (row (columnsOf results.selectFields)))
        (dataRow host results.selectFields vals).bytes
        (datumsOf results.selectFields vals) := by
    intro vals hvals
    have hmem : dataRow host results.selectFields vals ∈
        messagesOf host results :=
      List.mem_cons_of_mem _ (List.mem_map_of_mem hvals)
    exact takes_message (m := dataRow host results.selectFields vals)
      (hcount _ hmem) (takes_row h hvals (hcount _ hmem))
  have hfuel := length_le_bytes
    (results.selectResults.map (dataRow host results.selectFields))
  rw [List.length_map, List.flatMap_map] at hfuel
  have hend := toEnd_eq hrows (fun vals _ hnil => by
    have hpos := length_bytes_pos (dataRow host results.selectFields vals)
    rw [hnil, List.length_nil] at hpos
    omega) hfuel
  have hfirst : message 'T' columns
      (Spec.Output.bytes (messagesOf host results)) =
      some (columnsOf results.selectFields,
        results.selectResults.flatMap fun vals =>
          (dataRow host results.selectFields vals).bytes) := by
    rw [Spec.Output.bytes, messagesOf, List.flatMap_cons, List.flatMap_map]
    exact hdesc _
  rw [result, hfirst]
  dsimp only
  rw [Parser.run, hend]
  rfl

/-- What is put into the output is read as the result. -/
theorem result_roundTrip {host : Host} {pg : Pg} (h : pg.outmsg = [])
    (hselected : Selected pg.results)
    (hcount : ∀ m ∈ messagesOf host pg.results, LengthFits m) :
    ∃ appended, (pg.putRowDescription.putDataRows host).outbuf =
        pg.outbuf ++ appended ∧
      result appended = some (columnsOf pg.results.selectFields,
        pg.results.selectResults.map (datumsOf pg.results.selectFields)) := by
  refine ⟨_, ?_, result_messagesOf hselected hcount⟩
  rw [Output.putRowDescription_eq h,
    Output.putDataRows_eq ((Output.queue_outmsg _ _).trans h),
    Output.queue_queue]
  rfl
/-- A row of a number and a text, and one of NULLs. -/
theorem result_roundTrip_two :
    ∃ appended,
      (({ results := {
            selectFields := [⟨.uint, ascii "n", by decide⟩,
              ⟨.varchar, ascii "s", by decide⟩]
            selectResults := [[{ value := 7#128 }, { str := ascii "x" }],
              [{ isnull := true }, { isnull := true }]] } } :
          Pg).putRowDescription.putDataRows ⟨fun _ => [], []⟩).outbuf =
        [] ++ appended ∧
      result appended = some ([⟨ascii "n", .int8⟩, ⟨ascii "s", .varchar⟩],
        [[some (.int8 7), some (.text (ascii "x"))], [none, none]]) :=
  result_roundTrip rfl
    ⟨by simp [pgType], by decide, show 2 < 2 ^ 15 by decide, by simp⟩
    (show ∀ m ∈ messagesOf _ _, m.body.length + 4 < 2 ^ 31 by decide)

/-! ## What cannot be read -/

/-- What a new session with this result puts into its output. -/
def output (host : Host) (results : Results) : Bytes :=
  (({ results } : Pg).putRowDescription.putDataRows host).outbuf

theorem output_eq (host : Host) (results : Results) :
    output host results = Spec.Output.bytes (messagesOf host results) := by
  rw [output, Output.putRowDescription_eq rfl, Output.putDataRows_eq rfl,
    Output.queue_queue]
  rfl

/-- A message that is too long by less than twice as much has a negative
length. -/
theorem message_tooLong {α : Type} {p : Parser α} {m : BackendMessage}
    (hlong : 2 ^ 31 ≤ m.body.length + 4) (hless : m.body.length + 4 < 2 ^ 32)
    (rest : Bytes) : message m.type p (m.bytes ++ rest) = none := by
  have hlength : Takes (Parser.int 4) (htobe 4 (m.body.length + 4))
      (Int.bmod (m.body.length + 4) (2 ^ 32)) := takes_bmod (by decide) _
  have hneg : ¬ 4 ≤ Int.bmod (m.body.length + 4) (2 ^ 32) := by
    rw [Int.bmod, Int.emod_eq_of_lt (by omega) (by omega), if_neg (by omega)]
    omega
  have hbody : body m.type (ascii m.type.toString ++ ([] ++
      (htobe 4 (m.body.length + 4) ++ (m.body ++ rest)))) = none :=
    (takes_bytes (length_ascii_toString _)).bind_none
      ((takes_require rfl).bind_none
        (hlength.bind_none (bind_eq_none (if_neg hneg))))
  refine bind_eq_none ?_
  rw [BackendMessage.bytes, List.append_assoc, List.append_assoc]
  exact hbody

/-- One field of this type, and no rows. -/
def oneField (type : Fieldtype) (h : type ≠ .nofieldtype) : Results :=
  { selectFields := [⟨type, ascii "a", h⟩] }

/-- One row with one text of this length. -/
def oneText (n : Nat) : Results :=
  { selectFields := [⟨.varchar, ascii "a", by decide⟩]
    selectResults := [[{ str := List.replicate n 97 }]] }

theorem selected_oneText (n : Nat) : Selected (oneText n) where
  types field hfield := by
    rw [List.mem_singleton.mp hfield]
    rfl
  names field hfield := by
    rw [List.mem_singleton.mp hfield]
    show 0 ∉ ascii "a"
    decide
  count := show 1 < 2 ^ 15 by decide
  rows vals hvals := by
    rw [List.mem_singleton.mp hvals]
    rfl

/-- From the length on that is not a number of four bytes with a sign, a text
cannot be read. -/
theorem result_oneText (host : Host) {n : Nat} (hlong : 2 ^ 31 ≤ n)
    (hless : n + 10 < 2 ^ 32) : result (output host (oneText n)) = none := by
  have hselected := selected_oneText n
  have hdesc := takes_message (m := rowDescription (oneText n).selectFields)
    (show LengthFits _ by
      show (rowDescription (oneText 0).selectFields).body.length + 4 < 2 ^ 31
      decide) (takes_columns hselected)
  have hrow : (dataRow host (oneText n).selectFields
      [{ str := List.replicate n 97 }]).body.length = n + 6 := by
    show (htobe 2 1 ++ ((htobe 4 (List.replicate n (97 : UInt8)).length ++
      List.replicate n 97) ++ [])).length = _
    simp only [List.length_append, length_htobe, List.length_replicate,
      List.length_nil]
    omega
  have hlast := message_tooLong (p := row (columnsOf (oneText n).selectFields))
    (m := dataRow host (oneText n).selectFields
      [{ str := List.replicate n 97 }]) (by omega) (by omega) []
  have hall : Spec.Output.bytes (messagesOf host (oneText n)) =
      (rowDescription (oneText n).selectFields).bytes ++
        ((dataRow host (oneText n).selectFields
          [{ str := List.replicate n 97 }]).bytes ++ []) := rfl
  have hfirst : message 'T' columns (output host (oneText n)) =
      some (columnsOf (oneText n).selectFields,
        (dataRow host (oneText n).selectFields
          [{ str := List.replicate n 97 }]).bytes ++ []) := by
    rw [output_eq, hall]
    exact hdesc _
  rw [result, hfirst]
  dsimp only
  have hpos := length_bytes_pos (dataRow host (oneText n).selectFields
    [{ str := List.replicate n 97 }])
  generalize hrest : (dataRow host (oneText n).selectFields
    [{ str := List.replicate n 97 }]).bytes ++ [] = rest at hlast ⊢
  rw [List.append_nil] at hrest
  rw [hrest] at hpos
  cases rest with
  | nil => exact absurd hpos (by decide)
  | cons b rest =>
      have hrows : toEnd (message 'D' (row (columnsOf
          (oneText n).selectFields))) (rest.length + 1) (b :: rest) = none := by
        rw [toEnd_succ (List.cons_ne_nil b rest)]
        exact bind_eq_none hlast
      rw [List.length_cons, Parser.run, hrows]
      rfl

theorem selected_oneField {type : Fieldtype} (h : type ≠ .nofieldtype)
    (htype : (pgType type).isSome) : Selected (oneField type h) where
  types field hfield := by
    rw [List.mem_singleton.mp hfield]
    exact htype
  names field hfield := by
    rw [List.mem_singleton.mp hfield]
    show 0 ∉ ascii "a"
    decide
  count := show 1 < 2 ^ 15 by decide
  rows vals hvals := by cases hvals

/-- INT and UINT look alike, and a text of two gibibytes is not read. -/
theorem result_not_roundTrip :
    (Selected (oneField .int (by decide)) ∧
      Selected (oneField .uint (by decide)) ∧
      output ⟨fun _ => [], []⟩ (oneField .int (by decide)) =
        output ⟨fun _ => [], []⟩ (oneField .uint (by decide))) ∧
    Selected (oneText (2 ^ 31)) ∧
      result (output ⟨fun _ => [], []⟩ (oneText (2 ^ 31))) = none :=
  ⟨⟨selected_oneField _ rfl, selected_oneField _ rfl, rfl⟩,
    selected_oneText _, result_oneText _ (Nat.le_refl _) (by decide)⟩

end Infinisql.Proofs.Client
