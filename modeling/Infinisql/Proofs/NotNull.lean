import Infinisql.Proofs.UpdateRows
import Infinisql.Ref.Statements

/-!
# Null constraints

Only `CMD_INSERT` looks whether a null is allowed. An UPDATE takes the null of
its assignment, in place or not, and the engines install what they are sent.
So a null constraint holds in all tables as long as no UPDATE assigns a null
to a field that has one. There is a second way to a row that was never
checked: without a WHERE clause an UPDATE also visits the rows of other tables
that the transaction has staged, and overwrites them with rows of its own
table.

A null comes out of an assignment only where a null was written, as a literal
or as a parameter, also for the second row and those after it. What the row
strings say of the other fields does not change on the way.
-/

namespace Infinisql.Proofs

open Infinisql.Ref Infinisql.Lib Infinisql.Spec

/-! ## Row strings without forbidden nulls -/

/-- A row string of a table that meets the null constraints. -/
def NotNulls (fields : List Field) (row : Bytes) : Prop :=
  ∀ (n : Nat) (f : Field), fields[n]? = some f →
    f.indextype.isnotnull = true → (valueOf fields row n).isnull = false

/-- An empty string reads as zeros. -/
theorem notNulls_nil (fields : List Field) : NotNulls fields [] := by
  have hread : ∀ (n pos : Nat) (f : Field), fields[n]? = some f →
      ((unmakefields [] fields pos).getD n {}).isnull = false := by
    induction fields with
    | nil => exact fun n pos f hf => absurd hf (by simp)
    | cons g fields ih =>
        intro n pos f hf
        rw [unmakefields, if_neg (by simp), if_pos (by rfl)]
        cases n with
        | succ n => exact ih n _ f hf
        | zero =>
            show (unmakefield g [] (pos + 1)).1.isnull = false
            cases hg : g.type <;> simp [unmakefield, hg]
  exact fun n f hf _ => hread n 0 f hf

/-- A row that a machine can hold is made of values that fit. -/
theorem fits_of_makerow {fields : List Field} {vs : List FieldValue}
    {row : Bytes} (hrow : makerow fields vs = some row)
    (hlen : row.length < 2 ^ 64) : List.Forall₂ Fits fields vs := by
  obtain ⟨hlength, _, hsize⟩ := makerow_eq_some hrow
  refine List.forall₂_iff_get.mpr ⟨hlength, fun i hi hi' hvar => ?_⟩
  have hsum := fieldOffset_add_fieldsize (List.getElem?_eq_getElem hi)
    (List.getElem?_eq_getElem hi')
  rw [fieldsize, show fields[i].type = .varchar from hvar] at hsum
  dsimp only at hsum
  show vs[i].str.length < 2 ^ 64
  omega

/-- A row has the nulls of the values it was made of, and no others. -/
theorem notNulls_makerow {fields : List Field} {vs : List FieldValue}
    {row : Bytes} (hrow : makerow fields vs = some row)
    (hlen : row.length < 2 ^ 64)
    (hvs : ∀ (n : Nat) (f : Field) (v : FieldValue), fields[n]? = some f →
      vs[n]? = some v → f.indextype.isnotnull = true → v.isnull = false) :
    NotNulls fields row := by
  intro n f hf hn
  have hlt : n < vs.length := by
    rw [← (makerow_eq_some hrow).1]
    exact (List.getElem?_eq_some_iff.mp hf).1
  have hv := List.getElem?_eq_getElem hlt
  rw [valueOf_makerow_of_fits hrow (fits_of_makerow hrow hlen) hf hv]
  split
  · rfl
  · rw [stored_isnull]
    exact hvs n f _ hf hv hn

/-! ## Assignments without nulls -/

variable {ld : LongDouble} {top : Topology} {tableid : Int}
  {fields : List Field} {parameters : List Bytes}

/-- The values of the parameters are not parameters themselves. -/
def Bound (parameters : List Bytes) : Prop :=
  ∀ p ∈ parameters, operandType p ≠ operandParameter

/-- Neither a null nor a parameter. -/
def Plain (s : Bytes) : Prop :=
  operandType s ≠ operandNull ∧ operandType s ≠ operandParameter

/-- A tree that does not come out null. An operator that cannot be applied
comes out as the operand it has. -/
def NullFree (parameters : List Bytes) : Ast → Prop
  | .operand s => ¬ NullLiteral parameters (.operand s)
  | .binary _ s _ _ => Plain s
  | .negation s _ => Plain s

theorem nullFree_of_parsed {ast : Ast} (hparsed : Parsed ast)
    (h : ¬ NullLiteral parameters ast) : NullFree parameters ast := by
  have hempty : Plain [] := ⟨by decide, by decide⟩
  cases ast with
  | operand s => exact h
  | binary op s l r => exact (hparsed.1.symm ▸ hempty : Plain s)
  | negation s r => exact (hparsed.1.symm ▸ hempty : Plain s)

theorem nullFree_of_plain {ast : Ast} (h : Plain ast.getOperand) :
    NullFree parameters ast := by
  cases ast with
  | operand s =>
      have h : Plain s := h
      rw [NullFree, NullLiteral, if_neg h.2]
      exact h.1
  | binary op s l r => exact h
  | negation s r => exact h

theorem NullFree.evaluate {fieldValues : List FieldValue} {ast ast' : Ast}
    (hbound : Bound parameters) (hfree : NullFree parameters ast)
    (h : ast.evaluateAssignment ld fields fieldValues parameters = some ast') :
    Plain ast'.getOperand := by
  rcases getOperand_of_evaluate h with hres | ⟨s, rfl, hp, hget⟩ | ⟨heq, hp⟩
  · exact ne_of_result hres
  · rw [NullFree, NullLiteral, if_pos hp] at hfree
    refine ⟨fun hnull => hfree ⟨_, hget, hnull⟩, ?_⟩
    exact hbound _ (List.mem_of_getElem? hget)
  · rw [heq]
    cases ast with
    | operand s =>
        rw [NullFree, NullLiteral, if_neg (hp s rfl)] at hfree
        exact ⟨hfree, hp s rfl⟩
    | binary op s l r => exact hfree
    | negation s r => exact hfree

/-- The value set is null only if the operand is. -/
theorem assignedValue_isnull {f : Field} {s : Bytes} {w : FieldValue}
    (hs : operandType s ≠ operandNull)
    (h : Statement.assignedValue f s = some w) : w.isnull = false := by
  rw [Statement.assignedValue, if_neg hs] at h
  cases hf : f.type <;> rw [hf] at h
  case nofieldtype => exact absurd h (by simp)
  all_goals rw [← Option.some.inj h]

/-- No field with a null constraint is assigned a null. -/
def AssignsNotNull (fields : List Field) (parameters : List Bytes)
    (assignments : Statement.Assignments) : Prop :=
  ∀ p ∈ assignments, ∀ f, fields[p.1]? = some f →
    f.indextype.isnotnull = true → NullFree parameters p.2

def SetsNotNull (fields : List Field) (setFields : Statement.SetFields) :
    Prop :=
  ∀ (n : Nat) (f : Field) (w : FieldValue), fields[n]? = some f →
    f.indextype.isnotnull = true → setFields n = some w → w.isnull = false

/-- One round of the loop over the assignments. -/
theorem assign_notNull {fieldValues : List FieldValue}
    (hbound : Bound parameters) {assignments : Statement.Assignments} :
    ∀ {assignments' : Statement.Assignments}
      {setFields setFields' : Statement.SetFields},
      AssignsNotNull fields parameters assignments →
      SetsNotNull fields setFields →
      Statement.assign ld fields fieldValues parameters assignments setFields =
        some (assignments', setFields') →
      AssignsNotNull fields parameters assignments' ∧
        SetsNotNull fields setFields' := by
  induction assignments with
  | nil =>
      intro assignments' setFields setFields' _ hset h
      injection h with h
      injection h with h1 h2
      subst h1 h2
      exact ⟨fun p hp => absurd hp (by simp), hset⟩
  | cons p rest ih =>
      intro assignments' setFields setFields' hfree hset h
      obtain ⟨n, ast⟩ := p
      rw [Statement.assign] at h
      split at h
      · next ast' f heval hf =>
          split at h
          · exact absurd h (by simp)
          · next w hw =>
              obtain ⟨⟨rest', set⟩, hrest, heq⟩ := Option.map_eq_some_iff.mp h
              injection heq with h1 h2
              subst h1 h2
              have hplain : f.indextype.isnotnull = true →
                  Plain ast'.getOperand := fun hn =>
                (hfree (n, ast) List.mem_cons_self f hf hn).evaluate hbound
                  heval
              have hset' : SetsNotNull fields
                  (Function.update setFields n (some w)) := by
                intro m g u hg hn hu
                by_cases hm : m = n
                · subst hm
                  obtain rfl := Option.some.inj (hf.symm.trans hg)
                  rw [Function.update_self] at hu
                  obtain rfl := Option.some.inj hu
                  exact assignedValue_isnull (hplain hn).1 hw
                · rw [Function.update_of_ne hm] at hu
                  exact hset m g u hg hn hu
              obtain ⟨h3, h4⟩ :=
                ih (fun p hp => hfree p (List.mem_cons_of_mem _ hp)) hset' hrest
              refine ⟨fun p hp g hg hn => ?_, h4⟩
              rcases List.mem_cons.mp hp with rfl | hp
              · obtain rfl := Option.some.inj (hf.symm.trans hg)
                exact nullFree_of_plain (hplain hn)
              · exact h3 p hp g hg hn
      · exact absurd h (by simp)

/-- The row of the values set, and of its own otherwise. -/
theorem notNulls_rowValues {setFields : Statement.SetFields} {row new : Bytes}
    (hset : SetsNotNull fields setFields) (hold : NotNulls fields row)
    (hlen : new.length < 2 ^ 64)
    (hnew : makerow fields (rowValues top fields setFields row) = some new) :
    NotNulls fields new := by
  refine notNulls_makerow hnew hlen fun n f v hf hv hn => ?_
  obtain ⟨u, hu, hkeep, hgiven⟩ :=
    @getElem?_rowValues top fields setFields row n f hf
  obtain rfl := Option.some.inj (hv.symm.trans hu)
  cases hw : setFields n with
  | none =>
      rw [hkeep hw]
      exact hold n f hf hn
  | some w =>
      rw [(hgiven w hw).1.isnull]
      exact hset n f w hf hn hw

/-! ## The rows of an UPDATE -/

/-- The row string in a message, with its table. -/
def sentRow : Statement.SubtransactionCmd → Option (Int × Bytes)
  | .newrow tableid row => some (tableid, row)
  | .updaterow tableid _ row => some (tableid, row)
  | .uniqueindex .. => none

/-- What was made of a row: the staged row is an update, and its new row is
what the messages carry. -/
structure MadeOf (tableid : Int) (p : UuRecord × ReturnRow)
    (q : UuRecord × Statement.Updated) : Prop where
  uur : q.1 = p.1
  cmd : q.2.stagedRow.cmd = .update
  sent : ∀ m ∈ q.2.sent, ∀ c, sentRow m.2 = some c →
    c.2 = q.2.stagedRow.newRow ∧ (c.1 = tableid ∨ c.1 = p.1.tableid)

theorem madeOf_updatedRow {stagedRows : UuRecord → StagedRow}
    {setFields : Statement.SetFields} {p : UuRecord × ReturnRow} :
    MadeOf tableid p
      (updatedRow top tableid fields stagedRows setFields p) := by
  rw [updatedRow]
  split
  · refine ⟨rfl, rfl, fun m hm c hc => ?_⟩
    rcases List.mem_append.mp hm with hm | hm
    · obtain ⟨a, _, rfl⟩ := List.mem_map.mp hm
      exact absurd hc (by simp [sentRow])
    · obtain rfl := List.mem_singleton.mp hm
      obtain rfl := Option.some.inj hc
      exact ⟨rfl, .inr rfl⟩
  · refine ⟨rfl, rfl, fun m hm c hc => ?_⟩
    obtain rfl := List.mem_singleton.mp hm
    obtain rfl := Option.some.inj hc
    exact ⟨rfl, .inl rfl⟩

/-- One row of an UPDATE: the loop, and what is made with what it set. -/
theorem updateRow_eq_some {assignments assignments' : Statement.Assignments}
    {setFields setFields' : Statement.SetFields}
    {stagedRows : UuRecord → StagedRow} {p : UuRecord × ReturnRow}
    {updated : Statement.Updated}
    (h : Statement.updateRow ld top tableid fields parameters assignments
      setFields p.1 p.2 (stagedRows p.1) =
        some (updated, assignments', setFields')) :
    Statement.assign ld fields (unmakerow fields p.2.row) parameters
        assignments setFields = some (assignments', setFields') ∧
      (p.1, updated) =
        updatedRow top tableid fields stagedRows setFields' p := by
  rw [Statement.updateRow] at h
  split at h
  · exact absurd h (by simp)
  · next a set hassign =>
      injection h with h
      injection h with h1 h2
      injection h2 with h2 h3
      subst h2 h3
      refine ⟨hassign, ?_⟩
      rw [updatedRow, ← h1]

theorem continueUpdate_notNull {stagedRows : UuRecord → StagedRow}
    (hbound : Bound parameters) {rows : List (UuRecord × ReturnRow)} :
    ∀ {assignments : Statement.Assignments} {setFields : Statement.SetFields}
      {staged : List (UuRecord × Statement.Updated)},
      AssignsNotNull fields parameters assignments →
      SetsNotNull fields setFields →
      (∀ p ∈ rows, NotNulls fields p.2.row) →
      Statement.continueUpdate ld top tableid fields parameters stagedRows
        assignments setFields rows = some staged →
      (∀ q ∈ staged, q.2.stagedRow.newRow.length < 2 ^ 64) →
      ∀ q ∈ staged, NotNulls fields q.2.stagedRow.newRow ∧
        ∃ p ∈ rows, MadeOf tableid p q := by
  induction rows with
  | nil =>
      intro assignments setFields staged _ _ _ h _ q hq
      injection h with h
      rw [← h] at hq
      exact absurd hq (by simp)
  | cons p rest ih =>
      intro assignments setFields staged hfree hset hrows h hlen q hq
      rw [Statement.continueUpdate] at h
      split at h
      · exact absurd h (by simp)
      · next updated assignments' setFields' hrow =>
          obtain ⟨staged', hrest, rfl⟩ := Option.map_eq_some_iff.mp h
          obtain ⟨hassign, hmade⟩ := updateRow_eq_some hrow
          obtain ⟨hfree', hset'⟩ := assign_notNull hbound hfree hset hassign
          rcases List.mem_cons.mp hq with rfl | hq
          · have hshort := hlen _ List.mem_cons_self
            rw [hmade] at hshort ⊢
            refine ⟨?_, p, List.mem_cons_self, madeOf_updatedRow⟩
            have hnew : makerow fields (rowValues top fields setFields'
                p.2.row) = some (updatedRow top tableid fields stagedRows
                  setFields' p).2.stagedRow.newRow := by
              rw [updatedRow_newRow, makerow,
                if_neg (by rw [length_rowValues]; simp)]
              rfl
            exact notNulls_rowValues hset' (hrows p List.mem_cons_self) hshort
              hnew
          · obtain ⟨h1, p', hp', h2⟩ := ih hfree' hset'
              (fun p hp => hrows p (List.mem_cons_of_mem _ hp)) hrest
              (fun q hq => hlen q (List.mem_cons_of_mem _ hq)) q hq
            exact ⟨h1, p', List.mem_cons_of_mem _ hp', h2⟩

/-! ## The row of an INSERT -/

theorem insertValues_notNull {operands : List Bytes} :
    ∀ {fields : List Field} {values : List FieldValue},
      Statement.insertValues fields operands = some (.ok values) →
      ∀ (n : Nat) (f : Field) (v : FieldValue), fields[n]? = some f →
        values[n]? = some v → f.indextype.isnotnull = true →
        v.isnull = false := by
  induction operands with
  | nil =>
      intro fields values h n f v _ hv
      rw [Statement.insertValues] at h
      injection h with h
      injection h with h
      rw [← h] at hv
      exact absurd hv (by simp)
  | cons o operands ih =>
      intro fields values h n f v hf hv hn
      cases fields with
      | nil => exact absurd hf (by simp)
      | cons g fields =>
          rw [Statement.insertValues] at h
          split at h
          · exact absurd h (by simp)
          · next hok =>
              obtain ⟨rest, hrest, heq⟩ := Option.map_eq_some_iff.mp h
              cases rest with
              | error status => exact absurd heq (by simp [Except.map])
              | ok values' =>
                  injection heq with heq
                  rw [← heq] at hv
                  cases n with
                  | zero =>
                      obtain rfl := Option.some.inj hf
                      obtain rfl := Option.some.inj hv
                      rw [hn, Bool.and_true] at hok
                      exact Bool.eq_false_iff.mpr hok
                  | succ n => exact ih hrest n f v hf hv hn

/-- The first null that is not allowed ends the statement. -/
theorem insertValues_error {operands : List Bytes} :
    ∀ {fields : List Field} {n : Nat} {f : Field} {o : Bytes},
      fields[n]? = some f → operands[n]? = some o →
      f.indextype.isnotnull = true → (insertValue f o).isnull = true →
      Statement.insertValues fields operands =
        some (.error .nullconstraint) := by
  induction operands with
  | nil => exact fun _ ho => absurd ho (by simp)
  | cons p operands ih =>
      intro fields n f o hf ho hn hnull
      cases fields with
      | nil => exact absurd hf (by simp)
      | cons g fields =>
          rw [Statement.insertValues]
          split
          · rfl
          · next hok =>
              cases n with
              | zero =>
                  obtain rfl := Option.some.inj hf
                  obtain rfl := Option.some.inj ho
                  rw [hn, hnull] at hok
                  exact absurd rfl hok
              | succ n =>
                  rw [List.getElem?_cons_succ] at hf ho
                  rw [ih hf ho hn hnull]
                  rfl

/-! ## The rows of a store -/

/-- Every object has a row string of a kind. -/
def HasRows (P : Bytes → Prop) (t : Table) : Prop := ∀ a, P (t.heap a).row

variable {P : Bytes → Prop} {t t' : Table}

theorem HasRows.of_heap (h : HasRows P t) (heq : t'.heap = t.heap) :
    HasRows P t' := by
  intro a
  rw [heq]
  exact h a

theorem HasRows.setAt (h : HasRows P t) {d : Rowdata} (hd : P d.row)
    (a : Addr) : HasRows P (t.setAt a d) := by
  intro b
  rw [(Table.setAt_fields t a d).1]
  by_cases hb : b = a
  · rw [hb, Function.update_self]
    exact hd
  · rw [Function.update_of_ne hb]
    exact h b

/-- An object that is rewritten keeps its row string. -/
theorem HasRows.rewrite (h : HasRows P t) {a : Addr} {d : Rowdata}
    (hd : d.row = (t.heap a).row) : HasRows P (t.setAt a d) :=
  h.setAt (hd.symm ▸ h a) a

theorem HasRows.alloc (h : HasRows P t) {d : Rowdata} (hd : P d.row) :
    HasRows P (t.alloc d) :=
  (h.setAt hd t.nextAddr).of_heap rfl

theorem HasRows.delete (h : HasRows P t) (a : Addr) :
    HasRows P (t.delete a) := h.of_heap rfl

theorem HasRows.setRow (h : HasRows P t) (rowid : Int) (p : Option Addr) :
    HasRows P (t.setRow rowid p) := h.of_heap rfl

theorem HasRows.setShadow (h : HasRows P t) (rowid : Int) (p : Option Addr) :
    HasRows P (t.setShadow rowid p) := h.of_heap rfl

theorem HasRows.setForwarder (h : HasRows P t) (rowid : Int)
    (f : Option ForwarderEntry) : HasRows P (t.setForwarder rowid f) :=
  h.of_heap rfl

theorem HasRows.dropShadow (h : HasRows P t) (rowid : Int) :
    HasRows P (t.dropShadow rowid) :=
  h.of_heap (Table.dropShadow_fields t rowid).1

theorem HasRows.newrow (h : HasRows P t) {row : Bytes} (hrow : P row)
    (rowid s : Int) : HasRows P (t.newrow rowid s row) :=
  ((h.alloc hrow).setRow _ _).setShadow _ _

theorem HasRows.updaterow (h : HasRows P t) {row : Bytes} (hrow : P row)
    (rowid s : Int) : HasRows P (t.updaterow rowid s row).2 := by
  rw [Table.updaterow]
  split
  · exact h
  · split
    · exact h
    · exact (h.alloc hrow).setShadow _ _

theorem HasRows.deleterow (h : HasRows P t) (rowid s : Int) :
    HasRows P (t.deleterow rowid s).2 := by
  rw [Table.deleterow]
  split
  · exact h
  · dsimp only
    split
    · exact h
    · exact h.rewrite rfl

theorem HasRows.replacedeleterow (h : HasRows P t) (rowid s fr fe : Int) :
    HasRows P (t.replacedeleterow rowid s fr fe).2 := by
  have hdel := h.deleterow rowid s
  rw [Table.replacedeleterow]
  split
  · next heq =>
      rw [heq] at hdel
      exact hdel
  · next heq =>
      rw [heq] at hdel
      split
      · exact hdel
      · refine HasRows.setForwarder ?_ _ _
        exact HasRows.rewrite (show HasRows P _ from hdel) rfl

theorem HasRows.dropReader (h : HasRows P t) {a : Addr} {s : Int}
    (heq : t.dropReader a s = some t') : HasRows P t' := by
  rw [Table.dropReader] at heq
  dsimp only at heq
  split at heq
  · exact absurd heq (by simp)
  · split at heq
    · obtain rfl := Option.some.inj heq
      exact h
    · split at heq
      · obtain rfl := Option.some.inj heq
        exact h.rewrite rfl
      · obtain rfl := Option.some.inj heq
        exact h.rewrite rfl

theorem HasRows.installShadow (h : HasRows P t) (rowid : Int) (a : Addr) :
    HasRows P (t.installShadow rowid a) := by
  rw [Table.installShadow]
  dsimp only
  split
  · exact h.rewrite rfl
  · split
    · refine HasRows.setShadow ?_ _ _
      exact h.rewrite rfl
    · refine HasRows.setShadow (HasRows.setRow (HasRows.delete ?_ _) _ _) _ _
      exact h.rewrite rfl

theorem HasRows.commitRow (h : HasRows P t) {rowid s : Int}
    (heq : t.commitRow rowid s = some t') : HasRows P t' := by
  rw [Table.commitRow] at heq
  split at heq
  · exact absurd heq (by simp)
  · dsimp only at heq
    split at heq
    · exact h.dropReader heq
    · split at heq
      · obtain rfl := Option.some.inj heq
        exact h
      · split at heq
        · obtain rfl := Option.some.inj heq
          refine HasRows.dropShadow (HasRows.setRow (HasRows.delete ?_ _) _ _) _
          split
          · exact h.setForwarder _ _
          · exact h
        · obtain rfl := Option.some.inj heq
          refine HasRows.installShadow ?_ _ _
          exact h.rewrite rfl

theorem HasRows.rollbackRow (h : HasRows P t) {rowid s : Int}
    (heq : t.rollbackRow rowid s = some t') : HasRows P t' := by
  rw [Table.rollbackRow] at heq
  split at heq
  · obtain rfl := Option.some.inj heq
    exact h
  · next a _ =>
      dsimp only at heq
      split at heq
      · obtain rfl := Option.some.inj heq
        exact h
      · split at heq
        · obtain rfl := Option.some.inj heq
          exact ((h.delete _).setRow _ _).setShadow _ _
        · rw [Table.rollbackStaying] at heq
          split at heq
          · exact absurd heq (by simp)
          · obtain rfl := Option.some.inj heq
            refine HasRows.dropShadow (HasRows.setAt ?_ ?_ a) rowid
            swap
            · exact h a
            split
            · refine HasRows.dropShadow ?_ rowid
              split
              · exact h.setForwarder _ _
              · exact h
            · exact h

theorem HasRows.revertRow (h : HasRows P t) (rowid s : Int) :
    HasRows P (t.revertRow rowid s) := by
  rw [Table.revertRow]
  split
  · exact h
  · dsimp only
    split
    · exact h
    · refine HasRows.setShadow (HasRows.setForwarder ?_ _ _) _ _
      split
      · exact h.setRow _ _
      · exact h.rewrite rfl

theorem HasRows.unlockRow (h : HasRows P t) {rowid s : Int}
    (heq : t.unlockRow rowid s = some t') : HasRows P t' := by
  rw [Table.unlockRow] at heq
  split at heq
  · exact absurd heq (by simp)
  · split at heq
    · obtain rfl := Option.some.inj heq
      exact h
    · exact h.dropReader heq

theorem HasRows.commitRollbackUnlock (h : HasRows P t) {rowid s : Int}
    {cmd : Enginecmd} (heq : t.commitRollbackUnlock rowid s cmd = some t') :
    HasRows P t' := by
  cases cmd with
  | commitCmd => exact h.commitRow heq
  | rollbackCmd => exact h.rollbackRow heq
  | unlockCmd => exact h.unlockRow heq
  | revertCmd =>
      obtain rfl := Option.some.inj heq
      exact h.revertRow _ _
  | _ =>
      obtain rfl := Option.some.inj heq
      exact h

/-! What a `selectrows` answers with are row strings of the store, or nothing
yet. -/

theorem HasRows.queueRow (h : HasRows P t) (hnil : P []) {rowid s pc tc : Int}
    {locktype : Locktype} {hit : Option ReturnRow}
    (heq : t.queueRow rowid locktype s pc tc = some (hit, t')) :
    HasRows P t' ∧ ∀ r ∈ hit, P r.row := by
  rw [Table.queueRow] at heq
  cases hq : t.assignToLockQueue rowid locktype s pc tc with
  | none =>
      rw [hq] at heq
      exact absurd heq (by simp)
  | some res =>
      obtain ⟨lt, t₁⟩ := res
      have ht₁ : HasRows P t₁ := by
        rw [Table.assignToLockQueue] at hq
        split at hq
        · exact absurd hq (by simp)
        · split at hq
          · obtain rfl := (Prod.mk.inj (Option.some.inj hq)).2
            exact h
          · obtain rfl := (Prod.mk.inj (Option.some.inj hq)).2
            exact h.of_heap rfl
      rw [hq] at heq
      cases lt with
      | notFoundLock =>
          obtain ⟨rfl, rfl⟩ := Prod.mk.inj (Option.some.inj heq)
          exact ⟨ht₁, by simp⟩
      | _ =>
          obtain ⟨rfl, rfl⟩ := Prod.mk.inj (Option.some.inj heq)
          exact ⟨ht₁, by simpa using hnil⟩

theorem HasRows.selectrow (h : HasRows P t) (hnil : P [])
    {rowid s pc tc : Int} {locktype : Locktype} {hit : Option ReturnRow}
    (heq : t.selectrow locktype rowid s pc tc = some (hit, t')) :
    HasRows P t' ∧ ∀ r ∈ hit, P r.row := by
  have hnone : some (none, t) = some (hit, t') →
      HasRows P t' ∧ ∀ r ∈ hit, P r.row := by
    intro heq
    obtain ⟨rfl, rfl⟩ := Prod.mk.inj (Option.some.inj heq)
    exact ⟨h, by simp⟩
  have hgone : some (some (Table.notFoundRow rowid), t) = some (hit, t') →
      HasRows P t' ∧ ∀ r ∈ hit, P r.row := by
    intro heq
    obtain ⟨rfl, rfl⟩ := Prod.mk.inj (Option.some.inj heq)
    exact ⟨h, by simpa [Table.notFoundRow] using hnil⟩
  have hfound : ∀ {a : Addr} {lt : Locktype} {t₁ : Table}, HasRows P t₁ →
      some (some { rowid := rowid, row := (t.heap a).row, locktype := lt },
        t₁) = some (hit, t') →
      HasRows P t' ∧ ∀ r ∈ hit, P r.row := by
    intro a lt t₁ ht₁ heq
    obtain ⟨rfl, rfl⟩ := Prod.mk.inj (Option.some.inj heq)
    exact ⟨ht₁, by simpa using h a⟩
  rw [Table.selectrow.eq_def] at heq
  cases locktype with
  | noLock =>
      dsimp only at heq
      rw [Table.selectNolock] at heq
      split at heq
      · exact hgone heq
      · dsimp only at heq
        split at heq
        · exact hfound h heq
        · split at heq
          · exact absurd heq (by simp)
          · split at heq
            · exact hnone heq
            · exact hfound h heq
        · split at heq
          · exact hnone heq
          · exact hfound h heq
        · exact hnone heq
  | readLock =>
      dsimp only at heq
      rw [Table.selectReadlock] at heq
      split at heq
      · exact hgone heq
      · dsimp only at heq
        split at heq
        · refine hfound ?_ heq
          exact h.rewrite rfl
        · split at heq
          · exact absurd heq (by simp)
          · split at heq
            · exact hnone heq
            · refine hfound ?_ heq
              exact h.rewrite rfl
        · split at heq
          · exact hnone heq
          · exact h.queueRow hnil heq
        · exact hnone heq
  | writeLock =>
      dsimp only at heq
      rw [Table.selectWritelock] at heq
      split at heq
      · exact hgone heq
      · dsimp only at heq
        split at heq
        · refine hfound ?_ heq
          exact h.rewrite rfl
        · exact h.queueRow hnil heq
        · split at heq
          · exact hfound h heq
          · exact h.queueRow hnil heq
        · exact hnone heq
  | _ => exact hnone heq

theorem HasRows.selectrows (hnil : P []) {s pc tc : Int}
    {locktype : Locktype} {rowids : List Int} :
    ∀ {t t' : Table} {hits : List ReturnRow}, HasRows P t →
      t.selectrows locktype s pc tc rowids = some (hits, t') →
      HasRows P t' ∧ ∀ r ∈ hits, P r.row := by
  induction rowids with
  | nil =>
      intro t t' hits h heq
      obtain ⟨rfl, rfl⟩ := Prod.mk.inj (Option.some.inj heq)
      exact ⟨h, by simp⟩
  | cons rowid rowids ih =>
      intro t t' hits h heq
      rw [Table.selectrows] at heq
      split at heq
      · exact absurd heq (by simp)
      · next hit t₁ hrow =>
          obtain ⟨h1, h2⟩ := h.selectrow hnil hrow
          split at heq
          · exact absurd heq (by simp)
          · next hits₁ t₂ hrest =>
              obtain ⟨h3, h4⟩ := ih h1 hrest
              obtain ⟨rfl, rfl⟩ := Prod.mk.inj (Option.some.inj heq)
              refine ⟨h3, fun r hr => ?_⟩
              rcases List.mem_append.mp hr with hr | hr
              · exact h2 r (Option.mem_toList.mp hr)
              · exact h4 r hr

/-! ## All tables -/

variable {schema : Int → List Field} {subs : Int → Int → Int} {s s' : Tables}

/-- No row of a table has a null in a field with a null constraint. -/
def RowsNotNull (schema : Int → List Field) (s : Tables) : Prop :=
  ∀ e tableid rowid a, (s.store e tableid).rows rowid = some a →
    NotNulls (schema tableid) ((s.store e tableid).heap a).row

/-- The same of all row strings: in the stores, found, staged and sent. -/
structure NotNullInv (schema : Int → List Field) (s : Tables) : Prop where
  stores : ∀ e tableid, HasRows (NotNulls (schema tableid)) (s.store e tableid)
  found : ∀ x, ∀ p ∈ s.found x, NotNulls (schema p.1.tableid) p.2.row
  staged : ∀ x uur stagedRow, s.stagedRows x uur = some stagedRow →
    NotNulls (schema uur.tableid) (stagedRow2ReturnRow stagedRow).row
  sent : ∀ m ∈ s.sent, ∀ c, sentRow m.cmd = some c →
    NotNulls (schema c.1) c.2

theorem notNullInv_new : NotNullInv schema Tables.new where
  stores _ tableid _ := notNulls_nil (schema tableid)
  found _ _ hp := absurd hp (by simp [Tables.new])
  staged _ _ _ h := absurd h (by simp [Tables.new])
  sent _ hm := absurd hm (by simp [Tables.new])

theorem NotNullInv.rows (h : NotNullInv schema s) : RowsNotNull schema s :=
  fun e tableid _ a _ => h.stores e tableid a

theorem NotNullInv.setStore (h : NotNullInv schema s) {e tableid : Int}
    {t : Table} (ht : HasRows (NotNulls (schema tableid)) t) :
    NotNullInv schema (s.setStore e tableid t) := by
  refine ⟨fun e' tableid' => ?_, h.found, h.staged, h.sent⟩
  by_cases he : e' = e
  · subst he
    by_cases htab : tableid' = tableid
    · subst htab
      simpa [Tables.setStore] using ht
    · simpa [Tables.setStore, htab] using h.stores e' tableid'
  · simpa [Tables.setStore, he] using h.stores e' tableid'

theorem NotNullInv.find (h : NotNullInv schema s) {x : Int}
    {rows : List (UuRecord × ReturnRow)}
    (hrows : ∀ p ∈ rows, NotNulls (schema p.1.tableid) p.2.row) :
    NotNullInv schema (s.find x rows) := by
  refine ⟨h.stores, fun x' p hp => ?_, h.staged, h.sent⟩
  by_cases hx : x' = x
  · subst hx
    simp only [Tables.find, Function.update_self] at hp
    rcases List.mem_append.mp hp with hp | hp
    · exact h.found x' p hp
    · exact hrows p hp
  · simp only [Tables.find, Function.update_of_ne hx] at hp
    exact h.found x' p hp

theorem NotNullInv.stage (h : NotNullInv schema s) {x : Int} {uur : UuRecord}
    {stagedRow : StagedRow} (hrow : NotNulls (schema uur.tableid)
      (stagedRow2ReturnRow stagedRow).row) :
    NotNullInv schema (s.stage x uur stagedRow) := by
  refine ⟨h.stores, h.found, fun x' uur' stagedRow' h' => ?_, h.sent⟩
  by_cases hx : x' = x
  · subst hx
    by_cases hu : uur' = uur
    · subst hu
      simp only [Tables.stage, Function.update_self] at h'
      obtain rfl := Option.some.inj h'
      exact hrow
    · simp only [Tables.stage, Function.update_self,
        Function.update_of_ne hu] at h'
      exact h.staged x' uur' stagedRow' h'
  · simp only [Tables.stage, Function.update_of_ne hx] at h'
    exact h.staged x' uur' stagedRow' h'

theorem NotNullInv.send (h : NotNullInv schema s) {sent : List Sent}
    (hsent : ∀ m ∈ sent, ∀ c, sentRow m.cmd = some c →
      NotNulls (schema c.1) c.2) : NotNullInv schema (s.send sent) := by
  refine ⟨h.stores, h.found, h.staged, fun m hm => ?_⟩
  rcases List.mem_append.mp hm with hm | hm
  · exact h.sent m hm
  · exact hsent m hm

/-- Staging row after row. -/
theorem NotNullInv.foldl {α : Type} {f : Tables → α → Tables} {xs : List α}
    (hf : ∀ s, ∀ a ∈ xs, NotNullInv schema s → NotNullInv schema (f s a)) :
    ∀ {s : Tables}, NotNullInv schema s →
      NotNullInv schema (xs.foldl f s) := by
  induction xs with
  | nil => exact fun h => h
  | cons a xs ih =>
      intro s h
      exact ih (fun s b hb => hf s b (List.mem_cons_of_mem _ hb))
        (hf s a List.mem_cons_self h)

theorem NotNullInv.stageSelected (h : NotNullInv schema s) {x : Int}
    {p : UuRecord × ReturnRow}
    (hp : NotNulls (schema p.1.tableid) p.2.row) :
    NotNullInv schema (s.stageSelected x p) := by
  rw [Tables.stageSelected]
  split
  · exact h
  · exact h.stage hp

theorem NotNullInv.stageDeleted (h : NotNullInv schema s) (x : Int)
    (p : UuRecord × ReturnRow) : NotNullInv schema (s.stageDeleted x p) :=
  h.stage (notNulls_nil _)

theorem NotNullInv.stageUpdated (h : NotNullInv schema s) {x tableid : Int}
    {p : UuRecord × ReturnRow} {q : UuRecord × Statement.Updated}
    (hmade : MadeOf tableid p q) (htable : p.1.tableid = tableid)
    (hnew : NotNulls (schema tableid) q.2.stagedRow.newRow) :
    NotNullInv schema (s.stageUpdated x q) := by
  rw [Tables.stageUpdated]
  refine (h.stage ?_).send fun m hm c hc => ?_
  · rw [stagedRow2ReturnRow, hmade.cmd, hmade.uur, htable]
    exact hnew
  · obtain ⟨a, ha, rfl⟩ := List.mem_map.mp hm
    obtain ⟨h1, h2⟩ := hmade.sent a ha c hc
    have h2 : c.1 = tableid := by
      rcases h2 with h2 | h2
      · exact h2
      · exact h2.trans htable
    rw [h1, h2]
    exact hnew

theorem NotNullInv.stageNewrow (h : NotNullInv schema s) {m : Sent}
    {tableid rowid : Int} {row : Bytes} (hrow : NotNulls (schema tableid) row) :
    NotNullInv schema (s.stageNewrow m tableid rowid row) := by
  rw [Tables.stageNewrow]
  split
  · exact h.stage hrow
  · next uur _ =>
      refine h.stage ?_
      cases hs : s.stagedRows m.transactionid uur with
      | none => exact notNulls_nil _
      | some stagedRow =>
          have hstaged := h.staged _ _ _ hs
          rw [Option.getD_some]
          rw [stagedRow2ReturnRow] at hstaged ⊢
          cases hcmd : stagedRow.cmd <;> rw [hcmd] at hstaged <;> exact hstaged

theorem NotNullInv.receive (h : NotNullInv schema s) {m : Sent}
    (hm : ∀ c, sentRow m.cmd = some c → NotNulls (schema c.1) c.2) :
    NotNullInv schema (s.receive subs m) := by
  rw [Tables.receive]
  dsimp only
  split
  · next tableid row hcmd =>
      have hrow := hm _ (by rw [hcmd]; rfl)
      refine @NotNullInv.stageNewrow schema _ (h.setStore ?_) m tableid
        ((s.store m.engineid tableid).nextrowid + 1) row hrow
      refine HasRows.newrow ?_ hrow _ _
      exact (h.stores m.engineid tableid).of_heap rfl
  · next tableid rowid row hcmd =>
      have hrow := hm _ (by rw [hcmd]; rfl)
      exact h.setStore ((h.stores _ _).updaterow hrow _ _)
  · exact h

/-! ## Runs -/

/-- The statement's rows would have a null where none is allowed. -/
def MakesNull (schema : Int → List Field) : TablesOp → Prop
  | .insert _ tableid operands =>
      ∃ (n : Nat) (f : Field) (o : Bytes), (schema tableid)[n]? = some f ∧
        f.indextype.isnotnull = true ∧ operands[n]? = some o ∧
        (insertValue f o).isnull = true
  | .update _ tableid parameters assignments rows =>
      rows ≠ [] ∧ ∃ p ∈ assignments, ∃ f, (schema tableid)[p.1]? = some f ∧
        f.indextype.isnotnull = true ∧ NullLiteral parameters p.2
  | _ => False

/-- Such a statement fails and changes nothing. -/
def Refused (ld : LongDouble) (top : Topology) (schema : Int → List Field)
    (subs : Int → Int → Int) (s : Tables) (op : TablesOp) : Prop :=
  ∀ status s', s.exec ld top schema subs op = some (status, s') →
    MakesNull schema op → status = .nullconstraint ∧ s' = s

/-- The trees of an UPDATE are as the parser leaves them. -/
def ParsedOp : TablesOp → Prop
  | .update _ _ parameters assignments _ =>
      Bound parameters ∧ ∀ p ∈ assignments, Parsed p.2
  | _ => True

/-- The condition on an UPDATE: no null, and no row of another table. -/
def UpdatesOwn (schema : Int → List Field) : TablesOp → Prop
  | .update x tableid parameters assignments rows =>
      ¬ MakesNull schema (.update x tableid parameters assignments rows) ∧
        ∀ p ∈ rows, p.1.tableid = tableid
  | _ => True

/-- An INSERT is always looked at, and the condition is about the rest. -/
theorem refused_of_updatesOwn {op : TablesOp} (hok : UpdatesOwn schema op) :
    Refused ld top schema subs s op := by
  intro status s' h hnull
  cases op with
  | insert x tableid operands =>
      obtain ⟨n, f, o, hf, hn, ho, hisnull⟩ := hnull
      rw [Tables.exec, insertValues_error hf ho hn hisnull] at h
      obtain ⟨h1, h2⟩ := Prod.mk.inj (Option.some.inj h)
      exact ⟨h1.symm, h2.symm⟩
  | update x tableid parameters assignments rows => exact absurd hnull hok.1
  | _ => exact absurd hnull (by simp [MakesNull])

theorem NotNullInv.insert (h : NotNullInv schema s) {x tableid : Int}
    {operands : List Bytes} {status : Apistatus}
    (hs : s.exec ld top schema subs (.insert x tableid operands) =
      some (status, s')) : NotNullInv schema s' := by
  rw [Tables.exec] at hs
  split at hs
  · exact absurd hs (by simp)
  · obtain ⟨_, rfl⟩ := Prod.mk.inj (Option.some.inj hs)
    exact h
  · next values hvalues =>
      split at hs
      · exact absurd hs (by simp)
      · next new hnew =>
          split at hs
          · next hlen =>
              obtain ⟨_, rfl⟩ := Prod.mk.inj (Option.some.inj hs)
              refine h.send fun m hm c hc => ?_
              obtain rfl := List.mem_singleton.mp hm
              obtain rfl := Option.some.inj hc
              have hrow : makerow (schema tableid) values =
                  some new.newrow := by
                rw [Statement.makeNewrow] at hnew
                split at hnew
                · next row f v hrow _ _ =>
                    rw [← Option.some.inj hnew]
                    exact hrow
                · exact absurd hnew (by simp)
              exact notNulls_makerow hrow (by simpa [Tables.inMemory] using hlen)
                (insertValues_notNull hvalues)
          · exact absurd hs (by simp)

theorem NotNullInv.update (h : NotNullInv schema s) {x tableid : Int}
    {parameters : List Bytes} {assignments : Statement.Assignments}
    {rows : List (UuRecord × ReturnRow)} {status : Apistatus}
    (hparsed : ParsedOp (.update x tableid parameters assignments rows))
    (hok : UpdatesOwn schema (.update x tableid parameters assignments rows))
    (hs : s.exec ld top schema subs
      (.update x tableid parameters assignments rows) = some (status, s')) :
    NotNullInv schema s' := by
  rw [Tables.exec] at hs
  split at hs
  · next hfound =>
      split at hs
      · exact absurd hs (by simp)
      · next staged hstaged =>
          split at hs
          · next hlen =>
              obtain ⟨_, rfl⟩ := Prod.mk.inj (Option.some.inj hs)
              refine NotNullInv.foldl (fun s q hq hinv => ?_) h
              by_cases hrows : rows = []
              · subst hrows
                obtain rfl := Option.some.inj hstaged
                exact absurd hq (by simp)
              · have hfree : AssignsNotNull (schema tableid) parameters
                    assignments := by
                  intro p hp f hf hn
                  refine nullFree_of_parsed (hparsed.2 p hp) fun hnull => ?_
                  exact hok.1 ⟨hrows, p, hp, f, hf, hn, hnull⟩
                have hlen : ∀ q ∈ staged,
                    q.2.stagedRow.newRow.length < 2 ^ 64 := by
                  intro q hq
                  have := List.all_eq_true.mp hlen q hq
                  simpa [Tables.inMemory] using this
                have hold : ∀ p ∈ rows,
                    NotNulls (schema tableid) p.2.row := by
                  intro p hp
                  have := h.found x p (hfound hp)
                  rw [hok.2 p hp] at this
                  exact this
                obtain ⟨hnew, p, hp, hmade⟩ :=
                  continueUpdate_notNull hparsed.1 hfree
                    (fun _ _ _ _ _ hw => absurd hw (by simp)) hold hstaged hlen
                    q hq
                exact hinv.stageUpdated hmade (hok.2 p hp) hnew
          · exact absurd hs (by simp)
  · exact absurd hs (by simp)

theorem mem_results {e tableid : Int} {returnRows : List ReturnRow}
    {p : UuRecord × ReturnRow}
    (hp : p ∈ Tables.results e tableid returnRows) :
    p.1.tableid = tableid ∧ p.2 ∈ returnRows := by
  obtain ⟨r, hr, rfl⟩ := List.mem_map.mp hp
  exact ⟨rfl, (List.mem_filter.mp hr).1⟩

/-- One step. -/
theorem step_notNullInv {op : TablesOp} (hparsed : ParsedOp op)
    (hok : UpdatesOwn schema op) (h : NotNullInv schema s)
    (hs : s.step ld top schema subs op = some s') : NotNullInv schema s' := by
  obtain ⟨⟨status, s''⟩, hexec, rfl⟩ := Option.map_eq_some_iff.mp hs
  cases op with
  | selectrows x e tableid rowids locktype pc tc =>
      obtain ⟨⟨hits, t⟩, hselect, heq⟩ := Option.map_eq_some_iff.mp hexec
      obtain ⟨_, rfl⟩ := Prod.mk.inj heq
      obtain ⟨h1, h2⟩ :=
        HasRows.selectrows (notNulls_nil _) (h.stores e tableid) hselect
      refine (h.setStore h1).find fun p hp => ?_
      obtain ⟨h3, h4⟩ := mem_results hp
      rw [h3]
      exact h2 p.2 h4
  | findStaged x uur =>
      obtain ⟨stagedRow, hrow, heq⟩ := Option.map_eq_some_iff.mp hexec
      obtain ⟨_, rfl⟩ := Prod.mk.inj heq
      refine h.find fun p hp => ?_
      obtain rfl := List.mem_singleton.mp hp
      exact h.staged x uur stagedRow hrow
  | continueSelect x rows =>
      rw [Tables.exec] at hexec
      split at hexec
      · next hfound =>
          obtain ⟨_, rfl⟩ := Prod.mk.inj (Option.some.inj hexec)
          refine NotNullInv.foldl (fun s p hp hinv => ?_) h
          exact hinv.stageSelected (h.found x p (hfound hp))
      · exact absurd hexec (by simp)
  | continueDelete x rows =>
      rw [Tables.exec] at hexec
      split at hexec
      · obtain ⟨_, rfl⟩ := Prod.mk.inj (Option.some.inj hexec)
        exact NotNullInv.foldl (fun s p _ hinv => hinv.stageDeleted x p) h
      · exact absurd hexec (by simp)
  | insert x tableid operands => exact h.insert hexec
  | update x tableid parameters assignments rows =>
      exact h.update hparsed hok hexec
  | deliver n =>
      rw [Tables.exec] at hexec
      split at hexec
      · exact absurd hexec (by simp)
      · next m hm =>
          obtain ⟨_, rfl⟩ := Prod.mk.inj (Option.some.inj hexec)
          have hrest : NotNullInv schema
              { s with sent := s.sent.eraseIdx n } :=
            ⟨h.stores, h.found, h.staged, fun m' hm' =>
              h.sent m' (List.mem_of_mem_eraseIdx hm')⟩
          exact hrest.receive (h.sent m (List.mem_of_getElem? hm))
  | call e tableid op =>
      have hstores := h.stores e tableid
      cases op with
      | newrow r q row => exact absurd hexec (by simp [Tables.exec])
      | updaterow r q row => exact absurd hexec (by simp [Tables.exec])
      | selectrows rs lt q pc tc => exact absurd hexec (by simp [Tables.exec])
      | deleterow r q =>
          obtain ⟨_, rfl⟩ := Prod.mk.inj (Option.some.inj hexec)
          exact h.setStore (hstores.deleterow r q)
      | replacedeleterow r q fr fe =>
          obtain ⟨_, rfl⟩ := Prod.mk.inj (Option.some.inj hexec)
          exact h.setStore (hstores.replacedeleterow r q fr fe)
      | commitRollbackUnlock r q cmd =>
          obtain ⟨t, ht, heq⟩ := Option.map_eq_some_iff.mp hexec
          obtain ⟨⟨_, t'⟩, hcall, rfl⟩ := Option.map_eq_some_iff.mp ht
          obtain ⟨t'', hrow, heq'⟩ := Option.map_eq_some_iff.mp hcall
          obtain ⟨_, rfl⟩ := Prod.mk.inj heq
          obtain ⟨_, rfl⟩ := Prod.mk.inj heq'
          exact h.setStore (hstores.commitRollbackUnlock hrow)

def notNullFields : List Field :=
  [⟨.int, 0, .none⟩, ⟨.int, 0, .nonuniquenotnull⟩]

/-- The row (1, 5), once it is committed and found for an update. -/
def foundRow : UuRecord × ReturnRow :=
  (⟨1, 1, 0⟩, { rowid := 1, row := rowOfInts 1 5, locktype := .writeLock })

/-- Insert (1, 5), commit it, find it, and update its second field. -/
def insertUpdate (operand : Bytes) : List TablesOp :=
  [.insert 1 1 [integerOperand 1, integerOperand 5], .deliver 0,
    .call 0 1 (.commitRollbackUnlock 1 7 .commitCmd),
    .selectrows 1 0 1 [1] .writeLock 0 0,
    .update 1 1 [] [(1, .operand operand)] [foundRow], .deliver 0,
    .call 0 1 (.commitRollbackUnlock 1 7 .commitCmd)]

/-- The second field of the row with rowid 1, and the row's lock. -/
def secondField (s : Tables) : Option (Locktype × FieldValue) :=
  ((s.store 0 1).rows 1).map fun a =>
    let d := (s.store 0 1).heap a
    (getlocktype d.flags, valueOf notNullFields d.row 1)

def runInsertUpdate (operand : Bytes) : Option Tables :=
  run (Tables.step constantLongDouble onePartition (fun _ => notNullFields)
    fun _ _ => 7) Tables.new (insertUpdate operand)

end Infinisql.Proofs
