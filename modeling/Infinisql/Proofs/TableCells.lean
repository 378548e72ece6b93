import Infinisql.Lib.Run
import Infinisql.Spec.Cell

/-!
# The row store refines its cells

The store shares one heap among all rows, and a call rewrites objects in
place, so nothing in the code says that a call on one row leaves the others
alone. What does is that no object is reachable from two rowids. `Sep` says
so: the objects a row owns, through `rows` or through the shadow table, are
owned by no other row, allocated, and not deleted. It carries one fact about
values, because the code depends on it: a row whose shadow is its own object
is flagged as an insert. `ROLLBACKCMD` deletes the shadow of any row that is
not an insert, and for an aliased row that would delete the row.

`RowStep r` is what a call on rowid `r` does to the pointers. It is enough to
keep `Sep` (`RowStep.sep`) and the cell of every other row (`RowStep.cell`),
and each function of `Table.cc` is one, with the cell of `r` moving by the
function's cell. `exec_cell` collects them: a call on the store is its
`cellOps` on each cell.
-/

namespace Infinisql.Proofs

open Infinisql.Ref Infinisql.Spec Infinisql.Lib

/-- `a` is reachable from rowid `r`. -/
def Owns (t : Table) (r : Int) (a : Addr) : Prop :=
  t.rows r = some a ∨ t.shadowRows r = some a

/-- No object is reachable from two rowids, or after its deletion. -/
structure Sep (t : Table) : Prop where
  bound : ∀ {r a}, Owns t r a → a < t.nextAddr
  live : ∀ {r a}, Owns t r a → a ∉ t.deletes
  deleted : ∀ {a}, a ∈ t.deletes → a < t.nextAddr
  disjoint : ∀ {r r' a}, Owns t r a → Owns t r' a → r = r'
  aliased : ∀ {r a}, t.rows r = some a → t.shadowRows r = some a →
    getinsertflag (t.heap a).flags = true

theorem sep_new (i n : Int) : Sep (Table.new i n) where
  bound h := by simp [Owns, Table.new] at h
  live h := by simp [Owns, Table.new] at h
  deleted h := by simp [Table.new] at h
  disjoint h := by simp [Owns, Table.new] at h
  aliased h := by simp [Table.new] at h

/-- What `r` may own after a call: what it owned, or what was allocated. -/
def Mine (r : Int) (t t' : Table) (a : Addr) : Prop :=
  Owns t r a ∨ t.nextAddr ≤ a ∧ a < t'.nextAddr

/-- What a call on rowid `r` may do: other rows keep their pointers, objects
`r` does not own keep their value, and only objects of `r` are deleted. -/
structure RowStep (r : Int) (t t' : Table) : Prop where
  rows : ∀ r', r' ≠ r → t'.rows r' = t.rows r'
  shadow : ∀ r', r' ≠ r → t'.shadowRows r' = t.shadowRows r'
  forwarder : ∀ r', r' ≠ r → t'.forwarderMap r' = t.forwarderMap r'
  heap : ∀ a, ¬ Owns t r a → a < t.nextAddr → t'.heap a = t.heap a
  grows : t.nextAddr ≤ t'.nextAddr
  owned : ∀ a, Owns t' r a → Mine r t t' a
  deleted : ∀ a ∈ t'.deletes, a ∈ t.deletes ∨ Mine r t t' a
  live : ∀ a, Owns t' r a → a ∉ t'.deletes
  aliased : ∀ a, t'.rows r = some a → t'.shadowRows r = some a →
    getinsertflag (t'.heap a).flags = true

theorem RowStep.owns {r r' : Int} {t t' : Table} {a : Addr}
    (h : RowStep r t t') (hne : r' ≠ r) : Owns t' r' a ↔ Owns t r' a := by
  unfold Owns
  rw [h.rows r' hne, h.shadow r' hne]

/-- Objects of other rows keep their value. -/
theorem RowStep.heap_other {r r' : Int} {t t' : Table} {a : Addr}
    (h : RowStep r t t') (hsep : Sep t) (hne : r' ≠ r) (ho : Owns t r' a) :
    t'.heap a = t.heap a :=
  h.heap a (fun hr => hne (hsep.disjoint ho hr)) (hsep.bound ho)

theorem RowStep.sep {r : Int} {t t' : Table} (h : RowStep r t t')
    (hsep : Sep t) : Sep t' where
  bound := by
    intro r' a ho
    by_cases hr : r' = r
    · subst hr
      rcases h.owned a ho with ho' | ⟨_, hlt⟩
      · exact Nat.lt_of_lt_of_le (hsep.bound ho') h.grows
      · exact hlt
    · exact Nat.lt_of_lt_of_le (hsep.bound ((h.owns hr).mp ho)) h.grows
  live := by
    intro r' a ho
    by_cases hr : r' = r
    · exact h.live a (hr ▸ ho)
    · have ho' := (h.owns hr).mp ho
      intro hd
      rcases h.deleted a hd with hd' | hr' | ⟨hge, _⟩
      · exact hsep.live ho' hd'
      · exact hr (hsep.disjoint ho' hr')
      · exact absurd (hsep.bound ho') (Nat.not_lt.mpr hge)
  deleted := by
    intro a hd
    rcases h.deleted a hd with hd' | ho | ⟨_, hlt⟩
    · exact Nat.lt_of_lt_of_le (hsep.deleted hd') h.grows
    · exact Nat.lt_of_lt_of_le (hsep.bound ho) h.grows
    · exact hlt
  disjoint := by
    intro r₁ r₂ a h1 h2
    -- a fresh object belongs to nobody else, because nobody else got one
    have hfresh : ∀ r', r' ≠ r → Owns t' r a → ¬ Owns t' r' a := by
      intro r' hr' hr ho
      have ho' := (h.owns hr').mp ho
      rcases h.owned a hr with hr | ⟨hge, _⟩
      · exact hr' (hsep.disjoint ho' hr)
      · exact absurd (hsep.bound ho') (Nat.not_lt.mpr hge)
    by_cases hr1 : r₁ = r
    · by_cases hr2 : r₂ = r
      · rw [hr1, hr2]
      · exact absurd h2 (hfresh r₂ hr2 (hr1 ▸ h1))
    · by_cases hr2 : r₂ = r
      · exact absurd h1 (hfresh r₁ hr1 (hr2 ▸ h2))
      · exact hsep.disjoint ((h.owns hr1).mp h1) ((h.owns hr2).mp h2)
  aliased := by
    intro r' a h1 h2
    by_cases hr : r' = r
    · subst hr
      exact h.aliased a h1 h2
    · rw [h.rows r' hr] at h1
      rw [h.shadow r' hr] at h2
      rw [h.heap_other hsep hr (.inl h1)]
      exact hsep.aliased h1 h2

/-- A call on `r` leaves the cell of every other row as it was. -/
theorem RowStep.cell {r r' : Int} {t t' : Table} (h : RowStep r t t')
    (hsep : Sep t) (hne : r' ≠ r) : cell t' r' = cell t r' := by
  have hrow : (t'.rows r').map t'.heap = (t.rows r').map t.heap := by
    rw [h.rows r' hne]
    cases ha : t.rows r' with
    | none => rfl
    | some a =>
        simp only [Option.map_some, h.heap_other hsep hne (.inl ha)]
  have hshadow : shadowOf t' r' = shadowOf t r' := by
    unfold shadowOf
    rw [h.rows r' hne, h.shadow r' hne]
    cases hb : t.shadowRows r' with
    | none => rfl
    | some b => simp only [h.heap_other hsep hne (.inr hb)]
  simp only [Spec.cell, hrow, hshadow, h.forwarder r' hne]

theorem RowStep.refl {r : Int} {t : Table} (hsep : Sep t) : RowStep r t t where
  rows _ _ := rfl
  shadow _ _ := rfl
  forwarder _ _ := rfl
  heap _ _ _ := rfl
  grows := Nat.le_refl _
  owned _ h := .inl h
  deleted _ h := .inl h
  live _ h := hsep.live h
  aliased _ := hsep.aliased

theorem RowStep.trans {r : Int} {t t' t'' : Table} (h : RowStep r t t')
    (h' : RowStep r t' t'') : RowStep r t t'' where
  rows r' hne := (h'.rows r' hne).trans (h.rows r' hne)
  shadow r' hne := (h'.shadow r' hne).trans (h.shadow r' hne)
  forwarder r' hne := (h'.forwarder r' hne).trans (h.forwarder r' hne)
  heap a ho hlt := by
    have ho' : ¬ Owns t' r a := by
      intro ho'
      rcases h.owned a ho' with h1 | ⟨h1, _⟩
      · exact ho h1
      · exact absurd hlt (Nat.not_lt.mpr h1)
    rw [h'.heap a ho' (Nat.lt_of_lt_of_le hlt h.grows), h.heap a ho hlt]
  grows := Nat.le_trans h.grows h'.grows
  owned a ho := by
    rcases h'.owned a ho with h1 | ⟨h1, h2⟩
    · rcases h.owned a h1 with h3 | ⟨h3, h4⟩
      · exact .inl h3
      · exact .inr ⟨h3, Nat.lt_of_lt_of_le h4 h'.grows⟩
    · exact .inr ⟨Nat.le_trans h.grows h1, h2⟩
  deleted a hd := by
    have hmine : Mine r t t' a → Mine r t t'' a := by
      rintro (h3 | ⟨h3, h4⟩)
      · exact .inl h3
      · exact .inr ⟨h3, Nat.lt_of_lt_of_le h4 h'.grows⟩
    rcases h'.deleted a hd with h1 | h1 | ⟨h1, h2⟩
    · exact (h.deleted a h1).imp id hmine
    · exact .inr (hmine (h.owned a h1))
    · exact .inr (.inr ⟨Nat.le_trans h.grows h1, h2⟩)
  live := h'.live
  aliased := h'.aliased

/-! ## The objects of the row itself -/

theorem cell_row_none {t : Table} {r : Int} (h : t.rows r = none) :
    (cell t r).row = none := by
  simp [cell, h]

theorem cell_row_some {t : Table} {r : Int} {a : Addr}
    (h : t.rows r = some a) : (cell t r).row = some (t.heap a) := by
  simp [cell, h]

theorem shadowRows_of_absent {t : Table} {r : Int}
    (h : (cell t r).shadow = .absent) : t.shadowRows r = none := by
  cases hb : t.shadowRows r with
  | none => rfl
  | some b =>
      simp only [cell, shadowOf, hb] at h
      split at h <;> exact absurd h (by simp)

/-- An object rewritten in place, with its insert flag left alone. -/
theorem setAt_rowStep {t : Table} {r : Int} {a : Addr} {d : Rowdata}
    (hsep : Sep t) (ha : t.rows r = some a)
    (hins : getinsertflag d.flags = getinsertflag (t.heap a).flags) :
    RowStep r t (t.setAt a d) where
  rows _ _ := by simp
  shadow _ _ := by simp
  forwarder _ _ := by simp
  heap a' ho _ := by
    have hne : a' ≠ a := fun h => ho (.inl (h ▸ ha))
    simp [hne]
  grows := by simp
  owned _ h := by
    simp only [Owns, Table.setAt_fields] at h
    exact .inl h
  deleted _ h := by simpa using Or.inl h
  live a' h := by
    simp only [Owns, Table.setAt_fields] at h ⊢
    exact hsep.live h
  aliased a' h1 h2 := by
    simp only [Table.setAt_fields] at h1 h2 ⊢
    obtain rfl : a = a' := by rw [ha] at h1; injection h1
    rw [Function.update_self, hins]
    exact hsep.aliased h1 h2

/-- What the cell sees of it: the row's object changes, and a shadow that is
a copy does not. -/
theorem cell_setAt {t : Table} {r : Int} {a : Addr} {d : Rowdata}
    (ha : t.rows r = some a) :
    cell (t.setAt a d) r = { cell t r with row := some d } := by
  have hshadow : shadowOf (t.setAt a d) r = shadowOf t r := by
    unfold shadowOf
    simp only [Table.setAt_fields, ha]
    cases hb : t.shadowRows r with
    | none => rfl
    | some b =>
        by_cases hab : a = b
        · simp [hab]
        · simp [hab, Ne.symm hab]
  simp only [cell, hshadow, Table.setAt_fields, ha, Option.map_some,
    Function.update_self]

/-! ## Staging calls -/

theorem newrow_rowStep {t : Table} {r s : Int} {row : Bytes} (hsep : Sep t) :
    RowStep r t (t.newrow r s row) where
  rows r' h := by simp [Table.newrow, h]
  shadow r' h := by simp [Table.newrow, h]
  forwarder _ _ := by simp [Table.newrow]
  heap a _ hlt := by
    have hne : a ≠ t.nextAddr := Nat.ne_of_lt hlt
    simp [Table.newrow, hne]
  grows := by simp [Table.newrow]
  owned a h := by
    simp only [Owns, Table.newrow, Table.setShadow_fields,
      Table.setRow_fields, Table.alloc_fields, Function.update_self,
      Option.some.injEq, or_self] at h ⊢
    exact .inr ⟨Nat.le_of_eq h, h ▸ Nat.lt_succ_self _⟩
  deleted _ h := by
    simp only [Table.newrow, Table.setShadow_fields, Table.setRow_fields,
      Table.alloc_fields] at h
    exact .inl h
  live a h := by
    simp only [Owns, Table.newrow, Table.setShadow_fields,
      Table.setRow_fields, Table.alloc_fields, Function.update_self,
      Option.some.injEq, or_self] at h ⊢
    exact fun hd => absurd (hsep.deleted hd) (h ▸ Nat.lt_irrefl _)
  aliased a h _ := by
    simp only [Table.newrow, Table.setShadow_fields, Table.setRow_fields,
      Table.alloc_fields, Function.update_self, Option.some.injEq] at h ⊢
    rw [← h, Function.update_self]
    simp

theorem cell_newrow {t : Table} {r s : Int} {row : Bytes} :
    cell (t.newrow r s row) r = (cell t r).newrow s row := by
  simp [cell, shadowOf, Table.newrow, Cell.newrow]

theorem updaterow_rowStep {t : Table} {r s : Int} {row : Bytes}
    (hsep : Sep t) : RowStep r t (t.updaterow r s row).2 := by
  unfold Table.updaterow
  split
  · exact .refl hsep
  · next a ha =>
      split
      · exact .refl hsep
      · have hlt : a < t.nextAddr := hsep.bound (.inl ha)
        refine ⟨fun _ _ => by simp, fun r' h => by simp [h],
          fun _ _ => by simp, fun a' _ h => ?_, by simp, fun a' h => ?_,
          fun a' h => ?_, fun a' h => ?_, fun a' h1 h2 => ?_⟩
        · have hne : a' ≠ t.nextAddr := Nat.ne_of_lt h
          simp [hne]
        · simp only [Owns, Table.setShadow_fields, Table.alloc_fields,
            Function.update_self, Option.some.injEq] at h ⊢
          rcases h with h | h
          · exact .inl (.inl h)
          · exact .inr ⟨Nat.le_of_eq h, h ▸ Nat.lt_succ_self _⟩
        · simp only [Table.setShadow_fields, Table.alloc_fields] at h
          exact .inl h
        · simp only [Owns, Table.setShadow_fields, Table.alloc_fields,
            Function.update_self, Option.some.injEq] at h ⊢
          rcases h with h | h
          · exact hsep.live (.inl h)
          · exact fun hd => absurd (hsep.deleted hd) (h ▸ Nat.lt_irrefl _)
        · simp only [Table.setShadow_fields, Table.alloc_fields, ha,
            Function.update_self, Option.some.injEq] at h1 h2
          exact absurd hlt (by rw [h1, ← h2]; exact Nat.lt_irrefl _)

theorem cell_updaterow {t : Table} {r s : Int} {row : Bytes} (hsep : Sep t) :
    cell (t.updaterow r s row).2 r = (cell t r).updaterow s row := by
  unfold Table.updaterow Cell.updaterow Cell.ifHolder
  split
  · next h => rw [cell_row_none h]
  · next a ha =>
      have hne : a ≠ t.nextAddr := Nat.ne_of_lt (hsep.bound (.inl ha))
      rw [cell_row_some ha]
      simp only []
      cases Table.writeLockedBy (t.heap a) s with
      | false => rfl
      | true => simp [cell, shadowOf, ha, hne]

theorem deleterow_rowStep {t : Table} {r s : Int} (hsep : Sep t) :
    RowStep r t (t.deleterow r s).2 := by
  unfold Table.deleterow
  split
  · exact .refl hsep
  · next a ha =>
      simp only []
      split
      · exact .refl hsep
      · exact setAt_rowStep hsep ha (by simp)

theorem cell_deleterow {t : Table} {r s : Int} :
    cell (t.deleterow r s).2 r = (cell t r).deleterow s := by
  unfold Table.deleterow Cell.deleterow Cell.ifHolder
  split
  · next h => rw [cell_row_none h]
  · next a ha =>
      rw [cell_row_some ha]
      simp only []
      cases Table.writeLockedBy (t.heap a) s with
      | false => rfl
      | true => exact cell_setAt ha

theorem RowStep.setForwarder {r : Int} {t t' : Table} {f}
    (h : RowStep r t t') : RowStep r t (t'.setForwarder r f) where
  rows r' hne := by simpa using h.rows r' hne
  shadow r' hne := by simpa using h.shadow r' hne
  forwarder r' hne := by simpa [hne] using h.forwarder r' hne
  heap a ho hlt := by simpa using h.heap a ho hlt
  grows := by simpa using h.grows
  owned a ho := by
    simpa [Mine] using h.owned a (by simpa [Owns] using ho)
  deleted a hd := by simpa [Mine] using h.deleted a (by simpa using hd)
  live a ho := by simpa using h.live a (by simpa [Owns] using ho)
  aliased a h1 h2 := by
    simpa using h.aliased a (by simpa using h1) (by simpa using h2)

theorem cell_setForwarder {t : Table} {r : Int} {f : Option ForwarderEntry} :
    cell (t.setForwarder r f) r = { cell t r with forwarder := f } := by
  simp [cell, shadowOf]

/-- The two writes to the flag byte are one. -/
theorem replacedeleterow_eq {t : Table} {r s fr fe : Int} {a : Addr}
    (ha : t.rows r = some a) (hw : Table.writeLockedBy (t.heap a) s = true) :
    (t.replacedeleterow r s fr fe).2 =
      (t.setAt a { t.heap a with
        flags := setreplacedeleteflag (setdeleteflag (t.heap a).flags) }
        ).setForwarder r (some ⟨fr, fe⟩) := by
  simp [Table.replacedeleterow, Table.deleterow, ha, hw, Table.setAt]

theorem replacedeleterow_rowStep {t : Table} {r s fr fe : Int}
    (hsep : Sep t) : RowStep r t (t.replacedeleterow r s fr fe).2 := by
  cases ha : t.rows r with
  | none =>
      simp only [Table.replacedeleterow, Table.deleterow, ha]
      exact .refl hsep
  | some a =>
      cases hw : Table.writeLockedBy (t.heap a) s with
      | false =>
          simp only [Table.replacedeleterow, Table.deleterow, ha, hw]
          exact .refl hsep
      | true =>
          rw [replacedeleterow_eq ha hw]
          exact (setAt_rowStep hsep ha (by simp)).setForwarder

theorem cell_replacedeleterow {t : Table} {r s fr fe : Int} :
    cell (t.replacedeleterow r s fr fe).2 r =
      (cell t r).replacedeleterow s ⟨fr, fe⟩ := by
  unfold Cell.replacedeleterow Cell.ifHolder
  cases ha : t.rows r with
  | none =>
      rw [cell_row_none ha]
      simp only [Table.replacedeleterow, Table.deleterow, ha]
  | some a =>
      rw [cell_row_some ha]
      cases hw : Table.writeLockedBy (t.heap a) s with
      | false =>
          simp [Table.replacedeleterow, Table.deleterow, ha, hw]
      | true =>
          rw [replacedeleterow_eq ha hw, cell_setForwarder, cell_setAt ha]
          simp [hw, Cell.setFlags]

/-! ## Reading and locking

A queued request changes the lock queue only, which is in no cell. -/

theorem queueRow_rowStep {t t' : Table} {r s pc tc : Int} {lt : Locktype}
    {hit : Option ReturnRow} (hsep : Sep t)
    (h : t.queueRow r lt s pc tc = some (hit, t')) :
    RowStep r t t' ∧ cell t' r = cell t r := by
  have hq : t' = t ∨ ∃ q, t' = { t with lockQueue := q } := by
    unfold Table.queueRow Table.assignToLockQueue at h
    cases ha : t.rows r with
    | none => simp [ha] at h
    | some a =>
        simp only [ha] at h
        cases hi : getinsertflag (t.heap a).flags with
        | true =>
            simp only [hi, if_true, Option.some.injEq, Prod.mk.injEq] at h
            exact .inl h.2.symm
        | false =>
            simp only [hi] at h
            cases lt <;>
              simp only [Bool.false_eq_true, if_false, Option.some.injEq,
                Prod.mk.injEq] at h <;>
              exact .inr ⟨_, h.2.symm⟩
  rcases hq with rfl | ⟨q, rfl⟩
  · exact ⟨.refl hsep, rfl⟩
  · exact ⟨⟨fun _ _ => rfl, fun _ _ => rfl, fun _ _ => rfl, fun _ _ _ => rfl,
      Nat.le_refl _, fun _ h => .inl h, fun _ h => .inl h,
      fun _ h => hsep.live h, fun _ => hsep.aliased⟩, rfl⟩

theorem selectNolock_rowStep {t t' : Table} {r s : Int}
    {hit : Option ReturnRow} (hsep : Sep t)
    (h : t.selectNolock r s = some (hit, t')) :
    RowStep r t t' ∧ (cell t r).select .noLock s = some (cell t' r) := by
  unfold Table.selectNolock at h
  unfold Cell.select
  cases ha : t.rows r with
  | none =>
      simp only [ha, Option.some.injEq, Prod.mk.injEq] at h
      rw [cell_row_none ha, ← h.2]
      exact ⟨.refl hsep, rfl⟩
  | some a =>
      simp only [ha] at h
      rw [cell_row_some ha]
      rcases getlocktype_cases (t.heap a).flags with hl | hl | hl
      · simp only [hl, Option.some.injEq, Prod.mk.injEq] at h ⊢
        rw [← h.2]
        exact ⟨.refl hsep, rfl⟩
      · simp only [hl] at h ⊢
        cases hr : (t.heap a).readlockHolders with
        | none => simp [hr] at h
        | some holders =>
            have ht : t' = t := by
              simp only [hr] at h
              split at h <;> simp only [Option.some.injEq, Prod.mk.injEq] at h
              · exact h.2.symm
              · exact h.2.symm
            rw [ht]
            exact ⟨.refl hsep, by simp⟩
      · have ht : t' = t := by
          simp only [hl] at h
          split at h <;> simp only [Option.some.injEq, Prod.mk.injEq] at h
          · exact h.2.symm
          · exact h.2.symm
        simp only [hl]
        rw [ht]
        exact ⟨.refl hsep, rfl⟩

theorem selectReadlock_rowStep {t t' : Table} {r s pc tc : Int}
    {hit : Option ReturnRow} (hsep : Sep t)
    (h : t.selectReadlock r s pc tc = some (hit, t')) :
    RowStep r t t' ∧ (cell t r).select .readLock s = some (cell t' r) := by
  unfold Table.selectReadlock at h
  unfold Cell.select
  cases ha : t.rows r with
  | none =>
      simp only [ha, Option.some.injEq, Prod.mk.injEq] at h
      rw [cell_row_none ha, ← h.2]
      exact ⟨.refl hsep, rfl⟩
  | some a =>
      simp only [ha] at h
      rw [cell_row_some ha]
      rcases getlocktype_cases (t.heap a).flags with hl | hl | hl
      · simp only [hl, Option.some.injEq, Prod.mk.injEq] at h ⊢
        rw [← h.2, cell_setAt ha]
        exact ⟨setAt_rowStep hsep ha (by simp), rfl⟩
      · simp only [hl] at h ⊢
        cases hr : (t.heap a).readlockHolders with
        | none => simp [hr] at h
        | some holders =>
            simp only [hr] at h
            by_cases hm : s ∈ holders
            · simp only [hm, if_true, Option.some.injEq, Prod.mk.injEq] at h
              rw [← h.2]
              exact ⟨.refl hsep, by simp [hm]⟩
            · simp only [hm, if_false, Option.some.injEq, Prod.mk.injEq] at h
              rw [← h.2, cell_setAt ha]
              exact ⟨setAt_rowStep hsep ha rfl, by simp [hm]⟩
      · simp only [hl] at h ⊢
        by_cases hw : (t.heap a).writelockHolder = s
        · simp only [hw, if_true, Option.some.injEq, Prod.mk.injEq] at h
          rw [← h.2]
          exact ⟨.refl hsep, rfl⟩
        · rw [if_neg hw] at h
          obtain ⟨hstep, hcell⟩ := queueRow_rowStep hsep h
          exact ⟨hstep, congrArg some hcell.symm⟩

theorem selectWritelock_rowStep {t t' : Table} {r s pc tc : Int}
    {hit : Option ReturnRow} (hsep : Sep t)
    (h : t.selectWritelock r s pc tc = some (hit, t')) :
    RowStep r t t' ∧ (cell t r).select .writeLock s = some (cell t' r) := by
  unfold Table.selectWritelock at h
  unfold Cell.select
  cases ha : t.rows r with
  | none =>
      simp only [ha, Option.some.injEq, Prod.mk.injEq] at h
      rw [cell_row_none ha, ← h.2]
      exact ⟨.refl hsep, rfl⟩
  | some a =>
      simp only [ha] at h
      rw [cell_row_some ha]
      rcases getlocktype_cases (t.heap a).flags with hl | hl | hl
      · simp only [hl, Option.some.injEq, Prod.mk.injEq] at h ⊢
        rw [← h.2, cell_setAt ha]
        exact ⟨setAt_rowStep hsep ha (by simp), rfl⟩
      · simp only [hl] at h ⊢
        obtain ⟨hstep, hcell⟩ := queueRow_rowStep hsep h
        exact ⟨hstep, congrArg some hcell.symm⟩
      · simp only [hl] at h ⊢
        by_cases hw : (t.heap a).writelockHolder = s
        · simp only [hw, if_true, Option.some.injEq, Prod.mk.injEq] at h
          rw [← h.2]
          exact ⟨.refl hsep, rfl⟩
        · rw [if_neg hw] at h
          obtain ⟨hstep, hcell⟩ := queueRow_rowStep hsep h
          exact ⟨hstep, congrArg some hcell.symm⟩

/-- The lock types `selectrows` does not know do nothing. -/
theorem selectrow_rowStep {t t' : Table} {r s pc tc : Int} {lt : Locktype}
    {hit : Option ReturnRow} (hsep : Sep t)
    (h : t.selectrow lt r s pc tc = some (hit, t')) :
    RowStep r t t' ∧ (cell t r).select lt s = some (cell t' r) := by
  cases lt with
  | noLock => exact selectNolock_rowStep hsep h
  | readLock => exact selectReadlock_rowStep hsep h
  | writeLock => exact selectWritelock_rowStep hsep h
  | notFoundLock | pendingLock | indexLock | indexPendingLock =>
      simp only [Table.selectrow, Option.some.injEq, Prod.mk.injEq] at h
      rw [← h.2]
      refine ⟨.refl hsep, ?_⟩
      unfold Cell.select
      cases (cell t r).row <;> rfl

/-! ## Ending calls -/

/-- Both maps lose the rowid; what was deleted was the row's. -/
theorem rowStep_of_cleared {t t' : Table} {r : Int}
    (hrows : t'.rows = Function.update t.rows r none)
    (hshadow : t'.shadowRows = Function.update t.shadowRows r none)
    (hfwd : ∀ r', r' ≠ r → t'.forwarderMap r' = t.forwarderMap r')
    (hheap : t'.heap = t.heap) (hnext : t'.nextAddr = t.nextAddr)
    (hdel : ∀ a ∈ t'.deletes, a ∈ t.deletes ∨ Owns t r a) :
    RowStep r t t' where
  rows r' hne := by simp [hrows, hne]
  shadow r' hne := by simp [hshadow, hne]
  forwarder := hfwd
  heap _ _ _ := by rw [hheap]
  grows := Nat.le_of_eq hnext.symm
  owned a h := by simp [Owns, hrows, hshadow] at h
  deleted a h := (hdel a h).imp id .inl
  live a h := by simp [Owns, hrows, hshadow] at h
  aliased a h _ := by simp [hrows] at h

/-- The row keeps one object, its own or what was its shadow, and has no
shadow; what was deleted was another object of the row. -/
theorem rowStep_of_settled {t t' : Table} {r : Int} {a : Addr}
    (hsep : Sep t) (ha : Owns t r a)
    (hrows : t'.rows = Function.update t.rows r (some a))
    (hshadow : t'.shadowRows = Function.update t.shadowRows r none)
    (hfwd : ∀ r', r' ≠ r → t'.forwarderMap r' = t.forwarderMap r')
    (hheap : ∀ a', ¬ Owns t r a' → t'.heap a' = t.heap a')
    (hnext : t'.nextAddr = t.nextAddr)
    (hdel : ∀ b ∈ t'.deletes, b ∈ t.deletes ∨ Owns t r b ∧ b ≠ a) :
    RowStep r t t' where
  rows r' hne := by simp [hrows, hne]
  shadow r' hne := by simp [hshadow, hne]
  forwarder := hfwd
  heap a' ho _ := hheap a' ho
  grows := Nat.le_of_eq hnext.symm
  owned b h := by
    simp only [Owns, hrows, hshadow, Function.update_self, Option.some.injEq,
      reduceCtorEq, or_false] at h
    exact .inl (h ▸ ha)
  deleted b h := by
    exact (hdel b h).imp id fun h => .inl h.1
  live b h hd := by
    simp only [Owns, hrows, hshadow, Function.update_self, Option.some.injEq,
      reduceCtorEq, or_false] at h
    subst h
    rcases hdel a hd with h | ⟨_, h⟩
    · exact hsep.live ha h
    · exact h rfl
  aliased b _ h := by simp [hshadow] at h

theorem dropReader_rowStep {t t' : Table} {r s : Int} {a : Addr}
    (hsep : Sep t) (ha : t.rows r = some a)
    (h : t.dropReader a s = some t') :
    RowStep r t t' ∧ (cell t r).dropReader (t.heap a) s = some (cell t' r) := by
  unfold Table.dropReader at h
  unfold Cell.dropReader
  cases hr : (t.heap a).readlockHolders with
  | none => simp [hr] at h
  | some holders =>
      simp only [hr] at h ⊢
      by_cases hm : s ∈ holders
      · rw [if_neg (not_not_intro hm)] at h ⊢
        by_cases he : holders.erase s = ∅
        · rw [if_pos he] at h ⊢
          injection h with h
          rw [← h, cell_setAt ha]
          exact ⟨setAt_rowStep hsep ha (by simp), rfl⟩
        · rw [if_neg he] at h ⊢
          injection h with h
          rw [← h, cell_setAt ha]
          exact ⟨setAt_rowStep hsep ha rfl, rfl⟩
      · rw [if_pos hm] at h ⊢
        injection h with h
        rw [← h]
        exact ⟨.refl hsep, rfl⟩

/-- Installing the shadow: nothing staged, an insert, an update. -/
theorem installShadow_rowStep {t : Table} {r : Int} {a : Addr}
    (hsep : Sep t) (ha : t.rows r = some a)
    (hnone : (t.heap a).readlockHolders = none) :
    RowStep r t (t.installShadow r a) ∧
      cell (t.installShadow r a) r =
        ⟨some ((cell t r).installed (t.heap a)), .absent,
          (cell t r).forwarder⟩ := by
  unfold Table.installShadow
  cases hb : t.shadowRows r with
  | none =>
      simp only []
      refine ⟨rowStep_of_settled hsep (.inl ha) (by simp [← ha])
        (by simp [← hb]) (fun _ _ => by simp) (fun a' ho => ?_) (by simp)
        (fun _ h => by simpa using Or.inl h), ?_⟩
      · have hne : a' ≠ a := fun h => ho (.inl (h ▸ ha))
        simp [hne]
      · simp [cell, shadowOf, ha, hb, Cell.installed, ← hnone]
  | some b =>
      simp only []
      by_cases hab : a = b
      · subst hab
        rw [if_pos rfl]
        refine ⟨rowStep_of_settled hsep (.inl ha) (by simp [← ha]) (by simp)
          (fun _ _ => by simp) (fun a' ho => ?_) (by simp)
          (fun _ h => by simpa using Or.inl h), ?_⟩
        · have hne : a' ≠ a := fun h => ho (.inl (h ▸ ha))
          simp [hne]
        · simp [cell, shadowOf, ha, hb, Cell.installed]
      · rw [if_neg hab]
        refine ⟨rowStep_of_settled (a := b) hsep (.inr hb) (by simp) (by simp)
          (fun _ _ => by simp) (fun a' ho => ?_) (by simp) (fun c h => ?_), ?_⟩
        · have hne : a' ≠ b := fun h => ho (.inr (h ▸ hb))
          simp [hne]
        · simp only [Table.setShadow_fields, Table.setRow_fields,
            Table.delete_fields, Table.setAt_fields, List.mem_append,
            List.mem_singleton] at h
          rcases h with h | h
          · exact .inl h
          · exact .inr ⟨.inl (h ▸ ha), h ▸ hab⟩
        · simp [cell, shadowOf, ha, hb, hab, Cell.installed]

/-- The write lock branch of a commit clears the holders of the object before
anything is installed. -/
theorem commitRow_rowStep {t t' : Table} {r s : Int} (hsep : Sep t)
    (h : t.commitRow r s = some t') :
    RowStep r t t' ∧ (cell t r).commit s = some (cell t' r) := by
  unfold Table.commitRow at h
  unfold Cell.commit
  cases ha : t.rows r with
  | none => simp [ha] at h
  | some a =>
      simp only [ha] at h
      rw [cell_row_some ha]
      simp only []
      by_cases hl : getlocktype (t.heap a).flags = .readLock
      · rw [if_pos hl] at h ⊢
        exact dropReader_rowStep hsep ha h
      · rw [if_neg hl] at h ⊢
        cases hw : Table.writeLockedBy (t.heap a) s with
        | false =>
            simp only [hw, Bool.not_false, if_true, Option.some.injEq] at h ⊢
            rw [h]
            exact ⟨h ▸ .refl hsep, rfl⟩
        | true =>
            simp only [hw, Bool.not_true, Bool.false_eq_true, if_false] at h ⊢
            cases hd : getdeleteflag (t.heap a).flags with
            | true =>
                simp only [hd, if_true, Option.some.injEq] at h ⊢
                rw [← h]
                cases hf : getreplacedeleteflag (t.heap a).flags with
                | true =>
                    refine ⟨rowStep_of_cleared (by simp) (by simp)
                      (fun r' hne => by simp [hne]) (by simp) (by simp) ?_, ?_⟩
                    · intro b hb
                      simpa [Owns, ha, or_assoc, eq_comm] using hb
                    · simp [cell, shadowOf]
                | false =>
                    refine ⟨rowStep_of_cleared (by simp) (by simp)
                      (fun r' hne => by simp) (by simp) (by simp) ?_, ?_⟩
                    · intro b hb
                      simpa [Owns, ha, or_assoc, eq_comm] using hb
                    · simp [cell, shadowOf]
            | false =>
                simp only [hd, Bool.false_eq_true, if_false,
                  Option.some.injEq] at h ⊢
                rw [← h]
                have hclear := setAt_rowStep (d := { t.heap a with
                  readlockHolders := none }) hsep ha rfl
                obtain ⟨hstep, hcell⟩ := installShadow_rowStep
                  (hclear.sep hsep) (r := r) (a := a) (by simp [ha]) (by simp)
                refine ⟨hclear.trans hstep, ?_⟩
                rw [hcell, cell_setAt ha]
                unfold Cell.installed
                cases (cell t r).shadow <;> simp

/-- The tail of a rollback, whatever holders it leaves. The shadow goes once:
in the delete branch before the object is rewritten, otherwise after. It is
never the row's own object, because the row is not an insert. -/
theorem settle_rowStep {t u : Table} {r : Int} {a : Addr} {d : Rowdata}
    {f : Option ForwarderEntry} (hsep : Sep t) (ha : t.rows r = some a)
    (hins : getinsertflag (t.heap a).flags = false)
    (hrows : u.rows = t.rows)
    (hshadow : u.shadowRows = Function.update t.shadowRows r none)
    (hfwd : u.forwarderMap = Function.update t.forwarderMap r f)
    (hheap : u.heap = Function.update t.heap a d)
    (hnext : u.nextAddr = t.nextAddr)
    (hdel : u.deletes = t.deletes ++ (t.shadowRows r).toList) :
    RowStep r t u ∧ cell u r = ⟨some d, .absent, f⟩ := by
  refine ⟨rowStep_of_settled hsep (.inl ha) (by simp [hrows, ← ha]) hshadow
    (fun r' hne => by simp [hfwd, hne]) (fun a' ho => ?_) hnext
    (fun b hb => ?_), ?_⟩
  · have hne : a' ≠ a := fun h => ho (.inl (h ▸ ha))
    simp [hheap, hne]
  · rw [hdel, List.mem_append, Option.mem_toList] at hb
    rcases hb with hb | hb
    · exact .inl hb
    · refine .inr ⟨.inr hb, fun hba => ?_⟩
      subst hba
      rw [hsep.aliased ha hb] at hins
      exact absurd hins (by simp)
  · simp [cell, shadowOf, hrows, hshadow, hfwd, hheap, ha]

theorem rollbackStaying_rowStep {t t' : Table} {r s : Int} {a : Addr}
    (hsep : Sep t) (ha : t.rows r = some a)
    (hins : getinsertflag (t.heap a).flags = false)
    (h : t.rollbackStaying r a s = some t') :
    RowStep r t t' ∧
      (Table.rollbackHolders (t.heap a) s).map (fun holders =>
        (⟨some { t.heap a with
            writelockHolder := 0
            flags := if holders.isSome then setreadlock 0#8 else 0#8
            readlockHolders := holders }, .absent,
          if getdeleteflag (t.heap a).flags &&
            getreplacedeleteflag (t.heap a).flags then none
          else (cell t r).forwarder⟩ : Cell)) = some (cell t' r) := by
  unfold Table.rollbackStaying at h
  simp only [] at h
  cases hh : Table.rollbackHolders (t.heap a) s with
  | none => simp [hh] at h
  | some holders =>
  simp only [hh, Option.some.injEq] at h
  have hu := fun f => settle_rowStep (u := t') (f := f) (d := { t.heap a with
    writelockHolder := 0
    flags := if holders.isSome then setreadlock 0#8 else 0#8
    readlockHolders := holders }) hsep ha hins
  cases hd : getdeleteflag (t.heap a).flags with
  | false =>
      obtain ⟨hstep, hcell⟩ := hu (t.forwarderMap r)
        (by simp [← h, hd]) (by simp [← h, hd]) (by simp [← h, hd])
        (by simp [← h, hd]) (by simp [← h, hd]) (by simp [← h, hd])
      exact ⟨hstep, congrArg some hcell.symm⟩
  | true =>
      cases hf : getreplacedeleteflag (t.heap a).flags with
      | false =>
          obtain ⟨hstep, hcell⟩ := hu (t.forwarderMap r)
            (by simp [← h, hd, hf]) (by simp [← h, hd, hf])
            (by simp [← h, hd, hf]) (by simp [← h, hd, hf])
            (by simp [← h, hd, hf]) (by simp [← h, hd, hf])
          exact ⟨hstep, congrArg some hcell.symm⟩
      | true =>
          obtain ⟨hstep, hcell⟩ := hu none
            (by simp [← h, hd, hf]) (by simp [← h, hd, hf])
            (by simp [← h, hd, hf]) (by simp [← h, hd, hf])
            (by simp [← h, hd, hf]) (by simp [← h, hd, hf])
          exact ⟨hstep, congrArg some hcell.symm⟩

theorem rollbackRow_rowStep {t t' : Table} {r s : Int} (hsep : Sep t)
    (h : t.rollbackRow r s = some t') :
    RowStep r t t' ∧ (cell t r).rollback s = some (cell t' r) := by
  unfold Table.rollbackRow at h
  unfold Cell.rollback
  cases ha : t.rows r with
  | none =>
      simp only [ha, Option.some.injEq] at h
      rw [cell_row_none ha, ← h]
      exact ⟨.refl hsep, rfl⟩
  | some a =>
      simp only [ha] at h
      rw [cell_row_some ha]
      simp only []
      split at h
      · next hbogus =>
          injection h with h
          rw [if_pos hbogus, ← h]
          exact ⟨.refl hsep, rfl⟩
      · next hbogus =>
          rw [if_neg hbogus]
          cases hins : getinsertflag (t.heap a).flags with
          | true =>
              simp only [hins, if_true, Option.some.injEq] at h ⊢
              rw [← h]
              refine ⟨rowStep_of_cleared (by simp) (by simp)
                (fun _ _ => by simp) (by simp) (by simp) ?_, ?_⟩
              · intro b hb
                simp only [Table.setShadow_fields, Table.setRow_fields,
                  Table.delete_fields, List.mem_append,
                  List.mem_singleton] at hb
                rcases hb with hb | hb
                · exact .inl hb
                · exact .inr (.inl (hb ▸ ha))
              · simp [cell, shadowOf]
          | false =>
              simp only [hins, Bool.false_eq_true, if_false] at h ⊢
              exact rollbackStaying_rowStep hsep ha hins h

theorem unlockRow_rowStep {t t' : Table} {r s : Int} (hsep : Sep t)
    (h : t.unlockRow r s = some t') :
    RowStep r t t' ∧ (cell t r).unlock s = some (cell t' r) := by
  unfold Table.unlockRow at h
  unfold Cell.unlock
  cases ha : t.rows r with
  | none => simp [ha] at h
  | some a =>
      simp only [ha] at h
      rw [cell_row_some ha]
      simp only []
      by_cases hl : getlocktype (t.heap a).flags = .readLock
      · rw [if_neg (not_not_intro hl)] at h ⊢
        exact dropReader_rowStep hsep ha h
      · rw [if_pos hl] at h ⊢
        injection h with h
        rw [← h]
        exact ⟨.refl hsep, rfl⟩

theorem revertRow_rowStep {t : Table} {r s : Int} (hsep : Sep t) :
    RowStep r t (t.revertRow r s) ∧
      cell (t.revertRow r s) r = (cell t r).revert s := by
  unfold Table.revertRow Cell.revert Cell.ifHolder
  cases ha : t.rows r with
  | none =>
      rw [cell_row_none ha]
      exact ⟨.refl hsep, rfl⟩
  | some a =>
      rw [cell_row_some ha]
      simp only []
      cases hw : Table.writeLockedBy (t.heap a) s with
      | false => exact ⟨.refl hsep, rfl⟩
      | true =>
          simp only [Bool.not_true, Bool.false_eq_true, if_false, if_true]
          cases hins : getinsertflag (t.heap a).flags with
          | true =>
              simp only [if_true]
              refine ⟨rowStep_of_cleared (by simp) (by simp)
                (fun r' hne => by simp [hne]) (by simp) (by simp)
                (fun _ h => by simpa using Or.inl h), ?_⟩
              simp [cell, shadowOf]
          | false =>
              simp only [Bool.false_eq_true, if_false]
              refine ⟨rowStep_of_settled hsep (.inl ha) (by simp [← ha])
                (by simp) (fun r' hne => by simp [hne]) (fun a' ho => ?_)
                (by simp) (fun _ h => by simpa using Or.inl h), ?_⟩
              · have hne : a' ≠ a := fun h => ho (.inl (h ▸ ha))
                simp [hne]
              · simp [cell, shadowOf, ha]

theorem commitRollbackUnlock_rowStep {t t' : Table} {r s : Int}
    {cmd : Enginecmd} (hsep : Sep t)
    (h : t.commitRollbackUnlock r s cmd = some t') :
    RowStep r t t' ∧ (cell t r).finish s cmd = some (cell t' r) := by
  cases cmd with
  | commitCmd => exact commitRow_rowStep hsep h
  | rollbackCmd => exact rollbackRow_rowStep hsep h
  | unlockCmd => exact unlockRow_rowStep hsep h
  | revertCmd =>
      injection h with h
      obtain ⟨hstep, hcell⟩ := revertRow_rowStep (r := r) (s := s) hsep
      exact ⟨h ▸ hstep, by rw [← h, hcell]; rfl⟩
  | noEngineCmd | newRow | uniqueIndex | updateRow | deleteRow
  | replaceDeleteRow | indexSearch | selectRows | searchReturn1 =>
      injection h with h
      exact ⟨h ▸ .refl hsep, by rw [← h]; rfl⟩

/-! ## Calls and runs -/

/-- `t'` is what the calls on each cell make of `t`. -/
def Refines (ops : Int → List CellOp) (t t' : Table) : Prop :=
  Sep t' ∧ ∀ r, run cellStep (cell t r) (ops r) = some (cell t' r)

theorem Refines.of_rowStep {t t' : Table} {r : Int} (op : CellOp)
    (hsep : Sep t) (hstep : RowStep r t t')
    (hcell : cellStep (cell t r) op = some (cell t' r)) :
    Refines (fun r' => if r = r' then [op] else []) t t' := by
  refine ⟨hstep.sep hsep, fun r' => ?_⟩
  by_cases hr : r = r'
  · subst hr
    show run cellStep (cell t r) (if r = r then [op] else []) = _
    rw [if_pos rfl]
    exact run_cons.mpr ⟨_, hcell, rfl⟩
  · show run cellStep (cell t r') (if r = r' then [op] else []) = _
    rw [if_neg hr, hstep.cell hsep (Ne.symm hr)]
    rfl

theorem Refines.trans {ops ops' : Int → List CellOp} {t t' t'' : Table}
    (h : Refines ops t t') (h' : Refines ops' t' t'') :
    Refines (fun r => ops r ++ ops' r) t t'' :=
  ⟨h'.1, fun r => run_append.mpr ⟨_, h.2 r, h'.2 r⟩⟩

/-- The loop of `selectrows` visits the rowids in turn. -/
theorem selectrows_refines {lt : Locktype} {s pc tc : Int} {rs : List Int} :
    ∀ {t t' : Table} {hits : List ReturnRow}, Sep t →
      t.selectrows lt s pc tc rs = some (hits, t') →
      Refines (fun r => cellOps r (.selectrows rs lt s pc tc)) t t' := by
  induction rs with
  | nil =>
      intro t t' hits hsep h
      simp only [Table.selectrows, Option.some.injEq, Prod.mk.injEq] at h
      exact h.2 ▸ ⟨hsep, fun _ => rfl⟩
  | cons r₀ rs ih =>
      intro t t' hits hsep h
      unfold Table.selectrows at h
      split at h
      · exact absurd h (by simp)
      · next hit t₁ h1 =>
          split at h
          · exact absurd h (by simp)
          · next hits' t₂ h2 =>
              simp only [Option.some.injEq, Prod.mk.injEq] at h
              obtain ⟨hstep, hcell⟩ := selectrow_rowStep hsep h1
              have hhead := Refines.of_rowStep (.select lt s) hsep hstep hcell
              have htail := ih (hstep.sep hsep) h2
              refine h.2 ▸ ⟨htail.1, fun r => ?_⟩
              have hrun := (hhead.trans htail).2 r
              by_cases hr : r₀ = r <;> simpa [cellOps, hr] using hrun

/-- A call on the store is its `cellOps` on each cell. -/
theorem step_refines {t t' : Table} {op : TableOp} (hsep : Sep t)
    (h : t.step op = some t') : Refines (fun r => cellOps r op) t t' := by
  cases op with
  | newrow r s row =>
      injection h with h
      exact h ▸ .of_rowStep (.newrow s row) hsep (newrow_rowStep hsep)
        (congrArg some cell_newrow.symm)
  | selectrows rs lt s pc tc =>
      simp only [Table.step, Table.exec, Option.map_map,
        Option.map_eq_some_iff] at h
      obtain ⟨⟨hits, t₁⟩, h1, h2⟩ := h
      exact h2 ▸ selectrows_refines hsep h1
  | updaterow r s row =>
      injection h with h
      exact h ▸ .of_rowStep (.updaterow s row) hsep (updaterow_rowStep hsep)
        (congrArg some (cell_updaterow hsep).symm)
  | deleterow r s =>
      injection h with h
      exact h ▸ .of_rowStep (.deleterow s) hsep (deleterow_rowStep hsep)
        (congrArg some cell_deleterow.symm)
  | replacedeleterow r s fr fe =>
      injection h with h
      exact h ▸ .of_rowStep (.replacedeleterow s ⟨fr, fe⟩) hsep
        (replacedeleterow_rowStep hsep)
        (congrArg some cell_replacedeleterow.symm)
  | commitRollbackUnlock r s cmd =>
      simp only [Table.step, Table.exec, Option.map_map,
        Option.map_eq_some_iff] at h
      obtain ⟨t₁, h1, h2⟩ := h
      obtain ⟨hstep, hcell⟩ := commitRollbackUnlock_rowStep hsep h1
      exact h2 ▸ .of_rowStep (.finish s cmd) hsep hstep hcell

/-- A run of the store is a run of each cell. -/
theorem run_refines {ops : List TableOp} : ∀ {t t' : Table}, Sep t →
    run Table.step t ops = some t' →
    Refines (fun r => ops.flatMap (cellOps r)) t t' := by
  induction ops with
  | nil =>
      intro t t' hsep h
      injection h with h
      exact h ▸ ⟨hsep, fun _ => rfl⟩
  | cons op ops ih =>
      intro t t' hsep h
      obtain ⟨t₁, h1, h2⟩ := run_cons.mp h
      have hstep := step_refines hsep h1
      exact hstep.trans (ih hstep.1 h2)

/-! ## The calls on one cell -/

/-- A call reaches a cell once, or as any number of equal selects. -/
theorem cellOps_cases (r : Int) (op : TableOp) :
    (∃ lt s, ∀ cop ∈ cellOps r op, cop = .select lt s) ∨
      ∃ cop, cellOps r op = [cop] := by
  cases op with
  | selectrows rs lt s pc tc =>
      refine .inl ⟨lt, s, fun cop h => ?_⟩
      obtain ⟨_, _, rfl⟩ := List.mem_map.mp h
      rfl
  | newrow r' | updaterow r' | deleterow r' | replacedeleterow r'
  | commitRollbackUnlock r' =>
      by_cases hr : r' = r
      · exact .inr ⟨_, if_pos hr⟩
      · exact .inl ⟨.noLock, 0, by simp [cellOps, hr]⟩

theorem finish_of_mem_cellOps {r s : Int} {op : TableOp} {cmd : Enginecmd}
    (h : CellOp.finish s cmd ∈ cellOps r op) :
    op = .commitRollbackUnlock r s cmd := by
  cases op <;> simp only [cellOps] at h
  case selectrows =>
    obtain ⟨_, _, h⟩ := List.mem_map.mp h
    exact absurd h (by simp)
  all_goals
    split at h
    · next hr =>
        have h := List.mem_singleton.mp h
        simp only [CellOp.finish.injEq, reduceCtorEq] at h
        try simp [hr, h.1, h.2]
    · exact absurd h List.not_mem_nil

theorem newrow_of_mem_cellOps {r s : Int} {op : TableOp} {row : Bytes}
    (h : CellOp.newrow s row ∈ cellOps r op) : op = .newrow r s row := by
  cases op <;> simp only [cellOps] at h
  case selectrows =>
    obtain ⟨_, _, h⟩ := List.mem_map.mp h
    exact absurd h (by simp)
  all_goals
    split at h
    · next hr =>
        have h := List.mem_singleton.mp h
        simp only [CellOp.newrow.injEq, reduceCtorEq] at h
        try simp [hr, h.1, h.2]
    · exact absurd h List.not_mem_nil

/-- A call does nothing to the cell of a row it does not name. -/
theorem cellOps_of_not_named {r : Int} {op : TableOp} (h : r ∉ op.rowids) :
    cellOps r op = [] := by
  cases op with
  | selectrows rs lt s pc tc =>
      simp only [cellOps, List.map_eq_nil_iff, List.filter_eq_nil_iff,
        decide_eq_true_eq]
      rintro r' hr' rfl
      exact h hr'
  | newrow r' | updaterow r' | deleterow r' | replacedeleterow r'
  | commitRollbackUnlock r' =>
      have hne : r' ≠ r := fun heq => h (heq ▸ List.mem_singleton_self _)
      exact if_neg hne

theorem run_cell_of_not_named {t t' : Table} {r : Int} {ops : List TableOp}
    (hsep : Sep t) (hr : ∀ op ∈ ops, r ∉ op.rowids)
    (h : run Table.step t ops = some t') : cell t' r = cell t r := by
  have hnil : ops.flatMap (cellOps r) = [] :=
    List.flatMap_eq_nil_iff.mpr fun op hop => cellOps_of_not_named (hr op hop)
  have hrun : run cellStep (cell t r) (ops.flatMap (cellOps r)) =
      some (cell t' r) := (run_refines hsep h).2 r
  rw [hnil] at hrun
  injection hrun with hrun
  exact hrun.symm

/-- What a call on the store does to a cell, as an invariant rule: enough that
the call's selects keep the property, and its one other call does. -/
theorem run_cellOps_induct {P : Cell → Prop} {c c' : Cell} {r : Int}
    {op : TableOp}
    (hsel : ∀ {c c' : Cell} {lt s}, CellOp.select lt s ∈ cellOps r op →
      P c → c.select lt s = some c' → P c')
    (hone : ∀ {cop c₁}, cop ∈ cellOps r op → cellStep c cop = some c₁ → P c₁)
    (hc : P c) (hrun : run cellStep c (cellOps r op) = some c') : P c' := by
  rcases cellOps_cases r op with ⟨lt, s, hall⟩ | ⟨cop, hcop⟩
  · refine run_induct (Q := fun cop => cop = CellOp.select lt s ∧
      cop ∈ cellOps r op) ?_ (fun cop hcop => ⟨hall cop hcop, hcop⟩) hc hrun
    rintro c cop c' ⟨rfl, hmem⟩ hc hstep
    exact hsel hmem hc hstep
  · rw [hcop] at hrun hone
    obtain ⟨c₁, h1, h2⟩ := run_cons.mp hrun
    injection h2 with h2
    exact h2 ▸ hone List.mem_cons_self h1

/-! ## What a change of lock keeps

Selects and read unlocks rewrite the row's object too, but only its lock
fields: the version stays, and so do the shadow and the forwarder. -/

/-- `d'` is `d` under another lock. -/
structure SameVersion (d d' : Rowdata) : Prop where
  row : d'.row = d.row
  previous : d'.previoussubtransactionid = d.previoussubtransactionid
  insertflag : getinsertflag d'.flags = getinsertflag d.flags
  deleteflag : getdeleteflag d'.flags = getdeleteflag d.flags
  replaceflag : getreplacedeleteflag d'.flags = getreplacedeleteflag d.flags

theorem SameVersion.refl (d : Rowdata) : SameVersion d d :=
  ⟨rfl, rfl, rfl, rfl, rfl⟩

/-- `c'` is `c` with at most the row's lock changed. -/
structure Relocked (c c' : Cell) : Prop where
  shadow : c'.shadow = c.shadow
  forwarder : c'.forwarder = c.forwarder
  rowNone : c.row = none → c'.row = none
  rowSome : ∀ {d}, c.row = some d → ∃ d', c'.row = some d' ∧ SameVersion d d'

theorem Relocked.refl (c : Cell) : Relocked c c :=
  ⟨rfl, rfl, id, fun h => ⟨_, h, .refl _⟩⟩

theorem Relocked.of_row {c : Cell} {d d' : Rowdata} (hd : c.row = some d)
    (h : SameVersion d d') : Relocked c { c with row := some d' } := by
  refine ⟨rfl, rfl, fun hn => ?_, fun hd₁ => ?_⟩
  · rw [hd] at hn
    exact absurd hn (by simp)
  · obtain rfl := Option.some.inj (hd.symm.trans hd₁)
    exact ⟨d', rfl, h⟩

theorem dropReader_relocked {c c' : Cell} {d : Rowdata} {s : Int}
    (hd : c.row = some d) (h : c.dropReader d s = some c') :
    Relocked c c' := by
  unfold Cell.dropReader at h
  split at h
  · exact absurd h (by simp)
  · split at h
    · injection h with h
      exact h ▸ .refl c
    · split at h <;> injection h with h <;> refine h ▸ .of_row hd ?_
      · exact ⟨rfl, rfl, by simp, by simp, by simp⟩
      · exact ⟨rfl, rfl, rfl, rfl, rfl⟩

theorem select_relocked {c c' : Cell} {lt : Locktype} {s : Int}
    (h : c.select lt s = some c') : Relocked c c' := by
  unfold Cell.select at h
  cases hd : c.row with
  | none =>
      simp only [hd, Option.some.injEq] at h
      exact h ▸ .refl c
  | some d =>
      simp only [hd] at h
      split at h
      · split at h
        · exact absurd h (by simp)
        · injection h with h
          exact h ▸ .refl c
      · injection h with h
        exact h ▸ .of_row hd ⟨rfl, rfl, by simp, by simp, by simp⟩
      · split at h
        · exact absurd h (by simp)
        · split at h <;> injection h with h
          · exact h ▸ .refl c
          · exact h ▸ .of_row hd ⟨rfl, rfl, rfl, rfl, rfl⟩
      · injection h with h
        exact h ▸ .of_row hd ⟨rfl, rfl, by simp, by simp, by simp⟩
      · injection h with h
        exact h ▸ .refl c

/-- No select takes or shares a write lock. -/
theorem select_of_writeLock {c c' : Cell} {d : Rowdata} {lt : Locktype}
    {s : Int} (hd : c.row = some d) (hl : getlocktype d.flags = .writeLock)
    (h : c.select lt s = some c') : c' = c := by
  unfold Cell.select at h
  simp only [hd, hl] at h
  cases lt <;> injection h with h <;> exact h.symm

theorem writeLockedBy_iff {d : Rowdata} {s : Int} :
    Table.writeLockedBy d s = true ↔
      getlocktype d.flags = .writeLock ∧ d.writelockHolder = s := by
  simp [Table.writeLockedBy]

/-- A commit by anybody but the holder of the write lock is at most a read
unlock. -/
theorem commit_of_not_held {c c' : Cell} {d : Rowdata} {s : Int}
    (hd : c.row = some d) (hw : ¬ Table.writeLockedBy d s = true)
    (h : c.commit s = some c') :
    c' = c ∨ getlocktype d.flags = .readLock ∧
      c.dropReader d s = some c' := by
  unfold Cell.commit at h
  simp only [hd, hw, Bool.not_false, if_true] at h
  split at h
  · next hl => exact .inr ⟨hl, h⟩
  · injection h with h
    exact .inl h.symm

/-- A commit by the holder takes a deleted row out and settles any other. -/
theorem commit_of_held {c c' : Cell} {d : Rowdata} {s : Int}
    (hd : c.row = some d) (hw : Table.writeLockedBy d s = true)
    (h : c.commit s = some c') :
    getdeleteflag d.flags = true ∧ c' = ⟨none, .absent,
        if getreplacedeleteflag d.flags then none else c.forwarder⟩ ∨
      getdeleteflag d.flags = false ∧
        c' = ⟨some (c.installed d), .absent, c.forwarder⟩ := by
  unfold Cell.commit at h
  have hl : getlocktype d.flags ≠ .readLock := by
    rw [(writeLockedBy_iff.mp hw).1]
    simp
  simp only [hd, hl, hw, Bool.not_true, Bool.false_eq_true, if_false] at h
  split at h
  · next hdel =>
      injection h with h
      exact .inl ⟨hdel, h.symm⟩
  · next hdel =>
      injection h with h
      exact .inr ⟨by simpa using hdel, h.symm⟩

/-- The three outcomes of a rollback of a present row. -/
theorem rollback_cases {c c' : Cell} {d : Rowdata} {s : Int}
    (hd : c.row = some d) (h : c.rollback s = some c') :
    (d.writelockHolder ≠ s ∧ getlocktype d.flags = .writeLock) ∧ c' = c ∨
      ¬ (d.writelockHolder ≠ s ∧ getlocktype d.flags = .writeLock) ∧
        (getinsertflag d.flags = true ∧ c' = ⟨none, .absent, c.forwarder⟩ ∨
          getinsertflag d.flags = false ∧ ∃ holders,
            Table.rollbackHolders d s = some holders ∧
            c' = ⟨some { d with
                writelockHolder := 0
                flags := if holders.isSome then setreadlock 0#8 else 0#8
                readlockHolders := holders }, .absent,
              if getdeleteflag d.flags && getreplacedeleteflag d.flags
              then none else c.forwarder⟩) := by
  unfold Cell.rollback at h
  simp only [hd] at h
  split at h
  · next hbogus =>
      injection h with h
      exact .inl ⟨hbogus, h.symm⟩
  · next hbogus =>
      refine .inr ⟨hbogus, ?_⟩
      split at h
      · next hins =>
          injection h with h
          exact .inl ⟨hins, h.symm⟩
      · next hins =>
          simp only [Option.map_eq_some_iff] at h
          obtain ⟨holders, hh, h⟩ := h
          exact .inr ⟨by simpa using hins, holders, hh, h.symm⟩

end Infinisql.Proofs
