import Infinisql.Proofs.TableInvariant
import Infinisql.Spec.History

/-!
# What a commit installs

The holder of a row's write lock stages inserts, updates and deletes on it,
and `COMMITCMD` is to install the last of them. The commit does not know
which one was last. It goes by two bits: the delete flag of the row's object,
which no later staging call clears, and whether the shadow is that object or
another, which is how an insert is told from an update. `Pending` is what
these bits say after any sequence of staging calls.

So the two orders in which the bits say something else than the last call go
wrong. An update after a delete is thrown away with the row. A delete of a
row that was inserted and not updated since finds one object in both maps,
and deletes it through each of them. In every other order the commit
installs the last call, and `commit_installsLast_iff` says so: of any table
that satisfies the lock invariant, and of what becomes of the objects too.
-/

namespace Infinisql.Proofs

open Infinisql.Ref Infinisql.Spec Infinisql.Lib

/-! ## Staging on one row -/

/-- A call that stages something on a row. -/
inductive Staging
  | newrow (row : Bytes)
  | updaterow (row : Bytes)
  | deleterow
  deriving DecidableEq, Repr

/-- The call, made by `s` on rowid `r`, where it succeeds. -/
def stage (s r : Int) (t : Table) : Staging → Option Table
  | .newrow row => some (t.newrow r s row)
  | .updaterow row =>
      match t.updaterow r s row with
      | (.notOk, _) => none
      | (.ok, t') => some t'
  | .deleterow =>
      match t.deleterow r s with
      | (.notOk, _) => none
      | (.ok, t') => some t'

/-- What a commit goes by: is the staged object the row's own, is the delete
flag set, and is the replace flag. -/
structure Pending where
  aliased : Bool
  deleted : Bool
  replaced : Bool

def Pending.of (c : Cell) : Pending where
  aliased := match c.shadow with
    | .same => true
    | .absent | .copy _ => false
  deleted := c.row.any fun d => getdeleteflag d.flags
  replaced := c.row.any fun d => getreplacedeleteflag d.flags

/-- What a staging call leaves pending. -/
def Pending.next (p : Pending) : Staging → Pending
  | .newrow _ => ⟨true, false, false⟩
  | .updaterow _ => { p with aliased := false }
  | .deleterow => { p with deleted := true }

theorem heldBy_cell {t : Table} {r s : Int} :
    History.heldBy (cell t r) s = true ↔
      ∃ a, t.rows r = some a ∧ Table.writeLockedBy (t.heap a) s = true := by
  cases ha : t.rows r <;> simp [History.heldBy, cell, ha]

/-- The object a staging call succeeds on. -/
theorem updaterow_ok {t t' : Table} {r s : Int} {row : Bytes}
    (h : stage s r t (.updaterow row) = some t') :
    ∃ a, t.rows r = some a ∧ Table.writeLockedBy (t.heap a) s = true ∧
      t' = (t.alloc { row := row }).setShadow r (some t.nextAddr) := by
  simp only [stage, Table.updaterow] at h
  cases ha : t.rows r with
  | none => simp [ha] at h
  | some a =>
      cases hw : Table.writeLockedBy (t.heap a) s with
      | false => simp [ha, hw] at h
      | true =>
          simp only [ha, hw, Bool.not_true, Bool.false_eq_true, if_false,
            Option.some.injEq] at h
          exact ⟨a, rfl, hw, h.symm⟩

theorem deleterow_ok {t t' : Table} {r s : Int}
    (h : stage s r t .deleterow = some t') :
    ∃ a, t.rows r = some a ∧ Table.writeLockedBy (t.heap a) s = true ∧
      t' = t.setAt a { t.heap a with
        flags := setdeleteflag (t.heap a).flags } := by
  simp only [stage, Table.deleterow] at h
  cases ha : t.rows r with
  | none => simp [ha] at h
  | some a =>
      cases hw : Table.writeLockedBy (t.heap a) s with
      | false => simp [ha, hw] at h
      | true =>
          simp only [ha, hw, Bool.not_true, Bool.false_eq_true, if_false,
            Option.some.injEq] at h
          exact ⟨a, rfl, hw, h.symm⟩

/-- What one staging call does. Nothing is deleted, and the row is held
afterwards. -/
theorem stage_spec {t t' : Table} {s r : Int} {call : Staging} (hsep : Sep t)
    (h : stage s r t call = some t') :
    Sep t' ∧ History.heldBy (cell t' r) s = true ∧
      t'.deletes = t.deletes ∧
      t'.forwarderMap = t.forwarderMap ∧
      Pending.of (cell t' r) = (Pending.of (cell t r)).next call := by
  cases call with
  | newrow row =>
      injection h with h
      subst h
      refine ⟨(newrow_rowStep hsep).sep hsep, ?_, by simp [Table.newrow],
        by simp [Table.newrow], ?_⟩
      · rw [cell_newrow]
        simp [History.heldBy, Cell.newrow, Table.writeLockedBy]
      · rw [cell_newrow]
        simp [Pending.of, Pending.next, Cell.newrow]
  | updaterow row =>
      obtain ⟨a, ha, hw, rfl⟩ := updaterow_ok h
      have hcell : cell (t.updaterow r s row).2 r =
          (cell t r).updaterow s row := cell_updaterow hsep
      have hstep : RowStep r t (t.updaterow r s row).2 :=
        updaterow_rowStep hsep
      simp only [Table.updaterow, ha, hw, Bool.not_true, Bool.false_eq_true,
        if_false] at hcell hstep
      have hrow := cell_row_some ha
      refine ⟨hstep.sep hsep, ?_, by simp, by simp, ?_⟩
      · rw [hcell]
        simp [Cell.updaterow, Cell.ifHolder, hrow, hw, History.heldBy]
      · rw [hcell]
        simp [Cell.updaterow, Cell.ifHolder, hrow, hw, Pending.of,
          Pending.next]
  | deleterow =>
      obtain ⟨a, ha, hw, rfl⟩ := deleterow_ok h
      have hrow := cell_row_some ha
      refine ⟨(setAt_rowStep hsep ha (by simp)).sep hsep, ?_, by simp,
        by simp, ?_⟩
      · rw [cell_setAt ha]
        simpa [History.heldBy, Table.writeLockedBy] using hw
      · rw [cell_setAt ha]
        simp [Pending.of, Pending.next, hrow]

theorem stages_spec {s r : Int} {calls : List Staging} :
    ∀ {t t' : Table}, Sep t → run (stage s r) t calls = some t' →
      Sep t' ∧ t'.deletes = t.deletes ∧ t'.forwarderMap = t.forwarderMap ∧
        Pending.of (cell t' r) =
          calls.foldl Pending.next (Pending.of (cell t r)) := by
  induction calls with
  | nil =>
      intro t t' hsep h
      injection h with h
      exact h ▸ ⟨hsep, rfl, rfl, rfl⟩
  | cons call calls ih =>
      intro t t' hsep h
      obtain ⟨t₁, h1, h2⟩ := run_cons.mp h
      obtain ⟨hsep₁, _, hdel, hfwd, hnext⟩ := stage_spec hsep h1
      obtain ⟨h3, h4, h5, h6⟩ := ih hsep₁ h2
      refine ⟨h3, h4.trans hdel, h5.trans hfwd, ?_⟩
      rw [h6, hnext, List.foldl_cons]

/-- Only an insert takes the replace flag off. -/
theorem replaced_foldl (calls : List Staging) : ∀ p : Pending,
    (calls.foldl Pending.next p).replaced = true ↔
      p.replaced = true ∧ ∀ row, .newrow row ∉ calls := by
  induction calls with
  | nil => simp
  | cons call calls ih =>
      intro p
      rw [List.foldl_cons, ih]
      cases call with
      | newrow row =>
          simp only [Pending.next, Bool.false_eq_true, false_and, false_iff]
          exact fun h => h.2 row List.mem_cons_self
      | updaterow row => simp [Pending.next]
      | deleterow => simp [Pending.next]

/-! ## The commit -/

/-- The objects a commit by the holder deletes, in order. -/
def discarded (t : Table) (r : Int) (a : Addr) : List Addr :=
  if getdeleteflag (t.heap a).flags then a :: (t.shadowRows r).toList
  else if (t.shadowRows r).all (· = a) then []
  else [a]

theorem commitRow_of_held {t : Table} {r s : Int} {a : Addr}
    (ha : t.rows r = some a)
    (hw : Table.writeLockedBy (t.heap a) s = true) :
    ∃ t', t.commitRow r s = some t' ∧
      t'.deletes = t.deletes ++ discarded t r a := by
  have hl : getlocktype (t.heap a).flags ≠ .readLock := by
    rw [(writeLockedBy_iff.mp hw).1]
    simp
  simp only [Table.commitRow, ha, hl, hw, Bool.not_true, Bool.false_eq_true,
    if_false]
  cases hdel : getdeleteflag (t.heap a).flags with
  | true =>
      refine ⟨_, rfl, ?_⟩
      cases getreplacedeleteflag (t.heap a).flags <;>
        simp [discarded, hdel]
  | false =>
      refine ⟨_, rfl, ?_⟩
      cases hb : t.shadowRows r with
      | none => simp [Table.installShadow, discarded, hdel, hb]
      | some b =>
          by_cases hab : a = b
          · subst hab
            simp [Table.installShadow, discarded, hdel, hb]
          · simp [Table.installShadow, discarded, hdel, hb, hab, Ne.symm hab]

theorem aliased_iff {t : Table} {r : Int} {a : Addr} (ha : t.rows r = some a) :
    (Pending.of (cell t r)).aliased = true ↔ t.shadowRows r = some a := by
  cases hb : t.shadowRows r with
  | none => simp [Pending.of, cell, shadowOf, hb]
  | some b =>
      by_cases hab : a = b
      · simp [Pending.of, cell, shadowOf, ha, hb, hab]
      · simp [Pending.of, cell, shadowOf, ha, hb, hab, Ne.symm hab]

theorem deleted_iff {t : Table} {r : Int} {a : Addr} (ha : t.rows r = some a) :
    (Pending.of (cell t r)).deleted = getdeleteflag (t.heap a).flags := by
  simp [Pending.of, cell_row_some ha]

theorem replaced_iff {t : Table} {r : Int} {a : Addr}
    (ha : t.rows r = some a) :
    (Pending.of (cell t r)).replaced =
      getreplacedeleteflag (t.heap a).flags := by
  simp [Pending.of, cell_row_some ha]

/-- Each object is deleted once, and was not deleted before. -/
def DeletedOnce (t t' : Table) : Prop :=
  ∃ ds, t'.deletes = t.deletes ++ ds ∧ ds.Nodup ∧ ∀ a ∈ ds, a ∉ t.deletes

/-- One object in both maps and a delete flag is what it takes to delete an
object twice. -/
theorem deletedOnce_iff {t t' : Table} {r s : Int} {a : Addr} (hsep : Sep t)
    (ha : t.rows r = some a)
    (hw : Table.writeLockedBy (t.heap a) s = true)
    (h : t.commitRow r s = some t') :
    DeletedOnce t t' ↔ ¬ ((Pending.of (cell t r)).deleted = true ∧
      (Pending.of (cell t r)).aliased = true) := by
  obtain ⟨t₁, h1, hdel⟩ := commitRow_of_held ha hw
  obtain rfl := Option.some.inj (h.symm.trans h1)
  have hlive : ∀ b ∈ discarded t r a, b ∉ t.deletes := by
    intro b hb
    have hown : Owns t r b := by
      unfold discarded at hb
      split at hb
      · rcases List.mem_cons.mp hb with rfl | hb
        · exact .inl ha
        · exact .inr (Option.mem_toList.mp hb)
      · split at hb
        · exact absurd hb List.not_mem_nil
        · exact .inl (List.mem_singleton.mp hb ▸ ha)
    exact hsep.live hown
  have hnodup : DeletedOnce t t' ↔ (discarded t r a).Nodup := by
    constructor
    · rintro ⟨ds, h2, h3, _⟩
      exact List.append_cancel_left (hdel.symm.trans h2) ▸ h3
    · exact fun h2 => ⟨_, hdel, h2, hlive⟩
  rw [hnodup, deleted_iff ha, aliased_iff ha, discarded]
  split
  · next hd =>
      simp only [hd, true_and, List.nodup_cons, Option.mem_toList]
      cases t.shadowRows r <;> simp
  · next hd =>
      split <;> simp [hd]

/-- The row is present, unlocked and without a shadow, with this content. -/
def Settled (t : Table) (r : Int) (P : Rowdata → Prop) : Prop :=
  ∃ a, t.rows r = some a ∧ InShape .free (t.heap a) ∧ P (t.heap a) ∧
    t.shadowRows r = none

/-- What a commit of a held row leaves in the three maps. -/
theorem commit_pointers {t t' : Table} {r s : Int} {a : Addr} (hsep : Sep t)
    (ha : t.rows r = some a)
    (hw : Table.writeLockedBy (t.heap a) s = true)
    (h : t.commitRow r s = some t') :
    ((Pending.of (cell t r)).deleted = true ∧ t'.rows r = none ∧
        t'.shadowRows r = none ∧
        t'.forwarderMap r = if (Pending.of (cell t r)).replaced then none
          else t.forwarderMap r) ∨
      ((Pending.of (cell t r)).deleted = false ∧
        Settled t' r fun d => d = (cell t r).installed (t.heap a)) := by
  have hcell := (commitRow_rowStep hsep h).2
  rw [deleted_iff ha, replaced_iff ha]
  rcases commit_of_held (cell_row_some ha) hw hcell with
    ⟨hd, hc⟩ | ⟨hd, hc⟩
  · refine .inl ⟨hd, ?_, ?_, ?_⟩
    · have hrow : (cell t' r).row = none := by rw [hc]
      simpa [cell] using hrow
    · refine shadowRows_of_absent ?_
      rw [hc]
    · have hfwd : (cell t' r).forwarder = _ := congrArg Cell.forwarder hc
      exact hfwd
  · have hrow : (cell t' r).row = _ := congrArg Cell.row hc
    simp only [cell, Option.map_eq_some_iff] at hrow
    obtain ⟨b, hb, hval⟩ := hrow
    refine .inr ⟨hd, b, hb, ?_, hval, shadowRows_of_absent (by rw [hc])⟩
    rw [hval]
    unfold Cell.installed
    split <;> exact ⟨by simp, rfl, rfl⟩

theorem settled_commit {t t' : Table} {r s : Int} {a : Addr} (hsep : Sep t)
    (ha : t.rows r = some a)
    (hw : Table.writeLockedBy (t.heap a) s = true)
    (h : t.commitRow r s = some t') {P : Rowdata → Prop} :
    Settled t' r P ↔ (Pending.of (cell t r)).deleted = false ∧
      P ((cell t r).installed (t.heap a)) := by
  rcases commit_pointers hsep ha hw h with ⟨hd, hrow, _⟩ |
    ⟨hd, b, hb, hfree, heq, hshadow⟩
  · rw [hd]
    refine ⟨?_, fun h => absurd h.1 (by simp)⟩
    rintro ⟨b, hb, _⟩
    exact absurd (hrow.symm.trans hb) (by simp)
  · rw [← heq]
    refine ⟨?_, fun h => ⟨b, hb, hfree, h.2, hshadow⟩⟩
    rintro ⟨c, hc, _, hP, _⟩
    obtain rfl := Option.some.inj (hb.symm.trans hc)
    exact ⟨hd, hP⟩

/-- The version a commit would install after an insert or an update. -/
theorem installed_newrow {t : Table} {r s : Int} {row : Bytes} {a : Addr}
    (ha : (t.newrow r s row).rows r = some a) :
    ((cell (t.newrow r s row) r).installed ((t.newrow r s row).heap a)).row =
        row ∧
      ((cell (t.newrow r s row) r).installed
        ((t.newrow r s row).heap a)).previoussubtransactionid = s := by
  have hrow := cell_row_some ha
  rw [cell_newrow] at hrow ⊢
  injection hrow with hrow
  rw [← hrow]
  exact ⟨rfl, rfl⟩

theorem installed_updaterow {t t' : Table} {r s : Int} {row : Bytes}
    {a : Addr} (hsep : Sep t) (h : stage s r t (.updaterow row) = some t')
    (ha : t'.rows r = some a) :
    ((cell t' r).installed (t'.heap a)).row = row ∧
      ((cell t' r).installed (t'.heap a)).previoussubtransactionid = s := by
  obtain ⟨b, hb, hw, rfl⟩ := updaterow_ok h
  have hne : b ≠ t.nextAddr := Nat.ne_of_lt (hsep.bound (.inl hb))
  obtain rfl : b = a := by
    simpa [hb] using ha
  have hshadow : (cell ((t.alloc { row := row }).setShadow r
      (some t.nextAddr)) r).shadow = .copy { row := row } := by
    simp [cell, shadowOf, hb, hne]
  rw [Cell.installed, hshadow]
  exact ⟨rfl, by simpa [hne] using (writeLockedBy_iff.mp hw).2⟩

/-! ## The last call -/

/-- The commit of `s` that ends the calls made from `t₀`, in `t₂`, installed
the last of them; and what was deleted, was deleted once, and nothing still
refers to it. -/
structure InstallsLast (s r : Int) (calls : List Staging) (t₀ t₂ : Table) :
    Prop where
  effect : match calls.getLast? with
    | some .deleterow => t₂.rows r = none ∧ t₂.shadowRows r = none ∧
        t₂.forwarderMap r = none
    | some (.newrow row) | some (.updaterow row) =>
        Settled t₂ r fun d => d.row = row ∧ d.previoussubtransactionid = s
    | none => Settled t₂ r fun d => some d.row = (cell t₀ r).row.map (·.row)
  deletedOnce : DeletedOnce t₀ t₂
  unreferenced : ∀ r a, Owns t₂ r a → a ∉ t₂.deletes

/-- The bits the commit goes by say what the last call says. The second half
of the first case is about an insert on a rowid that is still forwarded, and
the last case about what was staged before: where no call follows, it must
not be a delete or another version. -/
def CommitsLast (t₀ : Table) (r : Int) (calls : List Staging) : Prop :=
  let p := calls.foldl Pending.next (Pending.of (cell t₀ r))
  match calls.getLast? with
  | some .deleterow => p.aliased = false ∧
      ((∃ row, .newrow row ∈ calls) → t₀.forwarderMap r = none)
  | some _ => p.deleted = false
  | none => p.deleted = false ∧ ∀ sh, (cell t₀ r).shadow = .copy sh →
      some sh.row = (cell t₀ r).row.map (·.row)

/-- A sequence of calls that does not insert starts on a row that is there. -/
theorem row_of_stages {t t' : Table} {s r : Int} {call : Staging}
    {calls : List Staging} (hnew : ∀ row, .newrow row ∉ call :: calls)
    (h : run (stage s r) t (call :: calls) = some t') :
    ∃ a, t.rows r = some a := by
  obtain ⟨t₁, h1, _⟩ := run_cons.mp h
  cases call with
  | newrow row => exact absurd List.mem_cons_self (hnew row)
  | updaterow row =>
      obtain ⟨a, ha, _⟩ := updaterow_ok h1
      exact ⟨a, ha⟩
  | deleterow =>
      obtain ⟨a, ha, _⟩ := deleterow_ok h1
      exact ⟨a, ha⟩

/-- What the replace flag is for: the commit of a delete takes the forwarder
along, unless the row was inserted on top of one. -/
theorem forwarder_cleared_iff {t₀ t₁ : Table} {s r : Int}
    {calls : List Staging} (hinv : LockInv t₀) (hne : calls ≠ [])
    (hrun : run (stage s r) t₀ calls = some t₁) :
    (if (calls.foldl Pending.next (Pending.of (cell t₀ r))).replaced = true
        then none else t₀.forwarderMap r) = none ↔
      ((∃ row, .newrow row ∈ calls) → t₀.forwarderMap r = none) := by
  by_cases hnew : ∃ row, Staging.newrow row ∈ calls
  · have hrep : ¬ (calls.foldl Pending.next
        (Pending.of (cell t₀ r))).replaced = true := by
      rw [replaced_foldl]
      rintro ⟨_, h⟩
      obtain ⟨row, hrow⟩ := hnew
      exact h row hrow
    rw [if_neg hrep]
    exact ⟨fun h _ => h, fun h => h hnew⟩
  · have hnew' : ∀ row, Staging.newrow row ∉ calls :=
      fun row h => hnew ⟨row, h⟩
    refine ⟨fun _ h => absurd h hnew, fun _ => ?_⟩
    obtain ⟨call, rest, rfl⟩ := List.exists_cons_of_ne_nil hne
    obtain ⟨a, ha⟩ := row_of_stages hnew' hrun
    by_cases hf : t₀.forwarderMap r = none
    · simp [hf]
    · have hrep := (hinv.cells r).forwarded (cell_row_some ha) hf
      rw [← replaced_iff ha] at hrep
      exact if_pos ((replaced_foldl _ _).mpr ⟨hrep, hnew'⟩)

/-- Whether or not the calls left a delete pending, the commit of a settled
row is judged by what it installed. -/
theorem commit_of_last {t₀ t₁ t₂ : Table} {s r : Int} {calls : List Staging}
    {a : Addr} (hinv : LockInv t₀)
    (hrun : run (stage s r) t₀ calls = some t₁) (ha : t₁.rows r = some a)
    (hw : Table.writeLockedBy (t₁.heap a) s = true)
    (hcommit : t₁.commitRow r s = some t₂) :
    InstallsLast s r calls t₀ t₂ ↔ CommitsLast t₀ r calls := by
  obtain ⟨hsep, hdel, hfwd, hp⟩ := stages_spec hinv.sep hrun
  have hsep₂ := (commitRow_rowStep hsep hcommit).1.sep hsep
  have honce : DeletedOnce t₀ t₂ ↔ DeletedOnce t₁ t₂ := by
    simp only [DeletedOnce, hdel]
  rw [deletedOnce_iff hsep ha hw hcommit, hp] at honce
  have hsettled : ∀ P : Rowdata → Prop, Settled t₂ r P ↔ _ :=
    fun P => settled_commit (P := P) hsep ha hw hcommit
  have hsplit : InstallsLast s r calls t₀ t₂ ↔ _ ∧ DeletedOnce t₀ t₂ :=
    ⟨fun h => ⟨h.effect, h.deletedOnce⟩,
      fun h => ⟨h.1, h.2, fun r a ho => hsep₂.live ho⟩⟩
  rw [hsplit, honce]
  simp only [hp] at hsettled
  clear hsplit honce
  unfold CommitsLast
  rcases List.eq_nil_or_concat' calls with rfl | ⟨init, call, rfl⟩
  · injection hrun with hrun
    subst hrun
    have hrow := cell_row_some ha
    simp only [List.getLast?_nil, hsettled, List.foldl_nil, hrow,
      Option.map_some, Option.some.injEq] at hp ⊢
    have hold : ((cell t₀ r).installed (t₀.heap a)).row = (t₀.heap a).row ↔
        ∀ sh, (cell t₀ r).shadow = .copy sh → sh.row = (t₀.heap a).row := by
      unfold Cell.installed
      cases (cell t₀ r).shadow <;> simp
    rw [hold]
    constructor
    · exact fun h => h.1
    · rintro ⟨hd, h⟩
      exact ⟨⟨hd, h⟩, fun h' => absurd (hd.symm.trans h'.1) (by simp)⟩
  · obtain ⟨t, h1, h2⟩ := Option.bind_eq_some_iff.mp
      ((run_concat ..).symm.trans hrun)
    obtain ⟨hsep', _⟩ := stages_spec hinv.sep h1
    simp only [List.getLast?_append, List.getLast?_singleton, Option.some_or,
      hsettled]
    cases call with
    | newrow row =>
        injection h2 with h2
        subst h2
        have hinst := installed_newrow ha
        constructor
        · exact fun h => h.1.1
        · intro hd
          exact ⟨⟨hd, hinst⟩, fun h' => absurd (hd.symm.trans h'.1) (by simp)⟩
    | updaterow row =>
        have hinst := installed_updaterow hsep' h2 ha
        constructor
        · exact fun h => h.1.1
        · intro hd
          exact ⟨⟨hd, hinst⟩, fun h' => absurd (hd.symm.trans h'.1) (by simp)⟩
    | deleterow =>
        have hd : ((init ++ [Staging.deleterow]).foldl Pending.next
            (Pending.of (cell t₀ r))).deleted = true := by
          simp [Pending.next]
        have hcleared := forwarder_cleared_iff hinv (by simp) hrun
        rcases commit_pointers hsep ha hw hcommit with
          ⟨_, hrow, hshadow, hforw⟩ | ⟨hn, _⟩
        · rw [hp, hfwd] at hforw
          rw [hforw, hcleared]
          simp only [hrow, hshadow, hd, true_and, Bool.not_eq_true]
          exact and_comm
        · rw [hp, hd] at hn
          exact absurd hn (by simp)

/-- Over every table that satisfies the lock invariant and every sequence of
staging calls on a row that `s` holds when it commits: the commit installs
the last call, and deletes nothing twice, exactly when the two bits it goes
by say what the last call says. -/
theorem commit_installsLast_iff {t₀ t₁ : Table} {s r : Int}
    {calls : List Staging} (hinv : LockInv t₀)
    (hrun : run (stage s r) t₀ calls = some t₁)
    (hheld : History.heldBy (cell t₁ r) s = true) :
    (∃ t₂, t₁.commitRollbackUnlock r s .commitCmd = some t₂ ∧
      InstallsLast s r calls t₀ t₂) ↔ CommitsLast t₀ r calls := by
  obtain ⟨a, ha, hw⟩ := heldBy_cell.mp hheld
  obtain ⟨t₂, hcommit, _⟩ := commitRow_of_held ha hw
  rw [← commit_of_last hinv hrun ha hw hcommit]
  constructor
  · rintro ⟨t, h, hlast⟩
    obtain rfl := Option.some.inj (hcommit.symm.trans h)
    exact hlast
  · exact fun hlast => ⟨t₂, hcommit, hlast⟩

/-- An insert, an update and a delete by 7: the row goes, and both its
objects with it. -/
theorem commit_installsLast_iff_insertUpdateDelete :
    ∃ t₁, run (stage 7 1) (.new 1 0)
        [.newrow [65], .updaterow [66], .deleterow] = some t₁ ∧
      ((∃ t₂, t₁.commitRollbackUnlock 1 7 .commitCmd = some t₂ ∧
          InstallsLast 7 1 [.newrow [65], .updaterow [66], .deleterow]
            (.new 1 0) t₂) ↔
        CommitsLast (.new 1 0) 1
          [.newrow [65], .updaterow [66], .deleterow]) :=
  ⟨_, rfl, commit_installsLast_iff lockInv_new rfl (by decide)⟩

/-- Without the update there is one object, and it is deleted twice. -/
theorem insertDelete_not_installsLast :
    ∃ t₁ t₂, run (stage 7 1) (.new 1 0) [.newrow [65], .deleterow] =
        some t₁ ∧
      t₁.commitRollbackUnlock 1 7 .commitCmd = some t₂ ∧
      t₂.deletes = [0, 0] ∧
      ¬ InstallsLast 7 1 [.newrow [65], .deleterow] (.new 1 0) t₂ := by
  refine ⟨_, _, rfl, rfl, by decide, fun h => ?_⟩
  obtain ⟨ds, hds, hnodup, _⟩ := h.deletedOnce
  have hds' : [0, 0] = ds := hds
  rw [← hds'] at hnodup
  exact absurd hnodup (by decide)

end Infinisql.Proofs
