import Infinisql.Spec.WholeTable
import Infinisql.Proofs.TableInvariant

/-!
# When a statement without WHERE acts on its table

The search adds to the staged rows what the engines return, and the answer of
an engine about a row depends on that row alone: the rows of one `selectrows`
are distinct, and locking one leaves the others as they are. So the results can
be given row by row, whatever the order in which the partitions and the engines
answer, and the rest is a comparison with what the transaction sees.
-/

namespace Infinisql.Proofs

open Infinisql.Lib Infinisql.Ref Infinisql.Spec

/-! ## What a search returns of one row -/

instance (d : Rowdata) (s : Int) : Decidable (HoldsRead d s) :=
  decidable_of_iff (getlocktype d.flags = .readLock ∧
    ∃ holders ∈ d.readlockHolders, s ∈ holders) Iff.rfl

instance (d : Rowdata) (s : Int) : Decidable (HoldsWrite d s) :=
  inferInstanceAs (Decidable (_ ∧ _))

instance (d : Rowdata) (s : Int) : Decidable (Holds d s) :=
  inferInstanceAs (Decidable (_ ∨ _))

/-- The row is returned to `s`. -/
def returned (s : Int) (lt : Locktype) (d : Rowdata) : Bool :=
  match lt with
  | .noLock => !decide (Holds d s)
  | .readLock => !decide (Holds d s) && !getinsertflag d.flags
  | .writeLock => !getinsertflag d.flags || decide (Holds d s)
  | _ => false

/-- What `selectrows` answers about the row with rowid `r`. -/
def answer (lt : Locktype) (r s : Int) : Option Rowdata → Option ReturnRow
  | none => some (Table.notFoundRow r)
  | some d =>
      if lt = .writeLock ∧ HoldsRead d s then
        some { rowid := r, row := [], locktype := .pendingLock }
      else if returned s lt d then
        some { rowid := r, row := d.row, locktype := lt }
      else none

/-- No other transaction has a lock on a committed row that the search would
have to wait for. -/
def FreeFor (lt : Locktype) (s : Int) (d : Rowdata) : Prop :=
  getinsertflag d.flags = false →
    match lt with
    | .noLock => True
    | .readLock => ∀ s', HoldsWrite d s' → s' = s
    | _ => ∀ s', Holds d s' → s' = s

variable {t t' : Table} {r s pc tc : Int} {lt : Locktype} {d : Rowdata}

/-- The shapes of the lock of a row, with what they say about the row. -/
theorem CellInv.cases {c : Cell} (h : CellInv c) (hd : c.row = some d) :
    (getlocktype d.flags = .noLock ∧ getinsertflag d.flags = false) ∨
      (getlocktype d.flags = .readLock ∧ getinsertflag d.flags = false ∧
        ∃ holders, d.readlockHolders = some holders ∧ holders.Nonempty) ∨
      getlocktype d.flags = .writeLock := by
  obtain ⟨k, hk, _⟩ := h.shape hd
  cases k with
  | free =>
      have hlock : getlocktype d.flags = .noLock := hk.1
      exact .inl ⟨hlock, (h.unlocked hd (by rw [hlock]; simp)).2.1⟩
  | shared =>
      have hlock : getlocktype d.flags = .readLock := hk.1
      exact .inr (.inl ⟨hlock, (h.unlocked hd (by rw [hlock]; simp)).2.1,
        hk.2.1⟩)
  | exclusive => exact .inr (.inr hk.1)

theorem holds_of_noLock (hl : getlocktype d.flags = .noLock) :
    ¬ Holds d s := by
  simp [Holds, HoldsRead, HoldsWrite, hl]

theorem holds_of_readLock {holders : Finset Int}
    (hl : getlocktype d.flags = .readLock)
    (hh : d.readlockHolders = some holders) : Holds d s ↔ s ∈ holders := by
  simp [Holds, HoldsRead, HoldsWrite, hl, hh]

theorem holds_of_writeLock (hl : getlocktype d.flags = .writeLock) :
    Holds d s ↔ d.writelockHolder = s := by
  simp [Holds, HoldsRead, HoldsWrite, hl]

theorem selectrow_missing (hrow : (cell t r).row = none)
    (hlt : lt = .noLock ∨ lt = .readLock ∨ lt = .writeLock) :
    t.selectrow lt r s pc tc = some (some (Table.notFoundRow r), t) := by
  have hnone : t.rows r = none := by simpa [cell] using hrow
  rcases hlt with rfl | rfl | rfl
  · simp [Table.selectrow, Table.selectNolock, hnone]
  · simp [Table.selectrow, Table.selectReadlock, hnone]
  · simp [Table.selectrow, Table.selectWritelock, hnone]

theorem selectrow_nolock (hinv : CellInv (cell t r))
    (hd : (cell t r).row = some d) :
    t.selectrow .noLock r s pc tc = some (answer .noLock r s (some d), t) := by
  obtain ⟨a, ha, rfl⟩ := Option.map_eq_some_iff.mp hd
  rw [answer, if_neg (by simp), returned]
  simp only [Table.selectrow, Table.selectNolock, ha]
  rcases hinv.cases hd with ⟨hl, _⟩ | ⟨hl, _, holders, hh, _⟩ | hl
  · simp [hl, holds_of_noLock hl]
  · simp only [hl, hh, holds_of_readLock hl hh]
    split <;> simp_all
  · simp only [hl, holds_of_writeLock hl]
    split <;> simp_all

theorem selectrow_readlock (hinv : CellInv (cell t r))
    (hd : (cell t r).row = some d) (hfree : FreeFor .readLock s d) :
    ∃ t', t.selectrow .readLock r s pc tc =
      some (answer .readLock r s (some d), t') := by
  obtain ⟨a, ha, rfl⟩ := Option.map_eq_some_iff.mp hd
  rw [answer, if_neg (by simp), returned]
  simp only [Table.selectrow, Table.selectReadlock, ha]
  rcases hinv.cases hd with ⟨hl, hi⟩ | ⟨hl, hi, holders, hh, _⟩ | hl
  · simp [hl, hi, holds_of_noLock hl]
  · simp only [hl, hi, hh, holds_of_readLock hl hh]
    split <;> simp_all
  · simp only [hl, holds_of_writeLock hl]
    split
    · next hs => simp [hs]
    · next hs =>
        have hi : getinsertflag (t.heap a).flags = true := by
          by_contra hi
          exact hs (hfree (by simpa using hi) _ ⟨hl, rfl⟩)
        simp [Table.queueRow, Table.assignToLockQueue, ha, hi]

theorem selectrow_writelock (hinv : CellInv (cell t r))
    (hd : (cell t r).row = some d) (hfree : FreeFor .writeLock s d) :
    ∃ t', t.selectrow .writeLock r s pc tc =
      some (answer .writeLock r s (some d), t') := by
  obtain ⟨a, ha, rfl⟩ := Option.map_eq_some_iff.mp hd
  simp only [Table.selectrow, Table.selectWritelock, ha]
  rcases hinv.cases hd with ⟨hl, hi⟩ | ⟨hl, hi, holders, hh, hne⟩ | hl
  · simp [answer, returned, hl, hi, HoldsRead]
  · have hread : HoldsRead (t.heap a) s := by
      obtain ⟨s', hs'⟩ := hne
      have hread : HoldsRead (t.heap a) s' := ⟨hl, holders, hh, hs'⟩
      exact hfree hi s' (.inl hread) ▸ hread
    have hanswer : answer .writeLock r s (some (t.heap a)) =
        some { rowid := r, row := [], locktype := .pendingLock } := by
      simp [answer, hread]
    rw [hanswer]
    simp [hl, hi, Table.queueRow, Table.assignToLockQueue, ha]
  · have hread : ¬ HoldsRead (t.heap a) s := by simp [HoldsRead, hl]
    simp only [answer, returned, hl, hread, holds_of_writeLock hl]
    by_cases hs : (t.heap a).writelockHolder = s
    · simp [hs]
    · have hi : getinsertflag (t.heap a).flags = true := by
        by_contra hi
        exact hs (hfree (by simpa using hi) _ (.inr ⟨hl, rfl⟩))
      simp [Table.queueRow, Table.assignToLockQueue, ha, hi, hs]

/-- The three lock types that a search takes rows with. -/
def Searches (lt : Locktype) : Prop :=
  lt = .noLock ∨ lt = .readLock ∨ lt = .writeLock

theorem selectrow_answers (hlt : Searches lt) (hinv : CellInv (cell t r))
    (hfree : ∀ d, (cell t r).row = some d → FreeFor lt s d) :
    ∃ t', t.selectrow lt r s pc tc =
      some (answer lt r s (cell t r).row, t') := by
  cases hd : (cell t r).row with
  | none => exact ⟨t, selectrow_missing hd hlt⟩
  | some d =>
      rcases hlt with rfl | rfl | rfl
      · exact ⟨t, selectrow_nolock hinv hd⟩
      · exact selectrow_readlock hinv hd (hfree d hd)
      · exact selectrow_writelock hinv hd (hfree d hd)

/-- The answers about distinct rows are those about each by itself. -/
theorem selectrows_answers (hlt : Searches lt) {rs : List Int} :
    ∀ {t : Table}, rs.Nodup → Sep t → (∀ r ∈ rs, CellInv (cell t r)) →
      (∀ r ∈ rs, ∀ d, (cell t r).row = some d → FreeFor lt s d) →
      ∃ t', t.selectrows lt s pc tc rs =
        some (rs.filterMap fun r => answer lt r s (cell t r).row, t') := by
  induction rs with
  | nil => exact fun _ _ _ _ => ⟨_, rfl⟩
  | cons r rs ih =>
      intro t hnodup hsep hinv hfree
      obtain ⟨hr, hnodup⟩ := List.nodup_cons.mp hnodup
      obtain ⟨t₁, h1⟩ : ∃ t₁, t.selectrow lt r s pc tc =
          some (answer lt r s (cell t r).row, t₁) :=
        selectrow_answers hlt (hinv r List.mem_cons_self)
          (hfree r List.mem_cons_self)
      have hstep := (selectrow_rowStep hsep h1).1
      have hcell : ∀ r' ∈ rs, cell t₁ r' = cell t r' := fun r' hr' =>
        hstep.cell hsep fun heq => hr (heq ▸ hr')
      obtain ⟨t₂, h2⟩ := ih hnodup (hstep.sep hsep)
        (fun r' hr' => hcell r' hr' ▸ hinv r' (List.mem_cons_of_mem r hr'))
        (fun r' hr' => hcell r' hr' ▸ hfree r' (List.mem_cons_of_mem r hr'))
      refine ⟨t₂, ?_⟩
      have hrest : (rs.filterMap fun r' => answer lt r' s (cell t₁ r').row) =
          rs.filterMap fun r' => answer lt r' s (cell t r').row :=
        List.filterMap_congr fun r' hr' => by rw [hcell r' hr']
      rw [Table.selectrows, h1]
      dsimp only
      rw [h2]
      dsimp only
      rw [hrest, List.filterMap_cons]
      cases answer lt r s (cell t r).row <;> rfl

/-! ## What comes into the results -/

variable {w : WholeTable} {cmd : SearchCmd} {uur : UuRecord}

/-- The row as an engine returns it. -/
def answeredRow (w : WholeTable) (lt : Locktype) (uur : UuRecord) :
    Option ReturnRow :=
  ((WholeTable.rowAt w uur).filter
    (returned (w.subtransactionids uur.engineid) lt)).map fun d =>
      { rowid := uur.rowid, row := d.row, locktype := lt }

/-- The search waits for the row. -/
def waits (w : WholeTable) (lt : Locktype) (uur : UuRecord) : Bool :=
  decide (lt = .writeLock) && (WholeTable.rowAt w uur).any
    (decide <| HoldsRead · (w.subtransactionids uur.engineid))

/-- The results with the rows of a list in them, where they are found. -/
def merged (w : WholeTable) (lt : Locktype) (uurs : List UuRecord)
    (results : SearchResults) : SearchResults := fun uur =>
  if uur ∈ uurs then (answeredRow w lt uur).or (results uur) else results uur

theorem merged_append (results : SearchResults) (us vs : List UuRecord) :
    merged w lt vs (merged w lt us results) =
      merged w lt (us ++ vs) results := by
  funext u
  simp only [merged, List.mem_append]
  by_cases hu : u ∈ us
  · by_cases hv : u ∈ vs
    · simp only [hu, hv, or_true, if_true]
      cases answeredRow w lt u <;> rfl
    · simp [hu, hv]
  · simp [hu]

/-- One answer comes into the results, or aborts the query. -/
theorem addReturnRow_answer (hlt : Searches lt) (e r : Int)
    (results : SearchResults) :
    (answer lt r (w.subtransactionids e) (cell (w.store e) r).row).toList.foldlM
        (w.addReturnRow e) results =
      if waits w lt ⟨r, w.tableid, e⟩ then .error Apistatus.lock
      else .ok (merged w lt [⟨r, w.tableid, e⟩] results) := by
  have hkept : answeredRow w lt ⟨r, w.tableid, e⟩ = none →
      merged w lt [⟨r, w.tableid, e⟩] results = results := by
    intro hnone
    funext u
    by_cases hu : u = ⟨r, w.tableid, e⟩
    · simp [merged, hu, hnone]
    · simp [merged, hu]
  have hset : ∀ row, answeredRow w lt ⟨r, w.tableid, e⟩ = some row →
      merged w lt [⟨r, w.tableid, e⟩] results =
        Function.update results ⟨r, w.tableid, e⟩ (some row) := by
    intro row hsome
    funext u
    by_cases hu : u = ⟨r, w.tableid, e⟩
    · simp [merged, hu, hsome]
    · simp [merged, hu]
  cases hd : (cell (w.store e) r).row with
  | none =>
      have hrow : WholeTable.rowAt w ⟨r, w.tableid, e⟩ = none := hd
      rw [waits, hrow, hkept (by rw [answeredRow, hrow]; rfl)]
      simp [answer, WholeTable.addReturnRow, Table.notFoundRow]
  | some d =>
      have hrow : WholeTable.rowAt w ⟨r, w.tableid, e⟩ = some d := hd
      rw [answer]
      split
      · next hwaits =>
          simp [waits, hrow, hwaits.1, hwaits.2, WholeTable.addReturnRow]
      · next hwaits =>
          have hnot : waits w lt ⟨r, w.tableid, e⟩ = false := by
            rw [waits, hrow]
            simpa using fun h => fun h' => hwaits ⟨h, h'⟩
          rw [hnot]
          split
          · next hret =>
              rw [hset _ (by rw [answeredRow, hrow, Option.filter_some,
                if_pos hret]; rfl)]
              rcases hlt with rfl | rfl | rfl <;> rfl
          · next hret =>
              rw [hkept (by rw [answeredRow, hrow, Option.filter_some,
                if_neg hret]; rfl)]
              rfl

/-- The answers of one engine. -/
theorem foldlM_addReturnRow (hlt : Searches lt) (e : Int) {rs : List Int} :
    ∀ results : SearchResults,
      (rs.filterMap fun r => answer lt r (w.subtransactionids e)
        (cell (w.store e) r).row).foldlM (w.addReturnRow e) results =
      if rs.any fun r => waits w lt ⟨r, w.tableid, e⟩ then
        .error Apistatus.lock
      else .ok (merged w lt (rs.map (⟨·, w.tableid, e⟩)) results) := by
  induction rs with
  | nil =>
      intro results
      rfl
  | cons r rs ih =>
      intro results
      have hsplit : ((r :: rs).filterMap fun r => answer lt r
          (w.subtransactionids e) (cell (w.store e) r).row) =
          (answer lt r (w.subtransactionids e)
            (cell (w.store e) r).row).toList ++
          rs.filterMap fun r => answer lt r (w.subtransactionids e)
            (cell (w.store e) r).row := by
        rw [List.filterMap_cons]
        cases answer lt r (w.subtransactionids e) (cell (w.store e) r).row <;>
          rfl
      rw [hsplit, List.foldlM_append, addReturnRow_answer hlt, List.any_cons]
      cases hw : waits w lt ⟨r, w.tableid, e⟩ with
      | true => rfl
      | false =>
          simp only [Bool.false_or, Bool.false_eq_true, if_false]
          show (rs.filterMap _).foldlM (w.addReturnRow e)
            (merged w lt [⟨r, w.tableid, e⟩] results) = _
          rw [ih, merged_append, List.map_cons, List.singleton_append]

theorem nodup_payload {hits : List (Int × Int)} (h : hits.Nodup) (e : Int) :
    (WholeTable.payload hits e).Nodup := by
  refine (h.filter _).map_on fun x hx y hy hxy => ?_
  have hx : x.2 = e := by simpa using (List.mem_filter.mp hx).2
  have hy : y.2 = e := by simpa using (List.mem_filter.mp hy).2
  exact Prod.ext hxy (hx.trans hy.symm)

theorem mem_payload {hits : List (Int × Int)} {e r : Int} :
    r ∈ WholeTable.payload hits e ↔ (r, e) ∈ hits := by
  simp [WholeTable.payload]

/-- The rows that the engines are asked for. -/
def requested (w : WholeTable) (hits : List (Int × Int)) (engines : List Int) :
    List UuRecord :=
  engines.flatMap fun e =>
    (WholeTable.payload hits e).map (⟨·, w.tableid, e⟩)

theorem mem_requested {hits : List (Int × Int)} {engines : List Int}
    (hengines : ∀ e, e ∈ engines ↔ ∃ r, (r, e) ∈ hits) :
    uur ∈ requested w hits engines ↔
      uur.tableid = w.tableid ∧ (uur.rowid, uur.engineid) ∈ hits := by
  simp only [requested, List.mem_flatMap, List.mem_map, mem_payload]
  constructor
  · rintro ⟨e, _, r, hr, rfl⟩
    exact ⟨rfl, hr⟩
  · intro ⟨htable, hmem⟩
    exact ⟨uur.engineid, (hengines _).mpr ⟨_, hmem⟩, uur.rowid, hmem,
      by rw [← htable]⟩

/-- The answers of all engines, one engine after the other. -/
theorem continueSqlPredicate_eq (hlt : Searches lt)
    {hits : List (Int × Int)} (hnodup : hits.Nodup)
    (hinv : ∀ e, LockInv (w.store e))
    (hfree : ∀ uur, uur.tableid = w.tableid →
      (uur.rowid, uur.engineid) ∈ hits → ∀ d,
      WholeTable.rowAt w uur = some d →
      FreeFor lt (w.subtransactionids uur.engineid) d)
    {engines : List Int} : ∀ results : SearchResults,
      w.continueSqlPredicate lt pc hits engines results =
        some (if (requested w hits engines).any (waits w lt) then
            .error Apistatus.lock
          else .ok (merged w lt (requested w hits engines) results)) := by
  induction engines with
  | nil =>
      intro results
      rfl
  | cons e engines ih =>
      intro results
      obtain ⟨t', hselect⟩ : ∃ t', (w.store e).selectrows lt
          (w.subtransactionids e) pc 2 (WholeTable.payload hits e) =
            some ((WholeTable.payload hits e).filterMap fun r =>
              answer lt r (w.subtransactionids e) (cell (w.store e) r).row,
              t') :=
        selectrows_answers hlt (nodup_payload hnodup e) (hinv e).sep
          (fun r _ => (hinv e).cells r)
          (fun r hr => hfree ⟨r, w.tableid, e⟩ rfl (mem_payload.mp hr))
      have hany : (requested w hits (e :: engines)).any (waits w lt) =
          ((WholeTable.payload hits e).any
            (fun r => waits w lt ⟨r, w.tableid, e⟩) ||
          (requested w hits engines).any (waits w lt)) := by
        rw [requested, List.flatMap_cons, List.any_append, List.any_map]
        rfl
      rw [WholeTable.continueSqlPredicate, hselect]
      dsimp only
      rw [foldlM_addReturnRow hlt, hany]
      cases (WholeTable.payload hits e).any
        (fun r => waits w lt ⟨r, w.tableid, e⟩) with
      | true => rfl
      | false =>
          simp only [Bool.false_eq_true, if_false, Bool.false_or]
          rw [ih, merged_append]
          rfl

/-! ## What the results are -/

/-- A state between statements: the stores are in order, the index of field 0
has every committed row, and no row twice, and what the transaction has
inserted, changed or deleted it holds the write lock on. -/
structure Consistent (w : WholeTable) : Prop where
  store : ∀ e, LockInv (w.store e)
  once : (WholeTable.hits w).Nodup
  listed : ∀ uur, uur.tableid = w.tableid →
    (WholeTable.committed w uur).isSome → WholeTable.Listed w uur
  inserted : ∀ uur srow, uur.tableid = w.tableid →
    w.stagedRows uur = some srow → srow.cmd = .insert →
    ∃ d, WholeTable.rowAt w uur = some d ∧ getinsertflag d.flags = true ∧
      HoldsWrite d (w.subtransactionids uur.engineid) ∧
      d.row = srow.newRow
  changed : ∀ uur srow, uur.tableid = w.tableid →
    w.stagedRows uur = some srow → srow.cmd = .update ∨ srow.cmd = .delete →
    ∃ d, WholeTable.rowAt w uur = some d ∧
      HoldsWrite d (w.subtransactionids uur.engineid)

/-- No other transaction's lock is in the way. -/
def NoConflict (w : WholeTable) (cmd : SearchCmd) : Prop :=
  ∀ uur d, WholeTable.Listed w uur → WholeTable.rowAt w uur = some d →
    FreeFor cmd.locktype (w.subtransactionids uur.engineid) d

instance (w : WholeTable) (uur : UuRecord) :
    Decidable (WholeTable.Listed w uur) :=
  inferInstanceAs (Decidable (_ ∧ _))

/-- The search results, row by row. -/
def resultsOf (w : WholeTable) (lt : Locktype) : SearchResults := fun uur =>
  if WholeTable.Listed w uur then
    (answeredRow w lt uur).or (w.branchtotype uur)
  else w.branchtotype uur

/-- A row that is listed keeps the search waiting. -/
def WaitsForSome (w : WholeTable) (lt : Locktype) : Prop :=
  ∃ uur, WholeTable.Listed w uur ∧ waits w lt uur = true

/-- The whole search. -/
theorem sqlSelectAll_eq (hc : Consistent w) (hfree : NoConflict w cmd)
    (pc : Int) {partitions : List Nat} {engines : List Int}
    (hpartitions : partitions.Perm (List.range w.numpartitions))
    (hengines : ∀ e, e ∈ engines ↔ ∃ r, (r, e) ∈ WholeTable.hits w) :
    ∃ searched, w.sqlSelectAll cmd pc partitions engines = some searched ∧
      (WholeTable.hits w = [] ∧
          searched = .continued .continueSelect w.branchtotype ∨
        WholeTable.hits w ≠ [] ∧ WaitsForSome w cmd.locktype ∧
          searched = .aborted .lock ∨
        WholeTable.hits w ≠ [] ∧ ¬ WaitsForSome w cmd.locktype ∧
          searched = .continued cmd.continuation
            (resultsOf w cmd.locktype)) := by
  have hperm : (partitions.flatMap w.getall).Perm (WholeTable.hits w) :=
    hpartitions.flatMap_right _
  have hmem : ∀ uur, uur ∈ requested w (partitions.flatMap w.getall) engines ↔
      WholeTable.Listed w uur := by
    intro uur
    rw [mem_requested fun e => by
      rw [hengines]
      exact exists_congr fun r => hperm.mem_iff.symm]
    exact and_congr_right fun _ => hperm.mem_iff
  have hlt : Searches cmd.locktype := by
    cases cmd <;> simp [Searches, SearchCmd.locktype]
  have hempty : partitions.flatMap w.getall = [] ↔
      WholeTable.hits w = [] := by
    constructor
    · intro h
      exact (h ▸ hperm).nil_eq.symm
    · intro h
      exact (h ▸ hperm).eq_nil
  rw [WholeTable.sqlSelectAll]
  by_cases hnone : WholeTable.hits w = []
  · rw [if_pos (hempty.mpr hnone)]
    exact ⟨_, rfl, .inl ⟨hnone, rfl⟩⟩
  · rw [if_neg fun h => hnone (hempty.mp h),
      continueSqlPredicate_eq hlt (hperm.nodup_iff.mpr hc.once) hc.store
        (fun uur htable hin d hd => hfree uur d
          ⟨htable, hperm.mem_iff.mp hin⟩ hd)]
    have hresults : merged w cmd.locktype
        (requested w (partitions.flatMap w.getall) engines) w.branchtotype =
          resultsOf w cmd.locktype := by
      funext uur
      simp only [merged, resultsOf, hmem]
    rw [hresults]
    by_cases hwaits : WaitsForSome w cmd.locktype
    · have hany : (requested w (partitions.flatMap w.getall) engines).any
          (waits w cmd.locktype) = true := by
        obtain ⟨uur, hlisted, hw⟩ := hwaits
        exact List.any_eq_true.mpr ⟨uur, (hmem uur).mpr hlisted, hw⟩
      rw [if_pos hany]
      exact ⟨_, rfl, .inr (.inl ⟨hnone, hwaits, rfl⟩)⟩
    · have hany : ¬ (requested w (partitions.flatMap w.getall) engines).any
          (waits w cmd.locktype) = true := by
        intro hany
        obtain ⟨uur, hin, hw⟩ := List.any_eq_true.mp hany
        exact hwaits ⟨uur, (hmem uur).mp hin, hw⟩
      rw [if_neg hany]
      exact ⟨_, rfl, .inr (.inr ⟨hnone, hwaits, rfl⟩)⟩

/-! ## The comparison, row by row -/

/-- A row that is listed comes out as it is seen. -/
def RowFits (w : WholeTable) (lt : Locktype) (uur : UuRecord)
    (d : Rowdata) : Prop :=
  match w.stagedRows uur with
  | none => getinsertflag d.flags = false ↔
      returned (w.subtransactionids uur.engineid) lt d = true
  | some srow =>
      (srow.cmd = .nocommand →
        ¬ returned (w.subtransactionids uur.engineid) lt d = true →
        srow.originalRow = d.row) ∧
      (srow.cmd = .update →
        returned (w.subtransactionids uur.engineid) lt d = true →
        srow.newRow = d.row)

/-- A row that is listed comes out if it is seen. -/
def RowSeen (w : WholeTable) (lt : Locktype) (uur : UuRecord)
    (d : Rowdata) : Prop :=
  w.stagedRows uur = none → (getinsertflag d.flags = false ↔
    returned (w.subtransactionids uur.engineid) lt d = true)

theorem committed_eq {d : Rowdata} (hd : WholeTable.rowAt w uur = some d) :
    WholeTable.committed w uur =
      if getinsertflag d.flags = false then some d.row else none := by
  rw [WholeTable.committed, hd, Option.filter_some]
  cases getinsertflag d.flags <;> rfl

theorem committed_of_missing (hd : WholeTable.rowAt w uur = none) :
    WholeTable.committed w uur = none := by
  rw [WholeTable.committed, hd]
  rfl

theorem answeredRow_eq {d : Rowdata} (hd : WholeTable.rowAt w uur = some d) :
    answeredRow w lt uur =
      if returned (w.subtransactionids uur.engineid) lt d = true then
        some { rowid := uur.rowid, row := d.row, locktype := lt }
      else none := by
  rw [answeredRow, hd, Option.filter_some]
  split <;> rfl

/-- What comes out for a row that the search does not bring. -/
theorem resultsOf_of_not_found
    (h : WholeTable.Listed w uur → WholeTable.rowAt w uur = none) :
    resultsOf w lt uur = w.branchtotype uur := by
  rw [resultsOf]
  split
  · next hlisted =>
      rw [answeredRow, h hlisted]
      rfl
  · rfl

/-- A row that is not listed, or not there, is not committed. -/
theorem Consistent.committed_none (hc : Consistent w)
    (htable : uur.tableid = w.tableid)
    (h : WholeTable.Listed w uur → WholeTable.rowAt w uur = none) :
    WholeTable.committed w uur = none := by
  cases hcommitted : WholeTable.committed w uur with
  | none => rfl
  | some row =>
      have hlisted := hc.listed uur htable (by rw [hcommitted]; rfl)
      rw [committed_of_missing (h hlisted)] at hcommitted
      exact absurd hcommitted (by simp)

theorem visible_of_staged (h : WholeTable.StagedFits w) {srow : StagedRow}
    (hs : w.stagedRows uur = some srow) :
    WholeTable.visible w uur =
      if srow.cmd = .nocommand then WholeTable.committed w uur
      else some srow.newRow := by
  obtain ⟨htable, hdel⟩ := h.table uur srow hs
  rw [WholeTable.visible, if_pos htable, hs]
  dsimp only
  cases hcmd : srow.cmd with
  | nocommand | insert | update => simp
  | delete => exact absurd hcmd hdel

theorem row_stagedRow2ReturnRow {srow : StagedRow} (h : srow.cmd ≠ .delete) :
    (stagedRow2ReturnRow srow).row =
      if srow.cmd = .nocommand then srow.originalRow else srow.newRow := by
  rw [stagedRow2ReturnRow]
  cases hcmd : srow.cmd with
  | nocommand | insert | update => rfl
  | delete => exact absurd hcmd h

theorem stagedFits_of_isSome
    (h : ∀ uur, (resultsOf w lt uur).isSome =
      (WholeTable.visible w uur).isSome) : WholeTable.StagedFits w := by
  have hseen : ∀ uur srow, w.stagedRows uur = some srow →
      (WholeTable.visible w uur).isSome = true := by
    intro uur srow hs
    rw [← h uur, resultsOf, WholeTable.branchtotype, hs]
    split
    · cases answeredRow w lt uur <;> rfl
    · rfl
  constructor
  · intro uur srow hs
    have hvisible := hseen uur srow hs
    rw [WholeTable.visible, hs] at hvisible
    split at hvisible
    · next htable =>
        refine ⟨htable, fun hcmd => ?_⟩
        dsimp only at hvisible
        rw [hcmd] at hvisible
        exact absurd hvisible (by simp)
    · exact absurd hvisible (by simp)
  · intro uur srow hs hcmd
    have hvisible := hseen uur srow hs
    rw [WholeTable.visible, hs] at hvisible
    split at hvisible
    · dsimp only at hvisible
      rw [hcmd] at hvisible
      exact hvisible
    · exact absurd hvisible (by simp)

/-- Where the search brings no row, it is the staged row that is seen. -/
theorem visible_of_not_found (hc : Consistent w)
    (hs : WholeTable.StagedFits w)
    (h : WholeTable.Listed w uur → WholeTable.rowAt w uur = none) :
    (w.branchtotype uur).map (·.row) = WholeTable.visible w uur := by
  rw [WholeTable.branchtotype]
  cases hstaged : w.stagedRows uur with
  | none =>
      rw [WholeTable.visible, hstaged]
      split
      · next htable => exact (hc.committed_none htable h).symm
      · rfl
  | some srow =>
      obtain ⟨htable, hdel⟩ := hs.table uur srow hstaged
      rw [visible_of_staged hs hstaged]
      split
      · next hcmd =>
          have hread := hs.read uur srow hstaged hcmd
          rw [hc.committed_none htable h] at hread
          exact absurd hread (by simp)
      · next hcmd =>
          rw [Option.map_some, Option.map_some, row_stagedRow2ReturnRow hdel,
            if_neg hcmd]

theorem forall_found_iff {P : Rowdata → Prop} {d : Rowdata}
    (hlisted : WholeTable.Listed w uur)
    (hd : WholeTable.rowAt w uur = some d) :
    (∀ d, WholeTable.Listed w uur → WholeTable.rowAt w uur = some d →
      P d) ↔ P d := by
  constructor
  · exact fun h => h d hlisted hd
  · intro h d' _ hd'
    obtain rfl := Option.some.inj (hd.symm.trans hd')
    exact h

theorem row_eq_iff (hc : Consistent w) (hs : WholeTable.StagedFits w)
    (lt : Locktype) (uur : UuRecord) :
    (resultsOf w lt uur).map (·.row) = WholeTable.visible w uur ↔
      ∀ d, WholeTable.Listed w uur → WholeTable.rowAt w uur = some d →
        RowFits w lt uur d := by
  by_cases hnone : WholeTable.Listed w uur → WholeTable.rowAt w uur = none
  · rw [resultsOf_of_not_found hnone]
    refine iff_of_true (visible_of_not_found hc hs hnone) fun d hl hd => ?_
    rw [hnone hl] at hd
    exact absurd hd (by simp)
  · push Not at hnone
    obtain ⟨hlisted, hsome⟩ := hnone
    obtain ⟨d, hd⟩ := Option.ne_none_iff_exists'.mp hsome
    rw [forall_found_iff hlisted hd, resultsOf, if_pos hlisted,
      answeredRow_eq hd, RowFits, WholeTable.branchtotype]
    cases hstaged : w.stagedRows uur with
    | none =>
        rw [WholeTable.visible, if_pos hlisted.1, hstaged, committed_eq hd]
        dsimp only
        cases getinsertflag d.flags <;>
          cases returned (w.subtransactionids uur.engineid) lt d <;> simp
    | some srow =>
        obtain ⟨htable, hdel⟩ := hs.table uur srow hstaged
        have hrow := row_stagedRow2ReturnRow hdel
        rw [visible_of_staged hs hstaged]
        dsimp only
        cases hcmd : srow.cmd with
        | nocommand =>
            have hread := hs.read uur srow hstaged hcmd
            rw [committed_eq hd] at hread ⊢
            rw [hcmd, if_pos rfl] at hrow
            split at hread
            · next hins =>
                simp only [hins, if_true]
                cases returned (w.subtransactionids uur.engineid) lt d <;>
                  simp [hrow]
            · exact absurd hread (by simp)
        | insert =>
            obtain ⟨d', hd', _, _, hnew⟩ := hc.inserted uur srow htable
              hstaged hcmd
            obtain rfl := Option.some.inj (hd.symm.trans hd')
            rw [hcmd, if_neg (by simp)] at hrow
            cases returned (w.subtransactionids uur.engineid) lt d <;>
              simp [hrow, hnew]
        | update =>
            rw [hcmd, if_neg (by simp)] at hrow
            cases returned (w.subtransactionids uur.engineid) lt d <;>
              simp [hrow, eq_comm]
        | delete => exact absurd hcmd hdel

theorem isSome_eq_iff (hc : Consistent w) (hs : WholeTable.StagedFits w)
    (lt : Locktype) (uur : UuRecord) :
    (resultsOf w lt uur).isSome = (WholeTable.visible w uur).isSome ↔
      ∀ d, WholeTable.Listed w uur → WholeTable.rowAt w uur = some d →
        RowSeen w lt uur d := by
  by_cases hnone : WholeTable.Listed w uur → WholeTable.rowAt w uur = none
  · rw [resultsOf_of_not_found hnone]
    have hmap := visible_of_not_found hc hs hnone
    rw [← hmap, Option.isSome_map]
    refine iff_of_true rfl fun d hl hd => ?_
    rw [hnone hl] at hd
    exact absurd hd (by simp)
  · push Not at hnone
    obtain ⟨hlisted, hsome⟩ := hnone
    obtain ⟨d, hd⟩ := Option.ne_none_iff_exists'.mp hsome
    rw [forall_found_iff hlisted hd, resultsOf, if_pos hlisted,
      answeredRow_eq hd, RowSeen, WholeTable.branchtotype]
    cases hstaged : w.stagedRows uur with
    | none =>
        rw [WholeTable.visible, if_pos hlisted.1, hstaged, committed_eq hd]
        dsimp only
        cases getinsertflag d.flags <;>
          cases returned (w.subtransactionids uur.engineid) lt d <;> simp
    | some srow =>
        have hvisible : (WholeTable.visible w uur).isSome = true := by
          rw [visible_of_staged hs hstaged]
          split
          · next hcmd => exact hs.read uur srow hstaged hcmd
          · rfl
        rw [hvisible]
        cases returned (w.subtransactionids uur.engineid) lt d <;> simp

theorem results_eq_iff (hc : Consistent w) (lt : Locktype) :
    (∀ uur, (resultsOf w lt uur).map (·.row) = WholeTable.visible w uur) ↔
      WholeTable.StagedFits w ∧
        ∀ uur d, WholeTable.Listed w uur → WholeTable.rowAt w uur = some d →
          RowFits w lt uur d := by
  constructor
  · intro h
    have hs : WholeTable.StagedFits w := stagedFits_of_isSome fun uur => by
      rw [← h uur, Option.isSome_map]
    exact ⟨hs, fun uur => (row_eq_iff hc hs lt uur).mp (h uur)⟩
  · exact fun ⟨hs, h⟩ uur => (row_eq_iff hc hs lt uur).mpr (h uur)

theorem results_isSome_iff (hc : Consistent w) (lt : Locktype) :
    (∀ uur, (resultsOf w lt uur).isSome =
        (WholeTable.visible w uur).isSome) ↔
      WholeTable.StagedFits w ∧
        ∀ uur d, WholeTable.Listed w uur → WholeTable.rowAt w uur = some d →
          RowSeen w lt uur d := by
  constructor
  · intro h
    have hs := stagedFits_of_isSome h
    exact ⟨hs, fun uur => (isSome_eq_iff hc hs lt uur).mp (h uur)⟩
  · exact fun ⟨hs, h⟩ uur => (isSome_eq_iff hc hs lt uur).mpr (h uur)

/-! ## The condition of each lock type -/

theorem insertflag_of_nocommand (hs : WholeTable.StagedFits w)
    {srow : StagedRow} (hd : WholeTable.rowAt w uur = some d)
    (hstaged : w.stagedRows uur = some srow) (hcmd : srow.cmd = .nocommand) :
    getinsertflag d.flags = false := by
  have hread := hs.read uur srow hstaged hcmd
  rw [committed_eq hd] at hread
  by_contra hins
  rw [if_neg hins] at hread
  exact absurd hread (by simp)

theorem own_of_update (hc : Consistent w) (hs : WholeTable.StagedFits w)
    {srow : StagedRow} (hd : WholeTable.rowAt w uur = some d)
    (hstaged : w.stagedRows uur = some srow) (hcmd : srow.cmd = .update) :
    WholeTable.Own w d uur := by
  obtain ⟨htable, _⟩ := hs.table uur srow hstaged
  obtain ⟨d', hd', hwrite⟩ := hc.changed uur srow htable hstaged (.inl hcmd)
  obtain rfl := Option.some.inj (hd.symm.trans hd')
  exact .inr hwrite

/-- The rows that a READLOCK search or a NOLOCK search leaves out, and those
that it returns too many of. -/
theorem rowFits_of_skips (hc : Consistent w) (hs : WholeTable.StagedFits w)
    (hskip : ∀ uur d, WholeTable.Listed w uur →
      WholeTable.rowAt w uur = some d → getinsertflag d.flags = false →
      (returned (w.subtransactionids uur.engineid) lt d = true ↔
        ¬ WholeTable.Own w d uur))
    (hown : ∀ uur d, WholeTable.rowAt w uur = some d →
      WholeTable.Own w d uur →
      ¬ returned (w.subtransactionids uur.engineid) lt d = true) :
    (∀ uur d, WholeTable.Listed w uur → WholeTable.rowAt w uur = some d →
        RowFits w lt uur d) ↔
      WholeTable.SkippedFits w ∧
        ∀ uur d, WholeTable.Listed w uur → WholeTable.rowAt w uur = some d →
          getinsertflag d.flags = true → w.stagedRows uur = none →
          ¬ returned (w.subtransactionids uur.engineid) lt d = true := by
  constructor
  · intro h
    refine ⟨fun uur d hl hd hins hheld => ?_, fun uur d hl hd hins hnone => ?_⟩
    · have hfits := h uur d hl hd
      have hnot := hown uur d hd hheld
      rw [RowFits] at hfits
      cases hstaged : w.stagedRows uur with
      | none =>
          rw [hstaged] at hfits
          exact absurd (hfits.mp hins) hnot
      | some srow =>
          rw [hstaged] at hfits
          exact ⟨srow, rfl, fun hcmd => hfits.1 hcmd hnot⟩
    · have hfits := h uur d hl hd
      rw [RowFits, hnone] at hfits
      intro hret
      rw [hfits.mpr hret] at hins
      exact absurd hins (by simp)
  · intro ⟨hskipped, hextra⟩ uur d hl hd
    rw [RowFits]
    cases hstaged : w.stagedRows uur with
    | none =>
        constructor
        · intro hins
          refine (hskip uur d hl hd hins).mpr fun hheld => ?_
          obtain ⟨srow, hsome, _⟩ := hskipped uur d hl hd hins hheld
          rw [hstaged] at hsome
          exact absurd hsome (by simp)
        · intro hret
          by_contra hins
          exact hextra uur d hl hd (by simpa using hins) hstaged hret
    | some srow =>
        refine ⟨fun hcmd hnot => ?_, fun hcmd hret => ?_⟩
        · have hins := insertflag_of_nocommand hs hd hstaged hcmd
          have hheld : WholeTable.Own w d uur := by
            by_contra hheld
            exact hnot ((hskip uur d hl hd hins).mpr hheld)
          obtain ⟨srow', hsome, hrow⟩ := hskipped uur d hl hd hins hheld
          obtain rfl := Option.some.inj (hstaged.symm.trans hsome)
          exact hrow hcmd
        · exact absurd hret (hown uur d hd
            (own_of_update hc hs hd hstaged hcmd))

theorem rowFits_select_iff (hc : Consistent w)
    (hs : WholeTable.StagedFits w) :
    (∀ uur d, WholeTable.Listed w uur → WholeTable.rowAt w uur = some d →
      RowFits w .readLock uur d) ↔ WholeTable.SkippedFits w := by
  rw [rowFits_of_skips hc hs]
  · refine and_iff_left fun uur d _ _ hins _ => ?_
    simp [returned, hins]
  · intro uur d _ _ hins
    simp [returned, hins, WholeTable.Own]
  · intro uur d _ hheld
    have hheld : Holds d (w.subtransactionids uur.engineid) := hheld
    simp [returned, hheld]

theorem rowFits_nolock_iff (hc : Consistent w)
    (hs : WholeTable.StagedFits w) :
    (∀ uur d, WholeTable.Listed w uur → WholeTable.rowAt w uur = some d →
        RowFits w .noLock uur d) ↔
      WholeTable.SkippedFits w ∧ WholeTable.NoOtherInsert w := by
  rw [rowFits_of_skips hc hs]
  · refine and_congr_right fun _ => ?_
    constructor
    · intro h uur d hl hd hins
      by_contra hheld
      cases hstaged : w.stagedRows uur with
      | none =>
          have hnot : ¬ Holds d (w.subtransactionids uur.engineid) := hheld
          exact h uur d hl hd hins hstaged (by simp [returned, hnot])
      | some srow =>
          obtain ⟨htable, hdel⟩ := hs.table uur srow hstaged
          cases hcmd : srow.cmd with
          | nocommand =>
              have := insertflag_of_nocommand hs hd hstaged hcmd
              rw [hins] at this
              exact absurd this (by simp)
          | insert =>
              obtain ⟨d', hd', _, hwrite, _⟩ :=
                hc.inserted uur srow htable hstaged hcmd
              obtain rfl := Option.some.inj (hd.symm.trans hd')
              exact hheld (.inr hwrite)
          | update => exact hheld (own_of_update hc hs hd hstaged hcmd)
          | delete => exact hdel hcmd
    · intro h uur d hl hd hins _
      have hheld : Holds d (w.subtransactionids uur.engineid) :=
        h uur d hl hd hins
      simp [returned, hheld]
  · intro uur d _ _ _
    simp [returned, WholeTable.Own]
  · intro uur d _ hheld
    have hheld : Holds d (w.subtransactionids uur.engineid) := hheld
    simp [returned, hheld]

theorem not_waitsForSome_iff : ¬ WaitsForSome w .writeLock ↔
    ∀ uur d, WholeTable.Listed w uur → WholeTable.rowAt w uur = some d →
      ¬ HoldsRead d (w.subtransactionids uur.engineid) := by
  constructor
  · intro h uur d hl hd hread
    exact h ⟨uur, hl, by simp [waits, hd, hread]⟩
  · intro h ⟨uur, hl, hw⟩
    simp only [waits, decide_true, Bool.true_and, Option.any_eq_true,
      decide_eq_true_eq] at hw
    obtain ⟨d, hd, hread⟩ := hw
    exact h uur d hl hd hread

/-- A search that does not take write locks waits for nothing. -/
theorem not_waitsForSome (h : lt ≠ .writeLock) : ¬ WaitsForSome w lt := by
  intro ⟨uur, _, hw⟩
  simp [waits, h] at hw

theorem rowSeen_write_iff :
    (∀ uur d, WholeTable.Listed w uur → WholeTable.rowAt w uur = some d →
        RowSeen w .writeLock uur d) ↔
      ∀ uur d, WholeTable.Listed w uur → WholeTable.rowAt w uur = some d →
        getinsertflag d.flags = true → WholeTable.Own w d uur →
        (w.stagedRows uur).isSome := by
  refine forall₄_congr fun uur d hl hd => ?_
  rw [RowSeen]
  have hreturned : returned (w.subtransactionids uur.engineid) .writeLock d =
      true ↔ getinsertflag d.flags = false ∨ WholeTable.Own w d uur := by
    simp [returned, WholeTable.Own]
  rw [hreturned]
  constructor
  · intro h hins hheld
    cases hstaged : w.stagedRows uur with
    | none =>
        rw [(h hstaged).mpr (.inr hheld)] at hins
        exact absurd hins (by simp)
    | some srow => rfl
  · intro h hnone
    refine ⟨.inl, fun hret => ?_⟩
    rcases hret with hins | hheld
    · exact hins
    · by_contra hins
      have hsome := h (by simpa using hins) hheld
      rw [hnone] at hsome
      exact absurd hsome (by simp)

theorem rowFits_write_iff (hc : Consistent w)
    (hs : WholeTable.StagedFits w) :
    (∀ uur d, WholeTable.Listed w uur → WholeTable.rowAt w uur = some d →
        RowFits w .writeLock uur d) ↔
      (∀ uur d, WholeTable.Listed w uur → WholeTable.rowAt w uur = some d →
        RowSeen w .writeLock uur d) ∧
      ∀ uur d srow, WholeTable.Listed w uur →
        WholeTable.rowAt w uur = some d → w.stagedRows uur = some srow →
        srow.cmd = .update → srow.newRow = d.row := by
  have hheld : ∀ uur d, WholeTable.Own w d uur →
      returned (w.subtransactionids uur.engineid) .writeLock d = true := by
    intro uur d hheld
    have hheld : Holds d (w.subtransactionids uur.engineid) := hheld
    simp [returned, hheld]
  constructor
  · intro h
    refine ⟨fun uur d hl hd hnone => ?_,
      fun uur d srow hl hd hstaged hcmd => ?_⟩
    · have hfits := h uur d hl hd
      rw [RowFits, hnone] at hfits
      exact hfits
    · have hfits := h uur d hl hd
      rw [RowFits, hstaged] at hfits
      exact hfits.2 hcmd (hheld uur d (own_of_update hc hs hd hstaged hcmd))
  · intro ⟨hseen, hsame⟩ uur d hl hd
    rw [RowFits]
    cases hstaged : w.stagedRows uur with
    | none => exact hseen uur d hl hd hstaged
    | some srow =>
        refine ⟨fun hcmd hnot => ?_, fun hcmd _ =>
          hsame uur d srow hl hd hstaged hcmd⟩
        have hins := insertflag_of_nocommand hs hd hstaged hcmd
        exact absurd (by simp [returned, hins]) hnot

/-! ## The statements -/

/-- Where nothing is listed, what is staged is what comes out. -/
theorem resultsOf_of_no_hits (h : WholeTable.hits w = []) (lt : Locktype) :
    resultsOf w lt = w.branchtotype := by
  funext uur
  refine resultsOf_of_not_found fun hl => ?_
  have hmem := hl.2
  rw [h] at hmem
  exact absurd hmem (by simp)

/-- A statement that goes on as another one works on no row: right if the
transaction sees none. -/
theorem nothingSeen_iff (hc : Consistent w) (h : WholeTable.hits w = []) :
    (∀ uur, WholeTable.visible w uur = none) ↔
      WholeTable.NothingSeen w := by
  have hnone : ∀ uur, WholeTable.Listed w uur →
      WholeTable.rowAt w uur = none := by
    intro uur hl
    have hmem := hl.2
    rw [h] at hmem
    exact absurd hmem (by simp)
  refine ⟨fun hall uur srow htable hstaged => ?_, fun hseen uur => ?_⟩
  · have hvisible := hall uur
    rw [WholeTable.visible, if_pos htable, hstaged] at hvisible
    dsimp only at hvisible
    cases hcmd : srow.cmd with
    | nocommand => exact .inl rfl
    | delete => exact .inr rfl
    | insert | update =>
        rw [hcmd] at hvisible
        exact absurd hvisible (by simp)
  · rw [WholeTable.visible]
    split
    · next htable =>
        have hcommitted := hc.committed_none htable (hnone uur)
        cases hstaged : w.stagedRows uur with
        | none => exact hcommitted
        | some srow =>
            dsimp only
            rcases hseen uur srow htable hstaged with hcmd | hcmd
            · rw [hcmd]
              exact hcommitted
            · rw [hcmd]
    · rfl

/-- A search for a SELECT works on its results. -/
theorem acts_select_iff (hc : Consistent w)
    (hcmd : cmd = .select ∨ cmd = .selectNolock ∨ cmd = .selectForUpdate)
    {searched : Searched}
    (hsearched : WholeTable.hits w = [] ∧
          searched = .continued .continueSelect w.branchtotype ∨
        WholeTable.hits w ≠ [] ∧ WaitsForSome w cmd.locktype ∧
          searched = .aborted .lock ∨
        WholeTable.hits w ≠ [] ∧ ¬ WaitsForSome w cmd.locktype ∧
          searched = .continued cmd.continuation
            (resultsOf w cmd.locktype)) :
    WholeTable.ActsOnTable w cmd searched ↔
      ¬ WaitsForSome w cmd.locktype ∧ WholeTable.StagedFits w ∧
        ∀ uur d, WholeTable.Listed w uur → WholeTable.rowAt w uur = some d →
          RowFits w cmd.locktype uur d := by
  have hcont : cmd.continuation = .continueSelect := by
    rcases hcmd with rfl | rfl | rfl <;> rfl
  have hacts : WholeTable.ActsOnTable w cmd (.continued cmd.continuation
      (resultsOf w cmd.locktype)) ↔ ∀ uur,
        (resultsOf w cmd.locktype uur).map (·.row) =
          WholeTable.visible w uur := by
    rcases hcmd with rfl | rfl | rfl <;> exact Iff.rfl
  rcases hsearched with ⟨hnone, rfl⟩ | ⟨_, hwaits, rfl⟩ | ⟨_, hwaits, rfl⟩
  · have hfree : ¬ WaitsForSome w cmd.locktype := by
      intro ⟨uur, hl, _⟩
      have hmem := hl.2
      rw [hnone] at hmem
      exact absurd hmem (by simp)
    rw [← resultsOf_of_no_hits hnone cmd.locktype, ← hcont, hacts,
      results_eq_iff hc]
    exact (and_iff_right hfree).symm
  · exact iff_of_false id fun h => h.1 hwaits
  · rw [hacts, results_eq_iff hc]
    exact (and_iff_right hwaits).symm

/-- A search for an UPDATE or a DELETE works on its results if anything was
listed, and else on nothing. -/
theorem acts_change_iff (hc : Consistent w)
    (hcmd : cmd = .update ∨ cmd = .delete) {searched : Searched}
    (hsearched : WholeTable.hits w = [] ∧
          searched = .continued .continueSelect w.branchtotype ∨
        WholeTable.hits w ≠ [] ∧ WaitsForSome w cmd.locktype ∧
          searched = .aborted .lock ∨
        WholeTable.hits w ≠ [] ∧ ¬ WaitsForSome w cmd.locktype ∧
          searched = .continued cmd.continuation
            (resultsOf w cmd.locktype)) :
    WholeTable.ActsOnTable w cmd searched ↔
      if WholeTable.hits w = [] then WholeTable.NothingSeen w
      else ¬ WaitsForSome w .writeLock ∧
        WholeTable.ActsOnTable w cmd (.continued cmd.continuation
          (resultsOf w .writeLock)) := by
  have hlt : cmd.locktype = .writeLock := by
    rcases hcmd with rfl | rfl <;> rfl
  rw [hlt] at hsearched
  rcases hsearched with ⟨hnone, rfl⟩ | ⟨hsome, hwaits, rfl⟩ |
    ⟨hsome, hwaits, rfl⟩
  · rw [if_pos hnone, ← nothingSeen_iff hc hnone]
    refine forall_congr' fun uur => ?_
    rcases hcmd with rfl | rfl
    · exact eq_comm
    · show (false = (WholeTable.visible w uur).isSome) ↔ _
      rw [eq_comm, Option.isSome_eq_false_iff, Option.isNone_iff_eq_none]
  · rw [if_neg hsome]
    exact iff_of_false id fun h => h.1 hwaits
  · rw [if_neg hsome]
    exact (and_iff_right hwaits).symm

theorem fits_write_iff (hc : Consistent w) (hcmd : cmd ≠ .delete) :
    (¬ WaitsForSome w .writeLock ∧ WholeTable.StagedFits w ∧
        ∀ uur d, WholeTable.Listed w uur → WholeTable.rowAt w uur = some d →
          RowFits w .writeLock uur d) ↔
      WholeTable.StagedFits w ∧ WholeTable.RereadFits w cmd := by
  rw [not_waitsForSome_iff]
  constructor
  · intro ⟨hread, hs, hfits⟩
    obtain ⟨hseen, hsame⟩ := (rowFits_write_iff hc hs).mp hfits
    exact ⟨hs, hread, rowSeen_write_iff.mp hseen, fun _ => hsame⟩
  · intro ⟨hs, hreread⟩
    exact ⟨hreread.notRead, hs, (rowFits_write_iff hc hs).mpr
      ⟨rowSeen_write_iff.mpr hreread.known, hreread.unchanged hcmd⟩⟩

/-- Row 1 is inserted and committed. -/
def insertOne : List TableOp :=
  [.newrow 1 7 [5], .commitRollbackUnlock 1 7 .commitCmd]

def tableOfOne : Table :=
  (run Table.step (.new 1 1) insertOne).getD (.new 1 1)

theorem lockInv_tableOfOne : LockInv tableOfOne := by
  have hok : AllSteps Table.step
      (fun t op => (RevertsInsert t op ∧ NewrowOnFree t op) ∧ op.sub ≠ 0)
      (.new 1 1) insertOne := by
    refine AllSteps.cons rfl ⟨⟨?_, ?_⟩, by decide⟩
      (AllSteps.cons rfl ⟨⟨?_, ?_⟩, by decide⟩ trivial)
    · exact fun _ _ _ h => absurd h (by simp)
    · intro r s row h
      exact ⟨rfl, rfl⟩
    · exact fun _ _ _ h => absurd h (by simp)
    · exact fun _ _ _ h => absurd h (by simp)
  exact lockInv_of_run hok rfl

/-- The row is committed at engine 0, and nothing is staged. -/
def oneRow : WholeTable where
  tableid := 1
  numpartitions := 1
  store e := if e = 0 then tableOfOne else .new 1 0
  getall n := if n = 0 then [(1, 0)] else []
  subtransactionids _ := 8
  stagedRows _ := none

/-- No row is there, but one of table 2 is staged. -/
def otherTable : WholeTable where
  tableid := 1
  numpartitions := 1
  store _ := .new 1 0
  getall _ := []
  subtransactionids _ := 8
  stagedRows := Function.update (fun _ => none) ⟨1, 2, 0⟩
    (some { cmd := .insert, newRow := [5], newrowid := 1
            locktype := .writeLock })

theorem rows_tableOfOne :
    tableOfOne.rows = Function.update (fun _ => none) 1 (some 0) := rfl

theorem oneRow_listed {uur : UuRecord} {d : Rowdata}
    (htable : uur.tableid = 1)
    (hd : WholeTable.rowAt oneRow uur = some d) : uur = ⟨1, 1, 0⟩ := by
  obtain ⟨r, tableid, e⟩ := uur
  obtain ⟨a, ha, _⟩ := Option.map_eq_some_iff.mp hd
  simp only [oneRow] at ha
  split at ha
  · next he =>
      rw [rows_tableOfOne] at ha
      by_cases hr : r = 1
      · exact UuRecord.mk.injEq .. ▸ ⟨hr, htable, he⟩
      · rw [Function.update_of_ne hr] at ha
        exact absurd ha (by simp)
  · exact absurd ha (by simp [Table.new])

theorem consistent_oneRow : Consistent oneRow where
  store e := by
    simp only [oneRow]
    split
    · exact lockInv_tableOfOne
    · exact lockInv_new
  once := by decide
  listed uur htable h := by
    cases hd : WholeTable.rowAt oneRow uur with
    | none =>
        rw [committed_of_missing hd] at h
        exact absurd h (by simp)
    | some d =>
        rw [oneRow_listed htable hd]
        decide
  inserted _ _ _ h := absurd h (by simp [oneRow])
  changed _ _ _ h := absurd h (by simp [oneRow])

theorem rowAt_oneRow {uur : UuRecord} {d : Rowdata}
    (hl : WholeTable.Listed oneRow uur)
    (hd : WholeTable.rowAt oneRow uur = some d) :
    d = { previoussubtransactionid := 7, row := [5] } := by
  rw [oneRow_listed hl.1 hd] at hd
  exact (Option.some.inj hd).symm

end Infinisql.Proofs
