import Infinisql.Proofs.IndexEntries

/-!
# Delivery, item by item

A commit groups its items into one message for each engine, and the engines
carry the messages out one after another, each on its own state. The groups
do not matter: an item touches the engine it is for and nothing else, so the
messages do what the items would do one at a time, in the order they were
built (`deliver_addRofs`).

Seen from one field of one table the rest of the items do not matter either.
`indexAt` is the field's index at every engine, and an item for the field
takes it where `applyIndexAt` does, leaving the rows and the other fields as
they are. So a row's index items can be carried out field by field
(`run_forFields`). That is the form in which the theorems about commits are
proved: a field has at most two items.
-/

namespace Infinisql.Proofs

open Infinisql.Ref Infinisql.Lib

/-! ## Messages and items -/

/-- One item, carried out at its engine. -/
def applyAt (subs : Int → Int) (cmd : Enginecmd) (c : Cluster)
    (item : Int × RowOrField) : Option Cluster :=
  (SubTransaction.applyRof (subs item.1) cmd (c item.1) item.2).map
    (Function.update c item.1)

/-- A message leaves the engines it is not for alone. -/
theorem deliver_update {subs : Int → Int} {cmd : Enginecmd} {e : Int}
    {x : Engine} {msgs : Msgs} : ∀ {c : Cluster}, e ∉ msgs.map Prod.fst →
      Transaction.deliver subs cmd msgs (Function.update c e x) =
        (Transaction.deliver subs cmd msgs c).map
          (Function.update · e x) := by
  induction msgs with
  | nil => exact fun _ => rfl
  | cons msg msgs ih =>
      intro c he
      obtain ⟨e', rofs⟩ := msg
      have hne : e' ≠ e := fun h => he (h ▸ List.mem_cons_self)
      have he' : e ∉ msgs.map Prod.fst :=
        fun h => he (List.mem_cons_of_mem _ h)
      simp only [Transaction.deliver, Function.update_of_ne hne]
      cases SubTransaction.processCommitRollback (subs e') cmd (c e')
          rofs with
      | none => rfl
      | some y =>
          simp only []
          rw [Function.update_comm (Ne.symm hne), ih he']

/-- Adding an item to the messages is doing it after them. -/
theorem deliver_addRof {subs : Int → Int} {cmd : Enginecmd} {e : Int}
    {rof : RowOrField} {msgs : Msgs} : ∀ {c : Cluster},
      (msgs.map Prod.fst).Nodup →
      Transaction.deliver subs cmd (Transaction.addRof e rof msgs) c =
        (Transaction.deliver subs cmd msgs c).bind
          fun c' => applyAt subs cmd c' (e, rof) := by
  induction msgs with
  | nil =>
      intro c _
      simp only [Transaction.addRof, Transaction.deliver,
        SubTransaction.processCommitRollback, Option.bind_some, applyAt, run]
      cases SubTransaction.applyRof (subs e) cmd (c e) rof <;> rfl
  | cons msg msgs ih =>
      intro c hnodup
      obtain ⟨e', rofs⟩ := msg
      obtain ⟨hnot, hnodup⟩ := List.nodup_cons.mp hnodup
      by_cases he : e' = e
      · subst he
        -- the item is done at `e'` now, and the rest is for others
        rw [Transaction.addRof, if_pos rfl]
        simp only [Transaction.deliver, SubTransaction.processCommitRollback,
          run_concat]
        cases run (SubTransaction.applyRof (subs e') cmd) (c e') rofs with
        | none => rfl
        | some y =>
            simp only [Option.bind_some, deliver_update hnot]
            cases hx : SubTransaction.applyRof (subs e') cmd y rof <;>
              cases Transaction.deliver subs cmd msgs c <;>
              simp [applyAt, hx]
      · rw [Transaction.addRof, if_neg he]
        simp only [Transaction.deliver]
        cases SubTransaction.processCommitRollback (subs e') cmd (c e')
            rofs with
        | none => rfl
        | some y => exact ih hnodup

theorem addRof_nodup {e : Int} {rof : RowOrField} {msgs : Msgs}
    (h : (msgs.map Prod.fst).Nodup) :
    ((Transaction.addRof e rof msgs).map Prod.fst).Nodup := by
  have hmem : ∀ {msgs : Msgs} {x}, x ∈ (Transaction.addRof e rof msgs).map
      Prod.fst → x = e ∨ x ∈ msgs.map Prod.fst := by
    intro msgs
    induction msgs with
    | nil => simp [Transaction.addRof]
    | cons msg msgs ih =>
        intro x hx
        simp only [Transaction.addRof] at hx
        split at hx
        · exact .inr hx
        · rcases List.mem_cons.mp hx with hx | hx
          · exact .inr (hx ▸ List.mem_cons_self)
          · exact (ih hx).imp id (List.mem_cons_of_mem _)
  induction msgs with
  | nil => simp [Transaction.addRof]
  | cons msg msgs ih =>
      obtain ⟨hnot, hnodup⟩ := List.nodup_cons.mp h
      simp only [Transaction.addRof]
      split
      · exact h
      · next hne =>
          refine List.nodup_cons.mpr ⟨fun hx => ?_, ih hnodup⟩
          rcases hmem hx with hx | hx
          · exact hne hx
          · exact hnot hx

/-- The messages do what the items do one at a time. -/
theorem deliver_addRofs {subs : Int → Int} {cmd : Enginecmd} {c : Cluster}
    (items : List (Int × RowOrField)) :
    Transaction.deliver subs cmd (Transaction.addRofs items) c =
      run (applyAt subs cmd) c items := by
  have hfold : ∀ (items : List (Int × RowOrField)) (msgs : Msgs),
      (msgs.map Prod.fst).Nodup →
      Transaction.deliver subs cmd (items.foldl
          (fun msgs item => Transaction.addRof item.1 item.2 msgs) msgs) c =
        (Transaction.deliver subs cmd msgs c).bind
          fun c' => run (applyAt subs cmd) c' items := by
    intro items
    induction items with
    | nil => intro msgs _; simp [run]
    | cons item items ih =>
        intro msgs hnodup
        rw [List.foldl_cons, ih _ (addRof_nodup hnodup),
          deliver_addRof hnodup]
        cases Transaction.deliver subs cmd msgs c <;> rfl
  exact (hfold items [] List.nodup_nil).trans rfl

/-! ## One field -/

/-- The index of a field at each engine. -/
def indexAt (c : Cluster) (tableid : Int) (n : Nat) (e : Int) : Index :=
  match (c e).tables tableid with
  | none => Index.makeindex .none .nofieldtype
  | some p => p.index n

/-- Every engine has the table. -/
def HasTable (c : Cluster) (tableid : Int) : Prop :=
  ∀ e, ∃ p, (c e).tables tableid = some p

/-- The item is for the index of field `n`. -/
structure OnField (tableid : Int) (n : Nat) (item : Int × RowOrField) :
    Prop where
  isrow : item.2.isrow = false
  tableid : item.2.tableid = tableid
  fieldid : item.2.fieldid = n

/-- One item, as the field's indexes see it. -/
def applyIndexAt (subs : Int → Int) (cmd : Enginecmd) (I : Int → Index)
    (item : Int × RowOrField) : Option (Int → Index) :=
  (SubTransaction.applyIndex (subs item.1) cmd item.2 (I item.1)).map
    (Function.update I item.1)

/-- The engine with one partition replaced. -/
def withTable (e : Engine) (tableid : Int) (p : Partition) : Engine :=
  { e with tables := Function.update e.tables tableid (some p) }

/-- Replacing a partition replaces one index of each of its fields. -/
theorem indexAt_withTable {c : Cluster} {e t tableid : Int} {p : Partition}
    {n : Nat} :
    indexAt (Function.update c e (withTable (c e) t p)) tableid n =
      if t = tableid then
        Function.update (indexAt c tableid n) e (p.index n)
      else indexAt c tableid n := by
  funext e'
  by_cases he : e' = e
  · subst he
    by_cases ht : t = tableid
    · subst ht
      simp only [indexAt, Function.update_self, withTable, if_pos]
    · simp only [indexAt, Function.update_self, withTable, if_neg ht,
        Function.update_of_ne (Ne.symm ht)]
  · split
    · simp only [indexAt, Function.update_of_ne he]
    · simp only [indexAt, Function.update_of_ne he]

/-- The rows of a table at an engine. -/
def storeAt (c : Cluster) (tableid e : Int) : Option Table :=
  ((c e).tables tableid).map (·.store)

/-- The same rows, and the same subtransactions. -/
structure SameRows (c c' : Cluster) : Prop where
  store : ∀ tableid e, storeAt c' tableid e = storeAt c tableid e
  subTransactions : ∀ e, (c' e).subTransactions = (c e).subTransactions

theorem SameRows.refl (c : Cluster) : SameRows c c :=
  ⟨fun _ _ => rfl, fun _ => rfl⟩

theorem SameRows.trans {c c' c'' : Cluster} (h : SameRows c c')
    (h' : SameRows c' c'') : SameRows c c'' :=
  ⟨fun t e => (h'.store t e).trans (h.store t e),
    fun e => (h'.subTransactions e).trans (h.subTransactions e)⟩

theorem hasTable_iff {c : Cluster} {tableid : Int} :
    HasTable c tableid ↔ ∀ e, (storeAt c tableid e).isSome := by
  simp only [HasTable, storeAt, Option.isSome_map, Option.isSome_iff_exists]

theorem SameRows.hasTable {c c' : Cluster} {tableid : Int}
    (h : SameRows c c') (ht : HasTable c tableid) : HasTable c' tableid := by
  rw [hasTable_iff] at ht ⊢
  intro e
  rw [h.store]
  exact ht e

/-- An item of a field, at the field and at everything else. -/
theorem applyAt_of_indexAt {subs : Int → Int} {cmd : Enginecmd}
    {c : Cluster} {tableid : Int} {n : Nat} {item : Int × RowOrField}
    {I' : Int → Index} (ht : HasTable c tableid)
    (hon : OnField tableid n item)
    (h : applyIndexAt subs cmd (indexAt c tableid n) item = some I') :
    ∃ c', applyAt subs cmd c item = some c' ∧ SameRows c c' ∧
      ∀ m, indexAt c' tableid m =
        if m = n then I' else indexAt c tableid m := by
  obtain ⟨e, rof⟩ := item
  obtain ⟨hrow, rfl, rfl⟩ := hon
  dsimp only at hrow ht h ⊢
  obtain ⟨p, hp⟩ := ht e
  obtain ⟨i', hi', rfl⟩ := Option.map_eq_some_iff.mp h
  simp only [indexAt, hp] at hi'
  let p' : Partition :=
    { p with index := Function.update p.index rof.fieldid i' }
  have happ : applyAt subs cmd c (e, rof) =
      some (Function.update c e (withTable (c e) rof.tableid p')) := by
    simp only [applyAt, SubTransaction.applyRof, hp, hrow, hi',
      Bool.false_eq_true, if_false]
    rfl
  refine ⟨_, happ, ⟨fun t e' => ?_, fun e' => ?_⟩, fun m => ?_⟩
  · by_cases he : e' = e
    · subst he
      by_cases htt : t = rof.tableid
      · subst htt
        simp only [storeAt, Function.update_self, withTable, hp]
        rfl
      · simp only [storeAt, Function.update_self, withTable,
          Function.update_of_ne htt]
    · simp only [storeAt, Function.update_of_ne he]
  · by_cases he : e' = e
    · subst he
      rw [Function.update_self]
      rfl
    · rw [Function.update_of_ne he]
  · rw [indexAt_withTable, if_pos rfl]
    by_cases hm : m = rof.fieldid
    · subst hm
      have hself : p'.index rof.fieldid = i' := Function.update_self ..
      rw [if_pos rfl, hself]
    · have hsame : p'.index m = indexAt c rof.tableid m e := by
        simp only [p', Function.update_of_ne hm, indexAt, hp]
      rw [if_neg hm, hsame, Function.update_eq_self]

/-- The items of one field. -/
theorem run_field {subs : Int → Int} {cmd : Enginecmd} {tableid : Int}
    {n : Nat} {items : List (Int × RowOrField)} :
    ∀ {c : Cluster} {I' : Int → Index}, HasTable c tableid →
      (∀ item ∈ items, OnField tableid n item) →
      run (applyIndexAt subs cmd) (indexAt c tableid n) items = some I' →
      ∃ c', run (applyAt subs cmd) c items = some c' ∧ SameRows c c' ∧
        ∀ m, indexAt c' tableid m =
          if m = n then I' else indexAt c tableid m := by
  induction items with
  | nil =>
      intro c I' _ _ h
      injection h with h
      subst h
      refine ⟨c, rfl, .refl c, fun m => ?_⟩
      split
      · next hm => rw [hm]
      · rfl
  | cons item items ih =>
      intro c I' ht hon h
      obtain ⟨I₁, h1, h2⟩ := run_cons.mp h
      obtain ⟨c₁, hc₁, hrows₁, hindex₁⟩ :=
        applyAt_of_indexAt ht (hon item List.mem_cons_self) h1
      have hn : indexAt c₁ tableid n = I₁ := by rw [hindex₁, if_pos rfl]
      obtain ⟨c', hc', hrows, hindex⟩ := ih (hrows₁.hasTable ht)
        (fun item' h => hon item' (List.mem_cons_of_mem _ h)) (hn ▸ h2)
      refine ⟨c', run_cons.mpr ⟨c₁, hc₁, hc'⟩, hrows₁.trans hrows,
        fun m => ?_⟩
      rw [hindex, hindex₁]
      split <;> rfl

/-- The items of one field, if it has an index. -/
def fieldItems {α : Type} (fields : List Field)
    (items : Nat → Field → List α) (n : Nat) : List α :=
  match fields[n]? with
  | none => []
  | some f => if f.indextype = .none then [] else items n f

theorem forFields_eq (fields : List Field)
    (items : Nat → Field → List (Int × RowOrField)) :
    Transaction.forFields fields items =
      (List.range fields.length).flatMap (fieldItems fields items) := rfl

/-- The index items of a row, field by field. -/
theorem run_forFields {subs : Int → Int} {cmd : Enginecmd} {c : Cluster}
    {tableid : Int} {fields : List Field}
    (items : Nat → Field → List (Int × RowOrField))
    (Q : Nat → Field → (Int → Index) → Prop) (ht : HasTable c tableid)
    (hon : ∀ n f, ∀ item ∈ items n f, OnField tableid n item)
    (hfield : ∀ n f, fields[n]? = some f → f.indextype ≠ .none → ∃ I',
      run (applyIndexAt subs cmd) (indexAt c tableid n) (items n f) =
        some I' ∧ Q n f I') :
    ∃ c', run (applyAt subs cmd) c (Transaction.forFields fields items) =
        some c' ∧ SameRows c c' ∧
      ∀ n f, fields[n]? = some f → f.indextype ≠ .none →
        Q n f (indexAt c' tableid n) := by
  have hupto : ∀ k, ∃ c', run (applyAt subs cmd) c
        ((List.range k).flatMap (fieldItems fields items)) =
        some c' ∧ SameRows c c' ∧
      ∀ n, (n < k → ∀ f, fields[n]? = some f → f.indextype ≠ .none →
        Q n f (indexAt c' tableid n)) ∧
        (k ≤ n → indexAt c' tableid n = indexAt c tableid n) := by
    intro k
    induction k with
    | zero => exact ⟨c, rfl, .refl c, fun n => ⟨by simp, fun _ => rfl⟩⟩
    | succ k ih =>
        obtain ⟨c₁, h1, hrows₁, hindex₁⟩ := ih
        rw [List.range_succ, List.flatMap_append]
        simp only [List.flatMap_cons, List.flatMap_nil, List.append_nil]
        have hk : indexAt c₁ tableid k = indexAt c tableid k :=
          (hindex₁ k).2 (Nat.le_refl k)
        cases hf : fields[k]? with
        | none =>
            have hnone : fieldItems fields items k = [] := by
              rw [fieldItems, hf]
            refine ⟨c₁, by simpa [hnone] using h1, hrows₁,
              fun n => ⟨?_, ?_⟩⟩
            · intro hn f hf' hi
              rcases Nat.lt_succ_iff_lt_or_eq.mp hn with hn | rfl
              · exact (hindex₁ n).1 hn f hf' hi
              · exact absurd (hf.symm.trans hf') (by simp)
            · exact fun hn => (hindex₁ n).2 (by omega)
        | some f =>
            by_cases hi : f.indextype = .none
            · have hnone : fieldItems fields items k = [] := by
                rw [fieldItems, hf]
                exact if_pos hi
              refine ⟨c₁, by simpa [hnone] using h1, hrows₁,
                fun n => ⟨?_, ?_⟩⟩
              · intro hn f' hf' hi'
                rcases Nat.lt_succ_iff_lt_or_eq.mp hn with hn | rfl
                · exact (hindex₁ n).1 hn f' hf' hi'
                · obtain rfl := Option.some.inj (hf.symm.trans hf')
                  exact absurd hi hi'
              · exact fun hn => (hindex₁ n).2 (by omega)
            · have hsome : fieldItems fields items k = items k f := by
                rw [fieldItems, hf]
                exact if_neg hi
              rw [hsome]
              obtain ⟨I', hI', hq⟩ := hfield k f hf hi
              obtain ⟨c₂, h2, hrows₂, hindex₂⟩ := run_field
                (hrows₁.hasTable ht) (hon k f) (hk ▸ hI')
              refine ⟨c₂, run_append.mpr ⟨c₁, h1, h2⟩, hrows₁.trans hrows₂,
                fun n => ⟨?_, ?_⟩⟩
              · intro hn f' hf' hi'
                rw [hindex₂]
                split
                · next hnk =>
                    subst hnk
                    obtain rfl := Option.some.inj (hf.symm.trans hf')
                    exact hq
                · next hnk =>
                    exact (hindex₁ n).1 (by omega) f' hf' hi'
              · intro hn
                rw [hindex₂, if_neg (by omega)]
                exact (hindex₁ n).2 (by omega)
  obtain ⟨c', h, hrows, hindex⟩ := hupto fields.length
  refine ⟨c', h, hrows, fun n f hf hi => (hindex n).1 ?_ f hf hi⟩
  exact (List.getElem?_eq_some_iff.mp hf).1

/-! ## One row -/

/-- A row item, where the row store returns: it changes that store. -/
theorem applyAt_rowItem {subs : Int → Int} {cmd : Enginecmd} {c : Cluster}
    {tableid e rowid : Int} {t t' : Table}
    (hs : storeAt c tableid e = some t)
    (h : SubTransaction.applyRow (subs e) cmd (c e).subTransactions rowid t =
      some t') :
    ∃ c', applyAt subs cmd c (e, Transaction.rowItem tableid rowid) =
        some c' ∧
      (∀ n, indexAt c' tableid n = indexAt c tableid n) ∧
      (∀ e', storeAt c' tableid e' =
        if e' = e then some t' else storeAt c tableid e') ∧
      ∀ e', (c' e').subTransactions = (c e').subTransactions := by
  obtain ⟨p, hp, rfl⟩ := Option.map_eq_some_iff.mp hs
  let p' : Partition := { p with store := t' }
  have happ : applyAt subs cmd c (e, Transaction.rowItem tableid rowid) =
      some (Function.update c e (withTable (c e) tableid p')) := by
    simp only [applyAt, SubTransaction.applyRof, Transaction.rowItem, hp,
      if_true, h]
    rfl
  refine ⟨_, happ, fun n => ?_, fun e' => ?_, fun e' => ?_⟩
  · have hsame : p'.index n = indexAt c tableid n e := by
      simp only [p', indexAt, hp]
    rw [indexAt_withTable, if_pos rfl, hsame, Function.update_eq_self]
  · by_cases he : e' = e
    · subst he
      simp only [storeAt, Function.update_self, withTable, if_true]
      rfl
    · simp only [storeAt, Function.update_of_ne he, if_neg he]
  · by_cases he : e' = e
    · subst he
      rw [Function.update_self]
      rfl
    · rw [Function.update_of_ne he]

/-- A row item that returns is one the row store answered. -/
theorem applyRow_of_applyAt {subs : Int → Int} {cmd : Enginecmd}
    {c c' : Cluster} {tableid e rowid : Int} {t : Table}
    (hs : storeAt c tableid e = some t)
    (h : applyAt subs cmd c (e, Transaction.rowItem tableid rowid) =
      some c') :
    ∃ t', SubTransaction.applyRow (subs e) cmd (c e).subTransactions rowid
      t = some t' := by
  obtain ⟨p, hp, rfl⟩ := Option.map_eq_some_iff.mp hs
  simp only [applyAt, SubTransaction.applyRof, Transaction.rowItem, hp,
    if_true, Option.map_map, Option.map_eq_some_iff] at h
  obtain ⟨t', h, _⟩ := h
  exact ⟨t', h⟩

end Infinisql.Proofs
