import Mathlib.Algebra.Order.Group.Unbundled.Int
import Infinisql.Proofs.ReplayRows

/-!
# Index items at a replica

An item that comes too early is put aside, and then nothing good can come of
it: it stays there, or it fits later and is erased in the loop that tries it
again. An item that is not too early changes the index by its entry, or is
ignored: an addition, because the null entry is there already or the unique
key is taken, a removal, because the key has another entry. So what an entry
counts at the end is its additions less its removals, less what was ignored
of the one, plus what was ignored of the other. The serial history has
additions less removals. The two agree if what was ignored cancels out.
-/

namespace Infinisql.Proofs

open Infinisql.Lib Infinisql.Ref Infinisql.Spec

/-! ## The statement -/

/-- How often an index has an entry. -/
def held (i : ReplicaIndex) (y : IndexEntry) : Nat :=
  match y.slot with
  | .null => if (y.rowid, y.engineid) ∈ i.nulls then 1 else 0
  | .key k =>
      if i.indextype.isunique then
        match i.unique k with
        | none => 0
        | some e =>
            if e.rowid = y.rowid ∧ e.engineid = y.engineid then 1 else 0
      else i.nonunique.count (k, ⟨y.rowid, y.engineid⟩)

/-- An item that comes too early: a removal of what is not there, or an item
of a unique key that is taken, by a later subtransaction for an addition, by
an earlier one and another row for a removal. -/
def TooEarly (i : ReplicaIndex) (subtransactionid : Int) (x : ApplyIndex) :
    Bool :=
  if x.fieldVal.isnull then !x.isadd && (x.rowid, x.engineid) ∉ i.nulls
  else if i.indextype.isunique then
    let prev := i.getprevioussubtransactionid x.fieldVal
    if x.isadd then i.checkifthere x.fieldVal && subtransactionid < prev
    else
      !i.checkifthere x.fieldVal ||
        !i.checkifmatch x.fieldVal x.rowid x.engineid &&
          prev < subtransactionid
  else
    !x.isadd && (x.fieldVal.key i.fieldtype).any fun k =>
      (k, ⟨x.rowid, x.engineid⟩) ∉ i.nonunique

/-- An item that is not too early and does nothing. -/
def Ignored (i : ReplicaIndex) (x : ApplyIndex) : Bool :=
  if x.fieldVal.isnull then x.isadd && (x.rowid, x.engineid) ∈ i.nulls
  else if i.indextype.isunique then
    if x.isadd then i.checkifthere x.fieldVal
    else !i.checkifmatch x.fieldVal x.rowid x.engineid
  else false

/-- The items of a list, each with the index it finds. -/
def arrivals : ReplicaIndex → List (Int × ApplyIndex) →
    List (ReplicaIndex × Int × ApplyIndex)
  | _, [] => []
  | i, x :: xs => (i, x) :: arrivals (i.applyItem x.1 x.2).2 xs

/-- How many additions of an entry are ignored. -/
def ignoredAdds (i : ReplicaIndex) (xs : List (Int × ApplyIndex))
    (y : IndexEntry) : Nat :=
  (arrivals i xs).countP fun a =>
    a.2.2.isadd && Ignored a.1 a.2.2 && entryOf i.fieldtype a.2.2 = some y

/-- How many removals of an entry are ignored. -/
def ignoredRemovals (i : ReplicaIndex) (xs : List (Int × ApplyIndex))
    (y : IndexEntry) : Nat :=
  (arrivals i xs).countP fun a =>
    !a.2.2.isadd && Ignored a.1 a.2.2 && entryOf i.fieldtype a.2.2 = some y

/-- Nothing comes too early, and of each entry as many additions are ignored
as removals. -/
structure ArrivesWell (i : ReplicaIndex) (xs : List (Int × ApplyIndex)) :
    Prop where
  inTime : ∀ a ∈ arrivals i xs, TooEarly a.1 a.2.1 a.2.2 = false
  balanced : ∀ y, ignoredAdds i xs y = ignoredRemovals i xs y

/-- The messages of a history of items of one index, as they arrive. -/
structure CarriesItems (tableid : Int) (n : Nat)
    (commits : Commits ApplyIndex) (msgs : List MessageApply) : Prop where
  perm : (msgs.map fun m => (m.subtransactionid, m.indices)).Perm commits
  rows : ∀ m ∈ msgs, m.rows = []
  here : ∀ m ∈ msgs, ∀ x ∈ m.indices, x.tableid = tableid ∧ x.fieldid = n

def arrivedItems (msgs : List MessageApply) : List (Int × ApplyIndex) :=
  Commits.items (msgs.map fun m => (m.subtransactionid, m.indices))

/-- At the end the index has the live entries, and nothing is put aside. -/
def FollowsItems (schema : Int → List Field) (tableid : Int) (n : Nat)
    (live : List IndexEntry) (msgs : List MessageApply) : Prop :=
  ∃ e, run ReplicaEngine.apply (.new schema) msgs = some e ∧
    e.backgrounded = [] ∧ ∀ y, held (e.index tableid n) y = live.count y

/-! ## One item -/

/-- The kinds of an index do not change. -/
theorem applyItem_kind (i : ReplicaIndex) (s : Int) (x : ApplyIndex) :
    (i.applyItem s x).2.indextype = i.indextype ∧
      (i.applyItem s x).2.fieldtype = i.fieldtype := by
  rw [ReplicaIndex.applyItem]
  split
  · rw [ReplicaIndex.applyNull]
    split
    · exact ⟨rfl, rfl⟩
    · split <;> exact ⟨rfl, rfl⟩
  · split
    · have hadd : ∀ {v : FieldValue} {r g : Int},
          (i.addifnotthere v r g s).2.indextype = i.indextype ∧
            (i.addifnotthere v r g s).2.fieldtype = i.fieldtype := by
        intro v r g
        rw [ReplicaIndex.addifnotthere]
        split
        · exact ⟨rfl, rfl⟩
        · split <;> exact ⟨rfl, rfl⟩
      have hrm : ∀ {v : FieldValue}, (i.rm v).indextype = i.indextype ∧
          (i.rm v).fieldtype = i.fieldtype := by
        intro v
        rw [ReplicaIndex.rm]
        split <;> exact ⟨rfl, rfl⟩
      rw [ReplicaIndex.applyUnique]
      dsimp only
      split
      · split
        · exact hadd
        · split <;> exact hadd
      · split
        · split
          · exact hrm
          · split <;> exact ⟨rfl, rfl⟩
        · exact ⟨rfl, rfl⟩
    · rw [ReplicaIndex.applyNonunique]
      split
      · exact ⟨rfl, rfl⟩
      · dsimp only
        split
        · exact ⟨rfl, rfl⟩
        · split <;> exact ⟨rfl, rfl⟩

/-- The entry of an item that is not null. -/
theorem entryOf_key {fieldtype : Fieldtype} {x : ApplyIndex} {y : IndexEntry}
    (hnull : x.fieldVal.isnull = false)
    (hy : entryOf fieldtype x = some y) :
    ∃ k, x.fieldVal.key fieldtype = some k ∧
      y = ⟨.key k, x.rowid, x.engineid⟩ := by
  rw [entryOf, hnull, if_neg (by simp)] at hy
  obtain ⟨k, hk, rfl⟩ := Option.map_eq_some_iff.mp hy
  exact ⟨k, hk, rfl⟩

/-- An item is put aside exactly if it comes too early. -/
theorem applyItem_fst {i : ReplicaIndex} {s : Int} {x : ApplyIndex}
    {y : IndexEntry} (hy : entryOf i.fieldtype x = some y) :
    (i.applyItem s x).1 = !TooEarly i s x := by
  rw [ReplicaIndex.applyItem, TooEarly]
  cases hnull : x.fieldVal.isnull with
  | true =>
      simp only [ReplicaIndex.applyNull, ↓reduceIte]
      cases x.isadd with
      | true => rfl
      | false =>
          by_cases hmem : (x.rowid, x.engineid) ∈ i.nulls
          · simp [hmem]
          · simp [hmem]
  | false =>
      obtain ⟨k, hk, _⟩ := entryOf_key hnull hy
      cases hunique : i.indextype.isunique with
      | true =>
          simp only [ReplicaIndex.applyUnique, Bool.false_eq_true, ↓reduceIte]
          cases hentry : i.unique k with
          | none =>
              cases x.isadd <;>
                simp [ReplicaIndex.addifnotthere, ReplicaIndex.checkifthere,
                  hk, hentry]
          | some entry =>
              cases x.isadd with
              | true =>
                  by_cases hlt : s < entry.previoussubtransactionid
                  · simp [ReplicaIndex.addifnotthere,
                      ReplicaIndex.checkifthere,
                      ReplicaIndex.getprevioussubtransactionid, hk, hentry, hlt]
                  · simp [ReplicaIndex.addifnotthere,
                      ReplicaIndex.checkifthere,
                      ReplicaIndex.getprevioussubtransactionid, hk, hentry, hlt]
              | false =>
                  cases hmatch :
                      i.checkifmatch x.fieldVal x.rowid x.engineid with
                  | true =>
                      simp [ReplicaIndex.checkifthere, hk, hentry]
                  | false =>
                      by_cases hlt : entry.previoussubtransactionid < s
                      · simp [ReplicaIndex.checkifthere,
                          ReplicaIndex.getprevioussubtransactionid, hk, hentry,
                          hlt]
                      · simp [ReplicaIndex.checkifthere,
                          ReplicaIndex.getprevioussubtransactionid, hk, hentry,
                          hlt]
      | false =>
          simp only [ReplicaIndex.applyNonunique, hk, Bool.false_eq_true,
            ↓reduceIte]
          cases x.isadd with
          | true => rfl
          | false =>
              by_cases hmem : (k, ⟨x.rowid, x.engineid⟩) ∈ i.nonunique
              · simp [hmem]
              · simp [hmem]

/-- What an item does to the count of its entry. -/
def effect (i : ReplicaIndex) (x : ApplyIndex) : Int :=
  if Ignored i x then 0 else if x.isadd then 1 else -1

theorem held_applyNull {i : ReplicaIndex} {s : Int} {x : ApplyIndex}
    (hnull : x.fieldVal.isnull = true) (hearly : TooEarly i s x = false)
    (y : IndexEntry) :
    (held (i.applyNull x).2 y : Int) =
      held i y +
        if y = ⟨.null, x.rowid, x.engineid⟩ then effect i x else 0 := by
  obtain ⟨slot, rowid, engineid⟩ := y
  simp only [TooEarly, hnull, ↓reduceIte] at hearly
  simp only [effect, Ignored, hnull, ↓reduceIte, ReplicaIndex.applyNull]
  cases slot with
  | key k =>
      have hne : (⟨.key k, rowid, engineid⟩ : IndexEntry) ≠
          ⟨.null, x.rowid, x.engineid⟩ := by simp
      rw [if_neg hne, add_zero]
      split
      · rfl
      · split <;> rfl
  | null =>
      have hsame : (⟨.null, rowid, engineid⟩ : IndexEntry) =
          ⟨.null, x.rowid, x.engineid⟩ ↔
            (rowid, engineid) = (x.rowid, x.engineid) := by simp
      by_cases heq : (rowid, engineid) = (x.rowid, x.engineid)
      · rw [if_pos (hsame.mpr heq)]
        simp only [held, heq]
        cases hadd : x.isadd with
        | true =>
            by_cases hmem : (x.rowid, x.engineid) ∈ i.nulls
            · simp [hmem]
            · simp [hmem]
        | false =>
            rw [hadd] at hearly
            have hmem : (x.rowid, x.engineid) ∈ i.nulls := by simpa using hearly
            simp [hmem]
      · rw [if_neg fun h => heq (hsame.mp h), add_zero]
        simp only [held]
        cases x.isadd with
        | true =>
            simp only [↓reduceIte, Finset.mem_insert, or_iff_right heq]
        | false =>
            by_cases hmem : (x.rowid, x.engineid) ∈ i.nulls
            · simp only [Bool.false_eq_true, ↓reduceIte, hmem,
                Finset.mem_erase, ne_eq, heq, not_false_eq_true, true_and]
            · simp only [Bool.false_eq_true, ↓reduceIte, hmem]

theorem held_applyNonunique {i : ReplicaIndex} {s : Int} {x : ApplyIndex}
    {k : Key} (hnull : x.fieldVal.isnull = false)
    (hunique : i.indextype.isunique = false)
    (hk : x.fieldVal.key i.fieldtype = some k)
    (hearly : TooEarly i s x = false) (y : IndexEntry) :
    (held (i.applyNonunique x).2 y : Int) =
      held i y +
        if y = ⟨.key k, x.rowid, x.engineid⟩ then effect i x else 0 := by
  obtain ⟨slot, rowid, engineid⟩ := y
  simp only [TooEarly, hnull, hunique, hk, Bool.false_eq_true, ↓reduceIte]
    at hearly
  simp only [effect, Ignored, hnull, hunique, Bool.false_eq_true, ↓reduceIte,
    ReplicaIndex.applyNonunique, hk]
  cases slot with
  | null =>
      have hne : (⟨.null, rowid, engineid⟩ : IndexEntry) ≠
          ⟨.key k, x.rowid, x.engineid⟩ := by simp
      rw [if_neg hne, add_zero]
      split
      · rfl
      · split <;> rfl
  | key k' =>
      have hsame : (⟨.key k', rowid, engineid⟩ : IndexEntry) =
          ⟨.key k, x.rowid, x.engineid⟩ ↔
            ((k, ⟨x.rowid, x.engineid⟩) : Key × NonLockingIndexEntry) =
              (k', ⟨rowid, engineid⟩) := by
        simp
        tauto
      cases hadd : x.isadd with
      | true =>
          simp only [held, hunique, ↓reduceIte, Bool.false_eq_true,
            List.count_append, List.count_singleton, beq_iff_eq, hsame]
          by_cases heq : ((k, ⟨x.rowid, x.engineid⟩) :
              Key × NonLockingIndexEntry) = (k', ⟨rowid, engineid⟩)
          · rw [if_pos heq, if_pos heq]
            omega
          · rw [if_neg heq, if_neg heq]
            omega
      | false =>
          rw [hadd] at hearly
          have hmem : (k, ⟨x.rowid, x.engineid⟩) ∈ i.nonunique := by
            simpa using hearly
          simp only [held, hunique, ↓reduceIte, Bool.false_eq_true, hmem,
            List.count_erase, beq_iff_eq, hsame]
          by_cases heq : ((k, ⟨x.rowid, x.engineid⟩) :
              Key × NonLockingIndexEntry) = (k', ⟨rowid, engineid⟩)
          · rw [if_pos heq, if_pos heq]
            have hpos := List.count_pos_iff.mpr (heq ▸ hmem)
            omega
          · rw [if_neg heq, if_neg heq]
            omega
/-- What a unique index holds once a key has another entry, or none. -/
theorem held_update {i : ReplicaIndex} {k k' : Key}
    {entry : Option AppliedIndexEntry} {rowid engineid : Int}
    (hunique : i.indextype.isunique = true) (hne : k' ≠ k) :
    held { i with unique := Function.update i.unique k entry }
        ⟨.key k', rowid, engineid⟩ =
      held i ⟨.key k', rowid, engineid⟩ := by
  simp only [held, hunique, ↓reduceIte, Function.update_of_ne hne]

theorem held_update_self {i : ReplicaIndex} {k : Key}
    {entry : Option AppliedIndexEntry} {rowid engineid : Int}
    (hunique : i.indextype.isunique = true) :
    held { i with unique := Function.update i.unique k entry }
        ⟨.key k, rowid, engineid⟩ =
      match entry with
      | none => 0
      | some e =>
          if e.rowid = rowid ∧ e.engineid = engineid then 1 else 0 := by
  simp only [held, hunique, ↓reduceIte, Function.update_self]

theorem held_applyUnique {i : ReplicaIndex} {s : Int} {x : ApplyIndex}
    {k : Key} (hnull : x.fieldVal.isnull = false)
    (hunique : i.indextype.isunique = true)
    (hk : x.fieldVal.key i.fieldtype = some k)
    (hearly : TooEarly i s x = false) (y : IndexEntry) :
    (held (i.applyUnique s x).2 y : Int) =
      held i y +
        if y = ⟨.key k, x.rowid, x.engineid⟩ then effect i x else 0 := by
  obtain ⟨slot, rowid, engineid⟩ := y
  simp only [TooEarly, hnull, hunique, Bool.false_eq_true, ↓reduceIte]
    at hearly
  simp only [effect, Ignored, hnull, hunique, Bool.false_eq_true, ↓reduceIte,
    ReplicaIndex.applyUnique]
  cases hentry : i.unique k with
  | none =>
      have hthere : i.checkifthere x.fieldVal = false := by
        simp only [ReplicaIndex.checkifthere, hk, hentry, Option.isSome_none]
      cases hadd : x.isadd with
      | false => simp [hadd, hthere] at hearly
      | true =>
          simp only [ReplicaIndex.addifnotthere, hk, hentry, hthere,
            ↓reduceIte, Bool.false_eq_true]
          cases slot with
          | null => simp only [held, reduceCtorEq, ↓reduceIte, add_zero,
              IndexEntry.mk.injEq, false_and]
          | key k' =>
              by_cases hkey : k' = k
              · subst hkey
                rw [held_update_self hunique]
                simp only [held, hunique, hentry, ↓reduceIte,
                  IndexEntry.mk.injEq, true_and]
                by_cases hsame : x.rowid = rowid ∧ x.engineid = engineid
                · rw [if_pos hsame,
                    if_pos ⟨hsame.1.symm, hsame.2.symm⟩]
                  rfl
                · rw [if_neg hsame,
                    if_neg fun h => hsame ⟨h.1.symm, h.2.symm⟩]
                  rfl
              · rw [held_update hunique hkey,
                  if_neg (by simp [hkey]), add_zero]
  | some entry =>
      have hthere : i.checkifthere x.fieldVal = true := by
        simp only [ReplicaIndex.checkifthere, hk, hentry, Option.isSome_some]
      cases hadd : x.isadd with
      | true =>
          simp only [ReplicaIndex.addifnotthere, hk, hentry, hthere,
            ↓reduceIte, Bool.false_eq_true, ite_self, add_zero]
          split <;> rfl
      | false =>
          simp only [hthere, ↓reduceIte, Bool.false_eq_true]
          have hcheck : i.checkifmatch x.fieldVal x.rowid x.engineid =
              (entry.rowid = x.rowid && entry.engineid = x.engineid) := by
            simp only [ReplicaIndex.checkifmatch, hk, hentry,
              Option.bind_some]
          cases hmatch : i.checkifmatch x.fieldVal x.rowid x.engineid with
          | false =>
              simp only [Bool.false_eq_true, ↓reduceIte, Bool.not_false,
                ite_self, add_zero]
              split <;> rfl
          | true =>
              rw [hcheck] at hmatch
              obtain ⟨hrow, hengine⟩ : entry.rowid = x.rowid ∧
                  entry.engineid = x.engineid := by simpa using hmatch
              simp only [↓reduceIte, Bool.not_true, Bool.false_eq_true,
                ReplicaIndex.rm, hk]
              cases slot with
              | null => simp only [held, reduceCtorEq, ↓reduceIte, add_zero,
                  IndexEntry.mk.injEq, false_and]
              | key k' =>
                  by_cases hkey : k' = k
                  · subst hkey
                    rw [held_update_self hunique]
                    simp only [held, hunique, hentry, ↓reduceIte,
                      IndexEntry.mk.injEq, true_and, hrow, hengine]
                    by_cases hsame : x.rowid = rowid ∧ x.engineid = engineid
                    · rw [if_pos hsame,
                        if_pos ⟨hsame.1.symm, hsame.2.symm⟩]
                      rfl
                    · rw [if_neg hsame,
                        if_neg fun h => hsame ⟨h.1.symm, h.2.symm⟩]
                      rfl
                  · rw [held_update hunique hkey,
                      if_neg (by simp [hkey]), add_zero]

/-- What one item that is not too early does to the counts. -/
theorem held_applyItem {i : ReplicaIndex} {s : Int} {x : ApplyIndex}
    {e : IndexEntry} (he : entryOf i.fieldtype x = some e)
    (hearly : TooEarly i s x = false) (y : IndexEntry) :
    (held (i.applyItem s x).2 y : Int) =
      held i y + if y = e then effect i x else 0 := by
  rw [ReplicaIndex.applyItem]
  cases hnull : x.fieldVal.isnull with
  | true =>
      simp only [entryOf, hnull, ↓reduceIte, Option.some.injEq] at he
      subst he
      exact held_applyNull hnull hearly y
  | false =>
      obtain ⟨k, hk, rfl⟩ := entryOf_key hnull he
      cases hunique : i.indextype.isunique with
      | true =>
          simp only [Bool.false_eq_true, ↓reduceIte]
          exact held_applyUnique hnull hunique hk hearly y
      | false =>
          simp only [Bool.false_eq_true, ↓reduceIte]
          exact held_applyNonunique hnull hunique hk hearly y

/-! ## Counting -/

/-- How many items add an entry. -/
def additions (fieldtype : Fieldtype) (xs : List (Int × ApplyIndex))
    (y : IndexEntry) : Nat :=
  xs.countP fun x => x.2.isadd && entryOf fieldtype x.2 = some y

/-- How many items remove an entry. -/
def removals (fieldtype : Fieldtype) (xs : List (Int × ApplyIndex))
    (y : IndexEntry) : Nat :=
  xs.countP fun x => !x.2.isadd && entryOf fieldtype x.2 = some y

/-- The index once a list of items has come. -/
def replay : ReplicaIndex → List (Int × ApplyIndex) → ReplicaIndex
  | i, [] => i
  | i, x :: xs => replay (i.applyItem x.1 x.2).2 xs

/-- Every item has an entry. -/
def HaveEntries (fieldtype : Fieldtype) (xs : List (Int × ApplyIndex)) :
    Prop :=
  ∀ x ∈ xs, ∃ e, entryOf fieldtype x.2 = some e

theorem HaveEntries.tail {fieldtype : Fieldtype} {x : Int × ApplyIndex}
    {xs : List (Int × ApplyIndex)} (h : HaveEntries fieldtype (x :: xs)) :
    HaveEntries fieldtype xs :=
  fun y hy => h y (List.mem_cons_of_mem x hy)

/-- What an index holds after items of which none came too early. -/
theorem held_replay : ∀ {xs : List (Int × ApplyIndex)} {i : ReplicaIndex},
    HaveEntries i.fieldtype xs →
    (∀ a ∈ arrivals i xs, TooEarly a.1 a.2.1 a.2.2 = false) →
    ∀ y, held (replay i xs) y + removals i.fieldtype xs y +
        ignoredAdds i xs y =
      held i y + additions i.fieldtype xs y + ignoredRemovals i xs y := by
  intro xs
  induction xs with
  | nil =>
      intro i _ _ y
      rfl
  | cons x xs ih =>
      intro i hentries htime y
      obtain ⟨e, he⟩ := hentries x List.mem_cons_self
      have hearly : TooEarly i x.1 x.2 = false :=
        htime (i, x) List.mem_cons_self
      have hkind := (applyItem_kind i x.1 x.2).2
      have hrest := ih (i := (i.applyItem x.1 x.2).2)
        (hkind.symm ▸ hentries.tail)
        (fun a ha => htime a (List.mem_cons_of_mem _ ha)) y
      have hthis := held_applyItem he hearly y
      rw [hkind] at hrest
      simp only [ignoredAdds, ignoredRemovals, additions, removals] at hrest ⊢
      simp only [replay, arrivals, List.countP_cons, he, hkind, effect,
        Option.some.injEq] at hrest hthis ⊢
      by_cases hy : e = y
      · subst hy
        cases hadd : x.2.isadd <;> cases hig : Ignored i x.2 <;>
          simp [hadd, hig] at hthis ⊢ <;> omega
      · rw [if_neg fun h => hy h.symm] at hthis
        simp [hy]
        omega

/-- An entry is live as often as it was added and not removed. -/
theorem count_commitItems {isunique : Bool} {fieldtype : Fieldtype} :
    ∀ {xs : List (Int × ApplyIndex)} {live live' : List IndexEntry},
      commitItems isunique fieldtype live xs = some live' →
      HaveEntries fieldtype xs ∧
      ∀ y, live'.count y + removals fieldtype xs y =
        live.count y + additions fieldtype xs y := by
  intro xs
  induction xs with
  | nil =>
      intro live live' h
      obtain rfl := Option.some.inj h
      exact ⟨fun _ hx => absurd hx (by simp), fun _ => rfl⟩
  | cons x xs ih =>
      intro live live' h
      rw [commitItems, Option.bind_eq_some_iff] at h
      obtain ⟨live₁, h1, h2⟩ := h
      obtain ⟨hentries, hcount⟩ := ih h2
      rw [commitItem] at h1
      cases he : entryOf fieldtype x.2 with
      | none =>
          rw [he] at h1
          exact absurd h1 (by simp)
      | some e =>
          refine ⟨fun z hz => ?_, fun y => ?_⟩
          · rcases List.mem_cons.mp hz with rfl | hz
            · exact ⟨e, he⟩
            · exact hentries z hz
          · have hrest := hcount y
            rw [he] at h1
            simp only [additions, removals] at hrest ⊢
            simp only [List.countP_cons, he, Option.some.injEq]
            cases hadd : x.2.isadd with
            | true =>
                simp only [hadd, ↓reduceIte] at h1
                split at h1
                · obtain rfl := Option.some.inj h1
                  rw [List.count_cons] at hrest
                  by_cases hy : e = y
                  · subst hy
                    simp at hrest ⊢
                    omega
                  · simp [hy] at hrest ⊢
                    omega
                · exact absurd h1 (by simp)
            | false =>
                simp only [hadd, ↓reduceIte, Bool.false_eq_true] at h1
                split at h1
                · next hmem =>
                  obtain rfl := Option.some.inj h1
                  rw [List.count_erase] at hrest
                  by_cases hy : e = y
                  · subst hy
                    have hpos := List.count_pos_iff.mpr hmem
                    simp at hrest ⊢
                    omega
                  · simp [hy] at hrest ⊢
                    omega
                · exact absurd h1 (by simp)

/-! ## Messages of items -/

/-- What is put aside stays. -/
theorem background_ne_nil (msg : MessageApply)
    (push : Background → Background) (bs : List (Int × Background)) :
    ReplicaEngine.background msg push bs ≠ [] := by
  obtain ⟨b, hb⟩ := exists_background msg push bs
  exact List.ne_nil_of_mem hb

theorem applyIndices_ne_nil {msg : MessageApply} :
    ∀ {xs : List ApplyIndex} {e : ReplicaEngine}, e.backgrounded ≠ [] →
      (ReplicaEngine.applyIndices msg xs e).backgrounded ≠ [] := by
  intro xs
  induction xs with
  | nil => exact fun h => h
  | cons x xs ih =>
      intro e h
      rw [ReplicaEngine.applyIndices]
      dsimp only
      split
      · exact ih h
      · exact ih (background_ne_nil _ _ _)

/-- The loop over the items of one index. -/
theorem applyIndices_spec {msg : MessageApply} {tableid : Int} {n : Nat} :
    ∀ {xs : List ApplyIndex} {e : ReplicaEngine},
      (∀ x ∈ xs, x.tableid = tableid ∧ x.fieldid = n) →
      HaveEntries (e.index tableid n).fieldtype
        (xs.map fun x => (msg.subtransactionid, x)) →
      e.backgrounded = [] →
      ((ReplicaEngine.applyIndices msg xs e).backgrounded = [] ↔
        ∀ a ∈ arrivals (e.index tableid n)
          (xs.map fun x => (msg.subtransactionid, x)),
            TooEarly a.1 a.2.1 a.2.2 = false) ∧
      ((ReplicaEngine.applyIndices msg xs e).backgrounded = [] →
        (ReplicaEngine.applyIndices msg xs e).index tableid n =
          replay (e.index tableid n)
            (xs.map fun x => (msg.subtransactionid, x))) := by
  intro xs
  induction xs with
  | nil =>
      intro e _ _ h
      exact ⟨iff_of_true h fun _ ha => absurd ha (by simp [arrivals]),
        fun _ => rfl⟩
  | cons x xs ih =>
      intro e hhere hentries h
      obtain ⟨htable, hfield⟩ := hhere x List.mem_cons_self
      subst htable hfield
      obtain ⟨y, hy⟩ := hentries _ List.mem_cons_self
      have hfst := applyItem_fst (s := msg.subtransactionid) hy
      rw [ReplicaEngine.applyIndices, List.map_cons, arrivals, replay,
        List.forall_mem_cons]
      dsimp only
      cases hearly : TooEarly (e.index x.tableid x.fieldid)
          msg.subtransactionid x with
      | false =>
          rw [hearly] at hfst
          rw [hfst]
          have hindex : (e.setIndex x.tableid x.fieldid
              ((e.index x.tableid x.fieldid).applyItem
                msg.subtransactionid x).2).index x.tableid x.fieldid =
              ((e.index x.tableid x.fieldid).applyItem
                msg.subtransactionid x).2 := by
            rw [ReplicaEngine.setIndex]
            dsimp only
            rw [Function.update_self, Function.update_self]
          have hrest := ih
            (e := e.setIndex x.tableid x.fieldid
              ((e.index x.tableid x.fieldid).applyItem
                msg.subtransactionid x).2)
            (fun z hz => hhere z (List.mem_cons_of_mem x hz))
            (by
              rw [hindex, (applyItem_kind _ _ _).2]
              exact hentries.tail) h
          rw [hindex] at hrest
          exact ⟨hrest.1.trans (iff_and_self.mpr fun _ => rfl), hrest.2⟩
      | true =>
          rw [hearly] at hfst
          rw [hfst]
          have hne : (ReplicaEngine.applyIndices msg xs { e with
              backgrounded := ReplicaEngine.background msg
                (fun b => { b with indices := b.indices ++ [x] })
                e.backgrounded }).backgrounded ≠ [] :=
            applyIndices_ne_nil (background_ne_nil _ _ _)
          exact ⟨iff_of_false hne fun hall => absurd hall.1 (by simp),
            fun hnil => absurd hnil hne⟩

/-! ## The messages of an index -/

theorem arrivals_append : ∀ {xs : List (Int × ApplyIndex)}
    {i : ReplicaIndex} (ys : List (Int × ApplyIndex)),
    arrivals i (xs ++ ys) = arrivals i xs ++ arrivals (replay i xs) ys := by
  intro xs
  induction xs with
  | nil => exact fun _ => rfl
  | cons x xs ih =>
      intro i ys
      rw [List.cons_append, arrivals, arrivals, replay, List.cons_append, ih]

theorem replay_append : ∀ {xs : List (Int × ApplyIndex)} {i : ReplicaIndex}
    (ys : List (Int × ApplyIndex)),
    replay i (xs ++ ys) = replay (replay i xs) ys := by
  intro xs
  induction xs with
  | nil => exact fun _ => rfl
  | cons x xs ih =>
      intro i ys
      rw [List.cons_append, replay, replay, ih]

theorem replay_fieldtype : ∀ {xs : List (Int × ApplyIndex)}
    {i : ReplicaIndex}, (replay i xs).fieldtype = i.fieldtype := by
  intro xs
  induction xs with
  | nil => exact rfl
  | cons x xs ih =>
      intro i
      rw [replay, ih]
      exact (applyItem_kind i x.1 x.2).2

/-- A message of items only is its loop over them. -/
theorem apply_indices {e e' : ReplicaEngine} {msg : MessageApply}
    (hrows : msg.rows = []) (h : e.apply msg = some e') :
    e' = ReplicaEngine.ackApply msg
      (ReplicaEngine.applyIndices msg msg.indices e) := by
  rw [ReplicaEngine.apply, hrows, ReplicaEngine.applyRows,
    Option.bind_some] at h
  exact retry_eq_some h

theorem run_ne_nil : ∀ {msgs : List MessageApply} {e e' : ReplicaEngine},
    (∀ m ∈ msgs, m.rows = []) → e.backgrounded ≠ [] →
    run ReplicaEngine.apply e msgs = some e' → e'.backgrounded ≠ [] := by
  intro msgs
  induction msgs with
  | nil =>
      intro e e' _ hne h
      obtain rfl := Option.some.inj h
      exact hne
  | cons m msgs ih =>
      intro e e' hrows hne h
      obtain ⟨e₁, h1, h2⟩ := run_cons.mp h
      obtain rfl := apply_indices (hrows m List.mem_cons_self) h1
      refine ih (fun q hq => hrows q (List.mem_cons_of_mem m hq)) ?_ h2
      rw [backgrounded_ackApply]
      exact applyIndices_ne_nil hne

theorem index_ackApply (msg : MessageApply) (e : ReplicaEngine) :
    (ReplicaEngine.ackApply msg e).index = e.index := by
  rw [ReplicaEngine.ackApply]
  split <;> rfl

theorem arrivedItems_cons (m : MessageApply) (msgs : List MessageApply) :
    arrivedItems (m :: msgs) =
      (m.indices.map fun x => (m.subtransactionid, x)) ++
        arrivedItems msgs := by
  rw [arrivedItems, List.map_cons, Commits.items, List.flatMap_cons]
  rfl

/-- All has been dealt with exactly if nothing came too early, and then the
index is what the items make of it. -/
theorem items_run {tableid : Int} {n : Nat} (P : ReplicaIndex → Prop) :
    ∀ {msgs : List MessageApply} {e : ReplicaEngine},
      (∀ m ∈ msgs, m.rows = []) →
      (∀ m ∈ msgs, ∀ x ∈ m.indices, x.tableid = tableid ∧ x.fieldid = n) →
      HaveEntries (e.index tableid n).fieldtype (arrivedItems msgs) →
      e.backgrounded = [] →
      ((∃ e', run ReplicaEngine.apply e msgs = some e' ∧
          e'.backgrounded = [] ∧ P (e'.index tableid n)) ↔
        (∀ a ∈ arrivals (e.index tableid n) (arrivedItems msgs),
          TooEarly a.1 a.2.1 a.2.2 = false) ∧
        P (replay (e.index tableid n) (arrivedItems msgs))) := by
  intro msgs
  induction msgs with
  | nil =>
      intro e _ _ _ h
      constructor
      · rintro ⟨e', hrun, _, hp⟩
        obtain rfl := Option.some.inj hrun
        exact ⟨fun _ ha => absurd ha (by simp [arrivedItems, Commits.items,
          arrivals]), hp⟩
      · rintro ⟨_, hp⟩
        exact ⟨e, rfl, h, hp⟩
  | cons m msgs ih =>
      intro e hrows hhere hentries h
      rw [arrivedItems_cons] at hentries ⊢
      have hfirst : HaveEntries (e.index tableid n).fieldtype
          (m.indices.map fun x => (m.subtransactionid, x)) :=
        fun x hx => hentries x (List.mem_append_left _ hx)
      obtain ⟨hnil, hindex⟩ := applyIndices_spec (hhere m List.mem_cons_self)
        hfirst h
      have hrest : ReplicaEngine.backgrounded (ReplicaEngine.ackApply m
            (ReplicaEngine.applyIndices m m.indices e)) = [] → _ :=
        fun hempty => ih (e := ReplicaEngine.ackApply m
            (ReplicaEngine.applyIndices m m.indices e))
          (fun q hq => hrows q (List.mem_cons_of_mem m hq))
          (fun q hq => hhere q (List.mem_cons_of_mem m hq))
          (by
            rw [backgrounded_ackApply] at hempty
            rw [index_ackApply, hindex hempty, replay_fieldtype]
            exact fun x hx => hentries x (List.mem_append_right _ hx)) hempty
      rw [index_ackApply, backgrounded_ackApply] at hrest
      rw [arrivals_append, replay_append, List.forall_mem_append]
      constructor
      · rintro ⟨e', hrun, haside, hp⟩
        obtain ⟨e₁, h1, h2⟩ := run_cons.mp hrun
        obtain rfl := apply_indices (hrows m List.mem_cons_self) h1
        have hempty : (ReplicaEngine.applyIndices m m.indices
            e).backgrounded = [] := by
          by_contra hne
          refine run_ne_nil (fun q hq => hrows q (List.mem_cons_of_mem m hq))
            ?_ h2 haside
          rw [backgrounded_ackApply]
          exact hne
        have hend := (hrest hempty).mp ⟨e', h2, haside, hp⟩
        rw [hindex hempty] at hend
        exact ⟨⟨hnil.mp hempty, hend.1⟩, hend.2⟩
      · rintro ⟨⟨htime, htime'⟩, hp⟩
        have hempty := hnil.mpr htime
        rw [hindex hempty] at hrest
        obtain ⟨e', hrun, hend⟩ := (hrest hempty).mpr ⟨htime', hp⟩
        refine ⟨e', run_cons.mpr ⟨_, ?_, hrun⟩, hend⟩
        rw [ReplicaEngine.apply, hrows m List.mem_cons_self,
          ReplicaEngine.applyRows, Option.bind_some]
        exact retry_nil ((backgrounded_ackApply _ _).trans hempty)

/-! ## The orders that are followed -/

/-- The index that an engine of a new database has of a field. -/
def newIndex (schema : Int → List Field) (tableid : Int) (n : Nat) :
    ReplicaIndex :=
  (ReplicaEngine.new schema).index tableid n

theorem held_makeindex (indextype : Indextype) (fieldtype : Fieldtype)
    (y : IndexEntry) : held (.makeindex indextype fieldtype) y = 0 := by
  obtain ⟨slot, rowid, engineid⟩ := y
  cases slot with
  | null => rfl
  | key k =>
      cases hunique : indextype.isunique <;>
        simp [held, ReplicaIndex.makeindex, hunique]

theorem held_newIndex (schema : Int → List Field) (tableid : Int) (n : Nat)
    (y : IndexEntry) : held (newIndex schema tableid n) y = 0 :=
  held_makeindex _ _ y

/-- Where nothing is ignored, it cancels out. -/
theorem balanced_of_none_ignored {i : ReplicaIndex}
    {xs : List (Int × ApplyIndex)}
    (h : ∀ a ∈ arrivals i xs, Ignored a.1 a.2.2 = false) (y : IndexEntry) :
    ignoredAdds i xs y = ignoredRemovals i xs y := by
  have hadds : ignoredAdds i xs y = 0 :=
    List.countP_eq_zero.mpr fun a ha => by simp [h a ha]
  have hremovals : ignoredRemovals i xs y = 0 :=
    List.countP_eq_zero.mpr fun a ha => by simp [h a ha]
  rw [hadds, hremovals]

/-- A table with one field, an integer with a unique index. -/
def uniqueField (_ : Int) : List Field := [⟨.int, 8, .unique⟩]

/-- A row of partition 1 gets a key, or loses it. -/
def keyItem (isadd : Bool) (key : FieldInput) (rowid : Int) : ApplyIndex :=
  ⟨{ value := key }, rowid, 1, isadd, 1, 0⟩

def itemMessage (subtransactionid : Int) (indices : List ApplyIndex) :
    MessageApply :=
  { sourceAddr := ⟨1, 1⟩, subtransactionid := subtransactionid
    applierid := subtransactionid, rows := [], indices := indices }

/-- Row 1 gets the key 7, row 2 the key 8, and row 1 loses its key. -/
def twoKeys : Commits ApplyIndex :=
  [(1, [keyItem true 7 1]), (2, [keyItem true 8 2]), (3, [keyItem false 7 1])]

/-- The key 7 goes from row 1 to row 2. -/
def sameKey : Commits ApplyIndex :=
  [(1, [keyItem true 7 1]), (2, [keyItem false 7 1]), (3, [keyItem true 7 2])]

end Infinisql.Proofs
