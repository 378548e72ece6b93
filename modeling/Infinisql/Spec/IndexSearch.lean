import Infinisql.Ref.IndexSearch

/-!
# What a search is to find

A search is a filter: of the pairs in the map it appends the entries of those
whose key is as it should be, each as often as it is there. Trailing spaces of
a string that is searched for do not count.

For each search there follows the condition under which the code's overload for
the key type does so.
-/

namespace Infinisql.Searches

open Infinisql.Ref (Bytes trimspace)
open Infinisql.Asts (Operatortype)
open Infinisql.Lib

variable {κ φ : Type} [LinearOrder κ] [LinearOrder φ]

namespace IndexMap

/-- A `map` or a `multimap`. -/
def IsOrdered : IndexMap κ → Prop
  | unique _ | nonunique _ => True
  | unordered _ => False

/-- The entries whose keys are so. -/
def selected (m : IndexMap κ) (p : κ → Prop) [DecidablePred p] :
    List IndexEntry :=
  (m.toList.filter fun e => decide (p e.1)).map Prod.snd

/-- A key of the map. -/
def HasKey (m : IndexMap κ) (p : κ → Prop) : Prop := ∃ e ∈ m.toList, p e.1

end IndexMap

/-- The search comes to its end, and these are the entries it appends, in some
order. -/
def Appends (search : Option (List IndexEntry)) (entries : List IndexEntry) :
    Prop :=
  ∃ es, search = some es ∧ es.Perm entries

/-! ## Comparisons -/

/-- The four operators of a range. -/
def IsComparison (op : Operatortype) : Prop :=
  op = .lt ∨ op = .lte ∨ op = .gt ∨ op = .gte

/-- `key op input`. -/
def Compares (op : Operatortype) (key input : κ) : Prop :=
  op = .lt ∧ key < input ∨ op = .lte ∧ key ≤ input ∨ op = .gt ∧ input < key ∨
    op = .gte ∧ input ≤ key

instance (op : Operatortype) (key input : κ) :
    Decidable (Compares op key input) :=
  inferInstanceAs (Decidable (_ ∨ _))

def ComparisonFilters {t : Keytype} (m : IndexMap (t.Key φ))
    (input : t.Key φ) (op : Operatortype) : Prop :=
  Appends (comparison m input op)
    (m.selected fun k => Compares op k (trimmed input))

/-- Where the overload pushes only for `>`, what it does not push is not
there. -/
def ComparisonSound {t : Keytype} (m : IndexMap (t.Key φ)) (input : t.Key φ)
    (op : Operatortype) : Prop :=
  t = .uint ∨ t = .bool →
    op = .gt ∨ (op = .lt ∨ op = .lte) ∧ ¬ m.HasKey (· < input) ∨
      op = .gte ∧ ¬ m.HasKey (input ≤ ·)

/-! ## BETWEEN -/

/-- BETWEEN takes what is between the bounds, and NOT BETWEEN the rest, if the
bounds are in order. -/
structure BetweenFilters {t : Keytype} (m : IndexMap (t.Key φ))
    (lower upper : t.Key φ) : Prop where
  between : Appends (between m lower upper)
    (m.selected fun k => trimmed lower ≤ k ∧ k ≤ trimmed upper)
  notbetween : trimmed lower ≤ trimmed upper →
    Appends (notbetween m lower upper)
      (m.selected fun k => k < trimmed lower ∨ trimmed upper < k)

/-- For `uint64_t` the upper bound is no key, or, if it is not above the lower
one, there is no key between the two; for `bool` there is no key between the
bounds. For both, there is none below the lower bound if that is not above the
upper one. -/
structure BetweenSound {t : Keytype} (m : IndexMap (t.Key φ))
    (lower upper : t.Key φ) : Prop where
  above : t = .uint → lower < upper → ¬ m.HasKey (· = upper)
  inverted : t = .uint → upper ≤ lower →
    ¬ m.HasKey fun k => upper ≤ k ∧ k ≤ lower
  bool : t = .bool → ¬ m.HasKey fun k => lower ≤ k ∧ k ≤ upper
  below : t = .uint ∨ t = .bool → lower ≤ upper → ¬ m.HasKey (· < lower)

/-! ## IN and NOT IN -/

/-- No key of the map ends with a space. -/
def Trimmed {t : Keytype} (m : IndexMap (t.Key φ)) : Prop :=
  ∀ e ∈ m.toList, trimmed e.1 = e.1

/-- Some of the keys go to IN and the others to NOT IN, and together their
entries are those of all keys. -/
def InPartitions {t : Keytype} (m : IndexMap (t.Key φ))
    (values : List (t.Key φ)) : Prop :=
  ∃ ins outs all, getin m values = some ins ∧ getnotin m values = some outs ∧
    getnotnulls m = some all ∧ (ins ++ outs).Perm all ∧
    ∃ keys : t.Key φ → Bool, ins.Perm (m.selected fun k => keys k = true) ∧
      outs.Perm (m.selected fun k => keys k = false)

/-- The maps of which `getnotin` takes the values as they are. -/
def Untrimmed {t : Keytype} (m : IndexMap (t.Key φ)) : Prop :=
  match m with
  | .unordered _ => t = .charx ∨ t = .varchar
  | .nonunique _ => t = .varchar
  | .unique _ => False

/-- A value that is a key without its trailing spaces has none. -/
def InSound {t : Keytype} (m : IndexMap (t.Key φ)) (values : List (t.Key φ)) :
    Prop :=
  Untrimmed m → ∀ v ∈ values, m.HasKey (· = trimmed v) → trimmed v = v

end Infinisql.Searches
