import Mathlib.Data.List.Lex
import Mathlib.Order.BooleanAlgebra.Defs
import Infinisql.Lib.Sorted
import Infinisql.Ref.Index
import Infinisql.Ref.AstNodes

/-!
# The searches of an index

The part of `class Index` that `Ref.Index` leaves out: the functions that a
search predicate ends in. Each of them goes over the map of the index, from an
iterator to another, and appends what it finds to `returnEntries`. Here that is
its value, and there is none when an iterator runs off the map.

The source writes each search once for each key type and map kind. The copies
are not all alike, so a search has one definition for each text that there is,
and the overload for a key type is one of these at its own type. `CHAR(x)` and
VARCHAR share an overload, of whose cases not all are alike either.

Of an entry the searches read the row and its engine. A `char` is signed, and a
string compares by its unsigned bytes. `long double` is any type with an order.
-/

namespace Infinisql.Searches

open Infinisql.Ref (Bytes NonLockingIndexEntry trimspace)
open Infinisql.Asts (Operatortype)
open Infinisql.Lib

/-! ## Keys and maps -/

instance byteOrder : LinearOrder UInt8 where
  le_refl := UInt8.le_refl
  le_trans _ _ _ := UInt8.le_trans
  le_antisymm _ _ := UInt8.le_antisymm
  le_total := UInt8.le_total
  lt_iff_le_not_ge a b := by
    rw [UInt8.not_le]
    exact ⟨fun h => ⟨UInt8.le_of_lt h, h⟩, fun h => h.2⟩
  toDecidableLE := inferInstance

instance charOrder : LinearOrder Int8 where
  le_refl := Int8.le_refl
  le_trans _ _ _ := Int8.le_trans
  le_antisymm _ _ := Int8.le_antisymm
  le_total := Int8.le_total
  lt_iff_le_not_ge a b := by
    rw [Int8.not_le]
    exact ⟨fun h => ⟨Int8.le_of_lt h, h⟩, fun h => h.2⟩
  toDecidableLE := inferInstance

/-- `indexEntry_s`. -/
abbrev IndexEntry := NonLockingIndexEntry

/-- The three kinds of map over a key type. -/
inductive IndexMap (κ : Type) [LinearOrder κ]
  | unique (m : OrderedMap κ IndexEntry)
  | nonunique (m : OrderedMultimap κ IndexEntry)
  | unordered (m : Unordered κ IndexEntry)

/-- The key types of an index. -/
inductive Keytype
  | int
  | uint
  | bool
  | float
  | char
  | charx
  | varchar
  deriving DecidableEq

/-- The C++ types, `long double` being `φ`. -/
abbrev Keytype.Key (φ : Type) : Keytype → Type
  | .int => ℤ
  | .uint => ℕ
  | .bool => Bool
  | .float => φ
  | .char => Int8
  | .charx | .varchar => Bytes

instance Keytype.order (φ : Type) [order : LinearOrder φ] :
    ∀ t : Keytype, LinearOrder (t.Key φ)
  | .int => Int.instLinearOrder
  | .uint => Nat.instLinearOrder
  | .bool => Bool.linearOrder
  | .float => order
  | .char => charOrder
  | .charx | .varchar => List.instLinearOrder

section

variable {κ : Type} [LinearOrder κ]

namespace IndexMap

/-- The pairs, in the order in which they are gone over. -/
def toList : IndexMap κ → List (κ × IndexEntry)
  | unique m => m.toList
  | nonunique m => m.toList
  | unordered m => m.toList

end IndexMap

/-! ## Equality, IN and NOT IN -/

/-- `getequal_f`. -/
def getequalF (m : IndexMap κ) (input : κ) : Option (List IndexEntry) :=
  match m with
  | .unique ⟨xs, _⟩ | .unordered ⟨xs, _⟩ => some (lookup xs input).toList
  | .nonunique ⟨xs, _⟩ =>
      let itRange := equalRange xs input
      (scan xs itRange.1 itRange.2).map (List.map Prod.snd)

/-- `getnotnulls`. -/
def getnotnulls (m : IndexMap κ) : Option (List IndexEntry) :=
  (scan m.toList (itBegin m.toList) (itEnd m.toList)).map (List.map Prod.snd)

/-- `getin`, over the overload of `getequal_f`. -/
def getinLoop (equal : κ → Option (List IndexEntry)) :
    List κ → Option (List IndexEntry)
  | [] => some []
  | v :: input =>
      match equal v with
      | none => none
      | some es => (getinLoop equal input).map (es ++ ·)

/-- The inner loop of `getnotin`: whether the key is one of the entries, and
the entries afterwards. A copy may trim each entry that it comes to. -/
def isfound (trim : κ → κ) (key : κ) : List κ → Bool × List κ
  | [] => (false, [])
  | v :: entries =>
      let v := trim v
      if v = key then (true, v :: entries)
      else
        let (found, entries) := isfound trim key entries
        (found, v :: entries)

/-- The outer loop. -/
def getnotinLoop (trim : κ → κ) :
    List κ → List (κ × IndexEntry) → List IndexEntry
  | _, [] => []
  | entries, e :: rest =>
      let (found, entries) := isfound trim e.1 entries
      if found then getnotinLoop trim entries rest
      else e.2 :: getnotinLoop trim entries rest

/-- A case of `getnotin`. -/
def getnotinMap (trim : κ → κ) (m : IndexMap κ) (entries : List κ) :
    Option (List IndexEntry) :=
  (scan m.toList (itBegin m.toList) (itEnd m.toList)).map
    (getnotinLoop trim entries)

/-! ## Comparisons -/

/-- Where the loop begins, and where it ends. With any other operator neither
iterator is assigned. -/
def comparisonRange (op : Operatortype) (xs : List (κ × IndexEntry))
    (input : κ) : Option (ℕ × ℕ) :=
  match op with
  | .lt | .lte => some (itBegin xs, upperBound xs input)
  | .gt | .gte => some (lowerBound xs input, itEnd xs)
  | _ => none

/-- The loop between them. -/
def comparisonLoop (op : Operatortype) (xs : List (κ × IndexEntry))
    (input : κ) : Option (List (κ × IndexEntry)) :=
  (comparisonRange op xs input).bind fun r => scan xs r.1 r.2

/-- What is pushed where an equal key is skipped. -/
def skipEqual (op : Operatortype) (input : κ) (es : List (κ × IndexEntry)) :
    List IndexEntry :=
  (es.filter fun e =>
    decide ¬((op = .gt ∨ op = .lt) ∧ e.1 = input)).map Prod.snd

/-- What is pushed where that has come under the wrong `if`. -/
def pushGreater (op : Operatortype) (input : κ) (es : List (κ × IndexEntry)) :
    List IndexEntry :=
  (es.filter fun e => decide (op = .gt ∧ e.1 ≠ input)).map Prod.snd

/-- `comparison`, for `int64_t`, `long double`, `char` and strings. -/
def comparisonSkip (m : IndexMap κ) (input : κ) (op : Operatortype) :
    Option (List IndexEntry) :=
  match m with
  | .unique ⟨xs, _⟩ | .nonunique ⟨xs, _⟩ =>
      (comparisonLoop op xs input).map (skipEqual op input)
  | .unordered _ => some []

/-- `comparison`, for `uint64_t` and `bool`. -/
def comparisonPush (m : IndexMap κ) (input : κ) (op : Operatortype) :
    Option (List IndexEntry) :=
  match m with
  | .unique ⟨xs, _⟩ =>
      (comparisonLoop op xs input).map fun es =>
        pushGreater op input es ++
          if op = .lte then (lookup xs input).toList else []
  | .nonunique ⟨xs, _⟩ =>
      (comparisonLoop op xs input).bind fun es =>
        if op = .lte then
          let iteratorRange := equalRange xs input
          (scan xs iteratorRange.1 iteratorRange.2).map fun es' =>
            pushGreater op input es ++ es'.map Prod.snd
        else some (pushGreater op input es)
  | .unordered _ => some []

/-! ## BETWEEN -/

/-- `between`, for `int64_t`, `long double`, `char` and strings. -/
def betweenBounds (m : IndexMap κ) (lower upper : κ) :
    Option (List IndexEntry) :=
  match m with
  | .unique ⟨xs, _⟩ =>
      if lower = upper then some (lookup xs lower).toList
      else if upper < lower then some []
      else
        (scan xs (lowerBound xs lower) (lowerBound xs upper)).map fun es =>
          es.map Prod.snd ++ (lookup xs upper).toList
  | .nonunique ⟨xs, _⟩ =>
      if upper < lower then some []
      else
        (scan xs (lowerBound xs lower) (upperBound xs upper)).map fun es =>
          (es.filter fun e => decide (e.1 ≤ upper)).map Prod.snd
  | .unordered _ => some []

/-- `between`, for `uint64_t`. -/
def betweenInside (m : IndexMap κ) (lower upper : κ) :
    Option (List IndexEntry) :=
  match m with
  | .unique ⟨xs, _⟩ =>
      (scan xs (upperBound xs lower) (lowerBound xs upper)).map fun es =>
        (lookup xs lower).toList ++ es.map Prod.snd
  | .nonunique ⟨xs, _⟩ =>
      let itRange := equalRange xs lower
      (scan xs itRange.1 itRange.2).bind fun es =>
        (scan xs (upperBound xs lower) (lowerBound xs upper)).map fun es' =>
          es.map Prod.snd ++ es'.map Prod.snd
  | .unordered _ => some []

end

/-! ## The overloads -/

section

variable {φ : Type} [LinearOrder φ]

/-- What the searches do to a string first. -/
def trimmed : ∀ {t : Keytype}, t.Key φ → t.Key φ
  | .charx, s | .varchar, s => trimspace s
  | .int, k | .uint, k | .bool, k | .float, k | .char, k => k

def getequal {t : Keytype} (m : IndexMap (t.Key φ)) (input : t.Key φ) :
    Option (List IndexEntry) :=
  getequalF m (trimmed input)

def getin {t : Keytype} (m : IndexMap (t.Key φ)) (input : List (t.Key φ)) :
    Option (List IndexEntry) :=
  getinLoop (getequal m) input

/-- `getnotin`. Three of the six cases of the overload for strings trim. -/
def getnotin : ∀ {t : Keytype}, IndexMap (t.Key φ) → List (t.Key φ) →
    Option (List IndexEntry)
  | .int, m, entries => getnotinMap id m entries
  | .uint, m, entries => getnotinMap id m entries
  | .bool, m, entries => getnotinMap id m entries
  | .float, m, entries => getnotinMap id m entries
  | .char, m, entries => getnotinMap id m entries
  | .charx, m, entries =>
      match m with
      | .unique _ => getnotinMap trimspace m entries
      | .unordered _ => getnotinMap id m entries
      | .nonunique _ => getnotinMap trimspace m entries
  | .varchar, m, entries =>
      match m with
      | .unique _ => getnotinMap trimspace m entries
      | .unordered _ => getnotinMap id m entries
      | .nonunique _ => getnotinMap id m entries

def comparison : ∀ {t : Keytype}, IndexMap (t.Key φ) → t.Key φ →
    Operatortype → Option (List IndexEntry)
  | .int, m, input, op => comparisonSkip m input op
  | .uint, m, input, op => comparisonPush m input op
  | .bool, m, input, op => comparisonPush m input op
  | .float, m, input, op => comparisonSkip m input op
  | .char, m, input, op => comparisonSkip m input op
  | .charx, m, input, op => comparisonSkip m (trimspace input) op
  | .varchar, m, input, op => comparisonSkip m (trimspace input) op

def between : ∀ {t : Keytype}, IndexMap (t.Key φ) → t.Key φ → t.Key φ →
    Option (List IndexEntry)
  | .int, m, lower, upper => betweenBounds m lower upper
  | .uint, m, lower, upper => betweenInside m lower upper
  | .bool, _, _, _ => some []
  | .float, m, lower, upper => betweenBounds m lower upper
  | .char, m, lower, upper => betweenBounds m lower upper
  | .charx, m, lower, upper =>
      betweenBounds m (trimspace lower) (trimspace upper)
  | .varchar, m, lower, upper =>
      betweenBounds m (trimspace lower) (trimspace upper)

def notbetween {t : Keytype} (m : IndexMap (t.Key φ)) (lower upper : t.Key φ) :
    Option (List IndexEntry) :=
  match comparison m lower .lt, comparison m upper .gt with
  | some es, some es' => some (es ++ es')
  | _, _ => none

end

end Infinisql.Searches
