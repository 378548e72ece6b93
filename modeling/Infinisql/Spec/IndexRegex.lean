import Infinisql.Lib.Regex
import Infinisql.Ref.IndexRegex
import Infinisql.Spec.IndexSearch

/-!
# What LIKE is to find

A LIKE pattern is a list of pieces: `%` stands for any string, `_` for any
character, and every other character for itself. As a regular expression the
same pieces are `.*`, `.` and the characters, and the difference is that those
read no newline.

Of the matcher it is assumed what the documentation says of two kinds of
expression: of sequences of such pieces, and of a sequence in `^((?!…).)*$`.
For any other expression nothing is assumed of it.
-/

namespace Infinisql.Searches

open Infinisql.Ref (Bytes trimspace)
open Infinisql.Lib

/-! ## Patterns -/

inductive Piece
  | char (c : UInt8)
  | one
  | many
  deriving DecidableEq

def piece (c : UInt8) : Piece :=
  if c = percent then .many else if c = underscore then .one else .char c

/-- The pieces read the string, if the wildcards may stand for such
characters. -/
def reads (wild : UInt8 → Bool) : List Piece → Bytes → Bool
  | [], s => s.isEmpty
  | .char c :: ps, s =>
      match s with
      | [] => false
      | b :: s => decide (b = c) && reads wild ps s
  | .one :: ps, s =>
      match s with
      | [] => false
      | b :: s => wild b && reads wild ps s
  | .many :: ps, s =>
      (List.range (s.length + 1)).any fun n =>
        (s.take n).all wild && reads wild ps (s.drop n)

/-- SQL's `key LIKE pattern`. -/
def Like (pattern key : Bytes) : Prop :=
  reads (fun _ => true) (pattern.map piece) key = true

def newline : UInt8 := 10

/-- The same with no wildcard standing for a newline. -/
def LikeInLine (pattern key : Bytes) : Prop :=
  reads (· != newline) (pattern.map piece) key = true

/-- The pattern matches from some character of the key on. -/
def LikeInside (pattern key : Bytes) : Prop :=
  ∃ a b x y, key = a ++ b ∧ b ≠ [] ∧ b = x ++ y ∧ LikeInLine pattern x

instance (pattern key : Bytes) : Decidable (Like pattern key) :=
  inferInstanceAs (Decidable (_ = true))

instance (pattern key : Bytes) : Decidable (LikeInLine pattern key) :=
  inferInstanceAs (Decidable (_ = true))

/-! ## The matcher -/

/-- A character that stands for itself in a regular expression. That is none of
those that begin a construct, and not the end of a C string. -/
def Plain (c : UInt8) : Prop := c ∉ 0 :: 123 :: metacharacters

instance (c : UInt8) : Decidable (Plain c) :=
  inferInstanceAs (Decidable (c ∉ _))

namespace Piece

def Plain : Piece → Prop
  | char c => Searches.Plain c
  | one | many => True

/-- As a regular expression. -/
def toRegex : Piece → Regex UInt8
  | char c => .char c
  | one => .any
  | many => .star .any

/-- As the text of one. -/
def text : Piece → Bytes
  | char c => [c]
  | one => [dot]
  | many => [dot, asterisk]

end Piece

/-- A sequence. -/
def toRegex (ps : List Piece) : Regex UInt8 :=
  ps.foldr (fun p r => .cat p.toRegex r) .empty

def text (ps : List Piece) : Bytes := ps.flatMap Piece.text

/-- What `FullMatch` is documented to do with the two kinds of expression. -/
structure Standard (fullMatch : Bytes → Bytes → Bool) : Prop where
  sequence : ∀ ps : List Piece, (∀ p ∈ ps, p.Plain) → ∀ key,
    fullMatch (text ps) key = true ↔ (toRegex ps).FullMatch newline key
  without : ∀ ps : List Piece, (∀ p ∈ ps, p.Plain) → ∀ key,
    fullMatch (withoutBegin ++ text ps ++ withoutEnd) key = true ↔
      (toRegex ps).lineWithout.FullMatch newline key

/-! ## Pruning -/

/-- The literal beginning of a regular expression. -/
def stem (regexStr : Bytes) : Bytes :=
  (eraseCaret regexStr).takeWhile fun c => decide (c ∉ metacharacters)

/-- With the last byte gone over to 0. -/
def wrapped (s : Bytes) : Bytes := s.dropLast ++ [0]

/-- Between its iterators, the search of an ordered map finds what there is. -/
def PruningLossless (fullMatch : Bytes → Bytes → Bool) (m : IndexMap Bytes)
    (regexStr : Bytes) : Prop :=
  Appends (regex fullMatch m regexStr)
    (m.selected fun key => fullMatch regexStr key = true)

/-- There is an expression. If it begins with a character, no key is matched
that begins otherwise. If the last such character is 255, no key is matched at
all, and none lies before the beginning and not before what it is turned
into. -/
structure PruningSound (fullMatch : Bytes → Bytes → Bool) (m : IndexMap Bytes)
    (regexStr : Bytes) : Prop where
  nonempty : eraseCaret regexStr ≠ []
  beginning : (stem regexStr).getLast? ≠ some 255 → ¬ m.HasKey fun key =>
    fullMatch regexStr key = true ∧ ¬ stem regexStr <+: key
  last : (stem regexStr).getLast? = some 255 → ¬ m.HasKey fun key =>
    fullMatch regexStr key = true ∨
      wrapped (stem regexStr) ≤ key ∧ key < stem regexStr

/-! ## LIKE -/

/-- A map of the same kind with the same keys. -/
def SameKeys (m m' : IndexMap Bytes) : Prop :=
  (m.IsOrdered ↔ m'.IsOrdered) ∧
    m.toList.map Prod.fst = m'.toList.map Prod.fst

/-- Whatever entries the keys have, LIKE takes those of the keys that match the
pattern. -/
def LikeMeans (fullMatch : Bytes → Bytes → Bool) (m : IndexMap Bytes)
    (pattern : Bytes) : Prop :=
  ∀ m', SameKeys m m' → Appends (like fullMatch m' pattern)
    (m'.selected (Like (trimspace pattern)))

/-- Every character stands for itself in a regular expression too, or is a
wildcard. -/
def PlainPattern (pattern : Bytes) : Prop := ∀ c ∈ pattern, Plain c

/-- What a pattern begins with, up to the first character that is taken for
more than itself. -/
def likeStem (pattern : Bytes) : Bytes :=
  (eraseCaret pattern).takeWhile fun c =>
    decide (c ∉ percent :: underscore :: metacharacters)

/-- The last byte of it is 255. -/
def EndsHigh (pattern : Bytes) : Prop :=
  (likeStem pattern).getLast? = some 255

/-- For an ordered map there is a pattern, not counting a `^` that it begins
with. If the last byte before the first wildcard is 255, there is nothing to be
found, and no key where the search would run off the map. No wildcard has to
stand for a newline. If some character does not stand for itself, the
expression that it is part of matches the same keys nevertheless. -/
structure LikeSound (fullMatch : Bytes → Bytes → Bool) (m : IndexMap Bytes)
    (pattern : Bytes) : Prop where
  nonempty : m.IsOrdered → eraseCaret pattern ≠ []
  last : m.IsOrdered → EndsHigh pattern → ¬ m.HasKey fun key =>
    Like pattern key ∨
      wrapped (likeStem pattern) ≤ key ∧ key < likeStem pattern
  newline : PlainPattern pattern → ¬ m.HasKey fun key =>
    Like pattern key ∧ ¬ LikeInLine pattern key
  expression : ¬ PlainPattern pattern → ¬ (m.IsOrdered ∧ EndsHigh pattern) →
    ¬ m.HasKey fun key => ¬ (Like pattern key ↔
      fullMatch (like2Regex pattern) key = true ∧
        (m.IsOrdered → likeStem pattern <+: key))

/-! ## NOT LIKE -/

/-- Whatever entries the keys have, some of the keys go to LIKE and the others
to NOT LIKE, and together their entries are those of all keys. -/
def LikePartitions (fullMatch : Bytes → Bytes → Bool) (m : IndexMap Bytes)
    (pattern : Bytes) : Prop :=
  ∀ m', SameKeys m m' → ∃ likes others all,
    like fullMatch m' pattern = some likes ∧
    notlike fullMatch m' pattern = some others ∧ getnotnulls m' = some all ∧
    (likes ++ others).Perm all ∧
    ∃ keys : Bytes → Bool, likes.Perm (m'.selected fun k => keys k = true) ∧
      others.Perm (m'.selected fun k => keys k = false)

/-- Letters, digits, `%` and `_`. -/
def IsWord (pattern : Bytes) : Prop :=
  ∀ c ∈ pattern, 48 ≤ c ∧ c ≤ 57 ∨ 65 ≤ c ∧ c ≤ 90 ∨ 97 ≤ c ∧ c ≤ 122 ∨
    c = percent ∨ c = underscore

/-- For an ordered map the pattern is not empty. A key that has a newline, or
that the pattern matches from some character on, is matched by the pattern, and
the empty key is not. -/
structure NotLikeSound (m : IndexMap Bytes) (pattern : Bytes) : Prop where
  nonempty : m.IsOrdered → pattern ≠ []
  inside : ¬ m.HasKey fun key =>
    (newline ∈ key ∨ LikeInside pattern key) ∧ ¬ LikeInLine pattern key
  empty : ¬ m.HasKey fun key => key = [] ∧ LikeInLine pattern key

end Infinisql.Searches
