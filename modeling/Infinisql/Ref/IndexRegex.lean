import Infinisql.Ref.IndexSearch

/-!
# LIKE, and regular expressions over an index

A LIKE pattern is rewritten to a regular expression, byte by byte, and every key
that the expression matches from end to end is taken. An ordered map is gone
over between two iterators only, which `getIterators` takes from the bytes that
the expression begins with. Where it leaves them unassigned, or looks for the
last byte of an empty string, there is no result.

`pcrecpp::RE(regexStr).FullMatch(key)` is a parameter. Of several equal keys
`find` takes the first. A `char` is signed, and as such it is compared to 255.
-/

namespace Infinisql.Searches

open Infinisql.Ref (Bytes trimspace)
open Infinisql.Lib

/-! ## The rewriting -/

def percent : UInt8 := 37

def underscore : UInt8 := 95

def dot : UInt8 := 46

def asterisk : UInt8 := 42

def caret : UInt8 := 94

/-- A loop that replaces the first `c` that there is until there is none. What
is inserted contains none, so the next one is behind it. -/
def replaceEach (c : UInt8) (inserted : Bytes) : Bytes → Bytes
  | [] => []
  | b :: likeStr =>
      if b = c then inserted ++ replaceEach c inserted likeStr
      else b :: replaceEach c inserted likeStr

/-- `like2Regex`. -/
def like2Regex (likeStr : Bytes) : Bytes :=
  replaceEach percent [dot, asterisk] (replaceEach underscore [dot] likeStr)

/-! ## The search -/

/-- The characters that `find_first_of` is given: ``[\^$.|?*+()``. -/
def metacharacters : Bytes := [91, 92, 94, 36, 46, 124, 63, 42, 43, 40, 41]

/-- Without a `^` at the beginning. -/
def eraseCaret : Bytes → Bytes
  | [] => []
  | c :: tmpStr => if c = caret then tmpStr else c :: tmpStr

/-- `find_first_of` of these. -/
def firstMeta (tmpStr : Bytes) : Option ℕ :=
  tmpStr.findIdx? fun c => decide (c ∈ metacharacters)

/-- `beginStr(tmpStr, 0, std::min(n, regexStr->size()))`. -/
def beginStr (regexStr : Bytes) : Bytes :=
  match firstMeta (eraseCaret regexStr) with
  | none => (eraseCaret regexStr).take regexStr.length
  | some n => (eraseCaret regexStr).take (min n regexStr.length)

/-- `endStr`. -/
def endStr (beginStr : Bytes) (last : UInt8) : Bytes :=
  if last.toInt8.toInt = 255 then beginStr ++ [1]
  else beginStr.dropLast ++ [last + 1]

/-- `getIterators`. -/
def getIterators (regexStr : Bytes) (xs : List (Bytes × IndexEntry)) :
    Option (ℕ × ℕ) :=
  if regexStr.length = 0 then none
  else if firstMeta (eraseCaret regexStr) = some 0 then
    some (itBegin xs, itEnd xs)
  else
    match (beginStr regexStr).getLast? with
    | none => none
    | some last =>
        let first := find xs (beginStr regexStr)
        some (if first = itEnd xs then upperBound xs (beginStr regexStr)
            else first,
          lowerBound xs (endStr (beginStr regexStr) last))

/-- The entries that the loop pushes. -/
def matching (fullMatch : Bytes → Bytes → Bool) (regexStr : Bytes)
    (es : List (Bytes × IndexEntry)) : List IndexEntry :=
  (es.filter fun e => fullMatch regexStr e.1).map Prod.snd

/-- `regex`. -/
def regex (fullMatch : Bytes → Bytes → Bool) (m : IndexMap Bytes)
    (regexStr : Bytes) : Option (List IndexEntry) :=
  match m with
  | .unique ⟨xs, _⟩ | .nonunique ⟨xs, _⟩ =>
      (getIterators regexStr xs).bind fun r =>
        (scan xs r.1 r.2).map (matching fullMatch regexStr)
  | .unordered ⟨xs, _⟩ =>
      (scan xs (itBegin xs) (itEnd xs)).map (matching fullMatch regexStr)

/-- `like`. -/
def like (fullMatch : Bytes → Bytes → Bool) (m : IndexMap Bytes)
    (likeStr : Bytes) : Option (List IndexEntry) :=
  regex fullMatch m (like2Regex (trimspace likeStr))

/-- `^((?!` -/
def withoutBegin : Bytes := [94, 40, 40, 63, 33]

/-- `).)*$` -/
def withoutEnd : Bytes := [41, 46, 41, 42, 36]

/-- `notlike`. -/
def notlike (fullMatch : Bytes → Bytes → Bool) (m : IndexMap Bytes)
    (likeStr : Bytes) : Option (List IndexEntry) :=
  regex fullMatch m
    (withoutBegin ++ like2Regex (trimspace likeStr) ++ withoutEnd)

end Infinisql.Searches
