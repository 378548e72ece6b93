import Infinisql.Ref.Lexer

/-!
# Texts and their tokens

A text that is put together of lexemes: words, literals, operators, and the
space and the comments between them. Each has its token, if it has one. Nothing
has to be between two lexemes, unless the one would go on with the first
character of the other.

A string is any text in which quotes come in pairs. What the token holds of it
is that text, so a quote that was doubled stays doubled.
-/

namespace Infinisql.Larx

open Infinisql.Ref (Bytes FieldInput)
open Infinisql.Ref.Output (ascii)

inductive Lexeme
  | word (w : Bytes)
  | quoted (w : Bytes)
  | string (w : Bytes)
  | integer (ds : Bytes)
  | float (whole fraction : Bytes)
  | parameter (ds : Bytes)
  | ne
  | gte
  | lte
  | concat
  | char (c : UInt8)
  | space (w : Bytes)
  | comment (w : Bytes)

/-- Every quote stands next to another, from the left. -/
def Paired : Bytes → Bool
  | [] => true
  | [b] => b != 39
  | b :: c :: w => if b = 39 then c == 39 && Paired w else Paired (c :: w)

/-- The pairs that a quoted identifier may hold. -/
def QuotedPairs : Bytes → Bool
  | [] => true
  | [_] => false
  | b :: c :: w => (b == 94 || b == 34) && c == 34 && QuotedPairs w

namespace Lexeme

def text : Lexeme → Bytes
  | word w => w
  | quoted w => 34 :: (w ++ [34])
  | string w => 39 :: (w ++ [39])
  | integer ds => ds
  | float whole fraction => whole ++ 46 :: fraction
  | parameter ds => 58 :: ds
  | ne => ascii "<>"
  | gte => ascii ">="
  | lte => ascii "<="
  | concat => ascii "||"
  | char c => [c]
  | space w => w
  | comment w => 45 :: 45 :: w

def Valid : Lexeme → Prop
  | word w => (∃ b ∈ w.head?, isLetter b = true) ∧ ∀ b ∈ w, isWord b = true
  | quoted w => QuotedPairs w = true
  | string w => Paired w = true
  | integer ds => ds ≠ [] ∧ ∀ b ∈ ds, isDigit b = true
  | float whole fraction => (∀ b ∈ whole, isDigit b = true) ∧
      fraction ≠ [] ∧ ∀ b ∈ fraction, isDigit b = true
  | parameter ds => ds ≠ [] ∧ ∀ b ∈ ds, isDigit b = true
  | char c => c ∈ characters ∧ c ≠ 34 ∧ c ≠ 39
  | space w => w ≠ [] ∧ ∀ b ∈ w, isSpace b = true
  | comment w => ∀ b ∈ w, b ≠ 10
  | _ => True

/-- Behind the lexeme this character could belong to it. -/
def Continues (b : UInt8) : Lexeme → Prop
  | word w => isWord b = true ∨ b = 45 ∧ w.map fold = ascii "end"
  | quoted _ => b = 34 ∨ b = 94
  | string _ => b = 39
  | integer _ => isDigit b = true ∨ b = 46
  | float _ _ => isDigit b = true
  | parameter _ => isDigit b = true
  | char c => c = 45 ∧ b = 45 ∨ c = 46 ∧ isDigit b = true ∨
      c = 58 ∧ isDigit b = true ∨ c = 60 ∧ (b = 61 ∨ b = 62) ∨
      c = 62 ∧ b = 61 ∨ c = 124 ∧ b = 124
  | space _ => isSpace b = true
  | comment _ => b ≠ 10
  | _ => False

/-- A keyword in any spelling, or an identifier. -/
def wordToken (w : Bytes) : Token :=
  match keywordTable.find? fun k => w.map fold == (ascii k.1).map fold with
  | some k => k.2
  | none => .identifier w

def token (strtold : Bytes → FieldInput) : Lexeme → Option Token
  | word w => some (wordToken w)
  | quoted w => some (.identifier w)
  | string w => some (.stringval w)
  | integer ds => some (.intval (atol ds))
  | float whole fraction => some (.floatval (strtold (whole ++ 46 :: fraction)))
  | parameter ds => some (.parameter (atol ds))
  | ne => some .ne
  | gte => some .gte
  | lte => some .lte
  | concat => some .concat
  | char c => some (.char c)
  | space _ => none
  | comment _ => none

end Lexeme

/-- No lexeme goes on with what stands behind it. -/
def Apart : List Lexeme → Prop
  | [] => True
  | l :: ls => (∀ b ∈ (ls.flatMap Lexeme.text).head?, ¬ l.Continues b) ∧
      Apart ls

end Infinisql.Larx
