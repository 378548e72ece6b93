import Infinisql.Spec.Lexer
import Infinisql.Spec.Parser
import Mathlib.Data.Nat.Digits.Defs

/-!
# Tokens as they are written

A lexeme for every token: keywords in capitals, numbers in decimal, and a space
behind each of them. Some tokens have none. A number is below `2 ^ 63`, in a
string quotes stand in pairs, and what a keyword is cannot be a name. How a
number with a point is written is left open.
-/

namespace Infinisql.Larx

open Infinisql.Ref (Bytes FieldInput)
open Infinisql.Ref.Output (ascii)

def Keyword.text : Keyword → String
  | .larxAll => "ALL"
  | .larxAnd => "AND"
  | .larxAsc => "ASC"
  | .larxAvg => "AVG"
  | .larxBetween => "BETWEEN"
  | .larxBy => "BY"
  | .larxCount => "COUNT"
  | .larxDelete => "DELETE"
  | .larxDesc => "DESC"
  | .larxDistinct => "DISTINCT"
  | .larxExists => "EXISTS"
  | .larxFalse => "FALSE"
  | .larxFor => "FOR"
  | .larxFrom => "FROM"
  | .larxGroup => "GROUP"
  | .larxHaving => "HAVING"
  | .larxIn => "IN"
  | .larxInsert => "INSERT"
  | .larxInto => "INTO"
  | .larxIs => "IS"
  | .larxLike => "LIKE"
  | .larxMax => "MAX"
  | .larxMin => "MIN"
  | .larxNo => "NO"
  | .larxNot => "NOT"
  | .larxNull => "NULL"
  | .larxOr => "OR"
  | .larxOrder => "ORDER"
  | .larxSelect => "SELECT"
  | .larxSet => "SET"
  | .larxSum => "SUM"
  | .larxTrue => "TRUE"
  | .larxUnique => "UNIQUE"
  | .larxUnknown => "UNKNOWN"
  | .larxUpdate => "UPDATE"
  | .larxValues => "VALUES"
  | .larxWhere => "WHERE"
  | .larxLock => "LOCK"

def decimalDigits (n : ℕ) : Bytes :=
  if n = 0 then [48]
  else (Nat.digits 10 n).reverse.map fun d => 48 + UInt8.ofNat d

namespace Token

/-- How the token is written, with the digits of a number before and behind its
point. -/
def lexeme (decimal : FieldInput → Bytes × Bytes) : Token → Lexeme
  | keyword k => .word (ascii k.text)
  | reserved w => .word w
  | stringval s => .string s
  | identifier s => if QuotedPairs s then .quoted s else .word s
  | parameter n => .parameter (decimalDigits n.toNat)
  | intval n => .integer (decimalDigits n.toNat)
  | floatval v => .float (decimal v).1 (decimal v).2
  | ne => .ne
  | gte => .gte
  | lte => .lte
  | concat => .concat
  | char c => .char c

def Writable (strtold : Bytes → FieldInput)
    (decimal : FieldInput → Bytes × Bytes) : Token → Prop
  | keyword _ => True
  | reserved w => (Lexeme.word w).Valid ∧ Lexeme.wordToken w = .reserved w
  | stringval s => Paired s = true
  | identifier s => QuotedPairs s = true ∨
      (Lexeme.word s).Valid ∧ Lexeme.wordToken s = .identifier s
  | parameter n => n.msb = false
  | intval n => n.msb = false
  | floatval v => (Lexeme.float (decimal v).1 (decimal v).2).Valid ∧
      strtold ((decimal v).1 ++ 46 :: (decimal v).2) = v
  | char c => (Lexeme.char c).Valid
  | _ => True

end Token

/-- The text of the tokens. -/
def written (decimal : FieldInput → Bytes × Bytes) (ts : List Token) : Bytes :=
  ts.flatMap fun t => (t.lexeme decimal).text ++ [32]

end Infinisql.Larx
