import Infinisql.Lib.Lexing
import Infinisql.Ref.PgOutput

/-!
# The tokens of a statement

The rules of `lexer.ll`, in its order: the keywords first, so that an
identifier is none of them. The scanner takes the longest match, and letters
match in either case.

A keyword that no rule for a SELECT, INSERT, UPDATE or DELETE mentions is a
token all the same, and no identifier; what it is called is all that is kept of
it. The quotes of a string are taken off its ends and nothing else is done to
it. In the pattern for a quoted identifier `^` stands for itself.
-/

namespace Infinisql.Larx

open Infinisql.Ref (Bytes FieldInput)
open Infinisql.Ref.Output (ascii)
open Infinisql.Lib

/-- The keywords in the rules for statements on rows. -/
inductive Keyword
  | larxAll | larxAnd | larxAsc | larxAvg
  | larxBetween | larxBy | larxCount | larxDelete
  | larxDesc | larxDistinct | larxExists | larxFalse
  | larxFor | larxFrom | larxGroup | larxHaving
  | larxIn | larxInsert | larxInto | larxIs
  | larxLike | larxMax | larxMin | larxNo
  | larxNot | larxNull | larxOr | larxOrder
  | larxSelect | larxSet | larxSum | larxTrue
  | larxUnique | larxUnknown | larxUpdate | larxValues
  | larxWhere | larxLock
  deriving DecidableEq

inductive Token
  | keyword (k : Keyword)
  | reserved (word : Bytes)
  | stringval (s : Bytes)
  | identifier (s : Bytes)
  | parameter (n : BitVec 64)
  | intval (n : BitVec 64)
  | floatval (v : FieldInput)
  | ne
  | gte
  | lte
  | concat
  | char (c : UInt8)
  deriving DecidableEq

/-! ## Patterns -/

def isDigit (b : UInt8) : Bool := 48 ≤ b && b ≤ 57

/-- A letter in its lower case. -/
def fold (b : UInt8) : UInt8 := if 65 ≤ b && b ≤ 90 then b + 32 else b

def isLetter (b : UInt8) : Bool := 97 ≤ fold b && fold b ≤ 122

/-- `[a-zA-Z0-9_]` -/
def isWord (b : UInt8) : Bool := isLetter b || isDigit b || b == 95

/-- `[ \t\n\r]` -/
def isSpace (b : UInt8) : Bool := b == 32 || b == 9 || b == 10 || b == 13

/-- The characters of a text, in either case. -/
def text (s : Bytes) : Pattern UInt8 :=
  .each (s.map fun c b => fold b == fold c)

def chr (c : UInt8) : Pattern UInt8 := .one (· == c)

/-- `"--".*` -/
def commentPattern : Pattern UInt8 :=
  .cat (chr 45) (.cat (chr 45) (.star (.one (· != 10))))

/-- `(''|[^'])*` -/
def stringBody : Pattern UInt8 :=
  .star (.alt (.cat (chr 39) (chr 39)) (.one (· != 39)))

/-- `'(''|[^'])*'` -/
def stringPattern : Pattern UInt8 :=
  .cat (chr 39) (.cat stringBody (chr 39))

def digits : Pattern UInt8 := .plus (.one isDigit)

/-- `[0-9]*"."[0-9]+` -/
def floatPattern : Pattern UInt8 :=
  .cat (.star (.one isDigit)) (.cat (chr 46) digits)

/-- `[A-Za-z][a-zA-Z0-9_]*` -/
def identifierPattern : Pattern UInt8 :=
  .cat (.one isLetter) (.star (.one isWord))

/-- `(^\"|\"\")*` -/
def quotedBody : Pattern UInt8 :=
  .star (.alt (.cat (chr 94) (chr 34)) (.cat (chr 34) (chr 34)))

/-- `\"(^\"|\"\")*\"` -/
def quotedPattern : Pattern UInt8 :=
  .cat (chr 34) (.cat quotedBody (chr 34))

/-! ## Rules -/

/-- What a rule does with the text that it has matched. -/
inductive Action
  | token (t : Token)
  | comment
  | stringval
  | parameter
  | intval
  | floatval
  | identifier
  | quoted
  | space
  | badCharacter
  deriving DecidableEq

/-- The keywords of other statements, and those that no rule mentions. -/
def reservedWords : List String := [
    "ABSOLUTE", "ACTION", "ADD", "ALLOCATE", "ALTER", "ANY", "ARE", "AS",
    "ASSERTION", "AT", "AUTHORIZATION", "BEGIN", "BIGINT", "BIT", "BIT_LENGTH",
    "BOOLEAN", "BOTH", "CASCADE", "CASCADED", "CASE", "CAST", "CATALOG",
    "CHAR", "CHARACTER", "CHARACTER_LENGTH", "CHAR_LENGTH", "CHECK", "CLOSE",
    "COALESCE", "COLLATE", "COLLATION", "COLUMN", "COMMENTS", "COMMIT",
    "CONNECT", "CONNECTION", "CONSTRAINT", "CONSTRAINTS", "CONTINUE",
    "CONVERT", "CORRESPONDING", "CREATE", "CROSS", "CURRENT", "CURRENT_DATE",
    "CURRENT_TIME", "CURRENT_TIMESTAMP", "CURRENT_USER", "CURSOR", "DATETIME",
    "DATE", "DAY", "DEALLOCATE", "DEC", "DECIMAL", "DECLARE", "DEFAULT",
    "DEFAULTS", "DEFERRABLE", "DEFERRED", "DESCRIBE", "DESCRIPTOR",
    "DIAGNOSTICS", "DISCONNECT", "DOMAIN", "DOUBLE", "DROP", "ELSE",
    "END-EXEC", "ESCAPE", "EXCLUDING", "EXCEPT", "EXCEPTION", "EXEC",
    "EXECUTE", "EXTERNAL", "EXTRACT", "FETCH", "FIRST", "FLOAT", "FOREIGN",
    "FOUND", "FULL", "GET", "GLOBAL", "GO", "GOTO", "GRANT", "HOUR",
    "IDENTITY", "IF", "IMMEDIATE", "INCLUDING", "INDEXES", "INDICATOR",
    "INITIALLY", "INNER", "INPUT", "INSENSITIVE", "INTEGER", "INT",
    "INTERSECT", "INTERVAL", "ISOLATION", "JOIN", "KEY", "LANGUAGE", "LAST",
    "LEADING", "LEFT", "LEVEL", "LOCAL", "LOWER", "MATCH", "MINUTE", "MODULE",
    "MONTH", "NAMES", "NATIONAL", "NATURAL", "NCHAR", "NEXT", "NULLIF",
    "NUMERIC", "OCTET_LENGTH", "OF", "ON", "ONLY", "OPEN", "OPTION", "OUTER",
    "OUTPUT", "OVERLAPS", "PAD", "PARTIAL", "POSITION", "PRECISION", "PREPARE",
    "PRESERVE", "PRIMARY", "PRIOR", "PRIVILEGES", "PROCEDURE", "PUBLIC",
    "READ", "REAL", "REFERENCES", "RELATIVE", "RESTRICT", "REVOKE", "RIGHT",
    "ROLLBACK", "ROWS", "SCHEMA", "SCROLL", "SECOND", "SECTION", "SESSION",
    "SESSION_USER", "SIZE", "SMALLINT", "SOME", "SPACE", "SQL", "SQLCODE",
    "SQLERROR", "SQLSTATE", "STORAGE", "SUBSTRING", "SYSTEM_USER", "TABLE",
    "TEMPORARY", "TEXT", "THEN", "TIME", "TIMESTAMP", "TIMEZONE_HOUR",
    "TIMEZONE_MINUTE", "TO", "TRAILING", "TRANSACTION", "TRANSLATE",
    "TRANSLATION", "TRIM", "UNION", "UPPER", "USAGE", "USER", "USING", "VALUE",
    "VARCHAR", "VARYING", "VIEW", "WHEN", "WHENEVER", "WITH", "WORK", "WRITE",
    "YEAR", "ZONE"]

def keywords : List (String × Keyword) := [
    ("ALL", .larxAll), ("AND", .larxAnd), ("ASC", .larxAsc),
    ("ASCENDING", .larxAsc), ("AVG", .larxAvg), ("BETWEEN", .larxBetween),
    ("BY", .larxBy), ("COUNT", .larxCount), ("DELETE", .larxDelete),
    ("DESC", .larxDesc), ("DESCENDING", .larxDesc),
    ("DISTINCT", .larxDistinct), ("EXISTS", .larxExists),
    ("FALSE", .larxFalse), ("FOR", .larxFor), ("FROM", .larxFrom),
    ("GROUP", .larxGroup), ("HAVING", .larxHaving), ("IN", .larxIn),
    ("INSERT", .larxInsert), ("INTO", .larxInto), ("IS", .larxIs),
    ("LIKE", .larxLike), ("MAX", .larxMax), ("MIN", .larxMin), ("NO", .larxNo),
    ("NOT", .larxNot), ("NULL", .larxNull), ("OR", .larxOr),
    ("ORDER", .larxOrder), ("SELECT", .larxSelect), ("SET", .larxSet),
    ("SUM", .larxSum), ("TRUE", .larxTrue), ("UNIQUE", .larxUnique),
    ("UNKNOWN", .larxUnknown), ("UPDATE", .larxUpdate),
    ("VALUES", .larxValues), ("WHERE", .larxWhere), ("LOCK", .larxLock)]

/-- Those of one character. -/
def characters : Bytes := ascii "$\"%&'()*+,-./:;<>=?_|[]\\"

/-- The keywords, each with its token. No two rules for them match the same
text, so their order is nothing. -/
def keywordTable : List (String × Token) :=
  keywords.map (fun k => (k.1, Token.keyword k.2)) ++
    reservedWords.map (fun k => (k, Token.reserved (ascii k))) ++
    [("END", Token.reserved (ascii "COMMIT"))]

def keywordRules : Rules UInt8 Action :=
  keywordTable.map fun k => (text (ascii k.1), .token k.2)

def literalRules : Rules UInt8 Action :=
  [(commentPattern, .comment), (stringPattern, .stringval),
    (.cat (chr 58) digits, .parameter), (digits, .intval),
    (floatPattern, .floatval), (identifierPattern, .identifier),
    (quotedPattern, .quoted), (text (ascii "<>"), .token .ne),
    (text (ascii ">="), .token .gte), (text (ascii "<="), .token .lte),
    (text (ascii "||"), .token .concat)]

def characterRules : Rules UInt8 Action :=
  characters.map fun c => (chr c, .token (.char c))

/-- All rules. The last is for characters that no other rule matches. -/
def rules : Rules UInt8 Action :=
  keywordRules ++ literalRules ++ characterRules ++
    [(Pattern.plus (.one isSpace), Action.space),
      (Pattern.one (· != 10), Action.badCharacter)]

/-! ## Tokens -/

/-- The number that the digits are. -/
def number (ds : Bytes) : ℕ := ds.foldl (fun n d => 10 * n + (d.toNat - 48)) 0

/-- `atol` of digits, which stops at the greatest number that there is. -/
def atol (ds : Bytes) : BitVec 64 :=
  BitVec.ofNat 64 (min (number ds) (2 ^ 63 - 1))

/-- Without its first and last character. -/
def inner (yytext : Bytes) : Bytes := (yytext.drop 1).dropLast

/-- The token that a rule returns, if it does. -/
def Action.run (strtold : Bytes → FieldInput) (yytext : Bytes) :
    Action → Option Token
  | token t => some t
  | comment => none
  | stringval => some (.stringval (inner yytext))
  | parameter => some (.parameter (atol (yytext.drop 1)))
  | intval => some (.intval (atol yytext))
  | floatval => some (.floatval (strtold yytext))
  | identifier => some (.identifier yytext)
  | quoted => some (.identifier (inner yytext))
  | space => none
  | badCharacter => none

/-- All tokens of a text. -/
def yylex (strtold : Bytes → FieldInput) (instr : Bytes) :
    Option (List Token) :=
  (rules.scan instr.length instr).map fun lexemes =>
    lexemes.filterMap fun lexeme => lexeme.2.run strtold lexeme.1

end Infinisql.Larx
