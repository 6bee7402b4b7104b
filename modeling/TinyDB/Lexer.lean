import TinyDB.Value
import TinyDB.Lib.Decimal

/-!
# The lexer

`parser/lexer.py`. What `str` says of a character outside ASCII is in the tables of
the interpreter, so `Python` carries them, together with its two limits.
-/

namespace TinyDB

open Lib

/-- The interpreter that runs the parser: the tables behind the methods of `str`, the
digits that `int` reads at most, 0 for no limit, and the frames left on the stack. -/
structure Python where
  isalpha : Char → Bool
  isdigit : Char → Bool
  isnumeric : Char → Bool
  decimal : Char → Option (Fin 10)
  upper : Char → List Char
  isprintable : Char → Bool
  intMaxStrDigits : Nat
  frames : Nat
  ascii : ∀ c, c.toNat < 128 → isalpha c = c.isAlpha ∧ isdigit c = c.isDigit ∧
    isnumeric c = c.isDigit ∧ (decimal c).isSome = c.isDigit
  upper_capital : ∀ c, c.isUpper = true → upper c = [c]

namespace Python

def isalnum (py : Python) (c : Char) : Bool :=
  py.isalpha c || (py.decimal c).isSome || py.isdigit c || py.isnumeric c

/-- `text.upper()`. -/
def upperText (py : Python) (text : String) : String :=
  String.ofList (text.toList.flatMap py.upper)

def hexDigits (width n : Nat) : List Char := Binary64.padLeft width (Nat.toDigits 16 n)

def reprChar (py : Python) (quote c : Char) : List Char :=
  if c = quote ∨ c = '\\' then ['\\', c]
  else if c = '\t' then ['\\', 't']
  else if c = '\n' then ['\\', 'n']
  else if c = '\r' then ['\\', 'r']
  else if c.toNat < 32 ∨ c.toNat = 127 then '\\' :: 'x' :: hexDigits 2 c.toNat
  else if c.toNat < 127 ∨ py.isprintable c then [c]
  else if c.toNat < 256 then '\\' :: 'x' :: hexDigits 2 c.toNat
  else if c.toNat < 65536 then '\\' :: 'u' :: hexDigits 4 c.toNat
  else '\\' :: 'U' :: hexDigits 8 c.toNat

/-- `repr(text)`: in single quotes, unless only those occur in it. -/
def repr (py : Python) (text : String) : String :=
  let chars := text.toList
  let quote := if chars.contains '\'' && !chars.contains '"' then '"' else '\''
  String.ofList (quote :: chars.flatMap (py.reprChar quote) ++ [quote])

end Python

/-! ## Tokens -/

inductive TokenType where
  | keyword
  | ident
  | number
  | string
  | operator
  | punct
  | eof
  deriving DecidableEq, Repr

/-- `str(TokenType.X)`. -/
def TokenType.str : TokenType → String
  | .keyword => "TokenType.KEYWORD"
  | .ident => "TokenType.IDENT"
  | .number => "TokenType.NUMBER"
  | .string => "TokenType.STRING"
  | .operator => "TokenType.OPERATOR"
  | .punct => "TokenType.PUNCT"
  | .eof => "TokenType.EOF"

structure Token where
  type : TokenType
  value : String
  line : Nat
  column : Nat
  deriving DecidableEq, Repr

def keywords : List String :=
  ["CREATE", "TABLE", "IF", "NOT", "EXISTS", "DROP", "INSERT", "INTO",
   "VALUES", "SELECT", "FROM", "WHERE", "ORDER", "BY", "ASC", "DESC",
   "LIMIT", "OFFSET", "GROUP", "UPDATE", "SET", "DELETE", "AND", "OR",
   "NULL", "IS", "IN", "BETWEEN", "TRUE", "FALSE", "PRIMARY", "KEY",
   "UNIQUE", "CHECKPOINT", "BEGIN", "TRANSACTION", "COMMIT", "END",
   "ROLLBACK", "INT", "FLOAT", "TEXT", "BOOL", "INTEGER", "REAL",
   "VARCHAR", "BOOLEAN", "AVG", "SUM", "COUNT", "AS", "JOIN", "ON",
   "LEFT", "RIGHT", "INNER", "OUTER", "CROSS", "NULLS", "FIRST", "LAST",
   "EXPLAIN"]

def singleCharPunct : List Char := ['(', ')', ',', ';', '*', '.']

def operatorPatterns : List String := ["<>", "<=", ">=", "=", "<", ">"]

/-! ## `tokenize` -/

/-- The text after the opening quote of a literal: its value, what follows the closing
quote or the end of the text, and the position there. -/
def scanString : List Char → Nat → Nat → List Char × List Char × Nat × Nat
  | [], line, column => ([], [], line, column)
  | c :: cs, line, column =>
    if c = '\'' then
      match cs with
      | [] => ([], [], line, column + 1)
      | d :: ds =>
        if d = '\'' then
          let (parts, rest) := scanString ds line (column + 2)
          ('\'' :: parts, rest)
        else ([], d :: ds, line, column + 1)
    else
      let (parts, rest) :=
        if c = '\n' then scanString cs (line + 1) 1 else scanString cs line (column + 1)
      (c :: parts, rest)

/-- One turn of the loop on the text `c :: cs`: the token, if it made one, the text that is
left, and the position there. -/
def scanToken (py : Python) (c : Char) (cs : List Char) (line column : Nat) :
    Except PyErr (Option Token × List Char × Nat × Nat) :=
  if c = ' ' ∨ c = '\t' ∨ c = '\r' ∨ c = '\n' then
    .ok (none, cs, if c = '\n' then (line + 1, 1) else (line, column + 1))
  else if c = '-' ∧ cs.head? = some '-' then
    .ok (none, (c :: cs).dropWhile (· ≠ '\n'), line, column)
  else if c = '\'' then
    let (parts, rest, line, next) := scanString cs line (column + 1)
    .ok (some ⟨.string, String.ofList parts, line, column⟩, rest, line, next)
  else if py.isdigit c || c = '.' && (cs.head?.map py.isdigit).getD false then
    let text := (c :: cs).takeWhile fun d => py.isdigit d || d = '.'
    .ok (some ⟨.number, String.ofList text, line, column⟩,
      (c :: cs).dropWhile (fun d => py.isdigit d || d = '.'), line, column + text.length)
  else if py.isalpha c || c = '_' then
    let text := (c :: cs).takeWhile fun d => py.isalnum d || d = '_'
    let word := py.upperText (String.ofList text)
    .ok (some (if keywords.contains word then ⟨.keyword, word, line, column⟩
        else ⟨.ident, String.ofList text, line, column⟩),
      (c :: cs).dropWhile (fun d => py.isalnum d || d = '_'), line, column + text.length)
  else
    match operatorPatterns.find? fun op => op.toList.isPrefixOf (c :: cs) with
    | some op =>
      .ok (some ⟨.operator, op, line, column⟩, (c :: cs).drop op.length, line,
        column + op.length)
    | none =>
      if singleCharPunct.contains c then
        .ok (some ⟨.punct, String.ofList [c], line, column⟩, cs, line, column + 1)
      else
        .error (.parseError ("unexpected character " ++ py.repr (String.ofList [c])) line column)

/-- The loop of `tokenize`; each turn takes at least one character. -/
def tokenizeFrom (py : Python) : Nat → List Char → Nat → Nat → Except PyErr (List Token)
  | _, [], line, column => .ok [⟨.eof, "", line, column⟩]
  | 0, _ :: _, _, _ => .error (.runtimeError "out of fuel")
  | fuel + 1, c :: cs, line, column => do
    let (token, rest, line, column) ← scanToken py c cs line column
    let tokens ← tokenizeFrom py fuel rest line column
    .ok (token.toList ++ tokens)

def tokenize (py : Python) (sql : String) : Except PyErr (List Token) :=
  tokenizeFrom py sql.toList.length sql.toList 1 1

end TinyDB
