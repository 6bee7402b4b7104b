import TinyDB.Ast
import TinyDB.Lexer
import TinyDB.Select
import TinyDB.Lib.Prog

/-!
# The parser

`parser/__init__.py`, `ddl_parser.py`, `dml_parser.py`, `predicate.py`, `join_parser.py`
and `tx_control.py`. A routine of the cycle from `parse_expression` to `parse_primary`
takes the one it calls as an argument; `parseExpression` closes the cycle and spends five
frames on each round, `parseStatement` one on each EXPLAIN. The frames of the token
helpers are not counted.
-/

namespace TinyDB

open Lib

/-! ## What the interpreter is asked for -/

/-- `_parse_number`, `int` and `str`, a call that finds no frame, a loop without end. -/
inductive Question where
  | number (text : String)
  | int (text : String)
  | str (frames : Nat) (arg : Expr)
  | call
  | turn
  deriving DecidableEq

abbrev Question.Answer : Question → Type
  | .number _ => Value
  | .int _ => Nat
  | .str _ _ => String
  | .call => Empty
  | .turn => Empty

structure ParseFailure where
  message : String
  line : Nat
  column : Nat

abbrev P := Prog Token ParseFailure Question.Answer

namespace Python

/-- `int(text)` of a NUMBER, which has no sign, space or underscore. -/
def int (py : Python) (text : String) : Except PyErr Nat :=
  match text.toList.mapM py.decimal with
  | some digits =>
    if py.intMaxStrDigits = 0 ∨ digits.length ≤ py.intMaxStrDigits then
      .ok (digits.foldl (fun n d => 10 * n + d.val) 0)
    else .error .valueError
  | none => .error .valueError

/-- `float(text)`, which takes the decimal digits of every script. -/
def float (py : Python) (text : String) : Except PyErr Binary64 :=
  match floatOfText (text.toList.map fun c =>
    ((py.decimal c).map fun d => Char.ofNat (48 + d.val)).getD c) with
  | some f => .ok f
  | none => .error .valueError

/-- `_parse_number`. -/
def parseNumber (py : Python) (text : String) : Except PyErr Value :=
  if text.toList.contains '.' then (py.float text).map .float
  else (py.int text).map fun n => .int n

def reprValue (py : Python) : Value → String
  | .text s => py.repr s
  | value => String.ofList (strValue value)

def reprTuple (py : Python) : List Value → String
  | [value] => "(" ++ py.reprValue value ++ ",)"
  | values => "(" ++ ", ".intercalate (values.map py.reprValue) ++ ")"

def reprBool (b : Bool) : String := if b then "True" else "False"

end Python

def CompareOp.str : CompareOp → String
  | .eq => "="
  | .ne => "<>"
  | .lt => "<"
  | .le => "<="
  | .gt => ">"
  | .ge => ">="
  | .isNull => "IS NULL"
  | .isNotNull => "IS NOT NULL"

def LogicOp.str : LogicOp → String
  | .and => "AND"
  | .or => "OR"

/-- The `repr` that `dataclass` writes. -/
def Expr.repr (py : Python) : Expr → String
  | .column name => "Column(name=" ++ py.repr name ++ ")"
  | .qualifiedColumn table name =>
    "QualifiedColumn(table=" ++ (table.map py.repr).getD "None" ++ ", name=" ++ py.repr name ++ ")"
  | .star => "Star()"
  | .sqlLiteral value raw =>
    "SqlLiteral(value=" ++ py.reprValue value ++ ", raw=" ++ py.repr raw ++ ")"
  | .binaryOp op left right =>
    "BinaryOp(op=" ++ py.repr op.str ++ ", left=" ++ left.repr py ++ ", right=" ++ right.repr py ++
      ")"
  | .logicalOp op left right =>
    "LogicalOp(op=" ++ py.repr op.str ++ ", left=" ++ left.repr py ++ ", right=" ++
      right.repr py ++ ")"
  | .unaryOp op operand =>
    "UnaryOp(op=" ++ py.repr op ++ ", operand=" ++ operand.repr py ++ ")"
  | .inPredicate expr values negated =>
    "InPredicate(expr=" ++ expr.repr py ++ ", values=" ++ py.reprTuple values ++ ", negated=" ++
      Python.reprBool negated ++ ")"

/-- The frames `repr` takes: two for each node on the way down. -/
def Expr.reprFrames : Expr → Nat
  | .column _ | .qualifiedColumn _ _ | .star | .sqlLiteral _ _ => 2
  | .binaryOp _ left right | .logicalOp _ left right => 2 + max left.reprFrames right.reprFrames
  | .unaryOp _ operand => 2 + operand.reprFrames
  | .inPredicate expr _ _ => 2 + expr.reprFrames

def recursionError : PyErr := .runtimeError "maximum recursion depth exceeded"

def Python.answer (py : Python) : (q : Question) → Except PyErr q.Answer
  | .number text => py.parseNumber text
  | .int text => py.int text
  | .str frames arg =>
    if arg.reprFrames ≤ frames then .ok (arg.repr py) else .error recursionError
  | .call => .error recursionError
  | .turn => .error (.runtimeError "the loop does not end")

/-! ## `_Parser` -/

/-- `_peek`. -/
def current : P Token := .peek .pure

/-- `_advance`. -/
def advance : P Token := .peek fun token => .skip (.pure token)

def failAt {α : Type} (message : String) (token : Token) : P α :=
  .fail ⟨message, token.line, token.column⟩

def parseNumber (text : String) : P Value := .ask (.number text) .pure

/-- A `while` loop that appends to a list; a turn without an item ends it. -/
def collect {α : Type} (turn : P (Option α)) : P (List α) :=
  .remaining fun n => Prog.collectFrom (.ask .turn nofun) turn (n + 1)

variable (py : Python)

/-- `_expect` with a type alone. -/
def expectType (type : TokenType) : P Token := do
  let token ← current
  if token.type ≠ type then
    failAt ("expected " ++ type.str ++ ", got " ++ py.repr token.value) token
  else advance

/-- `_expect`. -/
def expect (type : TokenType) (value : String) : P Token := do
  let token ← current
  if token.type ≠ type then
    failAt ("expected " ++ type.str ++ ", got " ++ py.repr token.value) token
  else if token.value ≠ value then
    failAt ("expected " ++ py.repr value ++ ", got " ++ py.repr token.value) token
  else advance

def expectPunct (punct : String) : P Token := expect py .punct punct

def Token.isKeyword (token : Token) (keyword : String) : Bool :=
  token.type = .keyword && py.upperText token.value = keyword

/-- `_match_keyword`. -/
def matchKeyword (keyword : String) : P Bool := do
  let token ← current
  if token.isKeyword py keyword then
    let _ ← advance
    return true
  else return false

/-- `_expect_keyword`. -/
def expectKeyword (keyword : String) : P Token := do
  let token ← current
  if token.isKeyword py keyword then advance
  else failAt ("expected keyword " ++ keyword ++ ", got " ++ py.repr token.value) token

/-- `_match_punct`. -/
def matchPunct (punct : String) : P Bool := do
  let token ← current
  if token.type = .punct ∧ token.value = punct then
    let _ ← advance
    return true
  else return false

/-- `_parse_ident`. -/
def parseIdent : P String := do
  let token ← expectType py .ident
  return token.value

/-- `while match(): items.append(item())`. -/
def appendWhile {α : Type} (match' : P Bool) (item : P α) : P (List α) :=
  collect do
    if ← match' then
      let a ← item
      return some a
    else return none

/-- `items = [item()]` and one more behind each comma. -/
def commaList {α : Type} (item : P α) : P (List α) := do
  let first ← item
  let rest ← appendWhile (matchPunct ",") item
  return first :: rest

/-! ## `predicate.py` -/

/-- `_parse_value`, which `dml_parser.py` repeats. -/
def parseValue : P Value := do
  let token ← current
  if token.type = .number then
    let _ ← advance
    parseNumber token.value
  else if token.type = .string then
    let _ ← advance
    return .text token.value
  else if token.type = .keyword ∧ (token.value = "TRUE" ∨ token.value = "FALSE") then
    let _ ← advance
    return .bool (token.value = "TRUE")
  else if token.type = .keyword ∧ token.value = "NULL" then
    let _ ← advance
    return .null
  else failAt ("unexpected value " ++ py.repr token.value) token

/-- `( value, … )`: the body of `_parse_in_list` and of `_parse_value_tuple`. -/
def parseValues : P (List Value) := do
  let _ ← expectPunct py "("
  let values ← commaList (parseValue py)
  let _ ← expectPunct py ")"
  return values

def parseInList : P (List Value) := parseValues py

def parsePrimary (parseExpression : P Expr) : P Expr := do
  let token ← current
  if token.type = .number then
    let _ ← advance
    let value ← parseNumber token.value
    return .sqlLiteral value token.value
  else if token.type = .string then
    let _ ← advance
    return .sqlLiteral (.text token.value) ("'" ++ token.value ++ "'")
  else if token.type = .keyword ∧ (token.value = "TRUE" ∨ token.value = "FALSE") then
    let _ ← advance
    return .sqlLiteral (.bool (token.value = "TRUE")) token.value
  else if token.type = .keyword ∧ token.value = "NULL" then
    let _ ← advance
    return .sqlLiteral .null "NULL"
  else if token.type = .ident then
    let _ ← advance
    if ← matchPunct "." then
      let column ← expectType py .ident
      return .qualifiedColumn (some token.value) column.value
    else return .column token.value
  else if token.type = .punct ∧ token.value = "(" then
    let _ ← advance
    let expr ← parseExpression
    let _ ← expectPunct py ")"
    return expr
  else failAt ("unexpected token " ++ py.repr token.value) token

/-- The operator of an OPERATOR token, which has one of six values. -/
def CompareOp.ofText (text : String) : CompareOp :=
  if text = "=" then .eq
  else if text = "<>" then .ne
  else if text = "<" then .lt
  else if text = "<=" then .le
  else if text = ">" then .gt
  else .ge

def parseComparison (parsePrimary : P Expr) : P Expr := do
  let left ← parsePrimary
  if ← matchKeyword py "IS" then
    let negated ← matchKeyword py "NOT"
    let _ ← expectKeyword py "NULL"
    return .binaryOp (if negated then .isNotNull else .isNull) left (.sqlLiteral .null "NULL")
  else if ← matchKeyword py "NOT" then
    let _ ← expectKeyword py "IN"
    let values ← parseInList py
    return .inPredicate left values true
  else if ← matchKeyword py "IN" then
    let values ← parseInList py
    return .inPredicate left values false
  else if ← matchKeyword py "BETWEEN" then
    let lo ← parsePrimary
    let _ ← expectKeyword py "AND"
    let hi ← parsePrimary
    return .logicalOp .and (.binaryOp .ge left lo) (.binaryOp .le left hi)
  else
    let token ← current
    if token.type = .operator then
      let _ ← advance
      let right ← parsePrimary
      return .binaryOp (CompareOp.ofText token.value) left right
    else return left

def parseNotExpression (parseComparison : P Expr) : P Expr := parseComparison

/-- `operand` and one more behind each `keyword`, from the left. -/
def parseChain (keyword : String) (op : LogicOp) (operand : P Expr) : P Expr := do
  let left ← operand
  let rights ← appendWhile (matchKeyword py keyword) operand
  return rights.foldl (.logicalOp op) left

def parseAndExpression (parseNotExpression : P Expr) : P Expr :=
  parseChain py "AND" .and parseNotExpression

/-- The body of `parse_expression`. -/
def parseOrExpression (parseAndExpression : P Expr) : P Expr :=
  parseChain py "OR" .or parseAndExpression

def parseExpression : Nat → P Expr
  | frames + 5 =>
    parseOrExpression py (parseAndExpression py (parseNotExpression (parseComparison py
      (parsePrimary py (parseExpression frames)))))
  | _ => .ask .call nofun

/-! ## `ddl_parser.py` -/

/-- One turn of the loop over the constraints. -/
def parseConstraint : P (Option Constraint) := do
  let token ← current
  if token.isKeyword py "PRIMARY" then
    let _ ← advance
    let _ ← expectKeyword py "KEY"
    return some .primaryKey
  else if token.isKeyword py "NOT" then
    let _ ← advance
    let _ ← expectKeyword py "NULL"
    return some .notNull
  else if token.isKeyword py "UNIQUE" then
    let _ ← advance
    return some .unique
  else return none

def parseColumnDef : P ColumnDef := do
  let name ← expectType py .ident
  let type ← expectType py .keyword
  let constraints ← collect (parseConstraint py)
  return ⟨name.value, type.value, constraints⟩

def parseIfNotExists : P Bool := do
  if ← matchKeyword py "IF" then
    let _ ← expectKeyword py "NOT"
    let _ ← expectKeyword py "EXISTS"
    return true
  else return false

def parseCreateTable : P CreateTable := do
  let _ ← expectKeyword py "CREATE"
  let _ ← expectKeyword py "TABLE"
  let ifNotExists ← parseIfNotExists py
  let name ← expectType py .ident
  let _ ← expectPunct py "("
  let columns ← commaList (parseColumnDef py)
  let _ ← expectPunct py ")"
  return ⟨name.value, columns, ifNotExists⟩

def parseIfExists : P Bool := do
  if ← matchKeyword py "IF" then
    let _ ← expectKeyword py "EXISTS"
    return true
  else return false

def parseDropTable : P DropTable := do
  let _ ← expectKeyword py "DROP"
  let _ ← expectKeyword py "TABLE"
  let ifExists ← parseIfExists py
  let names ← commaList (parseIdent py)
  return ⟨names, ifExists⟩

/-! ## `dml_parser.py` -/

/-- The column list of an INSERT. The test looks at the value of the token alone. -/
def parseColumnNames : P (Option (List String)) := do
  let token ← current
  if token.value = "(" then
    let _ ← advance
    let names ← commaList (parseIdent py)
    let _ ← expectPunct py ")"
    return some names
  else return none

def parseInsert : P Insert := do
  let _ ← expectKeyword py "INSERT"
  let _ ← expectKeyword py "INTO"
  let table ← parseIdent py
  let columns ← parseColumnNames py
  let _ ← expectKeyword py "VALUES"
  let values ← commaList (parseValues py)
  return ⟨table, columns, values⟩

/-- `_parse_column_ref`. -/
def parseColumnRef : P Expr := do
  let name ← parseIdent py
  if ← matchPunct "." then
    let column ← parseIdent py
    return .qualifiedColumn (some name) column
  else return .column name

def isAggregate (keyword : String) : Bool := ["COUNT", "SUM", "AVG"].contains keyword

/-- What stands in the parentheses of an aggregate. -/
def aggregateArg (frames : Nat) : Expr → P String
  | .column name => return name
  | arg => .ask (.str frames arg) .pure

/-- The literal that stands for an aggregate. -/
def aggregateLiteral (func arg : String) : Expr :=
  .sqlLiteral (.text (func ++ "(" ++ arg ++ ")")) (func ++ "(" ++ arg ++ ")")

/-- `COUNT`, `SUM` or `AVG`. The test for `*` looks at the value of the token alone. -/
def parseAggregate (frames : Nat) : P Expr := do
  let func ← advance
  let _ ← expectPunct py "("
  let token ← current
  if token.value = "*" then
    let _ ← advance
    let _ ← expectPunct py ")"
    return aggregateLiteral func.value "*"
  else
    let arg ← parsePrimary py (parseExpression py frames)
    let _ ← expectPunct py ")"
    let name ← aggregateArg frames arg
    return aggregateLiteral func.value name

/-- `_parse_projection`. The test for `*` looks at the value of the token alone. -/
def parseProjection (frames : Nat) : P Expr := do
  let token ← current
  if token.value = "*" then
    let _ ← advance
    return .star
  else if token.type = .keyword ∧ isAggregate token.value then parseAggregate py frames
  else if token.type = .number ∨ token.type = .string then
    parsePrimary py (parseExpression py frames)
  else
    let expr ← parseColumnRef py
    if ← matchKeyword py "AS" then
      let name ← parseIdent py
      return .column name
    else return expr

/-- `_parse_optional_alias`. -/
def parseOptionalAlias : P (Option String) := do
  if ← matchKeyword py "AS" then
    let name ← parseIdent py
    return some name
  else
    let token ← current
    if token.type = .ident then
      let name ← parseIdent py
      return some name
    else return none

/-- `_match_join_start`. -/
def startsJoin (token : Token) : Bool :=
  token.isKeyword py "JOIN" || token.isKeyword py "INNER" || token.isKeyword py "LEFT"

def parseJoinType : P JoinType := do
  let token ← current
  if py.upperText token.value = "LEFT" then
    let _ ← advance
    let _ ← expectKeyword py "JOIN"
    return .left
  else if py.upperText token.value = "INNER" then
    let _ ← advance
    let _ ← expectKeyword py "JOIN"
    return .inner
  else
    let _ ← expectKeyword py "JOIN"
    return .inner

def parseJoinClause (frames : Nat) : P JoinClause := do
  let kind ← parseJoinType py
  let table ← parseIdent py
  let alias' ← parseOptionalAlias py
  let _ ← expectKeyword py "ON"
  let on' ← parseExpression py frames
  return ⟨kind, table, alias', some on'⟩

def parseJoinClauses (frames : Nat) : P (List JoinClause) :=
  collect do
    let token ← current
    if startsJoin py token then
      let join ← parseJoinClause py frames
      return some join
    else return none

/-- A clause that its keyword announces. -/
def parseClause {α : Type} (keyword : String) (absent : α) (clause : P α) : P α := do
  if ← matchKeyword py keyword then clause else return absent

def parseFrom (frames : Nat) : P (String × Option String × List JoinClause) := do
  let table ← parseIdent py
  let alias' ← parseOptionalAlias py
  let joins ← parseJoinClauses py frames
  return (table, alias', joins)

def parseWhere (frames : Nat) : P (Option Expr) := do
  let expr ← parseExpression py frames
  return some expr

def parseGroupExpr : P Expr := parseColumnRef py

def parseGroupBy : P (List Expr) := do
  let _ ← expectKeyword py "BY"
  commaList (parseGroupExpr py)

def parseDirection : P Direction := do
  if ← matchKeyword py "ASC" then return .asc
  else if ← matchKeyword py "DESC" then return .desc
  else return .asc

def parseOrderItem : P OrderItem := do
  let expr ← parseColumnRef py
  let direction ← parseDirection py
  return ⟨expr, direction⟩

def parseOrderBy : P (List OrderItem) := do
  let _ ← expectKeyword py "BY"
  commaList (parseOrderItem py)

def parseIntLiteral : P (Option Nat) := do
  let token ← expectType py .number
  let n ← .ask (.int token.value) .pure
  return some n

def parseSelect (frames : Nat) : P Select := do
  let _ ← expectKeyword py "SELECT"
  let projections ← commaList (parseProjection py frames)
  let (table, alias', joins) ← parseClause py "FROM" ("", none, []) (parseFrom py frames)
  let where' ← parseClause py "WHERE" none (parseWhere py frames)
  let groupBy ← parseClause py "GROUP" [] (parseGroupBy py)
  let orderBy ← parseClause py "ORDER" [] (parseOrderBy py)
  let limit ← parseClause py "LIMIT" none (parseIntLiteral py)
  let offset ← parseClause py "OFFSET" none (parseIntLiteral py)
  return { projections, table, joins, alias', where', orderBy, limit, offset, groupBy }

def parseAssignment : P (String × Value) := do
  let col ← parseIdent py
  let _ ← expect py .operator "="
  let value ← parseValue py
  return (col, value)

def parseUpdate (frames : Nat) : P Update := do
  let _ ← expectKeyword py "UPDATE"
  let table ← parseIdent py
  let _ ← expectKeyword py "SET"
  let assignments ← commaList (parseAssignment py)
  let where' ← parseClause py "WHERE" none (parseWhere py frames)
  return ⟨table, assignments, where'⟩

def parseDelete (frames : Nat) : P Delete := do
  let _ ← expectKeyword py "DELETE"
  let _ ← expectKeyword py "FROM"
  let table ← parseIdent py
  let where' ← parseClause py "WHERE" none (parseWhere py frames)
  return ⟨table, where'⟩

/-! ## `tx_control.py` and `parse` -/

def parseTxControl : P Statement := do
  let token ← advance
  if py.upperText token.value = "BEGIN" then
    let _ ← matchKeyword py "TRANSACTION"
    return .begin
  else if py.upperText token.value = "COMMIT" ∨ py.upperText token.value = "END" then return .commit
  else if py.upperText token.value = "ROLLBACK" then return .rollback
  else
    failAt ("unexpected transaction keyword " ++ py.repr (py.upperText token.value)) token

def parseStatement : Nat → P Statement
  | 0 => .ask .call nofun
  | frames + 1 => do
    let token ← current
    if token.type = .keyword then
      let keyword := py.upperText token.value
      if keyword = "CREATE" then return .createTable (← parseCreateTable py)
      else if keyword = "DROP" then return .dropTable (← parseDropTable py)
      else if keyword = "INSERT" then return .insert (← parseInsert py)
      else if keyword = "SELECT" then return .select (← parseSelect py frames)
      else if keyword = "UPDATE" then return .update (← parseUpdate py frames)
      else if keyword = "DELETE" then return .delete (← parseDelete py frames)
      else if keyword = "CHECKPOINT" then
        let _ ← advance
        return .checkpoint
      else if keyword = "EXPLAIN" then
        let _ ← advance
        return .explain (← parseStatement frames)
      else parseTxControl py
    else failAt ("unexpected token: " ++ py.repr token.value) token

/-- A statement and the end of the text. -/
def parseAll : P Statement := do
  let statement ← parseStatement py py.frames
  let _ ← expectType py .eof
  return statement

/-- The tokens without any `;`. -/
def withoutSemicolons (tokens : List Token) : List Token :=
  tokens.filter fun t => !(t.type = .punct && t.value = ";")

/-- The interpreter behind a run; an EOF token closes the list. -/
def Python.host (line : Nat) : Prog.Host Token ParseFailure PyErr Question.Answer where
  last := ⟨.eof, "", line, 1⟩
  raise f := .parseError f.message f.line f.column
  answer := py.answer

def parse (sql : String) : Except PyErr Statement := do
  let tokens ← tokenize py sql
  let filtered := withoutSemicolons tokens
  let line := (filtered.getLast?.map Token.line).getD 1
  let (statement, _) ← (parseAll py).run (py.host line) filtered
  .ok statement

end TinyDB
