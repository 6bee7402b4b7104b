import TinyDB.Parser

/-!
# The grammar

The statements of `specs/sql-parser`, `specs/join-query` and `specs/execution-plan` as
derivations over lexemes, each with the tree it is given. `star` and `paren` are the
lexemes taken for the `*` of a projection and for the parenthesis that opens the columns of
an INSERT; in the documented grammar these are the two punctuation marks.
-/

namespace TinyDB

/-- A token without its position. -/
structure Lexeme where
  type : TokenType
  value : String
  deriving DecidableEq

def Token.lexeme (token : Token) : Lexeme := ⟨token.type, token.value⟩

namespace Lexeme

def keyword (k : String) : Lexeme := ⟨.keyword, k⟩
def ident (name : String) : Lexeme := ⟨.ident, name⟩
def number (text : String) : Lexeme := ⟨.number, text⟩
def string (s : String) : Lexeme := ⟨.string, s⟩
def operator (op : String) : Lexeme := ⟨.operator, op⟩
def punct (p : String) : Lexeme := ⟨.punct, p⟩

end Lexeme

open Lib Lexeme

namespace Grammar

variable (py : Python)

/-! ## Lists and clauses -/

inductive Separated {α : Type} (item : List Lexeme → α → Prop) : List Lexeme → List α → Prop where
  | one {s : List Lexeme} {a : α} : item s a → Separated item s [a]
  | cons {s r : List Lexeme} {a : α} {as : List α} :
    item s a → Separated item r as → Separated item (s ++ punct "," :: r) (a :: as)

def Parenthesised {α : Type} (body : List Lexeme → α → Prop) (ls : List Lexeme) (a : α) : Prop :=
  ∃ s, ls = punct "(" :: s ++ [punct ")"] ∧ body s a

/-- A clause that may be left out. -/
def Clause {α : Type} (k : String) (absent : α) (body : List Lexeme → α → Prop)
    (ls : List Lexeme) (a : α) : Prop :=
  ls = [] ∧ a = absent ∨ ∃ s, ls = keyword k :: s ∧ body s a

/-- The words of a list, one keyword each. -/
def words (ks : List String) : List Lexeme := ks.map keyword

def Name (ls : List Lexeme) (name : String) : Prop := ls = [ident name]

/-! ## Expressions -/

inductive Literal : Lexeme → Value → String → Prop where
  | number {text : String} {value : Value} :
    py.parseNumber text = .ok value → Literal (number text) value text
  | string (s : String) : Literal (string s) (.text s) ("'" ++ s ++ "'")
  | true : Literal (keyword "TRUE") (.bool true) "TRUE"
  | false : Literal (keyword "FALSE") (.bool false) "FALSE"
  | null : Literal (keyword "NULL") .null "NULL"

def LiteralValue (ls : List Lexeme) (value : Value) : Prop :=
  ∃ l raw, ls = [l] ∧ Literal py l value raw

def LiteralList : List Lexeme → List Value → Prop :=
  Parenthesised (Separated (LiteralValue py))

inductive ColumnRef : List Lexeme → Expr → Prop where
  | plain (name : String) : ColumnRef [ident name] (.column name)
  | qualified (table name : String) :
    ColumnRef [ident table, punct ".", ident name] (.qualifiedColumn (some table) name)

inductive Comparator : String → CompareOp → Prop where
  | eq : Comparator "=" .eq
  | ne : Comparator "<>" .ne
  | lt : Comparator "<" .lt
  | le : Comparator "<=" .le
  | gt : Comparator ">" .gt
  | ge : Comparator ">=" .ge

inductive Level where
  | primary
  | comparison
  | conjunction
  | disjunction

/-- AND binds tighter than OR, a comparison tighter than both; equal operators associate to
the left. -/
inductive Derives : Level → List Lexeme → Expr → Prop where
  | literal {l : Lexeme} {value : Value} {raw : String} :
    Literal py l value raw → Derives .primary [l] (.sqlLiteral value raw)
  | column {s : List Lexeme} {e : Expr} : ColumnRef s e → Derives .primary s e
  | group {s : List Lexeme} {e : Expr} :
    Derives .disjunction s e → Derives .primary (punct "(" :: s ++ [punct ")"]) e
  | primary {s : List Lexeme} {e : Expr} : Derives .primary s e → Derives .comparison s e
  | compare {s r : List Lexeme} {left right : Expr} {text : String} {op : CompareOp} :
    Derives .primary s left → Comparator text op → Derives .primary r right →
      Derives .comparison (s ++ operator text :: r) (.binaryOp op left right)
  | isNull {s : List Lexeme} {left : Expr} : Derives .primary s left →
      Derives .comparison (s ++ words ["IS", "NULL"])
        (.binaryOp .isNull left (.sqlLiteral .null "NULL"))
  | isNotNull {s : List Lexeme} {left : Expr} : Derives .primary s left →
      Derives .comparison (s ++ words ["IS", "NOT", "NULL"])
        (.binaryOp .isNotNull left (.sqlLiteral .null "NULL"))
  | isIn {s r : List Lexeme} {left : Expr} {values : List Value} :
    Derives .primary s left → LiteralList py r values →
      Derives .comparison (s ++ keyword "IN" :: r) (.inPredicate left values false)
  | notIn {s r : List Lexeme} {left : Expr} {values : List Value} :
    Derives .primary s left → LiteralList py r values →
      Derives .comparison (s ++ words ["NOT", "IN"] ++ r) (.inPredicate left values true)
  | between {s r t : List Lexeme} {left lo hi : Expr} : Derives .primary s left →
      Derives .primary r lo → Derives .primary t hi →
      Derives .comparison (s ++ keyword "BETWEEN" :: r ++ keyword "AND" :: t)
        (.logicalOp .and (.binaryOp .ge left lo) (.binaryOp .le left hi))
  | comparison {s : List Lexeme} {e : Expr} :
    Derives .comparison s e → Derives .conjunction s e
  | and {s r : List Lexeme} {left right : Expr} : Derives .conjunction s left →
      Derives .comparison r right →
      Derives .conjunction (s ++ keyword "AND" :: r) (.logicalOp .and left right)
  | conjunction {s : List Lexeme} {e : Expr} :
    Derives .conjunction s e → Derives .disjunction s e
  | or {s r : List Lexeme} {left right : Expr} : Derives .disjunction s left →
      Derives .conjunction r right →
      Derives .disjunction (s ++ keyword "OR" :: r) (.logicalOp .or left right)

def Condition (ls : List Lexeme) (e : Expr) : Prop := Derives py .disjunction ls e

def Where : List Lexeme → Option Expr → Prop :=
  Clause "WHERE" none fun s o => ∃ e, o = some e ∧ Condition py s e

/-! ## CREATE TABLE and DROP TABLE -/

inductive ConstraintOf : List Lexeme → Constraint → Prop where
  | primaryKey : ConstraintOf (words ["PRIMARY", "KEY"]) .primaryKey
  | notNull : ConstraintOf (words ["NOT", "NULL"]) .notNull
  | unique : ConstraintOf (words ["UNIQUE"]) .unique

/-- A column: its name, the declared type and the constraints. -/
def Column (ls : List Lexeme) (column : ColumnDef) : Prop :=
  ∃ s, ls = ident column.name :: keyword column.colType :: s ∧
    Each ConstraintOf s column.constraints

/-- Words that may be left out. -/
def Flag (ks : List String) (ls : List Lexeme) (b : Bool) : Prop :=
  ls = [] ∧ b = false ∨ ls = words ks ∧ b = true

def CreateTableOf (ls : List Lexeme) (stmt : CreateTable) : Prop :=
  ∃ flag columns, ls = words ["CREATE", "TABLE"] ++ flag ++ ident stmt.name :: columns ∧
    Flag ["IF", "NOT", "EXISTS"] flag stmt.ifNotExists ∧
    Parenthesised (Separated Column) columns stmt.columns

def DropTableOf (ls : List Lexeme) (stmt : DropTable) : Prop :=
  ∃ flag names, ls = words ["DROP", "TABLE"] ++ flag ++ names ∧
    Flag ["IF", "EXISTS"] flag stmt.ifExists ∧ Separated Name names stmt.names

/-! ## INSERT, UPDATE and DELETE -/

/-- The columns of an INSERT, opened by one of the lexemes in `paren`. -/
def ColumnNames (paren : Lexeme → Prop) (ls : List Lexeme) (columns : Option (List String)) :
    Prop :=
  ls = [] ∧ columns = none ∨ ∃ l s names, paren l ∧ ls = l :: s ++ [punct ")"] ∧
    Separated Name s names ∧ columns = some names

def InsertOf (paren : Lexeme → Prop) (ls : List Lexeme) (stmt : Insert) : Prop :=
  ∃ columns values, ls = words ["INSERT", "INTO"] ++ ident stmt.table :: columns ++
      keyword "VALUES" :: values ∧
    ColumnNames paren columns stmt.columns ∧ Separated (LiteralList py) values stmt.values

def Assignment (ls : List Lexeme) (a : String × Value) : Prop :=
  ∃ s, ls = ident a.1 :: operator "=" :: s ∧ LiteralValue py s a.2

def UpdateOf (ls : List Lexeme) (stmt : Update) : Prop :=
  ∃ assignments cond, ls = keyword "UPDATE" :: ident stmt.table :: keyword "SET" ::
      assignments ++ cond ∧
    Separated (Assignment py) assignments stmt.assignments ∧ Where py cond stmt.where'

def DeleteOf (ls : List Lexeme) (stmt : Delete) : Prop :=
  ∃ cond, ls = words ["DELETE", "FROM"] ++ ident stmt.table :: cond ∧ Where py cond stmt.where'

/-! ## SELECT -/

/-- The name an aggregate's argument gives to the result. -/
def argName : Expr → String
  | .column name => name
  | arg => arg.repr py

/-- A lexeme in `star` at the start is the `*` and nothing else. -/
inductive Projection (star : Lexeme → Prop) : List Lexeme → Expr → Prop where
  | star {l : Lexeme} : star l → Projection star [l] .star
  | count {f : String} {l : Lexeme} : isAggregate f = true → star l →
      Projection star [keyword f, punct "(", l, punct ")"] (aggregateLiteral f "*")
  | aggregate {f : String} {s : List Lexeme} {arg : Expr} : isAggregate f = true →
      (∀ l ∈ s.head?, ¬ star l) → Derives py .primary s arg →
      Projection star (keyword f :: punct "(" :: s ++ [punct ")"])
        (aggregateLiteral f (argName py arg))
  | literal {l : Lexeme} {value : Value} {raw : String} : ¬ star l →
      l.type = .number ∨ l.type = .string → Literal py l value raw →
      Projection star [l] (.sqlLiteral value raw)
  | column {s : List Lexeme} {e : Expr} : ColumnRef s e → Projection star s e
  | named {s : List Lexeme} {e : Expr} (name : String) : ColumnRef s e →
      Projection star (s ++ [keyword "AS", ident name]) (.column name)

inductive Alias : List Lexeme → Option String → Prop where
  | none : Alias [] none
  | as (name : String) : Alias [keyword "AS", ident name] (some name)
  | bare (name : String) : Alias [ident name] (some name)

inductive JoinKind : List Lexeme → JoinType → Prop where
  | join : JoinKind (words ["JOIN"]) .inner
  | inner : JoinKind (words ["INNER", "JOIN"]) .inner
  | left : JoinKind (words ["LEFT", "JOIN"]) .left

def Join (ls : List Lexeme) (join : JoinClause) : Prop :=
  ∃ kind alias' cond e, ls = kind ++ ident join.table :: alias' ++ keyword "ON" :: cond ∧
    JoinKind kind join.kind ∧ Alias alias' join.alias' ∧ Condition py cond e ∧ join.on' = some e

def From : List Lexeme → String × Option String × List JoinClause → Prop :=
  Clause "FROM" ("", none, []) fun s a => ∃ alias' joins, s = ident a.1 :: alias' ++ joins ∧
    Alias alias' a.2.1 ∧ Each (Join py) joins a.2.2

def By {α : Type} (item : List Lexeme → α → Prop) (ls : List Lexeme) (as : List α) : Prop :=
  ∃ s, ls = keyword "BY" :: s ∧ Separated item s as

inductive Order : List Lexeme → OrderItem → Prop where
  | plain {s : List Lexeme} {e : Expr} : ColumnRef s e → Order s ⟨e, .asc⟩
  | asc {s : List Lexeme} {e : Expr} : ColumnRef s e → Order (s ++ words ["ASC"]) ⟨e, .asc⟩
  | desc {s : List Lexeme} {e : Expr} : ColumnRef s e → Order (s ++ words ["DESC"]) ⟨e, .desc⟩

/-- A number behind LIMIT or OFFSET. -/
def Count (ls : List Lexeme) (n : Option Nat) : Prop :=
  ∃ text k, ls = [number text] ∧ py.int text = .ok k ∧ n = some k

/-- What follows the projections. -/
def Tail (ls : List Lexeme) (stmt : Select) : Prop :=
  ∃ tables cond groups orders limit offset,
    ls = tables ++ cond ++ groups ++ orders ++ limit ++ offset ∧
    From py tables (stmt.table, stmt.alias', stmt.joins) ∧ Where py cond stmt.where' ∧
    Clause "GROUP" [] (By ColumnRef) groups stmt.groupBy ∧
    Clause "ORDER" [] (By Order) orders stmt.orderBy ∧
    Clause "LIMIT" none (Count py) limit stmt.limit ∧
    Clause "OFFSET" none (Count py) offset stmt.offset

def SelectOf (star : Lexeme → Prop) (ls : List Lexeme) (stmt : Select) : Prop :=
  ∃ projections tail, ls = keyword "SELECT" :: projections ++ tail ∧
    Separated (Projection py star) projections stmt.projections ∧ Tail py tail stmt

/-! ## Statements -/

inductive StatementOf (star paren : Lexeme → Prop) : List Lexeme → Statement → Prop where
  | createTable {ls : List Lexeme} {stmt : CreateTable} :
    CreateTableOf ls stmt → StatementOf star paren ls (.createTable stmt)
  | dropTable {ls : List Lexeme} {stmt : DropTable} :
    DropTableOf ls stmt → StatementOf star paren ls (.dropTable stmt)
  | insert {ls : List Lexeme} {stmt : Insert} :
    InsertOf py paren ls stmt → StatementOf star paren ls (.insert stmt)
  | select {ls : List Lexeme} {stmt : Select} :
    SelectOf py star ls stmt → StatementOf star paren ls (.select stmt)
  | update {ls : List Lexeme} {stmt : Update} :
    UpdateOf py ls stmt → StatementOf star paren ls (.update stmt)
  | delete {ls : List Lexeme} {stmt : Delete} :
    DeleteOf py ls stmt → StatementOf star paren ls (.delete stmt)
  | begin : StatementOf star paren (words ["BEGIN"]) .begin
  | beginTransaction : StatementOf star paren (words ["BEGIN", "TRANSACTION"]) .begin
  | commit : StatementOf star paren (words ["COMMIT"]) .commit
  | end' : StatementOf star paren (words ["END"]) .commit
  | rollback : StatementOf star paren (words ["ROLLBACK"]) .rollback
  | checkpoint : StatementOf star paren (words ["CHECKPOINT"]) .checkpoint
  | explain {ls : List Lexeme} {stmt : Statement} : StatementOf star paren ls stmt →
      StatementOf star paren (keyword "EXPLAIN" :: ls) (.explain stmt)

/-- The documented grammar. -/
def Documented : List Lexeme → Statement → Prop :=
  StatementOf py (· = punct "*") (· = punct "(")

end Grammar
end TinyDB
