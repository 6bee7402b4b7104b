import TinyDB.SelectRaises

/-!
# Command line

`cli_renderers.py` and the parts of `cli.py` that print results and that read a
script. Output is the text written to `stdout`, with `\n` for the line ends of
`print`.
-/

namespace TinyDB.Cli

open Lib

/-! ## Renderers -/

/-- `_truncate`. -/
def truncate (value : List Char) (width : Int) : List Char :=
  if width ≤ 0 then value
  else if value.length ≤ width then value
  else value.take width.toNat ++ "...".toList

/-- `row.get(c, "")`. -/
def cellValue (row : RowDict) (c : String) : Value := (row.get? c).getD (.text "")

def ljust (text : List Char) (width : Nat) : List Char :=
  text ++ List.replicate (width - text.length) ' '

/-- `str(value or nullvalue)`. -/
def tableCell (nullvalue : List Char) (value : Value) : List Char :=
  if value.truthy then strValue value else nullvalue

def columnWidth (rows : List RowDict) (width : Int) (nullvalue : List Char) (c : String) : Nat :=
  let cells := rows.map fun row => (tableCell nullvalue (cellValue row c)).length
  let w := max c.length (cells.foldl max 0)
  if width > 0 then min w width.toNat else w

/-- `print_table`. -/
def printTable (rows : List RowDict) (width : Int) (nullvalue : List Char) : List Char :=
  match rows with
  | [] => []
  | first :: _ =>
    let columns := first.keys.map fun c => (c, columnWidth rows width nullvalue c)
    let header := " | ".toList.intercalate
      (columns.map fun (c, w) => ljust (truncate c.toList w) w)
    let sep := "-+-".toList.intercalate (columns.map fun (_, w) => List.replicate w '-')
    header ++ '\n' :: sep ++ '\n' :: rows.flatMap fun row =>
      " | ".toList.intercalate (columns.map fun (c, w) =>
        ljust (truncate (tableCell nullvalue (cellValue row c)) w) w) ++ ['\n']

/-- The text of a value in the CSV output. -/
def cellText (nullvalue : List Char) (value : Value) : List Char :=
  if value = .null then nullvalue else strValue value

/-- One turn of the inner loop of `print_csv`. -/
def csvCell (width : Int) (nullvalue : List Char) (value : Value) : List Char :=
  let cell := cellText nullvalue value
  let cell := if width > 0 then truncate cell width else cell
  if ',' ∈ cell ∨ '"' ∈ cell ∨ '\n' ∈ cell then
    '"' :: (replaceChars ['"'] ['"', '"'] cell.length cell ++ ['"'])
  else cell

/-- `print_csv`. -/
def printCsv (rows : List RowDict) (width : Int) (nullvalue : List Char) : List Char :=
  match rows with
  | [] => []
  | first :: _ =>
    let columns := first.keys
    [','].intercalate (columns.map String.toList) ++ '\n' :: rows.flatMap fun row =>
      [','].intercalate (columns.map fun c => csvCell width nullvalue (cellValue row c)) ++ ['\n']

/-! ## `_execute_one` -/

inductive OutputMode where
  | table
  | csv
  | json
  deriving DecidableEq

/-- `_ReplConfig` with its defaults. -/
structure ReplConfig where
  mode : OutputMode := .table
  timer : Bool := false
  width : Int := 30
  nullvalue : List Char := []

/-- `_emit_time`; `elapsed` is the time as it is printed. -/
def emitTime (cfg : ReplConfig) (elapsed : List Char) : List Char :=
  if cfg.timer then "Time: ".toList ++ elapsed ++ " ms\n".toList else []

/-- What `_execute_one` prints for the rows that `execute` returned; `dumps` is
`json.dumps`. -/
def executeOne (dumps : RowDict → List Char) (elapsed : List Char) (cfg : ReplConfig)
    (result : List RowDict) : List Char :=
  match result with
  | [] => emitTime cfg elapsed
  | first :: rest =>
    if first.contains "status" then "OK\n".toList ++ emitTime cfg elapsed
    else match first.get? "rows_affected" with
      | some n =>
        strValue n ++ " row".toList ++ (if n.pyEq (.int 1) then [] else ['s']) ++
          " inserted\n".toList ++ emitTime cfg elapsed
      | none =>
        (match cfg.mode with
          | .csv => printCsv (first :: rest) cfg.width cfg.nullvalue
          | .json => (first :: rest).flatMap fun row => dumps row ++ ['\n']
          | .table => printTable (first :: rest) cfg.width cfg.nullvalue) ++ emitTime cfg elapsed

/-! ## `_run_batch` -/

/-- `c.isspace()`. -/
def isSpace (c : Char) : Bool :=
  let n := c.toNat
  9 ≤ n && n ≤ 13 || 28 ≤ n && n ≤ 32 || n = 0x85 || n = 0xa0 || n = 0x1680 ||
    0x2000 ≤ n && n ≤ 0x200a || n = 0x2028 || n = 0x2029 || n = 0x202f || n = 0x205f || n = 0x3000

def lstrip (text : List Char) : List Char := text.dropWhile isSpace

def rstrip (text : List Char) : List Char := (text.reverse.dropWhile isSpace).reverse

/-- `text.strip()`. -/
def strip (text : List Char) : List Char := lstrip (rstrip text)

/-- `text.split()`. -/
def words (text : List Char) : List (List Char) := (text.splitOnP isSpace).filter (· ≠ [])

/-- The lines of `stdin`, each with its line break. -/
def rawLines : List Char → List (List Char)
  | [] => []
  | c :: text =>
    if c = '\n' then [c] :: rawLines text
    else match rawLines text with
      | [] => [[c]]
      | line :: lines => (c :: line) :: lines

/-- The texts given to `execute`, and the exit status or the exception that got out. -/
structure Batch where
  handed : List (List Char)
  exit : Except PyErr Nat

def Batch.hand (sql : List Char) (batch : Batch) : Batch :=
  { batch with handed := sql :: batch.handed }

section
variable [PyText] {σ : Type} (execute : σ → List Char → Except PyErr Unit × σ)
  (hasTable : σ → List Char → Bool)

/-- A line that starts with a dot: `none` leaves the loop, else whether it set `has_error`. -/
def dotCommand (db : σ) (stripped : List Char) : Option Bool :=
  let parts := words stripped
  let cmd := PyText.lower (parts.headD [])
  if cmd = ".exit".toList ∨ cmd = ".quit".toList then none
  else if cmd = ".schema".toList ∧ 2 ≤ parts.length then some (!hasTable db (parts.getD 1 []))
  else some false

/-- The loop of `_run_batch`, without what it prints. -/
def runBatch : σ → List (List Char) → List (List Char) → Bool → Batch
  | _, [], _, hasError => ⟨[], .ok (if hasError then 1 else 0)⟩
  | db, rawLine :: lines, buffer, hasError =>
    let stripped := strip rawLine
    if stripped = [] then runBatch db lines buffer hasError
    else if startsWith ['.'] stripped then
      match dotCommand hasTable db stripped with
      | none => ⟨[], .ok (if hasError then 1 else 0)⟩
      | some failed => runBatch db lines buffer (hasError || failed)
    else
      let buffer := buffer ++ [rstripChar '\n' rawLine]
      if stripped.getLast? = some ';' then
        let sql := strip ([' '].intercalate buffer)
        if sql = [] then runBatch db lines [] hasError
        else match execute db sql with
          | (.ok (), db) => (runBatch db lines [] hasError).hand sql
          | (.error (.parseError _ _ _), db) => (runBatch db lines [] hasError).hand sql
          | (.error e, db) =>
            if e.isBuiltin then ⟨[sql], .error e⟩ else (runBatch db lines [] true).hand sql
      else runBatch db lines buffer hasError

end

end TinyDB.Cli
