import TinyDB.CatalogCodec
import TinyDB.Storage
import TinyDB.Ast
import TinyDB.Lib.OrdDict

/-!
# The catalog

`executor/catalog.py` and `executor/ddl.py`: the map from table names to their
metadata in memory, and its copy in the header page behind the 16 bytes of file
metadata. The map changes before the copy is written, so a failing write leaves
the two apart.
-/

namespace TinyDB

open Lib

/-- `_CATALOG_OFFSET`. -/
def catalogOffset : Nat := 16

structure Catalog where
  entries : OrdDict String TableMeta
  deriving DecidableEq

namespace Catalog

def empty : Catalog := ⟨OrdDict.empty⟩

/-- The entries in the header body, none if no catalog was ever written. -/
def loadBody (body : Bytes) : Except PyErr (Option (List TableMeta)) :=
  if body.length < catalogOffset then .ok none
  else
    let catLen := leNat (slice body catalogOffset (catalogOffset + 4))
    if catLen = 0 then .ok none
    else
      let catRaw := slice body (catalogOffset + 4) (catalogOffset + 4 + catLen)
      if catRaw = [] then .ok none
      else (decodeCatalog catRaw).map some

/-- `_load`. A header without a catalog leaves the entries as they are. -/
def load (catalog : Catalog) (store : FileStore) : Except PyErr Catalog :=
  if store.pageCount < 1 then .ok catalog
  else do
    let page ← store.readPage 0
    let loaded ← loadBody page.body
    match loaded with
    | none => .ok catalog
    | some entries => .ok ⟨OrdDict.ofList (entries.map fun e => (e.name, e))⟩

/-- The header body with the catalog written into it. -/
def flushBody (body raw : Bytes) : Except PyErr Bytes := do
  let needed := catalogOffset + 4 + raw.length
  let body := body ++ zeros (needed - body.length)
  if raw.length < 256 ^ 4 then
    let body := setSlice body catalogOffset (catalogOffset + 4) (leBytes 4 raw.length)
    .ok (setSlice body (catalogOffset + 4) (catalogOffset + 4 + raw.length) raw)
  else .error .overflowError

/-- `_flush`. -/
def flush (catalog : Catalog) (store : FileStore) : Except PyErr FileStore := do
  let raw ← encodeCatalog catalog.entries.values
  let page ← store.readPage 0
  let body ← flushBody page.body raw
  store.writePage { page with body := body }

def createTable (catalog : Catalog) (store : FileStore) (name : String) (columns : Schema) :
    Except PyErr Unit × Catalog × FileStore :=
  if catalog.entries.contains name then
    (.error (.uniqueViolation "TABLE_NAME" name (.one (.text name))), catalog, store)
  else
    match allocPage store .table with
    | (.error e, store) => (.error e, catalog, store)
    | (.ok rootPageId, store) =>
      let catalog : Catalog :=
        ⟨catalog.entries.set name { name, rootPageId, schema := columns }⟩
      match catalog.flush store with
      | .error e => (.error e, catalog, store)
      | .ok store => (.ok (), catalog, store)

def dropTable (catalog : Catalog) (store : FileStore) (name : String) :
    Except PyErr Unit × Catalog × FileStore :=
  match catalog.entries.get? name with
  | none => (.error (.tableNotFound name), catalog, store)
  | some entry =>
    let catalog : Catalog := ⟨catalog.entries.erase name⟩
    match freePage store entry.rootPageId with
    | .error e => (.error e, catalog, store)
    | .ok store =>
      match catalog.flush store with
      | .error e => (.error e, catalog, store)
      | .ok store => (.ok (), catalog, store)

def getTable (catalog : Catalog) (name : String) : Except PyErr TableMeta :=
  match catalog.entries.get? name with
  | none => .error (.tableNotFound name)
  | some entry => .ok entry

def listTables (catalog : Catalog) : List String := catalog.entries.keys

end Catalog

/-! ## DDL -/

/-- `text.upper()`, for ASCII. -/
def upperText (text : String) : String := String.ofList (text.toList.map Char.toUpper)

/-- `_TYPE_MAP.get(col_type.upper())`. -/
def columnType? (colType : String) : Option ColumnType :=
  match ColumnType.ofValue (upperText colType) with
  | .ok t => some t
  | .error _ => none

/-- The column loop of `exec_create_table`. -/
def resolveColumns : List ColumnDef → Except PyErr Schema
  | [] => .ok []
  | col :: columns =>
    match columnType? col.colType with
    | none => .error (.parseError ("unknown type '" ++ col.colType ++ "'") 1 1)
    | some t => do
      let rest ← resolveColumns columns
      .ok ((col.name, t) :: rest)

def execCreateTable (catalog : Catalog) (store : FileStore) (stmt : CreateTable) :
    Except PyErr Unit × Catalog × FileStore :=
  match resolveColumns stmt.columns with
  | .error e => (.error e, catalog, store)
  | .ok columns => catalog.createTable store stmt.name columns

/-- The loop of `exec_drop_table`; tables dropped before an error stay dropped. -/
def dropTables (catalog : Catalog) (store : FileStore) :
    List String → Except PyErr Unit × Catalog × FileStore
  | [] => (.ok (), catalog, store)
  | name :: names =>
    match catalog.dropTable store name with
    | (.error e, catalog, store) => (.error e, catalog, store)
    | (.ok (), catalog, store) => dropTables catalog store names

def execDropTable (catalog : Catalog) (store : FileStore) (stmt : DropTable) :
    Except PyErr Unit × Catalog × FileStore :=
  dropTables catalog store stmt.names

end TinyDB
