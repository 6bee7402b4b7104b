import TinyDB.RowLayout
import TinyDB.Storage

/-!
# The heap of one table

`heap.py`: a table is one page whose body is a row count and then the slots
`[row_length u32][deleted u8][row_data]`. Every operation reads the page,
works on the body and writes the page back; the work on the body is the
`...Body` function of the operation. `findSlot` is the search that `delete`
and `update` share: the first slot with the rowid, dead or alive.
-/

namespace TinyDB

open Lib

structure Heap where
  rootPageId : Nat
  schema : Schema
  deriving DecidableEq, Repr

namespace Heap

/-- `_ALIVE`. -/
def alive : Bytes := [0]

/-- `_read_count`. -/
def readCount (body : Bytes) : Nat × Bytes :=
  if body.length < 2 then (0, []) else (leNat (slice body 0 2), body)

def appendBody (schema : Schema) (values : Row) (pageBody : Bytes) :
    Except PyErr (Nat × Bytes) := do
  let (count, body) := readCount pageBody
  let rowid := count + 1
  let rowData ← encodeRow values schema rowid
  let rowLen := rowData.length + 1
  let newCount ← packUint 2 (count + 1)
  let len ← packUint 4 rowLen
  .ok (rowid, newCount ++ (body.drop 2 ++ (len ++ (alive ++ rowData))))

def append (heap : Heap) (store : FileStore) (values : Row) :
    Except PyErr (Nat × FileStore) := do
  let page ← store.readPage heap.rootPageId
  let (rowid, body) ← appendBody heap.schema values page.body
  let store ← store.writePage { page with body := body }
  .ok (rowid, store)

/-- The loop of `scan` with `n` slots to go, the next one at `offset`. -/
def scanSlots (schema : Schema) (body : Bytes) : Nat → Nat → Except PyErr (List (Nat × Row))
  | 0, _ => .ok []
  | n + 1, offset => do
    let rowLen ← unpackUint 4 (slice body offset (offset + 4))
    let rowBytes := slice body (offset + 4) (offset + 4 + rowLen)
    let deleted := slice rowBytes 0 1
    let rowData := rowBytes.drop 1
    if deleted = alive then
      let rowid ← decodeRowid rowData
      let values ← decodeRow rowData schema
      let rest ← scanSlots schema body n (offset + 4 + rowLen)
      .ok ((rowid, values) :: rest)
    else scanSlots schema body n (offset + 4 + rowLen)

def scanBody (schema : Schema) (pageBody : Bytes) : Except PyErr (List (Nat × Row)) :=
  let (count, body) := readCount pageBody
  scanSlots schema body count 2

def scan (heap : Heap) (store : FileStore) : Except PyErr (List (Nat × Row)) := do
  let page ← store.readPage heap.rootPageId
  scanBody heap.schema page.body

/-- The search loop of `delete` and `update`: the offset of the first slot with
the rowid and its row length. The deleted flag is not looked at. -/
def findSlot (rowid : Nat) (body : Bytes) : Nat → Nat → Except PyErr (Option (Nat × Nat))
  | 0, _ => .ok none
  | n + 1, offset => do
    let rowLen ← unpackUint 4 (slice body offset (offset + 4))
    let rowBytes := slice body (offset + 4) (offset + 4 + rowLen)
    let id ← decodeRowid (rowBytes.drop 1)
    if id = rowid then .ok (some (offset, rowLen))
    else findSlot rowid body n (offset + 4 + rowLen)

/-- The new body, or none when no slot has the rowid and nothing is written. -/
def deleteBody (rowid : Nat) (body : Bytes) : Except PyErr (Option Bytes) := do
  let count ← unpackUint 2 (slice body 0 2)
  let found ← findSlot rowid body count 2
  match found with
  | none => .ok none
  | some (offset, _) => .ok (some (body.set (offset + 4) 1))

def updateBody (schema : Schema) (rowid : Nat) (values : Row) (body : Bytes) :
    Except PyErr (Option Bytes) := do
  let count ← unpackUint 2 (slice body 0 2)
  let found ← findSlot rowid body count 2
  match found with
  | none => .ok none
  | some (rowLenOffset, rowLen) =>
    let start := rowLenOffset + 4
    let rowBytes := slice body start (start + rowLen)
    let rowData := rowBytes.drop 1
    let newRowData ← encodeRow values schema rowid
    let newLen := newRowData.length
    if newLen ≤ rowData.length then
      -- in place: the slot keeps its length, the rest is zeroed
      let len ← packUint 4 rowBytes.length
      let body := setSlice body rowLenOffset (rowLenOffset + 4) len
      let body := setSlice body start (start + 1) alive
      let body := setSlice body (start + 1) (start + 1 + newLen) newRowData
      let padStart := start + 1 + newLen
      let padEnd := start + rowBytes.length
      .ok (some (setSlice body padStart padEnd (zeros (padEnd - padStart))))
    else
      -- overflow: mark the slot deleted and append the row under the same rowid
      let len ← packUint 4 (newLen + 1)
      let newCount ← packUint 2 (count + 1)
      let body := body.set start 1 ++ (len ++ (alive ++ newRowData))
      .ok (some (setSlice body 0 2 newCount))

def writeBack (store : FileStore) (page : Page) : Option Bytes → Except PyErr FileStore
  | none => .ok store
  | some body => store.writePage { page with body := body }

def delete (heap : Heap) (store : FileStore) (rowid : Nat) : Except PyErr FileStore := do
  let page ← store.readPage heap.rootPageId
  let body ← deleteBody rowid page.body
  writeBack store page body

def update (heap : Heap) (store : FileStore) (rowid : Nat) (values : Row) :
    Except PyErr FileStore := do
  let page ← store.readPage heap.rootPageId
  let body ← updateBody heap.schema rowid values page.body
  writeBack store page body

end Heap
end TinyDB
