import AegisDB.Query.Expression

/-!
# The data of a table

A table keeps its rows together with the version at which each was made and the version at which it
was deleted.  This module has the loops over rows behind `INSERT`, `UPDATE` and `DELETE`.  Indexing
past the end of a row ends such a loop by a panic; what the loop has changed until then stays.
-/

namespace AegisDB

namespace Query

/-- How an operation on a table fails. -/
inductive Failure where
  | error (e : ExecutorError)
  /-- A position past the end of a row was read or written. -/
  | panic
deriving DecidableEq

/-- The data of a table. -/
structure TableData where
  name : String
  columns : List String
  rows : List Row
  rowCreatedVersion : List ℕ
  /-- The version at which each row was deleted, or zero. -/
  rowDeletedVersion : List ℕ
deriving DecidableEq

abbrev RowPredicate := Row → List String → Bool

/-- The positions of columns. -/
def columnIndices (columns : List String) : List String → Except ExecutorError (List ℕ)
  | [] => .ok []
  | col :: cols =>
      match columns.idxOf? col with
      | none => .error (.columnNotFound col)
      | some idx => (columnIndices columns cols).map fun rest => idx :: rest

/-- The values of a row at some positions. -/
def valuesAt (row : Row) : List ℕ → Except Failure (List Value)
  | [] => .ok []
  | i :: is =>
      match row[i]? with
      | none => .error .panic
      | some v => (valuesAt row is).map fun vs => v :: vs

/-- Put values at positions of a row, as long as there are values. -/
def fillRow : List ℕ → List Value → Row → Except Failure Row
  | i :: is, v :: vs, row => if i < row.length then fillRow is vs (row.set i v) else .error .panic
  | _, _, row => .ok row

/-- Put values at positions of a row: the row, and whether all positions were in it. -/
def assign : List (ℕ × Value) → Row → Row × Bool
  | [], row => (row, true)
  | (i, v) :: rest, row => if i < row.length then assign rest (row.set i v) else (row, false)

/-- Whether one of the rows has the given values at some positions. -/
def containsKey (positions : List ℕ) (vals : List Value) : List Row → Except Failure Bool
  | [] => .ok false
  | existing :: rows =>
      match valuesAt existing positions with
      | .error e => .error e
      | .ok existingVals =>
          if Value.beqList vals existingVals then .ok true else containsKey positions vals rows

/-! ## Checks of a new row -/

/-- What `INSERT` knows of the table before it makes the first row. -/
structure InsertTarget where
  tableName : String
  /-- The names of the columns in the data of the table. -/
  columns : List String
  columnIndices : List ℕ
  defaults : List Value
  pkColumns : List ℕ
  uniqueColumns : List (List ℕ)
  notNullColumns : List ℕ

namespace InsertTarget

variable (target : InsertTarget)

def checkNotNull (newRow : Row) : List ℕ → Except Failure Unit
  | [] => .ok ()
  | i :: is =>
      if newRow.getD i .null = .null then
        .error (.error (.invalidOperation
          ("NOT NULL constraint violated for column '" ++ target.columns.getD i "" ++ "'")))
      else checkNotNull newRow is

def checkPrimaryKey (visible : List Row) (newRow : Row) : Except Failure Unit :=
  if target.pkColumns.isEmpty then .ok ()
  else do
    let pkVals ← valuesAt newRow target.pkColumns
    if ← containsKey target.pkColumns pkVals visible then
      .error (.error (.invalidOperation
        ("PRIMARY KEY constraint violated: duplicate key in table '" ++ target.tableName ++ "'")))
    else .ok ()

def checkUnique (visible : List Row) (newRow : Row) : List (List ℕ) → Except Failure Unit
  | [] => .ok ()
  | uniqueCols :: rest => do
      let vals ← valuesAt newRow uniqueCols
      if vals.any (· == .null) then checkUnique visible newRow rest
      else if ← containsKey uniqueCols vals visible then
        .error (.error (.invalidOperation "UNIQUE constraint violated"))
      else checkUnique visible newRow rest

/-- The row of given values, after all checks next to the visible rows. -/
def makeRow (visible : List Row) (rowValues : List Value) : Except Failure Row := do
  let newRow ← fillRow target.columnIndices rowValues target.defaults
  target.checkNotNull newRow target.notNullColumns
  target.checkPrimaryKey visible newRow
  checkUnique visible newRow target.uniqueColumns
  return newRow

end InsertTarget

/-! ## Rows and their versions -/

/-- Whether a row is seen: in a transaction if it was there when the transaction began, and
otherwise if it is alive. -/
def isVisible (snapshot : Option ℕ) (created deleted : ℕ) : Bool :=
  match snapshot with
  | some snap => created ≤ snap && (deleted == 0 || deleted > snap)
  | none => deleted == 0

namespace TableData

variable (snapshot : Option ℕ) (table : TableData)

def isRowVisible (i : ℕ) : Bool :=
  isVisible snapshot (table.rowCreatedVersion.getD i 0) (table.rowDeletedVersion.getD i 0)

def visibleRows : List Row :=
  (table.rows.zipIdx.filter fun e => table.isRowVisible snapshot e.2).map Prod.fst

/-- Whether an operation is for the row at a position. -/
def selects (predicate : Option RowPredicate) (i : ℕ) : Bool :=
  table.isRowVisible snapshot i &&
    match table.rows[i]?, predicate with
    | none, _ => false
    | some _, none => true
    | some row, some p => p row table.columns

/-- Add a row. -/
def push (version : ℕ) (row : Row) : TableData :=
  { table with
    rows := table.rows ++ [row]
    rowCreatedVersion := table.rowCreatedVersion ++ [version]
    rowDeletedVersion := table.rowDeletedVersion ++ [0] }

/-- Add rows of given values, and count them. -/
def insertLoop (target : InsertTarget) (version : ℕ) :
    List (List Value) → TableData → TableData × Except Failure ℕ
  | [], table => (table, .ok 0)
  | rowValues :: rest, table =>
      match target.makeRow (table.visibleRows snapshot) rowValues with
      | .error e => (table, .error e)
      | .ok newRow =>
          let done := insertLoop target version rest (table.push version newRow)
          (done.1, done.2.map fun inserted => inserted + 1)

/-- Assign values in the rows at selected positions from a position on, and count them. -/
def updateLoop (assignments : List (ℕ × Value)) (selected : ℕ → Bool) :
    ℕ → List Row → List Row × Except Failure ℕ
  | _, [] => ([], .ok 0)
  | i, row :: rows =>
      if selected i then
        match assign assignments row with
        | (row', false) => (row' :: rows, .error .panic)
        | (row', true) =>
            let done := updateLoop assignments selected (i + 1) rows
            (row' :: done.1, done.2.map fun updated => updated + 1)
      else
        let done := updateLoop assignments selected (i + 1) rows
        (row :: done.1, done.2)

def updateRows (assignments : List (ℕ × Value)) (predicate : Option RowPredicate) :
    TableData × Except Failure ℕ :=
  let done := updateLoop assignments (table.selects snapshot predicate) 0 table.rows
  ({ table with rows := done.1 }, done.2)

/-- Mark the selected rows as deleted, and count them. -/
def markDeleted (predicate : Option RowPredicate) (version : ℕ) : TableData × ℕ :=
  let selected := table.selects snapshot predicate
  ({ table with
      rowDeletedVersion := table.rowDeletedVersion.mapIdx fun i d => if selected i then version
        else d },
    ((List.range table.rows.length).filter selected).length)

/-- Remove the rows that are marked as deleted, with their versions. -/
def compactLoop : List Row → List ℕ → List ℕ → List Row × List ℕ × List ℕ
  | [], created, deleted => ([], created, deleted)
  | row :: rows, created, deleted =>
      let done := compactLoop rows created.tail deleted.tail
      if deleted.headD 0 > 0 then done
      else (row :: done.1, created.take 1 ++ done.2.1, deleted.take 1 ++ done.2.2)

def compact : TableData :=
  let done := compactLoop table.rows table.rowCreatedVersion table.rowDeletedVersion
  { table with rows := done.1, rowCreatedVersion := done.2.1, rowDeletedVersion := done.2.2 }

/-- Delete the selected rows.  In a transaction they are only marked. -/
def deleteRows (predicate : Option RowPredicate) (version : ℕ) : TableData × ℕ :=
  let done := table.markDeleted snapshot predicate version
  (if snapshot.isNone then done.1.compact else done.1, done.2)

end TableData

end Query

end AegisDB
