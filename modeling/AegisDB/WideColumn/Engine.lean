import AegisDB.Library.Table

/-!
# The wide-column engine

Named tables of rows, each row a table of cells that have the time of the write that set them.  A
write sets a cell only if its time is later than that of the cell; it has its time from the caller
or from a clock of the engine.  A deletion has no time, and removes whatever there is.
-/

namespace AegisDB.WideColumn

/-- A single cell: a value and the timestamp of the write that set it. -/
structure Cell (ψ : Type) where
  value : ψ
  timestamp : UInt64
deriving DecidableEq

/-- Errors returned by the wide-column engine. -/
inductive WideColumnError where
  | tableNotFound (name : String)
  | tableExists (name : String)
  | emptyWrite
deriving DecidableEq

/-- A row has its cells by the names of their columns. -/
abbrev Row (ψ : Type) := Table String (Cell ψ)

/-- A table has its rows by their keys. -/
structure WideTable (ψ : Type) where
  rows : Table String (Row ψ) := ∅

/-- Multi-table wide-column store. -/
structure WideColumnEngine (ψ : Type) where
  tables : Table String (WideTable ψ) := ∅
  /-- Logical clock for writes that do not supply a timestamp. -/
  clock : UInt64 := 1

namespace WideColumnEngine

variable {ψ : Type} (self : WideColumnEngine ψ)

def createTable (name : String) : Except WideColumnError (WideColumnEngine ψ) :=
  if name ∈ self.tables then .error (.tableExists name)
  else .ok { self with tables := self.tables.insert name {} }

def dropTable (name : String) : Except WideColumnError (WideColumnEngine ψ) :=
  if name ∈ self.tables then .ok { self with tables := self.tables.erase name }
  else .error (.tableNotFound name)

/-- Set one cell, unless there is one whose timestamp is not older. -/
def putCell (ts : UInt64) (row : Row ψ) (column : String) (value : ψ) : Row ψ :=
  match row.lookup column with
  | some existing =>
    if ts ≤ existing.timestamp then row else row.insert column { value, timestamp := ts }
  | none => row.insert column { value, timestamp := ts }

/-- Set the cells of some columns, one after the other. -/
def putRow (ts : UInt64) (row : Row ψ) (columns : Table String ψ) : Row ψ :=
  columns.entries.foldl (fun row entry => putCell ts row entry.1 entry.2) row

/-- Set one or more columns on a row; the timestamp is the next tick of the clock if there is
none. -/
def put (table rowKey : String) (columns : Table String ψ) (timestamp : Option UInt64) :
    Except WideColumnError (WideColumnEngine ψ) :=
  if columns.entries = [] then .error .emptyWrite
  else
    let ts := timestamp.getD self.clock
    let clock := if timestamp.isSome then self.clock else self.clock + 1
    let t := (self.tables.lookup table).getD {}
    let row := (t.rows.lookup rowKey).getD ∅
    .ok { tables := self.tables.insert table
            { t with rows := t.rows.insert rowKey (putRow ts row columns) }
          clock }

/-- Delete a single column from a row, and the row with its last column; whether it existed. -/
def deleteCell (table rowKey column : String) :
    Except WideColumnError (Bool × WideColumnEngine ψ) :=
  match self.tables.lookup table with
  | none => .error (.tableNotFound table)
  | some t =>
    match t.rows.lookup rowKey with
    | none => .ok (false, self)
    | some row =>
      let rest := row.erase column
      let rows := if rest.entries = [] then t.rows.erase rowKey else t.rows.insert rowKey rest
      .ok (decide (column ∈ row), { self with tables := self.tables.insert table { t with rows } })

/-- Delete an entire row; whether it existed. -/
def deleteRow (table rowKey : String) : Except WideColumnError (Bool × WideColumnEngine ψ) :=
  match self.tables.lookup table with
  | none => .error (.tableNotFound table)
  | some t =>
    .ok (decide (rowKey ∈ t.rows),
      { self with tables := self.tables.insert table { t with rows := t.rows.erase rowKey } })

/-! ## Cells -/

def cell (table rowKey column : String) : Option (Cell ψ) :=
  ((self.tables.lookup table).bind fun t => t.rows.lookup rowKey).bind fun row => row.lookup column

variable {self}

theorem cell_eq_bind (table rowKey column : String) : self.cell table rowKey column =
    (((self.tables.lookup table).getD {}).rows.lookup rowKey).bind fun row =>
      row.lookup column := by
  rw [cell]
  cases self.tables.lookup table <;> rfl

theorem cell_eq (table rowKey column : String) : self.cell table rowKey column =
    ((((self.tables.lookup table).getD {}).rows.lookup rowKey).getD ∅).lookup column := by
  rw [cell_eq_bind]
  cases ((self.tables.lookup table).getD {}).rows.lookup rowKey <;> rfl

theorem cell_insert {tables : Table String (WideTable ψ)} {clock : UInt64} {table : String}
    {t : WideTable ψ} (table' rowKey column : String) :
    cell { tables := tables.insert table t, clock } table' rowKey column =
      if table' = table then (t.rows.lookup rowKey).bind fun row => row.lookup column
      else cell { tables, clock } table' rowKey column := by
  rw [cell, cell]
  dsimp only
  rw [Table.lookup_insert]
  split_ifs <;> rfl

end WideColumnEngine

end AegisDB.WideColumn
