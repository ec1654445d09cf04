import AegisDB.Query.Index
import AegisDB.Query.TableData

/-!
# The execution context

The tables of a database with their schemas, and the metadata and the contents of their indexes,
with the operations that change them.  The schemas and the data of tables are two maps, and the
names of columns stand in both.  A panic under the lock of a table poisons it, and every later
attempt to take the lock is an error.
-/

namespace AegisDB

namespace Query

/-! ## Schemas -/

inductive DataType where
  | any | boolean | tinyInt | smallInt | integer | bigInt | float | double
  | decimal (precision scale : ℕ)
  | char (length : ℕ)
  | varchar (length : ℕ)
  | text
  | binary (length : ℕ)
  | varbinary (length : ℕ)
  | blob | date | time | timestamp | timestampTz | interval | json | jsonb | uuid
  | array (element : DataType)
deriving DecidableEq

structure ColumnSchema where
  name : String
  dataType : DataType
  nullable : Bool
  default : Option Value
deriving DecidableEq

/-- A constraint as it is stored; a `CHECK` is stored by the debug text of its expression. -/
inductive StoredConstraintType where
  | primaryKey (columns : List String)
  | unique (columns : List String)
  | foreignKey (columns : List String) (refTable : String) (refColumns : List String)
  | check (expressionText : String)
deriving DecidableEq

structure StoredConstraint where
  name : String
  constraintType : StoredConstraintType
deriving DecidableEq

structure TableSchema where
  name : String
  columns : List ColumnSchema
  primaryKey : Option (List String)
  constraints : List StoredConstraint
deriving DecidableEq

/-- The metadata of an index. -/
structure IndexSchema where
  name : String
  table : String
  columns : List String
  unique : Bool
deriving DecidableEq

namespace TableSchema

variable (schema : TableSchema)

def hasColumn (name : String) : Bool :=
  schema.columns.any (·.name == name)

/-- The position of the first column of a name. -/
def position (name : String) : Option ℕ :=
  schema.columns.findIdx? (·.name == name)

def modifyColumn (idx : ℕ) (f : ColumnSchema → ColumnSchema) : TableSchema :=
  { schema with columns := schema.columns.modify idx f }

/-- What `INSERT` takes from the schema and the names of the columns in the data. -/
def insertTarget (tableName : String) (columns : List String) (indices : List ℕ) :
    InsertTarget where
  tableName := tableName
  columns := columns
  columnIndices := indices
  defaults := schema.columns.map fun col => col.default.getD .null
  pkColumns := (schema.primaryKey.getD []).filterMap columns.idxOf?
  uniqueColumns := schema.constraints.filterMap fun c =>
    match c.constraintType with
    | .unique cols => some (cols.filterMap columns.idxOf?)
    | _ => none
  notNullColumns := (schema.columns.zipIdx.filter fun e => !e.1.nullable).map Prod.snd

end TableSchema

/-! ## Definitions in statements -/

/-- A column in `CREATE TABLE` and `ADD COLUMN`. -/
structure CreateColumnDef where
  name : String
  dataType : DataType
  nullable : Bool
  default : Option PlanExpression
  primaryKey : Bool
  unique : Bool

inductive CreateTableConstraint where
  | primaryKey (columns : List String)
  | unique (columns : List String)
  | foreignKey (columns : List String) (refTable : String) (refColumns : List String)
  | check (expression : PlanExpression)

/-- An action of `ALTER TABLE`. -/
inductive PlanAlterOperation where
  | addColumn (col : CreateColumnDef)
  | dropColumn (name : String) (ifExists : Bool)
  | renameColumn (oldName newName : String)
  | alterColumn (name : String) (dataType : Option DataType) (setNotNull : Option Bool)
      (setDefault : Option (Option PlanExpression))
  | renameTable (newName : String)
  | addConstraint (constraint : CreateTableConstraint)
  | dropConstraint (name : String)

def evaluateDefaultExpression (expr : PlanExpression) : Except ExecutorError Value :=
  evaluateExpression [] [] expr

def evaluateDefault : Option PlanExpression → Except ExecutorError (Option Value)
  | none => .ok none
  | some expr => (evaluateDefaultExpression expr).map some

/-- The debug texts that the executor stores or takes for keys. -/
structure DebugText where
  value : Value → String
  expression : PlanExpression → String

def CreateTableConstraint.suffix : CreateTableConstraint → String
  | .primaryKey _ => "pk"
  | .unique _ => "uq"
  | .foreignKey _ _ _ => "fk"
  | .check _ => "ck"

/-- A constraint as it is stored. -/
def CreateTableConstraint.stored (text : DebugText) : CreateTableConstraint → StoredConstraintType
  | .primaryKey columns => .primaryKey columns
  | .unique columns => .unique columns
  | .foreignKey columns refTable refColumns => .foreignKey columns refTable refColumns
  | .check expression => .check (text.expression expression)

/-! ## The context -/

/-- The data of a table behind its lock. -/
structure SharedTable where
  data : TableData
  poisoned : Bool
deriving DecidableEq

structure ExecutionContext where
  tables : Table String SharedTable
  tableSchemas : Table String TableSchema
  indexes : Table String (List IndexSchema)
  tableIndexes : Table String TableIndexManager
  versionClock : ℕ
  /-- The version that the transaction in progress sees. -/
  snapshotVersion : Option ℕ

namespace ExecutionContext

variable (ctx : ExecutionContext)

def new : ExecutionContext where
  tables := ∅
  tableSchemas := ∅
  indexes := ∅
  tableIndexes := ∅
  versionClock := 1
  snapshotVersion := none

def beginSnapshot : ExecutionContext :=
  { ctx with snapshotVersion := some ctx.versionClock }

/-- Release the snapshot and advance the clock. -/
def commitSnapshot : ExecutionContext :=
  { ctx with versionClock := ctx.versionClock + 1, snapshotVersion := none }

def rollbackSnapshot : ExecutionContext :=
  { ctx with snapshotVersion := none }

def lockPoisoned : ExecutorError :=
  .internal "Lock poisoned"

def lockTable (name : String) : Except ExecutorError TableData :=
  match ctx.tables.lookup name with
  | none => .error (.tableNotFound name)
  | some shared => if shared.poisoned then .error lockPoisoned else .ok shared.data

/-- Leave data behind under the lock of a table, which a panic poisons. -/
def unlockTable {α : Type} (name : String) (data : TableData) (result : Except Failure α) :
    ExecutionContext :=
  let poisoned := match result with
    | .error .panic => true
    | _ => false
  { ctx with tables := ctx.tables.modify name fun _ => ⟨data, poisoned⟩ }

def setSchema (name : String) (schema : TableSchema) : ExecutionContext :=
  { ctx with tableSchemas := ctx.tableSchemas.modify name fun _ => schema }

/-! ## Tables -/

def createTable (name : String) (columns : List ColumnSchema) (primaryKey : Option (List String))
    (constraints : List StoredConstraint) (ifNotExists : Bool) :
    ExecutionContext × Except ExecutorError Unit :=
  if name ∈ ctx.tables then
    if ifNotExists then (ctx, .ok ())
    else (ctx, .error (.invalidOperation ("Table '" ++ name ++ "' already exists")))
  else
    ({ ctx with
        tableSchemas := ctx.tableSchemas.insert name { name, columns, primaryKey, constraints }
        tables := ctx.tables.insert name
          { data :=
              { name
                columns := columns.map ColumnSchema.name
                rows := []
                rowCreatedVersion := []
                rowDeletedVersion := [] }
            poisoned := false } },
      .ok ())

def dropTable (name : String) (ifExists : Bool) : ExecutionContext × Except ExecutorError Unit :=
  if name ∈ ctx.tables then
    ({ ctx with
        tables := ctx.tables.erase name
        tableSchemas := ctx.tableSchemas.erase name
        indexes := ctx.indexes.erase name },
      .ok ())
  else if ifExists then (ctx, .ok ())
  else (ctx, .error (.tableNotFound name))

/-! ## The actions of `ALTER TABLE` -/

/-- Change every row of a table, if the table has data. -/
def changeRows (name : String) (f : Row → Row) : ExecutionContext × Except ExecutorError Unit :=
  match ctx.tables.lookup name with
  | none => (ctx, .ok ())
  | some shared =>
      if shared.poisoned then (ctx, .error lockPoisoned)
      else
        ({ ctx with tables := ctx.tables.modify name fun _ =>
            { data := { shared.data with rows := shared.data.rows.map f }, poisoned := false } },
          .ok ())

def addColumn (name : String) (schema : TableSchema) (col : CreateColumnDef) :
    ExecutionContext × Except ExecutorError Unit :=
  if schema.hasColumn col.name then
    (ctx, .error (.invalidOperation
      ("Column '" ++ col.name ++ "' already exists in table '" ++ name ++ "'")))
  else
    match evaluateDefault col.default with
    | .error e => (ctx, .error e)
    | .ok default =>
        let column : ColumnSchema :=
          { name := col.name, dataType := col.dataType, nullable := col.nullable, default }
        (ctx.setSchema name { schema with columns := schema.columns ++ [column] }).changeRows name
          fun row => row ++ [default.getD .null]

def dropColumn (name : String) (schema : TableSchema) (colName : String) (ifExists : Bool) :
    ExecutionContext × Except ExecutorError Unit :=
  match schema.position colName with
  | some idx =>
      (ctx.setSchema name { schema with columns := schema.columns.eraseIdx idx }).changeRows name
        fun row => row.eraseIdx idx
  | none => if ifExists then (ctx, .ok ()) else (ctx, .error (.columnNotFound colName))

def renameColumn (name : String) (schema : TableSchema) (oldName newName : String) :
    ExecutionContext × Except ExecutorError Unit :=
  match schema.position oldName with
  | some idx =>
      (ctx.setSchema name (schema.modifyColumn idx fun col => { col with name := newName }), .ok ())
  | none => (ctx, .error (.columnNotFound oldName))

def alterColumn (name : String) (schema : TableSchema) (colName : String)
    (dataType : Option DataType) (setNotNull : Option Bool)
    (setDefault : Option (Option PlanExpression)) :
    ExecutionContext × Except ExecutorError Unit :=
  match schema.position colName with
  | some idx =>
      let schema := schema.modifyColumn idx fun col =>
        { col with
          dataType := dataType.getD col.dataType
          nullable := (setNotNull.map not).getD col.nullable }
      match setDefault with
      | none => (ctx.setSchema name schema, .ok ())
      | some newDefault =>
          match evaluateDefault newDefault with
          | .error e => (ctx.setSchema name schema, .error e)
          | .ok default =>
              (ctx.setSchema name (schema.modifyColumn idx fun col => { col with default }), .ok ())
  | none => (ctx, .error (.columnNotFound colName))

def moveKey {β : Type} (old new : String) (f : β → β) (t : Table String β) : Table String β :=
  match t.lookup old with
  | none => t
  | some b => (t.erase old).insert new (f b)

def renameTable (name newName : String) : ExecutionContext × Except ExecutorError Unit :=
  ({ ctx with
      tables := moveKey name newName id ctx.tables
      tableSchemas := moveKey name newName (fun schema => { schema with name := newName })
        ctx.tableSchemas
      indexes := moveKey name newName id ctx.indexes },
    .ok ())

/-- What a constraint that is added must refer to. -/
def checkConstraint (name : String) (schema : TableSchema) (constraint : CreateTableConstraint) :
    Except ExecutorError Unit :=
  let checkColumns (columns : List String) : Except ExecutorError Unit :=
    match columns.find? fun col => !schema.hasColumn col with
    | some col => .error (.columnNotFound col)
    | none => .ok ()
  match constraint with
  | .primaryKey _ =>
      if schema.primaryKey.isSome then
        .error (.invalidOperation ("Table '" ++ name ++ "' already has a primary key"))
      else .ok ()
  | .unique columns => checkColumns columns
  | .foreignKey columns refTable _ =>
      if refTable ∈ ctx.tableSchemas then checkColumns columns
      else .error (.tableNotFound refTable)
  | .check _ => .ok ()

def addConstraint (text : DebugText) (name : String) (schema : TableSchema)
    (constraint : CreateTableConstraint) : ExecutionContext × Except ExecutorError Unit :=
  match ctx.checkConstraint name schema constraint with
  | .error e => (ctx, .error e)
  | .ok () =>
      let stored : StoredConstraint :=
        { name := name ++ "_" ++ constraint.suffix ++ toString (schema.constraints.length + 1)
          constraintType := constraint.stored text }
      let primaryKey := match constraint with
        | .primaryKey columns => some columns
        | _ => schema.primaryKey
      (ctx.setSchema name { schema with
        primaryKey, constraints := schema.constraints ++ [stored] }, .ok ())

def dropConstraint (name : String) (schema : TableSchema) (constraintName : String) :
    ExecutionContext × Except ExecutorError Unit :=
  match schema.constraints.find? (·.name == constraintName) with
  | some removed =>
      let primaryKey := match removed.constraintType with
        | .primaryKey _ => none
        | _ => schema.primaryKey
      (ctx.setSchema name { schema with
        primaryKey
        constraints := schema.constraints.eraseP (·.name == constraintName) }, .ok ())
  | none =>
      (ctx, .error (.invalidOperation
        ("Constraint '" ++ constraintName ++ "' not found on table '" ++ name ++ "'")))

def alterTable (text : DebugText) (name : String) (op : PlanAlterOperation) :
    ExecutionContext × Except ExecutorError Unit :=
  match ctx.tableSchemas.lookup name with
  | none => (ctx, .error (.tableNotFound name))
  | some schema =>
      match op with
      | .addColumn col => ctx.addColumn name schema col
      | .dropColumn colName ifExists => ctx.dropColumn name schema colName ifExists
      | .renameColumn oldName newName => ctx.renameColumn name schema oldName newName
      | .alterColumn colName dataType setNotNull setDefault =>
          ctx.alterColumn name schema colName dataType setNotNull setDefault
      | .renameTable newName => ctx.renameTable name newName
      | .addConstraint constraint => ctx.addConstraint text name schema constraint
      | .dropConstraint constraintName => ctx.dropConstraint name schema constraintName

/-! ## Indexes -/

/-- The key of a row in an index.  Where a name stands for more columns, the last counts. -/
def indexKey (text : DebugText) (columns indexColumns : List String) (row : Row) : IndexKey :=
  indexColumns.map fun col =>
    match (columns.zip row).reverse.lookup col with
    | some v => IndexKey.fromValue text.value v
    | none => .null

/-- Put the rows from a position on into an index. -/
def populateIndex (text : DebugText) (name : String) (columns indexColumns : List String) :
    ℕ → List Row → TableIndexManager → TableIndexManager × Except ExecutorError Unit
  | _, [], manager => (manager, .ok ())
  | rowId, row :: rows, manager =>
      match manager.insertIntoIndex name (indexKey text columns indexColumns row) rowId with
      | .error e => (manager, .error e.toExecutorError)
      | .ok manager => populateIndex text name columns indexColumns (rowId + 1) rows manager

/-- Make an index of a table and fill it. -/
def rebuildIndex (text : DebugText) (name table : String) (columns : List String) (unique : Bool) :
    ExecutionContext × Except ExecutorError Unit :=
  match ctx.tables.lookup table with
  | none => (ctx, .error (.tableNotFound table))
  | some shared =>
      let manager := (ctx.tableIndexes.lookup table).getD .new
      let withManager (manager : TableIndexManager) : ExecutionContext :=
        { ctx with tableIndexes := ctx.tableIndexes.insert table manager }
      match manager.createIndex name columns unique with
      | .error e => (withManager manager, .error e.toExecutorError)
      | .ok manager =>
          if shared.poisoned then (withManager manager, .error lockPoisoned)
          else
            let done := populateIndex text name shared.data.columns columns 0 shared.data.rows
              manager
            (withManager done.1, done.2)

/-- Make an index: its metadata first, and then the index itself. -/
def createIndex (text : DebugText) (name table : String) (columns : List String) (unique : Bool)
    (ifNotExists : Bool) : ExecutionContext × Except ExecutorError Unit :=
  if table ∈ ctx.tables then
    let indexes := (ctx.indexes.lookup table).getD []
    if indexes.any (·.name == name) then
      if ifNotExists then (ctx, .ok ())
      else (ctx, .error (.invalidOperation ("Index '" ++ name ++ "' already exists")))
    else
      let schema : IndexSchema := { name, table, columns, unique }
      { ctx with indexes := ctx.indexes.insert table (indexes ++ [schema]) }.rebuildIndex text name
        table columns unique
  else (ctx, .error (.tableNotFound table))

/-- Drop the first index of a name; the order is that in which the hash map of metadata gives its
keys. -/
def dropIndex (order : List String) (name : String) (ifExists : Bool) :
    ExecutionContext × Except ExecutorError Unit :=
  let has (table : String) : Bool :=
    ((ctx.indexes.lookup table).getD []).any (·.name == name)
  match order.find? has with
  | some table =>
      ({ ctx with
          indexes := ctx.indexes.modify table fun indexes => indexes.eraseP (·.name == name)
          tableIndexes := ctx.tableIndexes.modify table fun manager => manager.dropIndex name },
        .ok ())
  | none =>
      if ifExists then (ctx, .ok ())
      else (ctx, .error (.invalidOperation ("Index '" ++ name ++ "' not found")))

/-! ## Rows -/

def insertRows (tableName : String) (columns : List String) (rows : List (List Value)) :
    ExecutionContext × Except Failure ℕ :=
  match ctx.lockTable tableName with
  | .error e => (ctx, .error (.error e))
  | .ok data =>
      match ctx.tableSchemas.lookup tableName with
      | none => (ctx, .error (.error (.tableNotFound tableName)))
      | some schema =>
          let targetColumns := if columns.isEmpty then data.columns else columns
          match columnIndices data.columns targetColumns with
          | .error e => (ctx, .error (.error e))
          | .ok indices =>
              let target := schema.insertTarget tableName data.columns indices
              let done := data.insertLoop ctx.snapshotVersion target ctx.versionClock rows
              (ctx.unlockTable tableName done.1 done.2, done.2)

def assignmentIndices (columns : List String) (assignments : List (String × Value)) :
    Except ExecutorError (List (ℕ × Value)) :=
  (columnIndices columns (assignments.map Prod.fst)).map fun indices =>
    indices.zip (assignments.map Prod.snd)

def updateRows (tableName : String) (assignments : List (String × Value))
    (predicate : Option RowPredicate) : ExecutionContext × Except Failure ℕ :=
  match ctx.lockTable tableName with
  | .error e => (ctx, .error (.error e))
  | .ok data =>
      match assignmentIndices data.columns assignments with
      | .error e => (ctx, .error (.error e))
      | .ok indices =>
          let done := data.updateRows ctx.snapshotVersion indices predicate
          (ctx.unlockTable tableName done.1 done.2, done.2)

def deleteRows (tableName : String) (predicate : Option RowPredicate) :
    ExecutionContext × Except Failure ℕ :=
  match ctx.lockTable tableName with
  | .error e => (ctx, .error (.error e))
  | .ok data =>
      let done := data.deleteRows ctx.snapshotVersion predicate ctx.versionClock
      let result : Except Failure ℕ := .ok done.2
      (ctx.unlockTable tableName done.1 result, result)

end ExecutionContext

end Query

end AegisDB
