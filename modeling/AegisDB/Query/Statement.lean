import AegisDB.Query.Context

/-!
# Statements

The plan nodes that change the execution context, and how the executor carries them out.  Values
are computed before anything is changed; from there on a statement makes its changes one by one.
-/

namespace AegisDB

namespace Query

structure CreateTableNode where
  tableName : String
  columns : List CreateColumnDef
  constraints : List CreateTableConstraint
  ifNotExists : Bool

structure DropTableNode where
  tableName : String
  ifExists : Bool

structure AlterTableNode where
  tableName : String
  operations : List PlanAlterOperation

structure CreateIndexNode where
  indexName : String
  tableName : String
  columns : List String
  unique : Bool
  ifNotExists : Bool

structure DropIndexNode where
  indexName : String
  ifExists : Bool

/-- Where the rows of an `INSERT` come from. -/
inductive InsertPlanSource where
  | values (values : List (List PlanExpression))
  /-- A subquery, by the rows that it gives in a context. -/
  | query (subquery : ExecutionContext → Except Failure (List Row))

structure InsertNode where
  tableName : String
  columns : List String
  source : InsertPlanSource

structure UpdateNode where
  tableName : String
  assignments : List (String × PlanExpression)
  whereClause : Option PlanExpression

structure DeleteNode where
  tableName : String
  whereClause : Option PlanExpression

/-- A plan that changes the context. -/
inductive Statement where
  | createTable (node : CreateTableNode)
  | dropTable (node : DropTableNode)
  | alterTable (node : AlterTableNode)
  | createIndex (node : CreateIndexNode)
  /-- With the order in which the hash map of index metadata gives its keys. -/
  | dropIndex (node : DropIndexNode) (order : List String)
  | insert (node : InsertNode)
  | update (node : UpdateNode)
  | delete (node : DeleteNode)

structure QueryResult where
  columns : List String
  rows : List Row
  rowsAffected : ℕ
deriving DecidableEq

namespace QueryResult

def ofText (text : String) : QueryResult where
  columns := ["result"]
  rows := [[.string text]]
  rowsAffected := 0

def ofCount (count : ℕ) : QueryResult where
  columns := ["rows_affected"]
  rows := [[.integer (Int64.ofNat count)]]
  rowsAffected := count

end QueryResult

/-- An error of the executor as the failure of an operation. -/
def liftError {α : Type} (x : Except ExecutorError α) : Except Failure α :=
  x.mapError .error

/-! ## Values -/

/-- The values of expressions without a row. -/
def evaluateAll : List PlanExpression → Except ExecutorError (List Value)
  | [] => .ok []
  | expr :: exprs => do
      let v ← evaluateExpression [] [] expr
      let vs ← evaluateAll exprs
      return v :: vs

def evaluateRows : List (List PlanExpression) → Except ExecutorError (List (List Value))
  | [] => .ok []
  | exprs :: rest => do
      let row ← evaluateAll exprs
      let rows ← evaluateRows rest
      return row :: rows

def evaluateAssignments : List (String × PlanExpression) →
    Except ExecutorError (List (String × Value))
  | [] => .ok []
  | (col, expr) :: rest => do
      let v ← evaluateExpression [] [] expr
      let vs ← evaluateAssignments rest
      return (col, v) :: vs

/-- The rows that a condition is true of. -/
def rowPredicate (whereClause : Option PlanExpression) : Option RowPredicate :=
  whereClause.map fun wc row cols =>
    match evaluateExpression row cols wc with
    | .ok (.boolean true) => true
    | _ => false

def InsertPlanSource.rows (ctx : ExecutionContext) :
    InsertPlanSource → Except Failure (List (List Value))
  | .values exprs => liftError (evaluateRows exprs)
  | .query run => run ctx

/-! ## Constraints of a new table -/

def evaluateColumns : List CreateColumnDef → Except ExecutorError (List ColumnSchema)
  | [] => .ok []
  | col :: cols => do
      let default ← evaluateDefault col.default
      let rest ← evaluateColumns cols
      return { name := col.name, dataType := col.dataType, nullable := col.nullable, default } ::
        rest

namespace CreateTableNode

variable (node : CreateTableNode)

/-- The primary key: the first constraint of that kind, or else the columns that are flagged. -/
def primaryKey : Option (List String) :=
  (node.constraints.findSome? fun c =>
    match c with
    | .primaryKey columns => some columns
    | _ => none).or
  (let pkCols := (node.columns.filter (·.primaryKey)).map (·.name)
  if pkCols.isEmpty then none else some pkCols)

/-- The constraints of the table, numbered from one. -/
def tableConstraints (text : DebugText) : List StoredConstraint :=
  node.constraints.zipIdx.map fun e =>
    { name := node.tableName ++ "_" ++ e.1.suffix ++ toString (e.2 + 1)
      constraintType := e.1.stored text }

/-- The `UNIQUE` flags of columns, numbered further. -/
def columnConstraints : List StoredConstraint :=
  (node.columns.filter (·.unique)).zipIdx.map fun e =>
    { name := node.tableName ++ "_" ++ e.1.name ++ "_uq" ++
        toString (node.constraints.length + e.2 + 1)
      constraintType := .unique [e.1.name] }

end CreateTableNode

/-! ## Execution -/

namespace ExecutionContext

variable (text : DebugText) (ctx : ExecutionContext)

/-- The answer once an operation has succeeded. -/
def answer {α : Type} (done : ExecutionContext × Except ExecutorError α) (result : QueryResult) :
    ExecutionContext × Except Failure QueryResult :=
  (done.1, liftError (done.2.map fun _ => result))

def executeCreateTable (node : CreateTableNode) : ExecutionContext × Except Failure QueryResult :=
  match evaluateColumns node.columns with
  | .error e => (ctx, .error (.error e))
  | .ok columns =>
      answer
        (ctx.createTable node.tableName columns node.primaryKey
          (node.tableConstraints text ++ node.columnConstraints) node.ifNotExists)
        (.ofText ("Table '" ++ node.tableName ++ "' created"))

def executeDropTable (node : DropTableNode) : ExecutionContext × Except Failure QueryResult :=
  answer (ctx.dropTable node.tableName node.ifExists)
    (.ofText ("Table '" ++ node.tableName ++ "' dropped"))

/-- The actions of `ALTER TABLE` in turn, up to the first that fails. -/
def alterAll (tableName : String) : ExecutionContext → List PlanAlterOperation →
    ExecutionContext × Except ExecutorError Unit
  | ctx, [] => (ctx, .ok ())
  | ctx, op :: ops =>
      match ctx.alterTable text tableName op with
      | (ctx', .error e) => (ctx', .error e)
      | (ctx', .ok ()) => alterAll tableName ctx' ops

def executeAlterTable (node : AlterTableNode) : ExecutionContext × Except Failure QueryResult :=
  let opCount := node.operations.length
  answer (alterAll text node.tableName ctx node.operations)
    (.ofText (if opCount = 1 then "Table '" ++ node.tableName ++ "' altered"
      else "Table '" ++ node.tableName ++ "' altered (" ++ toString opCount ++ " operations)"))

def executeCreateIndex (node : CreateIndexNode) : ExecutionContext × Except Failure QueryResult :=
  answer (ctx.createIndex text node.indexName node.tableName node.columns node.unique
      node.ifNotExists)
    (.ofText ("Index '" ++ node.indexName ++ "' created"))

def executeDropIndex (node : DropIndexNode) (order : List String) :
    ExecutionContext × Except Failure QueryResult :=
  answer (ctx.dropIndex order node.indexName node.ifExists)
    (.ofText ("Index '" ++ node.indexName ++ "' dropped"))

def executeInsert (node : InsertNode) : ExecutionContext × Except Failure QueryResult :=
  match node.source.rows ctx with
  | .error e => (ctx, .error e)
  | .ok rows =>
      let done := ctx.insertRows node.tableName node.columns rows
      (done.1, done.2.map .ofCount)

def executeUpdate (node : UpdateNode) : ExecutionContext × Except Failure QueryResult :=
  match ctx.lockTable node.tableName with
  | .error e => (ctx, .error (.error e))
  | .ok _ =>
      match evaluateAssignments node.assignments with
      | .error e => (ctx, .error (.error e))
      | .ok assignments =>
          let done := ctx.updateRows node.tableName assignments (rowPredicate node.whereClause)
          (done.1, done.2.map .ofCount)

def executeDelete (node : DeleteNode) : ExecutionContext × Except Failure QueryResult :=
  let done := ctx.deleteRows node.tableName (rowPredicate node.whereClause)
  (done.1, done.2.map .ofCount)

/-- Carry out a statement. -/
def execute : Statement → ExecutionContext × Except Failure QueryResult
  | .createTable node => ctx.executeCreateTable text node
  | .dropTable node => ctx.executeDropTable node
  | .alterTable node => ctx.executeAlterTable text node
  | .createIndex node => ctx.executeCreateIndex text node
  | .dropIndex node order => ctx.executeDropIndex node order
  | .insert node => ctx.executeInsert node
  | .update node => ctx.executeUpdate node
  | .delete node => ctx.executeDelete node

/-! ## Versions -/

def SameVersion (ctx ctx' : ExecutionContext) : Prop :=
  ctx'.versionClock = ctx.versionClock ∧ ctx'.snapshotVersion = ctx.snapshotVersion

section Versions

variable {text} {ctx}

theorem SameVersion.refl : ctx.SameVersion ctx :=
  ⟨rfl, rfl⟩

theorem SameVersion.trans {ctx₁ ctx₂ ctx₃ : ExecutionContext} (h : ctx₁.SameVersion ctx₂)
    (h' : ctx₂.SameVersion ctx₃) : ctx₁.SameVersion ctx₃ :=
  ⟨h'.1.trans h.1, h'.2.trans h.2⟩

theorem sameVersion_createTable (name : String) (columns : List ColumnSchema)
    (primaryKey : Option (List String)) (constraints : List StoredConstraint)
    (ifNotExists : Bool) :
    ctx.SameVersion (ctx.createTable name columns primaryKey constraints ifNotExists).1 := by
  unfold createTable
  split_ifs <;> exact .refl

theorem sameVersion_dropTable (name : String) (ifExists : Bool) :
    ctx.SameVersion (ctx.dropTable name ifExists).1 := by
  unfold dropTable
  split_ifs <;> exact .refl

theorem sameVersion_changeRows (name : String) (f : Row → Row) :
    ctx.SameVersion (ctx.changeRows name f).1 := by
  unfold changeRows
  split
  · exact .refl
  · split_ifs <;> exact .refl

theorem sameVersion_alterTable (name : String) (op : PlanAlterOperation) :
    ctx.SameVersion (ctx.alterTable text name op).1 := by
  unfold alterTable
  split
  · exact .refl
  · rename_i schema _
    cases op with
    | addColumn col =>
      dsimp only
      unfold addColumn
      split_ifs
      · exact .refl
      · split
        · exact .refl
        · exact (sameVersion_changeRows name _ : (ctx.setSchema name _).SameVersion _)
    | dropColumn colName ifExists =>
      dsimp only
      unfold dropColumn
      split
      · exact (sameVersion_changeRows name _ : (ctx.setSchema name _).SameVersion _)
      · split_ifs <;> exact .refl
    | renameColumn oldName newName =>
      dsimp only
      unfold renameColumn
      split <;> exact .refl
    | alterColumn colName dataType setNotNull setDefault =>
      dsimp only
      unfold alterColumn
      split
      · dsimp only
        split
        · exact .refl
        · split <;> exact .refl
      · exact .refl
    | renameTable newName => exact .refl
    | addConstraint constraint =>
      dsimp only
      unfold addConstraint
      split <;> exact .refl
    | dropConstraint constraintName =>
      dsimp only
      unfold dropConstraint
      split <;> exact .refl

theorem sameVersion_alterAll (tableName : String) (ops : List PlanAlterOperation)
    (ctx : ExecutionContext) : ctx.SameVersion (alterAll text tableName ctx ops).1 := by
  induction ops generalizing ctx with
  | nil => exact .refl
  | cons op ops ih =>
    have hop : ctx.SameVersion (ctx.alterTable text tableName op).1 := sameVersion_alterTable _ _
    unfold alterAll
    split
    · rename_i ctx' e heq
      rw [heq] at hop
      exact hop
    · rename_i ctx' heq
      rw [heq] at hop
      exact hop.trans (ih ctx')

theorem sameVersion_rebuildIndex (name table : String) (columns : List String) (unique : Bool) :
    ctx.SameVersion (ctx.rebuildIndex text name table columns unique).1 := by
  unfold rebuildIndex
  split
  · exact .refl
  · dsimp only
    split
    · exact .refl
    · split_ifs <;> exact .refl

theorem sameVersion_createIndex (name table : String) (columns : List String)
    (unique ifNotExists : Bool) :
    ctx.SameVersion (ctx.createIndex text name table columns unique ifNotExists).1 := by
  unfold createIndex
  dsimp only
  split_ifs
  · exact .refl
  · exact .refl
  · refine SameVersion.trans ?_ (sameVersion_rebuildIndex name table columns unique)
    exact .refl
  · exact .refl

theorem sameVersion_dropIndex (order : List String) (name : String) (ifExists : Bool) :
    ctx.SameVersion (ctx.dropIndex order name ifExists).1 := by
  unfold dropIndex
  dsimp only
  split
  · exact .refl
  · split_ifs <;> exact .refl

theorem sameVersion_insertRows (tableName : String) (columns : List String)
    (rows : List (List Value)) : ctx.SameVersion (ctx.insertRows tableName columns rows).1 := by
  unfold insertRows
  split
  · exact .refl
  · split
    · exact .refl
    · dsimp only
      split <;> exact .refl

theorem sameVersion_updateRows (tableName : String) (assignments : List (String × Value))
    (predicate : Option RowPredicate) :
    ctx.SameVersion (ctx.updateRows tableName assignments predicate).1 := by
  unfold updateRows
  split
  · exact .refl
  · split <;> exact .refl

theorem sameVersion_deleteRows (tableName : String) (predicate : Option RowPredicate) :
    ctx.SameVersion (ctx.deleteRows tableName predicate).1 := by
  unfold deleteRows
  split <;> exact .refl

/-- A statement does not change the version, nor the snapshot. -/
theorem sameVersion_execute (statement : Statement) :
    ctx.SameVersion (ctx.execute text statement).1 := by
  cases statement with
  | createTable node =>
    dsimp only [execute]
    unfold executeCreateTable
    split
    · exact .refl
    · exact sameVersion_createTable _ _ _ _ _
  | dropTable node => exact sameVersion_dropTable _ _
  | alterTable node => exact sameVersion_alterAll _ _ _
  | createIndex node => exact sameVersion_createIndex _ _ _ _ _
  | dropIndex node order => exact sameVersion_dropIndex _ _ _
  | insert node =>
    dsimp only [execute]
    unfold executeInsert
    split
    · exact .refl
    · exact sameVersion_insertRows _ _ _
  | update node =>
    dsimp only [execute]
    unfold executeUpdate
    split
    · exact .refl
    · split
      · exact .refl
      · exact sameVersion_updateRows _ _ _
  | delete node => exact sameVersion_deleteRows _ _

end Versions

end ExecutionContext

end Query

end AegisDB
