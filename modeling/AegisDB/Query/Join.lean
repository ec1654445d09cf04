import AegisDB.Library.Table
import AegisDB.Query.Expression

/-!
# Joins

The two operators that join a left with a right input.  Both read the right input at first, go
through the left input batch by batch and hand out a batch whenever 1024 rows have come together.
The nested loop compares a left row with every right row and takes up its work where it left it; the
hash join compares it with the right rows whose key has the same text, and when it hands out a batch
it goes on with the next batch of the left input.
-/

namespace AegisDB

namespace Query

/-- What an operator reads from: the columns and the batches of rows another operator hands out. -/
structure Source where
  columns : List String
  batches : List (List Row)

def Source.rows (s : Source) : List Row :=
  s.batches.flatten

inductive PlanJoinType where
  | inner | left | right | full | cross
deriving DecidableEq

/-- Only some types of join have an implementation. -/
def rejectUnsupportedJoinType : PlanJoinType → Except ExecutorError Unit
  | .right => .error (.invalidOperation
      "RIGHT OUTER JOIN is not supported yet; rewrite as a LEFT JOIN with the tables swapped")
  | .full => .error (.invalidOperation "FULL OUTER JOIN is not supported yet")
  | _ => .ok ()

/-- The number of rows at which an operator hands out a batch. -/
def batchLimit : ℕ := 1024

/-! ## What the operators share -/

/-- Whether two rows belong together. -/
def evaluateJoinCondition (condition : Option PlanExpression) (columns : List String)
    (left right : Row) : Except ExecutorError Bool :=
  match condition with
  | none => .ok true
  | some expr => do
      match ← evaluateExpression (left ++ right) columns expr with
      | .boolean b => return b
      | _ => return false

/-- How far the right rows for one left row were gone through. -/
inductive Scan where
  /-- A batch is full; the right rows still to be looked at. -/
  | full (results rest : List Row)
  /-- All right rows were looked at; whether one belonged to the left row. -/
  | done (results : List Row) (matched : Bool)
deriving DecidableEq

/-- Go through right rows and add those that belong to a left row to the results. -/
def scanRight (joins : Row → Row → Except ExecutorError Bool) (leftRow : Row) :
    List Row → List Row → Bool → Except ExecutorError Scan
  | [], results, matched => return .done results matched
  | rightRow :: rest, results, matched => do
      if ← joins leftRow rightRow then
        let results := results ++ [leftRow ++ rightRow]
        if batchLimit ≤ results.length then return .full results rest
        else scanRight joins leftRow rest results true
      else scanRight joins leftRow rest results matched

/-- The results after all right rows were looked at: an outer join keeps a left row for which none
was found. -/
def padUnmatched (joinType : PlanJoinType) (rightColCount : ℕ) (leftRow : Row)
    (results : List Row) (matched : Bool) : List Row :=
  if !matched && joinType = .left then results ++ [leftRow ++ List.replicate rightColCount .null]
  else results

/-! ## Nested loop -/

/-- A nested-loop join: what does not change while it runs. -/
structure JoinOperator where
  joinType : PlanJoinType
  condition : Option PlanExpression
  columns : List String
  rightColCount : ℕ
  right : List (List Row)

/-- What a nested-loop join keeps from one batch to the next. -/
structure JoinCursor where
  left : List (List Row)
  rightData : Option (List Row)
  /-- The rows of the current left batch, from the current one on. -/
  leftBatch : Option (List Row)
  /-- The right rows that the current left row has not been compared with. -/
  rightRows : List Row
deriving DecidableEq

namespace JoinOperator

def new (left right : Source) (joinType : PlanJoinType) (condition : Option PlanExpression) :
    Except ExecutorError (JoinOperator × JoinCursor) := do
  rejectUnsupportedJoinType joinType
  return ({ joinType, condition, columns := left.columns ++ right.columns,
            rightColCount := right.columns.length, right := right.batches },
          { left := left.batches, rightData := none, leftBatch := none, rightRows := [] })

/-- Where a nested loop stands when it hands out a batch, or that it has finished a left batch. -/
inductive Progress where
  | paused (results leftRows rightRows : List Row)
  | finished (results : List Row)
deriving DecidableEq

variable (op : JoinOperator)

/-- Go through the rows of a left batch; the first is compared with the given right rows only. -/
def scanLeft (rightData : List Row) :
    List Row → List Row → List Row → Except ExecutorError Progress
  | [], _, results => return .finished results
  | leftRow :: leftRows, rightRows, results => do
      match ← scanRight (evaluateJoinCondition op.condition op.columns) leftRow rightRows results
          false with
      | .full results rest => return .paused results (leftRow :: leftRows) rest
      | .done results matched =>
          scanLeft rightData leftRows rightData
            (padUnmatched op.joinType op.rightColCount leftRow results matched)

/-- Go through left batches. -/
def scanBatches (rightData : List Row) :
    List (List Row) → List Row → Except ExecutorError (List Row × JoinCursor)
  | [], results => return (results,
      { left := [], rightData := some rightData, leftBatch := none, rightRows := rightData })
  | batch :: left, results => do
      match ← op.scanLeft rightData batch rightData results with
      | .paused results leftRows rightRows => return (results,
          { left, rightData := some rightData, leftBatch := some leftRows, rightRows })
      | .finished results => scanBatches rightData left results

/-- The next batch of the join. -/
def nextBatch (c : JoinCursor) : Except ExecutorError (Option (List Row) × JoinCursor) := do
  let rightData := c.rightData.getD op.right.flatten
  let (results, c) ←
    match c.leftBatch with
    | none => op.scanBatches rightData c.left []
    | some leftRows => do
        match ← op.scanLeft rightData leftRows c.rightRows [] with
        | .paused results leftRows rightRows => pure (results,
            { c with rightData := some rightData, leftBatch := some leftRows, rightRows })
        | .finished results => op.scanBatches rightData c.left results
  return (if results.isEmpty then none else some results, c)

end JoinOperator

/-! ## Hash join -/

/-- A hash join: what does not change while it runs. -/
structure HashJoinOperator where
  joinType : PlanJoinType
  condition : Option PlanExpression
  columns : List String
  rightColumns : List String
  /-- The right rows under the text of their key; without a key all are under the empty text. -/
  hashTable : Table (Option Value) (List Row)
  leftKeyIdx : Option ℕ

/-- What a hash join keeps from one batch to the next. -/
structure HashJoinCursor where
  left : List (List Row)
  done : Bool
deriving DecidableEq

namespace HashJoinOperator

/-- A column is meant by its name or by the last part of its name. -/
def namesColumn (name column : String) : Bool :=
  column == name || column.endsWith ("." ++ name)

def columnNamed (columns : List String) (name : String) : Option ℕ :=
  columns.findIdx? (namesColumn name)

def extractColumnName : PlanExpression → Option String
  | .column name => some name
  | _ => none

/-- The columns of the two sides that a condition sets equal, in either order. -/
def extractKeyIndices (condition : Option PlanExpression) (leftColumns rightColumns : List String) :
    Option ℕ × Option ℕ :=
  match condition with
  | some (.binaryOp left .equal right) =>
      match extractColumnName left, extractColumnName right with
      | some ln, some rn =>
          match columnNamed leftColumns ln, columnNamed rightColumns rn with
          | some li, some ri => (some li, some ri)
          | _, _ =>
              match columnNamed leftColumns rn, columnNamed rightColumns ln with
              | some li, some ri => (some li, some ri)
              | _, _ => (none, none)
      | _, _ => (none, none)
  | _ => (none, none)

def hashKey (keyIdx : Option ℕ) (row : Row) : Option Value :=
  keyIdx.map fun idx => (row.getD idx .null).debug

def buildTable (keyIdx : Option ℕ) (rows : List Row) : Table (Option Value) (List Row) :=
  rows.foldl (fun table row =>
    table.insert (hashKey keyIdx row) ((table.lookup (hashKey keyIdx row)).getD [] ++ [row])) ∅

def new (left right : Source) (joinType : PlanJoinType) (condition : Option PlanExpression) :
    Except ExecutorError (HashJoinOperator × HashJoinCursor) := do
  rejectUnsupportedJoinType joinType
  let (leftKeyIdx, rightKeyIdx) := extractKeyIndices condition left.columns right.columns
  return ({ joinType, condition, columns := left.columns ++ right.columns,
            rightColumns := right.columns, leftKeyIdx,
            hashTable := buildTable rightKeyIdx right.batches.flatten },
          { left := left.batches, done := false })

variable (op : HashJoinOperator)

/-- The right rows that a left row is compared with. -/
def candidates (leftRow : Row) : List Row :=
  if op.leftKeyIdx.isSome then (op.hashTable.lookup (hashKey op.leftKeyIdx leftRow)).getD [] else []

/-- Go through the rows of a left batch; whether a batch of results is full. -/
def probeRows : List Row → List Row → Except ExecutorError (List Row × Bool)
  | [], results => return (results, false)
  | leftRow :: leftRows, results => do
      match ← scanRight (evaluateJoinCondition op.condition op.columns) leftRow
          (op.candidates leftRow) results false with
      -- the operator returns out of the loop over the batch
      | .full results _ => return (results, true)
      | .done results matched =>
          probeRows leftRows
            (padUnmatched op.joinType op.rightColumns.length leftRow results matched)

/-- Go through left batches. -/
def probeBatches : List (List Row) → List Row →
    Except ExecutorError (Option (List Row) × HashJoinCursor)
  | [], results =>
      return (if results.isEmpty then none else some results, { left := [], done := true })
  | batch :: left, results => do
      let (results, full) ← op.probeRows batch results
      if full then return (some results, { left, done := false })
      else probeBatches left results

def nextBatch (c : HashJoinCursor) : Except ExecutorError (Option (List Row) × HashJoinCursor) :=
  if c.done then return (none, c) else op.probeBatches c.left []

end HashJoinOperator

/-! ## A whole run -/

/-- Asked for batches until none is left, an operator hands out these rows. -/
inductive Produces {σ : Type} (next : σ → Except ExecutorError (Option (List Row) × σ)) :
    σ → List Row → Prop where
  | done {c c' : σ} : next c = .ok (none, c') → Produces next c []
  | batch {c c' : σ} {rows rows' : List Row} : next c = .ok (some rows, c') →
      Produces next c' rows' → Produces next c (rows ++ rows')

theorem Produces.unique {σ : Type} {next : σ → Except ExecutorError (Option (List Row) × σ)}
    {c : σ} {rows rows' : List Row} (h : Produces next c rows) (h' : Produces next c rows') :
    rows = rows' := by
  induction h generalizing rows' with
  | done hnext =>
    cases h' with
    | done => rfl
    | batch hnext' => simp [hnext] at hnext'
  | batch hnext _ ih =>
    cases h' with
    | done hnext' => simp [hnext] at hnext'
    | batch hnext' hrest =>
      simp only [hnext, Except.ok.injEq, Prod.mk.injEq, Option.some.injEq] at hnext'
      obtain ⟨rfl, rfl⟩ := hnext'
      rw [ih hrest]

end Query

end AegisDB
