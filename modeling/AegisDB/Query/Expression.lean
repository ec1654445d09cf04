import AegisDB.Query.Value

/-!
# Expressions and their evaluation

The part of the expressions of a plan that is made of literals, columns, comparisons, connectives,
`IS NULL`, `CASE`, `IN` and `BETWEEN`.  Every other kind of expression (arithmetic, functions,
casts, patterns, subqueries, placeholders) stands as a leaf with the value it evaluates to.
-/

namespace AegisDB

namespace Query

/-- A literal of a plan. -/
inductive PlanLiteral where
  | null
  | boolean (b : Bool)
  | integer (i : Int64)
  | float (f : Binary64)
  | string (s : String)

def PlanLiteral.value : PlanLiteral → Value
  | .null => .null
  | .boolean b => .boolean b
  | .integer i => .integer i
  | .float f => .float f
  | .string s => .string s

/-- The binary operators that compare or connect. -/
inductive PlanBinaryOp where
  | equal | notEqual | lessThan | lessThanOrEqual | greaterThan | greaterThanOrEqual
  | and | or
deriving DecidableEq

inductive PlanUnaryOp where
  | not

/-- An expression of a plan. -/
inductive PlanExpression where
  | column (name : String)
  | literal (value : PlanLiteral)
  | binaryOp (left : PlanExpression) (op : PlanBinaryOp) (right : PlanExpression)
  | unaryOp (op : PlanUnaryOp) (expr : PlanExpression)
  | isNull (expr : PlanExpression) (negated : Bool)
  /-- `CASE operand WHEN .. THEN .. ELSE .. END`, or without an operand. -/
  | caseWhen (operand : Option PlanExpression) (conditions : List (PlanExpression × PlanExpression))
      (elseResult : Option PlanExpression)
  | inList (expr : PlanExpression) (list : List PlanExpression) (negated : Bool)
  | between (expr low high : PlanExpression) (negated : Bool)
  /-- An expression of another kind, by its value on a row with given column names. -/
  | other (value : Row → List String → Except ExecutorError Value)

/-! ## Operators -/

def negateIf (negated b : Bool) : Bool :=
  if negated then !b else b

def evaluateBinaryOp (op : PlanBinaryOp) (left right : Value) : Except ExecutorError Value :=
  if left = .null ∨ right = .null then .ok .null
  else
    match op with
    | .equal => .ok (.boolean (compareValues left right == .eq))
    | .notEqual => .ok (.boolean (compareValues left right != .eq))
    | .lessThan => .ok (.boolean (compareValues left right == .lt))
    | .lessThanOrEqual => .ok (.boolean (compareValues left right != .gt))
    | .greaterThan => .ok (.boolean (compareValues left right == .gt))
    | .greaterThanOrEqual => .ok (.boolean (compareValues left right != .lt))
    | .and => do
        let l ← valueToBool left
        let r ← valueToBool right
        return .boolean (l && r)
    | .or => do
        let l ← valueToBool left
        let r ← valueToBool right
        return .boolean (l || r)

def evaluateUnaryOp (op : PlanUnaryOp) (value : Value) : Except ExecutorError Value :=
  match op with
  | .not => do
      let b ← valueToBool value
      return .boolean !b

/-- The value of a column of a row. -/
def evaluateColumn (row : Row) (columns : List String) (name : String) :
    Except ExecutorError Value :=
  if name = "*" then .ok .null
  else
    match columns.idxOf? name with
    | none => .error (.columnNotFound name)
    | some idx => .ok (row.getD idx .null)

/-- The result of the branch of `CASE` that was found, or else that of `ELSE`. -/
def caseResult (found : Except ExecutorError (Option Value))
    (elseResult : Except ExecutorError Value) : Except ExecutorError Value :=
  match found with
  | .error e => .error e
  | .ok (some val) => .ok val
  | .ok none => elseResult

/-! ## Evaluation -/

variable (row : Row) (columns : List String)

mutual

/-- The value of an expression on a row. -/
def evaluateExpression : PlanExpression → Except ExecutorError Value
  | .literal lit => .ok lit.value
  | .column name => evaluateColumn row columns name
  | .binaryOp left op right => do
      let leftVal ← evaluateExpression left
      let rightVal ← evaluateExpression right
      evaluateBinaryOp op leftVal rightVal
  | .unaryOp op expr => do
      let val ← evaluateExpression expr
      evaluateUnaryOp op val
  | .isNull expr negated => do
      let val ← evaluateExpression expr
      return .boolean (negateIf negated (val == .null))
  | .caseWhen (some operand) conditions elseResult => do
      let operandVal ← evaluateExpression operand
      caseResult (evaluateMatch operandVal conditions) (evaluateElse elseResult)
  | .caseWhen none conditions elseResult =>
      caseResult (evaluateConditions conditions) (evaluateElse elseResult)
  | .inList expr list negated => do
      let val ← evaluateExpression expr
      let found ← evaluateList val list
      return .boolean (negateIf negated found)
  | .between expr low high negated => do
      let val ← evaluateExpression expr
      let lowVal ← evaluateExpression low
      let highVal ← evaluateExpression high
      let geLow := compareValues val lowVal != .lt
      let leHigh := compareValues val highVal != .gt
      return .boolean (negateIf negated (geLow && leHigh))
  | .other value => value row columns
termination_by structural e => e

/-- The result of the first branch whose value compares as equal. -/
def evaluateMatch (operandVal : Value) :
    List (PlanExpression × PlanExpression) → Except ExecutorError (Option Value)
  | [] => return none
  | (whenExpr, thenExpr) :: rest => do
      let whenVal ← evaluateExpression whenExpr
      if compareValues operandVal whenVal == .eq then return some (← evaluateExpression thenExpr)
      else evaluateMatch operandVal rest

/-- The result of the first branch whose condition is true. -/
def evaluateConditions :
    List (PlanExpression × PlanExpression) → Except ExecutorError (Option Value)
  | [] => return none
  | (whenExpr, thenExpr) :: rest => do
      let whenVal ← evaluateExpression whenExpr
      if whenVal == .boolean true then return some (← evaluateExpression thenExpr)
      else evaluateConditions rest

def evaluateElse : Option PlanExpression → Except ExecutorError Value
  | some elseExpr => evaluateExpression elseExpr
  | none => return .null

/-- Whether an item compares as equal; the search ends at the first. -/
def evaluateList (val : Value) : List PlanExpression → Except ExecutorError Bool
  | [] => return false
  | item :: rest => do
      let itemVal ← evaluateExpression item
      if compareValues val itemVal == .eq then return true
      else evaluateList val rest

end

/-! ## Filters -/

/-- The truth of a predicate on a row. -/
def evaluatePredicate (predicate : PlanExpression) : Except ExecutorError Bool := do
  match ← evaluateExpression row columns predicate with
  | .boolean b => return b
  | .null => return false
  | value => .error (.typeMismatch "boolean" value.debug)

/-- Whether `WHERE predicate` returns the row; a row on which the predicate fails is passed over. -/
def keepsRow (predicate : PlanExpression) : Bool :=
  match evaluatePredicate row columns predicate with
  | .ok b => b
  | .error _ => false

theorem keepsRow_iff (predicate : PlanExpression) :
    keepsRow row columns predicate = true ↔
      evaluateExpression row columns predicate = .ok (.boolean true) := by
  unfold keepsRow evaluatePredicate
  rcases evaluateExpression row columns predicate with e | v
  · simp [bind, Except.bind]
  · cases v <;> simp [bind, Except.bind, pure, Except.pure]

end Query

end AegisDB
