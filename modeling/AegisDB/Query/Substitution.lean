import AegisDB.Query.Plan

/-!
# Queries with parameters

The evaluation of all kinds of expressions on a row.  A placeholder has no value of its own, so the
parameters of a query are substituted before it is executed.  An expression of the plan that is
executed evaluates to what the expression of the query evaluates to when its placeholders have the
values of the parameters, and its subqueries are executed with them.
-/

namespace AegisDB

namespace Query

namespace Prepared

/-! ## Operators -/

/-- The operators that calculate with floating-point numbers, texts or the clock. -/
structure Operators where
  /-- The value of `+`, `-`, `*`, `/` or `%` on two values that are not NULL. -/
  arithmetic : PlanBinaryOp → Value → Value → Except ExecutorError Value
  negative : Value → Except ExecutorError Value
  valueToString : Value → String
  castValue : Value → DataType → Except ExecutorError Value
  evaluateFunction : String → List Value → Except ExecutorError Value
  likeText : Value → String
  /-- Whether a text is matched by a pattern of `LIKE`. -/
  matchesPattern : String → String → Bool

/-- What the evaluation of an expression may use: an executor of subqueries, if there is one. -/
structure EvalContext where
  executor : Option (PlanNode → Except ExecutorError (List Row))

/-- Execute a subquery and return all result rows. -/
def EvalContext.executeSubquery (ctx : EvalContext) (subquery : PlanNode) :
    Except ExecutorError (List Row) :=
  match ctx.executor with
  | none => .error (.internal "Subquery requires execution context")
  | some execute => execute subquery

variable (ops : Operators)

def evaluateBinaryOp (op : PlanBinaryOp) (left right : Value) : Except ExecutorError Value :=
  if left = .null ∨ right = .null then .ok .null
  else
    match op with
    | .add | .subtract | .multiply | .divide | .modulo => ops.arithmetic op left right
    | .equal => .ok (.boolean (compareValues left right == .eq))
    | .notEqual => .ok (.boolean (compareValues left right != .eq))
    | .lessThan => .ok (.boolean (compareValues left right == .lt))
    | .lessThanOrEqual => .ok (.boolean (compareValues left right != .gt))
    | .greaterThan => .ok (.boolean (compareValues left right == .gt))
    | .greaterThanOrEqual => .ok (.boolean (compareValues left right != .lt))
    | .and => do
        let l ← valueToBool left
        let r ← valueToBool right
        return .boolean (l && r)
    | .or => do
        let l ← valueToBool left
        let r ← valueToBool right
        return .boolean (l || r)
    | .concat => .ok (.string (ops.valueToString left ++ ops.valueToString right))

def evaluateUnaryOp (op : PlanUnaryOp) (value : Value) : Except ExecutorError Value :=
  match op with
  | .not => do
      let b ← valueToBool value
      return .boolean !b
  | .negative => ops.negative value

/-- The value of `LIKE`. -/
def evaluateLike (negated : Bool) : Value → Value → Value
  | .null, _ => .null
  | .array _, _ | .object _, _ => .boolean false
  | _, .null => .null
  | _, .array _ | _, .object _ => .boolean false
  | val, pattern =>
      .boolean (negateIf negated (ops.matchesPattern (ops.likeText val) (ops.likeText pattern)))

/-- The value of a subquery that has one row. -/
def scalarOf : List Row → Except ExecutorError Value
  | [] => .ok .null
  | [row] =>
      match row.head? with
      | some value => .ok value
      | none => .error (.internal "Scalar subquery returned no columns")
  | _ => .error (.internal "Scalar subquery returned more than one row")

/-- Whether the first column of some row compares as equal. -/
def foundIn (val : Value) (rows : List Row) : Bool :=
  rows.any fun row =>
    match row.head? with
    | some subqueryVal => compareValues val subqueryVal == .eq
    | none => false

/-! ## Evaluation -/

section Evaluation

variable (resolve : UInt64 → Except ExecutorError Value) (ctx : EvalContext) (row : Row)
  (columns : List String)

mutual

/-- The value of an expression on a row, with values for placeholders. -/
def evaluate : PlanExpression → Except ExecutorError Value
  | .literal lit => .ok lit.value
  | .column _ name _ => evaluateColumn row columns name
  | .binaryOp left op right => do
      let leftVal ← evaluate left
      let rightVal ← evaluate right
      evaluateBinaryOp ops op leftVal rightVal
  | .unaryOp op expr => do
      let val ← evaluate expr
      evaluateUnaryOp ops op val
  | .isNull expr negated => do
      let val ← evaluate expr
      return .boolean (negateIf negated (val == .null))
  | .cast expr targetType => do
      let val ← evaluate expr
      ops.castValue val targetType
  | .function name args _ => do
      let argValues ← evaluateArgs args
      ops.evaluateFunction name argValues
  | .caseWhen (some operand) conditions elseResult => do
      let operandVal ← evaluate operand
      caseResult (evaluateMatch operandVal conditions) (evaluateElse elseResult)
  | .caseWhen none conditions elseResult =>
      caseResult (evaluateConditions conditions) (evaluateElse elseResult)
  | .inList expr list negated => do
      let val ← evaluate expr
      let found ← evaluateList val list
      return .boolean (negateIf negated found)
  | .between expr low high negated => do
      let val ← evaluate expr
      let lowVal ← evaluate low
      let highVal ← evaluate high
      let geLow := compareValues val lowVal != .lt
      let leHigh := compareValues val highVal != .gt
      return .boolean (negateIf negated (geLow && leHigh))
  | .like expr pattern negated => do
      let val ← evaluate expr
      let patternVal ← evaluate pattern
      return evaluateLike ops negated val patternVal
  | .inSubquery expr subquery negated => do
      let val ← evaluate expr
      let subqueryRows ← ctx.executeSubquery subquery
      return .boolean (negateIf negated (foundIn val subqueryRows))
  | .existsRow subquery negated => do
      let subqueryRows ← ctx.executeSubquery subquery
      return .boolean (negateIf negated !subqueryRows.isEmpty)
  | .scalarSubquery subquery => do
      let subqueryRows ← ctx.executeSubquery subquery
      scalarOf subqueryRows
  | .placeholder idx => resolve idx
termination_by structural e => e

/-- The values of the arguments of a function. -/
def evaluateArgs : List PlanExpression → Except ExecutorError (List Value)
  | [] => return []
  | arg :: rest => do
      let val ← evaluate arg
      let vals ← evaluateArgs rest
      return val :: vals
termination_by structural es => es

/-- The result of the first branch whose value compares as equal. -/
def evaluateMatch (operandVal : Value) :
    List (PlanExpression × PlanExpression) → Except ExecutorError (Option Value)
  | [] => return none
  | (whenExpr, thenExpr) :: rest => do
      let whenVal ← evaluate whenExpr
      if compareValues operandVal whenVal == .eq then return some (← evaluate thenExpr)
      else evaluateMatch operandVal rest
termination_by structural cs => cs

/-- The result of the first branch whose condition is true. -/
def evaluateConditions :
    List (PlanExpression × PlanExpression) → Except ExecutorError (Option Value)
  | [] => return none
  | (whenExpr, thenExpr) :: rest => do
      let whenVal ← evaluate whenExpr
      if whenVal == .boolean true then return some (← evaluate thenExpr)
      else evaluateConditions rest
termination_by structural cs => cs

def evaluateElse : Option PlanExpression → Except ExecutorError Value
  | some elseExpr => evaluate elseExpr
  | none => return .null
termination_by structural e => e

/-- Whether an item compares as equal; the search ends at the first. -/
def evaluateList (val : Value) : List PlanExpression → Except ExecutorError Bool
  | [] => return false
  | item :: rest => do
      let itemVal ← evaluate item
      if compareValues val itemVal == .eq then return true
      else evaluateList val rest
termination_by structural es => es

end

end Evaluation

/-- Placeholders should be replaced before execution. -/
def unresolved (idx : UInt64) : Except ExecutorError Value :=
  .error (.internal ("Unresolved placeholder $" ++ toString idx))

/-- Evaluate expression with optional subquery support. -/
def evaluateExpressionWithContext (expr : PlanExpression) (row : Row) (columns : List String)
    (ctx : EvalContext) : Except ExecutorError Value :=
  evaluate ops unresolved ctx row columns expr

/-- Evaluate expression without subquery support. -/
def evaluateExpression (expr : PlanExpression) (row : Row) (columns : List String) :
    Except ExecutorError Value :=
  evaluateExpressionWithContext ops expr row columns ⟨none⟩

/-! ## Parameters -/

/-- Execute a query plan with bound parameters. -/
def executeWithParams (codec : TextCodec) (execute : PlanNode → Except ExecutorError (List Row))
    (plan : PlanNode) (params : Params) : Except ExecutorError (List Row) := do
  let boundPlan ← substituteParameters codec params plan
  execute boundPlan

/-- The context whose executor executes subqueries with parameters. -/
def EvalContext.withParams (ctx : EvalContext) (codec : TextCodec) (params : Params) :
    EvalContext where
  executor := ctx.executor.map fun execute plan => executeWithParams codec execute plan params

/-- The value of an expression whose placeholders have the values of the parameters. -/
def evaluateWithParams (codec : TextCodec) (params : Params) (expr : PlanExpression) (row : Row)
    (columns : List String) (ctx : EvalContext) : Except ExecutorError Value :=
  evaluate ops params.get (ctx.withParams codec params) row columns expr

/-- A value that is written as a literal as it is. -/
def isScalar : Value → Bool
  | .null | .boolean _ | .integer _ | .float _ | .string _ => true
  | _ => false

/-! ## The substitution lemma -/

section Lemma

variable {ops} {codec : TextCodec} {params : Params} {ctx : EvalContext} {row : Row}
  {columns : List String}

theorem bind_eq_ok {α β : Type} {r : Except ExecutorError α} {f : α → Except ExecutorError β}
    {b : β} : r >>= f = .ok b ↔ ∃ a, r = .ok a ∧ f a = .ok b := by
  cases r with
  | error e => simp [bind, Except.bind]
  | ok a => simp [bind, Except.bind]

theorem pure_eq_ok {α : Type} {a b : α} :
    (pure a : Except ExecutorError α) = .ok b ↔ a = b := by
  simp [pure, Except.pure]

theorem evaluate_valueToLiteral {value : Value} (h : isScalar value = true)
    (resolve : UInt64 → Except ExecutorError Value) :
    evaluate ops resolve ctx row columns (valueToLiteral codec value) = .ok value := by
  cases value <;> first | rfl | cases h

theorem executeSubquery_substituted {p p' : PlanNode}
    (h : substituteParameters codec params p = .ok p') :
    ctx.executeSubquery p' = (ctx.withParams codec params).executeSubquery p := by
  obtain ⟨executor⟩ := ctx
  cases executor with
  | none => rfl
  | some execute =>
    show execute p' = executeWithParams codec execute p params
    rw [executeWithParams, h]
    rfl

variable (hscalar : ∀ value ∈ params.values, isScalar value = true)
include hscalar

-- the parts of an expression need the hypothesis only for the expressions in them
set_option linter.unusedSectionVars false

mutual

/-- An expression that is substituted evaluates to what the expression evaluates to with the
parameters. -/
theorem evaluate_substituteExpr : ∀ e e' : PlanExpression,
    substituteExpr codec params e = .ok e' →
      evaluate ops unresolved ctx row columns e' =
        evaluate ops params.get (ctx.withParams codec params) row columns e
  | .placeholder idx, e', h => by
    rw [substituteExpr, bind_eq_ok] at h
    obtain ⟨value, hget, h⟩ := h
    obtain rfl := pure_eq_ok.1 h
    have hmem : value ∈ params.values := by
      rcases params.get_cases idx with ⟨-, -, value', hvalue, hget'⟩ | ⟨-, e, hget'⟩
      · rw [hget] at hget'
        obtain rfl := Except.ok.inj hget'
        exact List.mem_of_getElem? hvalue
      · rw [hget] at hget'
        cases hget'
    rw [evaluate_valueToLiteral (hscalar value hmem), evaluate, hget]
  | .column _ _ _, e', h => by
    obtain rfl := pure_eq_ok.1 h
    rfl
  | .literal _, e', h => by
    obtain rfl := pure_eq_ok.1 h
    rfl
  | .binaryOp left op right, e', h => by
    simp only [substituteExpr, bind_eq_ok, pure_eq_ok] at h
    obtain ⟨left', hleft, right', hright, rfl⟩ := h
    rw [evaluate, evaluate, evaluate_substituteExpr left left' hleft,
      evaluate_substituteExpr right right' hright]
  | .unaryOp op expr, e', h => by
    simp only [substituteExpr, bind_eq_ok, pure_eq_ok] at h
    obtain ⟨expr', hexpr, rfl⟩ := h
    rw [evaluate, evaluate, evaluate_substituteExpr expr expr' hexpr]
  | .function name args _, e', h => by
    simp only [substituteExpr, bind_eq_ok, pure_eq_ok] at h
    obtain ⟨args', hargs, rfl⟩ := h
    rw [evaluate, evaluate, evaluateArgs_substituteExprs args args' hargs]
  | .cast expr _, e', h => by
    simp only [substituteExpr, bind_eq_ok, pure_eq_ok] at h
    obtain ⟨expr', hexpr, rfl⟩ := h
    rw [evaluate, evaluate, evaluate_substituteExpr expr expr' hexpr]
  | .isNull expr _, e', h => by
    simp only [substituteExpr, bind_eq_ok, pure_eq_ok] at h
    obtain ⟨expr', hexpr, rfl⟩ := h
    rw [evaluate, evaluate, evaluate_substituteExpr expr expr' hexpr]
  | .caseWhen none conditions elseResult, e', h => by
    simp only [substituteExpr, substituteOption, bind_eq_ok, pure_eq_ok] at h
    obtain ⟨_, rfl, conditions', hconditions, else', helse, rfl⟩ := h
    rw [evaluate, evaluate, evaluateConditions_substituteConditions conditions conditions'
      hconditions, evaluateElse_substituteOption elseResult else' helse]
  | .caseWhen (some operand) conditions elseResult, e', h => by
    simp only [substituteExpr, substituteOption, bind_eq_ok, pure_eq_ok] at h
    obtain ⟨_, ⟨operand', hoperand, rfl⟩, conditions', hconditions, else', helse, rfl⟩ := h
    rw [evaluate, evaluate, evaluate_substituteExpr operand operand' hoperand,
      evaluateElse_substituteOption elseResult else' helse]
    refine bind_congr fun operandVal => ?_
    rw [evaluateMatch_substituteConditions operandVal conditions conditions' hconditions]
  | .inList expr list _, e', h => by
    simp only [substituteExpr, bind_eq_ok, pure_eq_ok] at h
    obtain ⟨expr', hexpr, list', hlist, rfl⟩ := h
    rw [evaluate, evaluate, evaluate_substituteExpr expr expr' hexpr]
    refine bind_congr fun val => ?_
    rw [evaluateList_substituteExprs val list list' hlist]
  | .between expr low high _, e', h => by
    simp only [substituteExpr, bind_eq_ok, pure_eq_ok] at h
    obtain ⟨expr', hexpr, low', hlow, high', hhigh, rfl⟩ := h
    rw [evaluate, evaluate, evaluate_substituteExpr expr expr' hexpr,
      evaluate_substituteExpr low low' hlow, evaluate_substituteExpr high high' hhigh]
  | .like expr pattern _, e', h => by
    simp only [substituteExpr, bind_eq_ok, pure_eq_ok] at h
    obtain ⟨expr', hexpr, pattern', hpattern, rfl⟩ := h
    rw [evaluate, evaluate, evaluate_substituteExpr expr expr' hexpr,
      evaluate_substituteExpr pattern pattern' hpattern]
  | .inSubquery expr subquery _, e', h => by
    simp only [substituteExpr, bind_eq_ok, pure_eq_ok] at h
    obtain ⟨expr', hexpr, subquery', hsubquery, rfl⟩ := h
    rw [evaluate, evaluate, evaluate_substituteExpr expr expr' hexpr,
      executeSubquery_substituted hsubquery]
  | .existsRow subquery _, e', h => by
    simp only [substituteExpr, bind_eq_ok, pure_eq_ok] at h
    obtain ⟨subquery', hsubquery, rfl⟩ := h
    rw [evaluate, evaluate, executeSubquery_substituted hsubquery]
  | .scalarSubquery subquery, e', h => by
    simp only [substituteExpr, bind_eq_ok, pure_eq_ok] at h
    obtain ⟨subquery', hsubquery, rfl⟩ := h
    rw [evaluate, evaluate, executeSubquery_substituted hsubquery]
termination_by structural e => e

theorem evaluateArgs_substituteExprs : ∀ es es' : List PlanExpression,
    substituteExprs codec params es = .ok es' →
      evaluateArgs ops unresolved ctx row columns es' =
        evaluateArgs ops params.get (ctx.withParams codec params) row columns es
  | [], es', h => by
    obtain rfl := pure_eq_ok.1 h
    rfl
  | e :: es, es', h => by
    simp only [substituteExprs, bind_eq_ok, pure_eq_ok] at h
    obtain ⟨e', he, rest', hes, rfl⟩ := h
    rw [evaluateArgs, evaluateArgs, evaluate_substituteExpr e e' he,
      evaluateArgs_substituteExprs es rest' hes]
termination_by structural es => es

theorem evaluateMatch_substituteConditions (operandVal : Value) :
    ∀ cs cs' : List (PlanExpression × PlanExpression),
      substituteConditions codec params cs = .ok cs' →
        evaluateMatch ops unresolved ctx row columns operandVal cs' =
          evaluateMatch ops params.get (ctx.withParams codec params) row columns operandVal cs
  | [], cs', h => by
    obtain rfl := pure_eq_ok.1 h
    rfl
  | (cond, result) :: rest, cs', h => by
    simp only [substituteConditions, bind_eq_ok, pure_eq_ok] at h
    obtain ⟨cond', hcond, result', hresult, rest', hrest, rfl⟩ := h
    rw [evaluateMatch, evaluateMatch, evaluate_substituteExpr cond cond' hcond,
      evaluate_substituteExpr result result' hresult,
      evaluateMatch_substituteConditions operandVal rest rest' hrest]
termination_by structural cs => cs

theorem evaluateConditions_substituteConditions :
    ∀ cs cs' : List (PlanExpression × PlanExpression),
      substituteConditions codec params cs = .ok cs' →
        evaluateConditions ops unresolved ctx row columns cs' =
          evaluateConditions ops params.get (ctx.withParams codec params) row columns cs
  | [], cs', h => by
    obtain rfl := pure_eq_ok.1 h
    rfl
  | (cond, result) :: rest, cs', h => by
    simp only [substituteConditions, bind_eq_ok, pure_eq_ok] at h
    obtain ⟨cond', hcond, result', hresult, rest', hrest, rfl⟩ := h
    rw [evaluateConditions, evaluateConditions, evaluate_substituteExpr cond cond' hcond,
      evaluate_substituteExpr result result' hresult,
      evaluateConditions_substituteConditions rest rest' hrest]
termination_by structural cs => cs

theorem evaluateElse_substituteOption : ∀ e e' : Option PlanExpression,
    substituteOption codec params e = .ok e' →
      evaluateElse ops unresolved ctx row columns e' =
        evaluateElse ops params.get (ctx.withParams codec params) row columns e
  | none, e', h => by
    obtain rfl := pure_eq_ok.1 h
    rfl
  | some elseExpr, e', h => by
    simp only [substituteOption, bind_eq_ok, pure_eq_ok] at h
    obtain ⟨else', helse, rfl⟩ := h
    rw [evaluateElse, evaluateElse, evaluate_substituteExpr elseExpr else' helse]
termination_by structural e => e

theorem evaluateList_substituteExprs (val : Value) : ∀ es es' : List PlanExpression,
    substituteExprs codec params es = .ok es' →
      evaluateList ops unresolved ctx row columns val es' =
        evaluateList ops params.get (ctx.withParams codec params) row columns val es
  | [], es', h => by
    obtain rfl := pure_eq_ok.1 h
    rfl
  | item :: rest, es', h => by
    simp only [substituteExprs, bind_eq_ok, pure_eq_ok] at h
    obtain ⟨item', hitem, rest', hrest, rfl⟩ := h
    rw [evaluateList, evaluateList, evaluate_substituteExpr item item' hitem,
      evaluateList_substituteExprs val rest rest' hrest]
termination_by structural es => es

end

omit hscalar in
theorem substituteExpr_ne_placeholder {e e' : PlanExpression}
    (h : substituteExpr codec params e = .ok e') (idx : UInt64) : e' ≠ .placeholder idx := by
  rintro rfl
  cases e <;> simp only [substituteExpr, valueToLiteral, bind_eq_ok, pure_eq_ok, reduceCtorEq,
    and_false, exists_false] at h

end Lemma

/-! ## A query with one parameter -/

/-- Operators for expressions that only compare. -/
def comparing : Operators where
  arithmetic _ _ _ := .error (.invalidOperation "arithmetic")
  negative _ := .error (.invalidOperation "arithmetic")
  valueToString _ := ""
  castValue value _ := .ok value
  evaluateFunction name _ := .error (.invalidOperation ("Unknown function: " ++ name))
  likeText _ := ""
  matchesPattern val pattern := val == pattern

def noTexts : TextCodec where
  fromUtf8Lossy _ := ""
  debugText _ := ""

def two : Params where
  values := [.integer 2]
  length_lt := by decide

def selectById : PlanNode :=
  .filter (.scan "users" none ["id"] none)
    (.binaryOp (.column none "id" .integer) .equal (.placeholder 1))

end Prepared

end Query

end AegisDB
