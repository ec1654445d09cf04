import AegisDB.Query.Context
import AegisDB.Query.Join

/-!
# Plans and the parameters of a query

The syntax of the plans of `SELECT`, `INSERT`, `UPDATE` and `DELETE`, with all kinds of expressions
and the plans of subqueries in them, and the replacement of placeholders by the parameters of a
query.  The nodes of DDL and of transaction control, which the replacement returns as they are, are
left out: no plan of these statements has one.
-/

namespace AegisDB

namespace Query

namespace Prepared

/-! ## Syntax -/

/-- Binary operators in plan. -/
inductive PlanBinaryOp where
  | add | subtract | multiply | divide | modulo
  | equal | notEqual | lessThan | lessThanOrEqual | greaterThan | greaterThanOrEqual
  | and | or | concat
deriving DecidableEq

/-- Unary operators in plan. -/
inductive PlanUnaryOp where
  | not | negative
deriving DecidableEq

/-- Physical join strategy. -/
inductive JoinStrategy where
  | nestedLoop | hashJoin | mergeJoin
deriving DecidableEq

/-- Aggregate functions. -/
inductive AggregateFunction where
  | count | sum | avg | min | max
deriving DecidableEq

/-- Set operations. -/
inductive SetOperationType where
  | union | unionAll | intersect | except
deriving DecidableEq

/-- Key range for index scans. -/
structure KeyRange (ε : Type) where
  start : Option ε
  startInclusive : Bool
  stop : Option ε
  stopInclusive : Bool

/-- Index scan specification. -/
structure IndexScan (ε : Type) where
  indexName : String
  keyRange : KeyRange ε

/-- A projection expression with optional alias. -/
structure ProjectionExpr (ε : Type) where
  expr : ε
  aliasName : Option String

/-- Sort key specification. -/
structure SortKey (ε : Type) where
  expr : ε
  ascending : Bool
  nullsFirst : Bool

/-- Aggregate expression. -/
structure AggregateExpr (ε : Type) where
  function : AggregateFunction
  argument : Option ε
  distinct : Bool
  aliasName : Option String

/-- Source for INSERT data in a query plan. -/
inductive InsertPlanSource (ε ν : Type) where
  | values (rows : List (List ε))
  | query (q : ν)

mutual

/-- Expression in a query plan. -/
inductive PlanExpression where
  | column (table : Option String) (name : String) (dataType : DataType)
  | literal (value : PlanLiteral)
  | binaryOp (left : PlanExpression) (op : PlanBinaryOp) (right : PlanExpression)
  | unaryOp (op : PlanUnaryOp) (expr : PlanExpression)
  | function (name : String) (args : List PlanExpression) (returnType : DataType)
  | cast (expr : PlanExpression) (targetType : DataType)
  | isNull (expr : PlanExpression) (negated : Bool)
  | caseWhen (operand : Option PlanExpression) (conditions : List (PlanExpression × PlanExpression))
      (elseResult : Option PlanExpression)
  | inList (expr : PlanExpression) (list : List PlanExpression) (negated : Bool)
  | between (expr low high : PlanExpression) (negated : Bool)
  | like (expr pattern : PlanExpression) (negated : Bool)
  | inSubquery (expr : PlanExpression) (subquery : PlanNode) (negated : Bool)
  | existsRow (subquery : PlanNode) (negated : Bool)
  | scalarSubquery (subquery : PlanNode)
  | placeholder (idx : UInt64)

/-- A node of a query plan. -/
inductive PlanNode where
  | scan (tableName : String) (aliasName : Option String) (columns : List String)
      (indexScan : Option (IndexScan PlanExpression))
  | filter (input : PlanNode) (predicate : PlanExpression)
  | project (input : PlanNode) (expressions : List (ProjectionExpr PlanExpression))
  | join (left right : PlanNode) (joinType : PlanJoinType) (condition : Option PlanExpression)
      (strategy : JoinStrategy)
  | aggregate (input : PlanNode) (groupBy : List PlanExpression)
      (aggregates : List (AggregateExpr PlanExpression))
  | sort (input : PlanNode) (orderBy : List (SortKey PlanExpression))
  | limit (input : PlanNode) (limit offset : Option UInt64)
  | empty
  | insert (tableName : String) (columns : List String)
      (source : InsertPlanSource PlanExpression PlanNode)
  | update (tableName : String) (assignments : List (String × PlanExpression))
      (whereClause : Option PlanExpression)
  | delete (tableName : String) (whereClause : Option PlanExpression)
  | setOperation (op : SetOperationType) (left right : PlanNode)

end

/-! ## Parameters -/

/-- The parameters of a query; a slice has no more than `isize::MAX` elements. -/
structure Params where
  values : List Value
  length_lt : values.length < 2 ^ 63

/-- How values that are no scalars are written as texts. -/
structure TextCodec where
  /-- The text of bytes, with a mark for what is not UTF-8. -/
  fromUtf8Lossy : List UInt8 → String
  debugText : Value → String

/-- Convert a value back to a literal. -/
def valueToLiteral (codec : TextCodec) (value : Value) : PlanExpression :=
  .literal (match value with
    | .null => .null
    | .boolean b => .boolean b
    | .integer i => .integer i
    | .float f => .float f
    | .string s => .string s
    | .bytes b => .string (codec.fromUtf8Lossy b)
    | .timestamp t => .integer (Int64.ofInt (t.seconds * 1000 + t.nanos / 1000000))
    | .array a => .string (codec.debugText (.array a))
    | .object o => .string (codec.debugText (.object o)))

/-- The parameter of a placeholder, counted from one. -/
def Params.get (params : Params) (idx : UInt64) : Except ExecutorError Value :=
  -- at zero the index wraps around, behind the end of every slice
  match params.values[(idx - 1).toNat]? with
  | some value => .ok value
  | none => .error (.internal ("Missing parameter $" ++ toString idx ++ ": expected " ++
      toString idx ++ " parameters but got " ++ toString params.values.length))

/-! ## Substitution -/

variable (codec : TextCodec) (params : Params)

mutual

/-- Substitute parameter placeholders in an expression with actual values. -/
def substituteExpr : PlanExpression → Except ExecutorError PlanExpression
  | .placeholder idx => do
      let value ← params.get idx
      return valueToLiteral codec value
  | .binaryOp left op right => do
      let left ← substituteExpr left
      let right ← substituteExpr right
      return .binaryOp left op right
  | .unaryOp op inner => do
      let inner ← substituteExpr inner
      return .unaryOp op inner
  | .function name args returnType => do
      let newArgs ← substituteExprs args
      return .function name newArgs returnType
  | .caseWhen operand conditions elseResult => do
      let newOperand ← substituteOption operand
      let newConditions ← substituteConditions conditions
      let newElse ← substituteOption elseResult
      return .caseWhen newOperand newConditions newElse
  | .inList inner list negated => do
      let newInner ← substituteExpr inner
      let newList ← substituteExprs list
      return .inList newInner newList negated
  | .inSubquery inner subquery negated => do
      let newInner ← substituteExpr inner
      let newSubquery ← substituteParameters subquery
      return .inSubquery newInner newSubquery negated
  | .existsRow subquery negated => do
      let newSubquery ← substituteParameters subquery
      return .existsRow newSubquery negated
  | .scalarSubquery subquery => do
      let newSubquery ← substituteParameters subquery
      return .scalarSubquery newSubquery
  | .between inner low high negated => do
      let inner ← substituteExpr inner
      let low ← substituteExpr low
      let high ← substituteExpr high
      return .between inner low high negated
  | .like inner pattern negated => do
      let inner ← substituteExpr inner
      let pattern ← substituteExpr pattern
      return .like inner pattern negated
  | .isNull inner negated => do
      let inner ← substituteExpr inner
      return .isNull inner negated
  | .cast inner targetType => do
      let inner ← substituteExpr inner
      return .cast inner targetType
  | .literal value => return .literal value
  | .column table name dataType => return .column table name dataType
termination_by structural e => e

/-- Substitute parameter placeholders in a query plan with actual values. -/
def substituteParameters : PlanNode → Except ExecutorError PlanNode
  | .scan tableName aliasName columns indexScan => do
      let indexScan ← substituteIndexScan indexScan
      return .scan tableName aliasName columns indexScan
  | .filter input predicate => do
      let input ← substituteParameters input
      let predicate ← substituteExpr predicate
      return .filter input predicate
  | .project input expressions => do
      let input ← substituteParameters input
      let expressions ← substituteProjections expressions
      return .project input expressions
  | .sort input orderBy => do
      let input ← substituteParameters input
      let orderBy ← substituteSortKeys orderBy
      return .sort input orderBy
  | .limit input limit offset => do
      let input ← substituteParameters input
      return .limit input limit offset
  | .aggregate input groupBy aggregates => do
      let input ← substituteParameters input
      let groupBy ← substituteExprs groupBy
      let aggregates ← substituteAggregates aggregates
      return .aggregate input groupBy aggregates
  | .join left right joinType condition strategy => do
      let left ← substituteParameters left
      let right ← substituteParameters right
      let condition ← substituteOption condition
      return .join left right joinType condition strategy
  | .insert tableName columns source => do
      let source ← substituteSource source
      return .insert tableName columns source
  | .update tableName assignments whereClause => do
      let assignments ← substituteAssignments assignments
      let whereClause ← substituteOption whereClause
      return .update tableName assignments whereClause
  | .delete tableName whereClause => do
      let whereClause ← substituteOption whereClause
      return .delete tableName whereClause
  | .setOperation op left right => do
      let left ← substituteParameters left
      let right ← substituteParameters right
      return .setOperation op left right
  | .empty => return .empty
termination_by structural p => p

def substituteOption : Option PlanExpression → Except ExecutorError (Option PlanExpression)
  | none => return none
  | some e => do
      let e ← substituteExpr e
      return some e
termination_by structural e => e

def substituteExprs : List PlanExpression → Except ExecutorError (List PlanExpression)
  | [] => return []
  | e :: es => do
      let e ← substituteExpr e
      let es ← substituteExprs es
      return e :: es
termination_by structural es => es

def substituteConditions : List (PlanExpression × PlanExpression) →
    Except ExecutorError (List (PlanExpression × PlanExpression))
  | [] => return []
  | (cond, result) :: rest => do
      let cond ← substituteExpr cond
      let result ← substituteExpr result
      let rest ← substituteConditions rest
      return (cond, result) :: rest
termination_by structural cs => cs

def substituteIndexScan : Option (IndexScan PlanExpression) →
    Except ExecutorError (Option (IndexScan PlanExpression))
  | none => return none
  | some ⟨indexName, ⟨start, startInclusive, stop, stopInclusive⟩⟩ => do
      let start ← substituteOption start
      let stop ← substituteOption stop
      return some ⟨indexName, ⟨start, startInclusive, stop, stopInclusive⟩⟩
termination_by structural s => s

def substituteProjections : List (ProjectionExpr PlanExpression) →
    Except ExecutorError (List (ProjectionExpr PlanExpression))
  | [] => return []
  | ⟨expr, aliasName⟩ :: rest => do
      let expr ← substituteExpr expr
      let rest ← substituteProjections rest
      return ⟨expr, aliasName⟩ :: rest
termination_by structural ps => ps

def substituteSortKeys : List (SortKey PlanExpression) →
    Except ExecutorError (List (SortKey PlanExpression))
  | [] => return []
  | ⟨expr, ascending, nullsFirst⟩ :: rest => do
      let expr ← substituteExpr expr
      let rest ← substituteSortKeys rest
      return ⟨expr, ascending, nullsFirst⟩ :: rest
termination_by structural ks => ks

def substituteAggregates : List (AggregateExpr PlanExpression) →
    Except ExecutorError (List (AggregateExpr PlanExpression))
  | [] => return []
  | ⟨function, argument, distinct, aliasName⟩ :: rest => do
      let argument ← substituteOption argument
      let rest ← substituteAggregates rest
      return ⟨function, argument, distinct, aliasName⟩ :: rest
termination_by structural gs => gs

def substituteSource : InsertPlanSource PlanExpression PlanNode →
    Except ExecutorError (InsertPlanSource PlanExpression PlanNode)
  | .values rows => do
      let rows ← substituteRows rows
      return .values rows
  | .query q => do
      let q ← substituteParameters q
      return .query q
termination_by structural s => s

def substituteRows : List (List PlanExpression) →
    Except ExecutorError (List (List PlanExpression))
  | [] => return []
  | row :: rows => do
      let row ← substituteExprs row
      let rows ← substituteRows rows
      return row :: rows
termination_by structural rows => rows

def substituteAssignments : List (String × PlanExpression) →
    Except ExecutorError (List (String × PlanExpression))
  | [] => return []
  | (col, expr) :: rest => do
      let expr ← substituteExpr expr
      let rest ← substituteAssignments rest
      return (col, expr) :: rest
termination_by structural as => as

end

/-! ## The expressions of a plan -/

mutual

/-- The expressions that occur inside of an expression, those of subqueries included. -/
def PlanExpression.inside : PlanExpression → List PlanExpression
  | .column _ _ _ | .literal _ | .placeholder _ => []
  | .binaryOp left _ right => (left :: left.inside) ++ (right :: right.inside)
  | .unaryOp _ expr | .cast expr _ | .isNull expr _ => expr :: expr.inside
  | .function _ args _ => expressionsOfList args
  | .caseWhen operand conditions elseResult =>
      expressionsOfOption operand ++ expressionsOfConditions conditions ++
        expressionsOfOption elseResult
  | .inList expr list _ => (expr :: expr.inside) ++ expressionsOfList list
  | .between expr low high _ =>
      (expr :: expr.inside) ++ (low :: low.inside) ++ (high :: high.inside)
  | .like expr pattern _ => (expr :: expr.inside) ++ (pattern :: pattern.inside)
  | .inSubquery expr subquery _ => (expr :: expr.inside) ++ subquery.expressions
  | .existsRow subquery _ | .scalarSubquery subquery => subquery.expressions
termination_by structural e => e

/-- The expressions that occur anywhere in a plan. -/
def PlanNode.expressions : PlanNode → List PlanExpression
  | .scan _ _ _ indexScan => expressionsOfIndexScan indexScan
  | .filter input predicate => input.expressions ++ (predicate :: predicate.inside)
  | .project input expressions => input.expressions ++ expressionsOfProjections expressions
  | .join left right _ condition _ =>
      left.expressions ++ right.expressions ++ expressionsOfOption condition
  | .aggregate input groupBy aggregates =>
      input.expressions ++ expressionsOfList groupBy ++ expressionsOfAggregates aggregates
  | .sort input orderBy => input.expressions ++ expressionsOfSortKeys orderBy
  | .limit input _ _ => input.expressions
  | .empty => []
  | .insert _ _ source => expressionsOfSource source
  | .update _ assignments whereClause =>
      expressionsOfAssignments assignments ++ expressionsOfOption whereClause
  | .delete _ whereClause => expressionsOfOption whereClause
  | .setOperation _ left right => left.expressions ++ right.expressions
termination_by structural p => p

def expressionsOfOption : Option PlanExpression → List PlanExpression
  | none => []
  | some e => e :: e.inside
termination_by structural e => e

def expressionsOfList : List PlanExpression → List PlanExpression
  | [] => []
  | e :: es => (e :: e.inside) ++ expressionsOfList es
termination_by structural es => es

def expressionsOfConditions : List (PlanExpression × PlanExpression) → List PlanExpression
  | [] => []
  | (cond, result) :: rest =>
      (cond :: cond.inside) ++ (result :: result.inside) ++ expressionsOfConditions rest
termination_by structural cs => cs

def expressionsOfIndexScan : Option (IndexScan PlanExpression) → List PlanExpression
  | none => []
  | some ⟨_, ⟨start, _, stop, _⟩⟩ => expressionsOfOption start ++ expressionsOfOption stop
termination_by structural s => s

def expressionsOfProjections : List (ProjectionExpr PlanExpression) → List PlanExpression
  | [] => []
  | ⟨expr, _⟩ :: rest => (expr :: expr.inside) ++ expressionsOfProjections rest
termination_by structural ps => ps

def expressionsOfSortKeys : List (SortKey PlanExpression) → List PlanExpression
  | [] => []
  | ⟨expr, _, _⟩ :: rest => (expr :: expr.inside) ++ expressionsOfSortKeys rest
termination_by structural ks => ks

def expressionsOfAggregates : List (AggregateExpr PlanExpression) → List PlanExpression
  | [] => []
  | ⟨_, argument, _, _⟩ :: rest => expressionsOfOption argument ++ expressionsOfAggregates rest
termination_by structural gs => gs

def expressionsOfSource : InsertPlanSource PlanExpression PlanNode → List PlanExpression
  | .values rows => expressionsOfRows rows
  | .query q => q.expressions
termination_by structural s => s

def expressionsOfRows : List (List PlanExpression) → List PlanExpression
  | [] => []
  | row :: rows => expressionsOfList row ++ expressionsOfRows rows
termination_by structural rows => rows

def expressionsOfAssignments : List (String × PlanExpression) → List PlanExpression
  | [] => []
  | (_, expr) :: rest => (expr :: expr.inside) ++ expressionsOfAssignments rest
termination_by structural as => as

end

def PlanExpression.expressions (e : PlanExpression) : List PlanExpression :=
  e :: e.inside

def InRange (e : PlanExpression) : Prop :=
  ∀ idx, e = .placeholder idx → 1 ≤ idx.toNat ∧ idx.toNat ≤ params.values.length

/-- The result of a substitution, if there is one, has for each expression what it is substituted
by; and if there is none, some placeholder has no parameter. -/
def Substituted {β : Type} (expressions : List PlanExpression) (result : Except ExecutorError β)
    (out : β → List PlanExpression) : Prop :=
  match result with
  | .ok b => (∀ e ∈ expressions, InRange params e) ∧
      List.Forall₂ (fun e e' => substituteExpr codec params e = .ok e') expressions (out b)
  | .error _ => ∃ e ∈ expressions, ¬InRange params e

section Substituted

variable {codec params} {α β γ δ : Type} {l l₁ l₂ l₃ : List PlanExpression}
  {r₁ : Except ExecutorError α} {r₂ : Except ExecutorError β} {r₃ : Except ExecutorError γ}
  {out₁ : α → List PlanExpression} {out₂ : β → List PlanExpression}
  {out₃ : γ → List PlanExpression} {out : δ → List PlanExpression} {e : PlanExpression}

theorem Substituted.pure {d : δ} (h : out d = []) : Substituted codec params [] (.ok d) out := by
  refine ⟨fun _ he => (nomatch he), ?_⟩
  rw [h]
  exact .nil

theorem Substituted.map (h₁ : Substituted codec params l₁ r₁ out₁) {f : α → δ}
    (hout : ∀ a, out (f a) = out₁ a) :
    Substituted codec params l₁ (do let a ← r₁; return f a) out := by
  cases r₁ with
  | error e => exact h₁
  | ok a => exact ⟨h₁.1, (hout a).symm ▸ h₁.2⟩

/-- What is made of two parts, of which the second is substituted when the first one is. -/
theorem Substituted.map₂ (h₁ : Substituted codec params l₁ r₁ out₁)
    (h₂ : Substituted codec params l₂ r₂ out₂) {f : α → β → δ}
    (hout : ∀ a b, out (f a b) = out₁ a ++ out₂ b) :
    Substituted codec params (l₁ ++ l₂) (do let a ← r₁; let b ← r₂; return f a b) out := by
  cases r₁ with
  | error e =>
    obtain ⟨e, he, hrange⟩ := h₁
    exact ⟨e, List.mem_append_left _ he, hrange⟩
  | ok a =>
    cases r₂ with
    | error e =>
      obtain ⟨e, he, hrange⟩ := h₂
      exact ⟨e, List.mem_append_right _ he, hrange⟩
    | ok b =>
      refine ⟨List.forall_mem_append.2 ⟨h₁.1, h₂.1⟩, ?_⟩
      rw [hout]
      exact List.rel_append h₁.2 h₂.2

theorem Substituted.map₃ (h₁ : Substituted codec params l₁ r₁ out₁)
    (h₂ : Substituted codec params l₂ r₂ out₂) (h₃ : Substituted codec params l₃ r₃ out₃)
    {f : α → β → γ → δ} (hout : ∀ a b c, out (f a b c) = out₁ a ++ out₂ b ++ out₃ c) :
    Substituted codec params (l₁ ++ l₂ ++ l₃)
      (do let a ← r₁; let b ← r₂; let c ← r₃; return f a b c) out := by
  have h₁₂ : Substituted codec params (l₁ ++ l₂) (do let a ← r₁; let b ← r₂; return (a, b))
      fun ab => out₁ ab.1 ++ out₂ ab.2 := h₁.map₂ h₂ fun _ _ => rfl
  have h := h₁₂.map₂ h₃ (f := fun ab c => f ab.1 ab.2 c) fun ab c => hout ab.1 ab.2 c
  cases r₁ with
  | error e => exact h
  | ok a =>
    cases r₂ with
    | error e => exact h
    | ok b => exact h

theorem Substituted.cons (h : Substituted codec params e.inside (substituteExpr codec params e)
      PlanExpression.inside) (he : ∀ idx, e ≠ .placeholder idx) :
    Substituted codec params e.expressions (substituteExpr codec params e)
      PlanExpression.expressions := by
  have hrange : InRange params e := fun idx hidx => absurd hidx (he idx)
  unfold Substituted at h ⊢
  cases hresult : substituteExpr codec params e with
  | error e' =>
    rw [hresult] at h
    obtain ⟨e'', hmem, hnot⟩ := h
    exact ⟨e'', List.mem_cons_of_mem _ hmem, hnot⟩
  | ok e' =>
    rw [hresult] at h
    exact ⟨List.forall_mem_cons.2 ⟨hrange, h.1⟩, .cons hresult h.2⟩

/-- There is a parameter just for the indices from one to the number of parameters. -/
theorem Params.get_cases (params : Params) (idx : UInt64) :
    (1 ≤ idx.toNat ∧ idx.toNat ≤ params.values.length ∧
      ∃ value, params.values[idx.toNat - 1]? = some value ∧ params.get idx = .ok value) ∨
    ¬(1 ≤ idx.toNat ∧ idx.toNat ≤ params.values.length) ∧ ∃ e, params.get idx = .error e := by
  have hlen := params.length_lt
  by_cases hidx : 1 ≤ idx.toNat ∧ idx.toNat ≤ params.values.length
  · have hsub : (idx - 1).toNat = idx.toNat - 1 :=
      UInt64.toNat_sub_of_le _ _ (UInt64.le_iff_toNat_le.2 hidx.1)
    have hlt : idx.toNat - 1 < params.values.length := by omega
    refine .inl ⟨hidx.1, hidx.2, _, List.getElem?_eq_getElem hlt, ?_⟩
    rw [get, hsub, List.getElem?_eq_getElem hlt]
  · refine .inr ⟨hidx, ?_⟩
    have hnone : params.values[(idx - 1).toNat]? = none := by
      rw [List.getElem?_eq_none_iff]
      by_cases hzero : idx = 0
      · subst hzero
        have hmax : ((0 : UInt64) - 1).toNat = 2 ^ 64 - 1 := rfl
        omega
      · have hpos : 1 ≤ idx.toNat := by
          have hne : idx.toNat ≠ 0 := fun h => hzero (UInt64.toNat_inj.1 h)
          omega
        have hsub : (idx - 1).toNat = idx.toNat - 1 :=
          UInt64.toNat_sub_of_le _ _ (UInt64.le_iff_toNat_le.2 hpos)
        omega
    rw [get, hnone]
    exact ⟨_, rfl⟩

theorem substituted_placeholder (idx : UInt64) :
    Substituted codec params (PlanExpression.placeholder idx).expressions
      (substituteExpr codec params (.placeholder idx)) PlanExpression.expressions := by
  have hexpr : substituteExpr codec params (.placeholder idx) =
      (params.get idx).map (valueToLiteral codec) := by
    rw [substituteExpr]
    cases params.get idx <;> rfl
  rcases params.get_cases idx with ⟨hpos, hle, value, -, hget⟩ | ⟨hnot, e, hget⟩
  · rw [hget] at hexpr
    rw [hexpr]
    refine ⟨fun e he idx' hidx => ?_, .cons hexpr .nil⟩
    obtain rfl := List.mem_singleton.1 he
    obtain rfl := PlanExpression.placeholder.inj hidx
    exact ⟨hpos, hle⟩
  · rw [hexpr, hget]
    exact ⟨_, List.mem_singleton_self _, fun h => hnot (h idx rfl)⟩

end Substituted

/-! ## Every expression of a plan is substituted -/

section Traversal

mutual

theorem substituted_expr : ∀ e : PlanExpression,
    Substituted codec params e.expressions (substituteExpr codec params e)
      PlanExpression.expressions
  | .placeholder idx => substituted_placeholder idx
  | .column _ _ _ => .cons (.pure rfl) nofun
  | .literal _ => .cons (.pure rfl) nofun
  | .binaryOp left _ right =>
      .cons ((substituted_expr left).map₂ (substituted_expr right) fun _ _ => rfl) nofun
  | .unaryOp _ expr => .cons ((substituted_expr expr).map fun _ => rfl) nofun
  | .function _ args _ => .cons ((substituted_exprs args).map fun _ => rfl) nofun
  | .cast expr _ => .cons ((substituted_expr expr).map fun _ => rfl) nofun
  | .isNull expr _ => .cons ((substituted_expr expr).map fun _ => rfl) nofun
  | .caseWhen operand conditions elseResult =>
      .cons ((substituted_option operand).map₃ (substituted_conditions conditions)
        (substituted_option elseResult) fun _ _ _ => rfl) nofun
  | .inList expr list _ =>
      .cons ((substituted_expr expr).map₂ (substituted_exprs list) fun _ _ => rfl) nofun
  | .between expr low high _ =>
      .cons ((substituted_expr expr).map₃ (substituted_expr low) (substituted_expr high)
        fun _ _ _ => rfl) nofun
  | .like expr pattern _ =>
      .cons ((substituted_expr expr).map₂ (substituted_expr pattern) fun _ _ => rfl) nofun
  | .inSubquery expr subquery _ =>
      .cons ((substituted_expr expr).map₂ (substituted_parameters subquery) fun _ _ => rfl) nofun
  | .existsRow subquery _ =>
      .cons ((substituted_parameters subquery).map fun _ => rfl) nofun
  | .scalarSubquery subquery => .cons ((substituted_parameters subquery).map fun _ => rfl) nofun
termination_by structural e => e

theorem substituted_parameters : ∀ p : PlanNode,
    Substituted codec params p.expressions (substituteParameters codec params p)
      PlanNode.expressions
  | .scan _ _ _ indexScan =>
      (substituted_indexScan indexScan).map fun _ => rfl
  | .filter input predicate =>
      (substituted_parameters input).map₂ (substituted_expr predicate) fun _ _ => rfl
  | .project input expressions =>
      (substituted_parameters input).map₂ (substituted_projections expressions) fun _ _ => rfl
  | .join left right _ condition _ =>
      (substituted_parameters left).map₃ (substituted_parameters right)
        (substituted_option condition) fun _ _ _ => rfl
  | .aggregate input groupBy aggregates =>
      (substituted_parameters input).map₃ (substituted_exprs groupBy)
        (substituted_aggregates aggregates) fun _ _ _ => rfl
  | .sort input orderBy =>
      (substituted_parameters input).map₂ (substituted_sortKeys orderBy) fun _ _ => rfl
  | .limit input _ _ => (substituted_parameters input).map fun _ => rfl
  | .empty => .pure rfl
  | .insert _ _ source => (substituted_source source).map fun _ => rfl
  | .update _ assignments whereClause =>
      (substituted_assignments assignments).map₂ (substituted_option whereClause) fun _ _ => rfl
  | .delete _ whereClause => (substituted_option whereClause).map fun _ => rfl
  | .setOperation _ left right =>
      (substituted_parameters left).map₂ (substituted_parameters right) fun _ _ => rfl
termination_by structural p => p

theorem substituted_option : ∀ e : Option PlanExpression,
    Substituted codec params (expressionsOfOption e) (substituteOption codec params e)
      expressionsOfOption
  | none => .pure rfl
  | some e => (substituted_expr e).map fun _ => rfl
termination_by structural e => e

theorem substituted_exprs : ∀ es : List PlanExpression,
    Substituted codec params (expressionsOfList es) (substituteExprs codec params es)
      expressionsOfList
  | [] => .pure rfl
  | e :: es => (substituted_expr e).map₂ (substituted_exprs es) fun _ _ => rfl
termination_by structural es => es

theorem substituted_conditions : ∀ cs : List (PlanExpression × PlanExpression),
    Substituted codec params (expressionsOfConditions cs) (substituteConditions codec params cs)
      expressionsOfConditions
  | [] => .pure rfl
  | (cond, result) :: rest =>
      (substituted_expr cond).map₃ (substituted_expr result) (substituted_conditions rest)
        fun _ _ _ => rfl
termination_by structural cs => cs

theorem substituted_indexScan : ∀ s : Option (IndexScan PlanExpression),
    Substituted codec params (expressionsOfIndexScan s) (substituteIndexScan codec params s)
      expressionsOfIndexScan
  | none => .pure rfl
  | some ⟨_, ⟨start, _, stop, _⟩⟩ =>
      (substituted_option start).map₂ (substituted_option stop) fun _ _ => rfl
termination_by structural s => s

theorem substituted_projections : ∀ ps : List (ProjectionExpr PlanExpression),
    Substituted codec params (expressionsOfProjections ps) (substituteProjections codec params ps)
      expressionsOfProjections
  | [] => .pure rfl
  | ⟨expr, _⟩ :: rest =>
      (substituted_expr expr).map₂ (substituted_projections rest) fun _ _ => rfl
termination_by structural ps => ps

theorem substituted_sortKeys : ∀ ks : List (SortKey PlanExpression),
    Substituted codec params (expressionsOfSortKeys ks) (substituteSortKeys codec params ks)
      expressionsOfSortKeys
  | [] => .pure rfl
  | ⟨expr, _, _⟩ :: rest =>
      (substituted_expr expr).map₂ (substituted_sortKeys rest) fun _ _ => rfl
termination_by structural ks => ks

theorem substituted_aggregates : ∀ gs : List (AggregateExpr PlanExpression),
    Substituted codec params (expressionsOfAggregates gs) (substituteAggregates codec params gs)
      expressionsOfAggregates
  | [] => .pure rfl
  | ⟨_, argument, _, _⟩ :: rest =>
      (substituted_option argument).map₂ (substituted_aggregates rest) fun _ _ => rfl
termination_by structural gs => gs

theorem substituted_source : ∀ s : InsertPlanSource PlanExpression PlanNode,
    Substituted codec params (expressionsOfSource s) (substituteSource codec params s)
      expressionsOfSource
  | .values rows => (substituted_rows rows).map fun _ => rfl
  | .query q => (substituted_parameters q).map fun _ => rfl
termination_by structural s => s

theorem substituted_rows : ∀ rows : List (List PlanExpression),
    Substituted codec params (expressionsOfRows rows) (substituteRows codec params rows)
      expressionsOfRows
  | [] => .pure rfl
  | row :: rows => (substituted_exprs row).map₂ (substituted_rows rows) fun _ _ => rfl
termination_by structural rows => rows

theorem substituted_assignments : ∀ as : List (String × PlanExpression),
    Substituted codec params (expressionsOfAssignments as) (substituteAssignments codec params as)
      expressionsOfAssignments
  | [] => .pure rfl
  | (_, expr) :: rest =>
      (substituted_expr expr).map₂ (substituted_assignments rest) fun _ _ => rfl
termination_by structural as => as

end

end Traversal

end Prepared

end Query

end AegisDB
