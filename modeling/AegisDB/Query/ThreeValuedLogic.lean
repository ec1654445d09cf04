import AegisDB.Library.Kleene
import AegisDB.Query.Expression
import Mathlib.Logic.Relation

/-!
# Three-valued logic

The reference semantics of an expression takes NULL for the unknown of Kleene's logic: a comparison
with NULL is unknown, the connectives are Kleene's, `IN` is a disjunction of comparisons, `BETWEEN`
a conjunction of two, and a branch of `CASE` is taken if its comparison or condition is true.  Where
no NULL is involved the values are compared as the executor compares them.

The executor agrees with the reference on an expression and everything its evaluation reaches, as
long as none of the operators it reaches meets a NULL that it mistakes: for an operand that settles
nothing in `AND` and `OR`, for false in `NOT`, and for a value equal to every other in `IN`,
`BETWEEN` and `CASE`.
-/

namespace AegisDB

namespace Query

/-! ## The reference semantics -/

def Value.ofKleene : Kleene → Value
  | none => .null
  | some b => .boolean b

def Value.toKleene (v : Value) : Except ExecutorError Kleene :=
  if v = .null then .ok none else (valueToBool v).map some

/-- A test on the order of two values; unknown next to NULL. -/
def comparison (test : Ordering → Bool) (v w : Value) : Kleene :=
  if v = .null ∨ w = .null then none else some (test (compareValues v w))

def referenceBinaryOp (op : PlanBinaryOp) (left right : Value) : Except ExecutorError Value :=
  match op with
  | .equal => .ok (.ofKleene (comparison (· == .eq) left right))
  | .notEqual => .ok (.ofKleene (comparison (· != .eq) left right))
  | .lessThan => .ok (.ofKleene (comparison (· == .lt) left right))
  | .lessThanOrEqual => .ok (.ofKleene (comparison (· != .gt) left right))
  | .greaterThan => .ok (.ofKleene (comparison (· == .gt) left right))
  | .greaterThanOrEqual => .ok (.ofKleene (comparison (· != .lt) left right))
  | .and => do
      let l ← left.toKleene
      let r ← right.toKleene
      return .ofKleene (Kleene.and l r)
  | .or => do
      let l ← left.toKleene
      let r ← right.toKleene
      return .ofKleene (Kleene.or l r)

def referenceUnaryOp (op : PlanUnaryOp) (value : Value) : Except ExecutorError Value :=
  match op with
  | .not => do
      let truth ← value.toKleene
      return .ofKleene truth.not

section Reference

variable (row : Row) (columns : List String)

mutual

/-- The value of an expression in three-valued logic. -/
def referenceExpression : PlanExpression → Except ExecutorError Value
  | .literal lit => .ok lit.value
  | .column name => evaluateColumn row columns name
  | .binaryOp left op right => do
      let leftVal ← referenceExpression left
      let rightVal ← referenceExpression right
      referenceBinaryOp op leftVal rightVal
  | .unaryOp op expr => do
      let val ← referenceExpression expr
      referenceUnaryOp op val
  | .isNull expr negated => do
      let val ← referenceExpression expr
      return .boolean (negateIf negated (val == .null))
  | .caseWhen (some operand) conditions elseResult => do
      let operandVal ← referenceExpression operand
      caseResult (referenceMatch operandVal conditions) (referenceElse elseResult)
  | .caseWhen none conditions elseResult =>
      caseResult (referenceConditions conditions) (referenceElse elseResult)
  | .inList expr list negated => do
      let val ← referenceExpression expr
      let found ← referenceList val list
      return .ofKleene (Kleene.negateIf negated found)
  | .between expr low high negated => do
      let val ← referenceExpression expr
      let lowVal ← referenceExpression low
      let highVal ← referenceExpression high
      return .ofKleene (Kleene.negateIf negated
        (Kleene.and (comparison (· != .lt) val lowVal) (comparison (· != .gt) val highVal)))
  | .other value => value row columns
termination_by structural e => e

/-- The result of the first branch whose value equals the operand. -/
def referenceMatch (operandVal : Value) :
    List (PlanExpression × PlanExpression) → Except ExecutorError (Option Value)
  | [] => return none
  | (whenExpr, thenExpr) :: rest => do
      let whenVal ← referenceExpression whenExpr
      if comparison (· == .eq) operandVal whenVal = some true then
        return some (← referenceExpression thenExpr)
      else referenceMatch operandVal rest

/-- The result of the first branch whose condition is true. -/
def referenceConditions :
    List (PlanExpression × PlanExpression) → Except ExecutorError (Option Value)
  | [] => return none
  | (whenExpr, thenExpr) :: rest => do
      let whenVal ← referenceExpression whenExpr
      if whenVal = .boolean true then return some (← referenceExpression thenExpr)
      else referenceConditions rest

def referenceElse : Option PlanExpression → Except ExecutorError Value
  | some elseExpr => referenceExpression elseExpr
  | none => return .null

/-- Whether some item of a list equals the value. -/
def referenceList (val : Value) : List PlanExpression → Except ExecutorError Kleene
  | [] => .ok (some false)
  | item :: rest => do
      let itemVal ← referenceExpression item
      if comparison (· == .eq) val itemVal = some true then return some true
      else return Kleene.or (comparison (· == .eq) val itemVal) (← referenceList val rest)

end

/-! ## What the evaluation of an expression reaches -/

/-- What is reached after an evaluation that succeeds. -/
def reachedAfter {α : Type*} (val : Except ExecutorError Value) (rest : Value → List α) : List α :=
  match val with
  | .ok val => rest val
  | .error _ => []

/-- The expressions of `CASE` reached when the operand has the given value. -/
def matchOperands (operandVal : Value) (elseResult : Option PlanExpression) :
    List (PlanExpression × PlanExpression) → List PlanExpression
  | [] => elseResult.toList
  | (whenExpr, thenExpr) :: rest =>
      whenExpr :: reachedAfter (referenceExpression row columns whenExpr) fun whenVal =>
        if comparison (· == .eq) operandVal whenVal = some false then
          matchOperands operandVal elseResult rest
        else [thenExpr]

/-- The expressions reached in `CASE` without an operand. -/
def conditionOperands (elseResult : Option PlanExpression) :
    List (PlanExpression × PlanExpression) → List PlanExpression
  | [] => elseResult.toList
  | (whenExpr, thenExpr) :: rest =>
      whenExpr :: reachedAfter (referenceExpression row columns whenExpr) fun whenVal =>
        if whenVal = .boolean true then [thenExpr] else conditionOperands elseResult rest

/-- The items of a list reached when the value looked for is given. -/
def listOperands (val : Value) : List PlanExpression → List PlanExpression
  | [] => []
  | item :: rest =>
      item :: reachedAfter (referenceExpression row columns item) fun itemVal =>
        if comparison (· == .eq) val itemVal = some false then listOperands val rest else []

/-- The operands of an expression whose values its evaluation on the row asks for. -/
def operands : PlanExpression → List PlanExpression
  | .literal _ | .column _ | .other _ => []
  | .binaryOp left _ right =>
      left :: reachedAfter (referenceExpression row columns left) fun _ => [right]
  | .unaryOp _ expr | .isNull expr _ => [expr]
  | .caseWhen (some operand) conditions elseResult =>
      operand :: reachedAfter (referenceExpression row columns operand) fun operandVal =>
        matchOperands row columns operandVal elseResult conditions
  | .caseWhen none conditions elseResult => conditionOperands row columns elseResult conditions
  | .inList expr list _ =>
      expr :: reachedAfter (referenceExpression row columns expr) fun val =>
        listOperands row columns val list
  | .between expr low high _ =>
      expr :: reachedAfter (referenceExpression row columns expr) fun _ =>
        low :: reachedAfter (referenceExpression row columns low) fun _ => [high]

/-- The evaluation of one expression on the row reaches another. -/
def Reaches : PlanExpression → PlanExpression → Prop :=
  Relation.ReflTransGen fun e d => d ∈ operands row columns e

/-! ## Where a NULL is not mistaken -/

/-- A NULL next to a connective does not meet an operand that settles the matter. -/
def ConnectiveSafe (settles : Bool) (left right : Value) : Prop :=
  (left = .null → right = .null ∨ valueToBool right = .ok !settles) ∧
    (right = .null → left = .null ∨ valueToBool left = .ok !settles)

/-- A NULL among the bounds meets a value that the other bound excludes. -/
def BetweenSafe (val low high : Value) : Prop :=
  val ≠ .null ∧ (low = .null → high ≠ .null ∧ compareValues val high = .gt) ∧
    (high = .null → low ≠ .null ∧ compareValues val low = .lt)

/-- A NULL among the branches of `CASE` is met only if its branch gives the result all the same. -/
def MatchSafe (operandVal : Value) (elseResult : Option PlanExpression) :
    List (PlanExpression × PlanExpression) → Prop
  | [] => True
  | (whenExpr, thenExpr) :: rest => ∀ whenVal,
      referenceExpression row columns whenExpr = .ok whenVal →
      if operandVal = .null ∨ whenVal = .null then
        referenceExpression row columns thenExpr =
          caseResult (referenceMatch row columns operandVal rest)
            (referenceElse row columns elseResult)
      else compareValues operandVal whenVal ≠ .eq → MatchSafe operandVal elseResult rest

/-- A NULL among the items of a list is met only if a later item equals the value. -/
def ListSafe (val : Value) : List PlanExpression → Prop
  | [] => True
  | item :: rest => ∀ itemVal, referenceExpression row columns item = .ok itemVal →
      if val = .null ∨ itemVal = .null then referenceList row columns val rest = .ok (some true)
      else compareValues val itemVal ≠ .eq → ListSafe val rest

/-- The outermost operator of an expression meets no NULL that it mistakes for another value. -/
def NullSafe : PlanExpression → Prop
  | .binaryOp left .and right => ∀ leftVal rightVal,
      referenceExpression row columns left = .ok leftVal →
      referenceExpression row columns right = .ok rightVal → ConnectiveSafe false leftVal rightVal
  | .binaryOp left .or right => ∀ leftVal rightVal,
      referenceExpression row columns left = .ok leftVal →
      referenceExpression row columns right = .ok rightVal → ConnectiveSafe true leftVal rightVal
  | .unaryOp .not expr => referenceExpression row columns expr ≠ .ok .null
  | .caseWhen (some operand) conditions elseResult => ∀ operandVal,
      referenceExpression row columns operand = .ok operandVal →
      MatchSafe row columns operandVal elseResult conditions
  | .inList expr list _ => ∀ val, referenceExpression row columns expr = .ok val →
      ListSafe row columns val list
  | .between expr low high _ => ∀ val lowVal highVal,
      referenceExpression row columns expr = .ok val →
      referenceExpression row columns low = .ok lowVal →
      referenceExpression row columns high = .ok highVal → BetweenSafe val lowVal highVal
  | _ => True

end Reference

variable {row : Row} {columns : List String}

/-! ## One operator -/

@[simp] theorem Value.ofKleene_eq_boolean {a : Kleene} {b : Bool} :
    Value.ofKleene a = .boolean b ↔ a = some b := by
  cases a <;> simp [Value.ofKleene]

@[simp] theorem Value.boolean_eq_ofKleene {a : Kleene} {b : Bool} :
    .boolean b = Value.ofKleene a ↔ a = some b := by
  rw [eq_comm, Value.ofKleene_eq_boolean]

theorem negateIf_eq_some_iff {negated found : Bool} {truth : Kleene} :
    Kleene.negateIf negated truth = some (negateIf negated found) ↔ some found = truth := by
  have hsome : some (negateIf negated found) = Kleene.negateIf negated (some found) := by
    rw [Kleene.negateIf_some]
    rfl
  rw [hsome, (Kleene.negateIf_injective negated).eq_iff, eq_comm]

@[simp] theorem Value.toKleene_null : Value.toKleene .null = .ok none := rfl

theorem Value.toKleene_of_ne_null {v : Value} (h : v ≠ .null) :
    v.toKleene = (valueToBool v).map some := if_neg h

theorem evaluateBinaryOp_comparison {op : PlanBinaryOp} (hand : op ≠ .and) (hor : op ≠ .or)
    (left right : Value) : evaluateBinaryOp op left right = referenceBinaryOp op left right := by
  unfold evaluateBinaryOp referenceBinaryOp comparison
  by_cases h : left = .null ∨ right = .null
  · cases op <;> simp_all [Value.ofKleene]
  · cases op <;> simp_all [Value.ofKleene]

def connective (settles : Bool) : PlanBinaryOp :=
  match settles with
  | false => .and
  | true => .or

/-- A connective is right unless a NULL meets the truth value that settles it. -/
theorem evaluateBinaryOp_connective_iff (settles : Bool) (left right : Value) :
    evaluateBinaryOp (connective settles) left right =
      referenceBinaryOp (connective settles) left right ↔ ConnectiveSafe settles left right := by
  unfold evaluateBinaryOp referenceBinaryOp ConnectiveSafe connective
  by_cases hl : left = .null
  · by_cases hr : right = .null
    · cases settles <;> simp [hl, hr, bind, Except.bind, pure, Except.pure, Kleene.and, Kleene.or,
        Value.ofKleene]
    · rw [Value.toKleene_of_ne_null hr]
      cases settles <;> rcases valueToBool right with e | _ | _ <;>
        simp [hl, hr, bind, Except.bind, pure, Except.pure, Except.map, Kleene.and, Kleene.or,
          Value.ofKleene]
  · rw [Value.toKleene_of_ne_null hl]
    by_cases hr : right = .null
    · cases settles <;> rcases valueToBool left with e | _ | _ <;>
        simp [hl, hr, bind, Except.bind, pure, Except.pure, Except.map, Kleene.and, Kleene.or,
          Value.ofKleene]
    · rw [Value.toKleene_of_ne_null hr]
      cases settles <;> rcases valueToBool left with e | _ | _ <;>
        rcases valueToBool right with e | _ | _ <;>
        simp [hl, hr, bind, Except.bind, pure, Except.pure, Except.map, Value.ofKleene]

theorem evaluateUnaryOp_not_iff (val : Value) :
    evaluateUnaryOp .not val = referenceUnaryOp .not val ↔ val ≠ .null := by
  by_cases hnull : val = .null
  · subst hnull
    have heval : evaluateUnaryOp .not .null = .ok (.boolean true) := rfl
    have href : referenceUnaryOp .not .null = .ok .null := rfl
    simp [heval, href]
  · unfold evaluateUnaryOp referenceUnaryOp
    rcases hb : valueToBool val with err | b <;>
      simp [Value.toKleene_of_ne_null hnull, hb, hnull, Except.map, bind, Except.bind, pure,
        Except.pure]

theorem evaluateBetween_iff (val low high : Value) :
    some (compareValues val low != .lt && compareValues val high != .gt) =
      Kleene.and (comparison (· != .lt) val low) (comparison (· != .gt) val high) ↔
      BetweenSafe val low high := by
  unfold comparison BetweenSafe
  by_cases hv : val = .null
  · simp [hv, Kleene.and]
  · by_cases hl : low = .null
    · by_cases hh : high = .null
      · simp [hv, hl, hh, Kleene.and]
      · cases hc : compareValues val high <;> simp [hv, hl, hh, Kleene.and]
    · by_cases hh : high = .null
      · cases hc : compareValues val low <;> simp [hv, hl, hh, Kleene.and]
      · simp [hv, hl, hh]

/-! ## The lists of `IN` and `CASE` -/

theorem comparison_of_null {test : Ordering → Bool} {v w : Value} (h : v = .null ∨ w = .null) :
    comparison test v w = none := if_pos h

theorem comparison_of_not_null {test : Ordering → Bool} {v w : Value}
    (h : ¬(v = .null ∨ w = .null)) : comparison test v w = some (test (compareValues v w)) :=
  if_neg h

theorem compareValues_of_null {v w : Value} (h : v = .null ∨ w = .null) :
    compareValues v w = .eq := by
  rcases h with rfl | rfl
  · exact compareValues_null_left w
  · exact compareValues_null_right v

/-- The search of a list is right as long as it meets no NULL that stops it too early. -/
theorem evaluateList_iff (val : Value) (list : List PlanExpression)
    (h : ∀ d ∈ listOperands row columns val list,
      evaluateExpression row columns d = referenceExpression row columns d) :
    (evaluateList row columns val list).map some = referenceList row columns val list ↔
      ListSafe row columns val list := by
  induction list with
  | nil => simp [evaluateList, referenceList, ListSafe, pure, Except.pure, Except.map]
  | cons item rest ih =>
    have hitem := h item List.mem_cons_self
    simp only [listOperands, List.mem_cons, forall_eq_or_imp] at h
    simp only [evaluateList, referenceList, ListSafe, hitem]
    cases hval : referenceExpression row columns item with
    | error e => simp [bind, Except.bind, Except.map]
    | ok itemVal =>
      simp only [hval, reachedAfter] at h
      simp only [bind, Except.bind, pure, Except.pure, Except.ok.injEq, forall_eq']
      by_cases hnull : val = .null ∨ itemVal = .null
      · simp only [comparison_of_null hnull, compareValues_of_null hnull, if_pos hnull]
        rcases referenceList row columns val rest with e | _ | _ | _ <;>
          simp [Except.map, Kleene.or]
      · simp only [comparison_of_not_null hnull, if_neg hnull] at h ⊢
        by_cases heq : compareValues val itemVal = .eq
        · simp [heq, Except.map]
        · have hih := ih (by simpa [heq] using h.2)
          have hfalse : (compareValues val itemVal == .eq) = false := by simpa using heq
          rw [hfalse, ← hih]
          rcases referenceList row columns val rest with e | _ | _ | _ <;> simp [heq, Kleene.or]

/-- A branch of `CASE` without operand is taken exactly if its condition is true. -/
theorem evaluateConditions_eq (elseResult : Option PlanExpression)
    (conditions : List (PlanExpression × PlanExpression))
    (h : ∀ d ∈ conditionOperands row columns elseResult conditions,
      evaluateExpression row columns d = referenceExpression row columns d) :
    evaluateExpression row columns (.caseWhen none conditions elseResult) =
      referenceExpression row columns (.caseWhen none conditions elseResult) := by
  induction conditions with
  | nil =>
    cases elseResult with
    | none => rfl
    | some e => exact h e (by simp [conditionOperands])
  | cons branch rest ih =>
    obtain ⟨whenExpr, thenExpr⟩ := branch
    have hwhen := h whenExpr List.mem_cons_self
    simp only [conditionOperands, List.mem_cons, forall_eq_or_imp] at h
    simp only [evaluateExpression, referenceExpression, evaluateConditions, referenceConditions,
      hwhen] at ih ⊢
    cases hval : referenceExpression row columns whenExpr with
    | error e => rfl
    | ok whenVal =>
      simp only [hval, reachedAfter] at h
      by_cases htrue : whenVal = .boolean true
      · have hthen := h.2 thenExpr (by simp [htrue])
        rcases hv : referenceExpression row columns thenExpr with e | v <;>
          simp [caseResult, htrue, hthen, hv, bind, Except.bind, pure, Except.pure]
      · have hih := ih (by simpa [htrue] using h.2)
        simpa [htrue, bind, Except.bind, pure, Except.pure] using hih

/-- The search for a branch of `CASE` is right as long as it takes none for a NULL that gives
another result. -/
theorem evaluateMatch_iff (operandVal : Value) (elseResult : Option PlanExpression)
    (conditions : List (PlanExpression × PlanExpression))
    (h : ∀ d ∈ matchOperands row columns operandVal elseResult conditions,
      evaluateExpression row columns d = referenceExpression row columns d) :
    caseResult (evaluateMatch row columns operandVal conditions)
        (evaluateElse row columns elseResult) =
      caseResult (referenceMatch row columns operandVal conditions)
        (referenceElse row columns elseResult) ↔
      MatchSafe row columns operandVal elseResult conditions := by
  induction conditions with
  | nil =>
    cases elseResult with
    | none =>
      simp [MatchSafe, evaluateMatch, referenceMatch, evaluateElse, referenceElse, caseResult]
    | some e =>
      have he := h e (by simp [matchOperands])
      simp [MatchSafe, evaluateMatch, referenceMatch, evaluateElse, referenceElse, he]
  | cons branch rest ih =>
    obtain ⟨whenExpr, thenExpr⟩ := branch
    have hwhen := h whenExpr List.mem_cons_self
    simp only [matchOperands, List.mem_cons, forall_eq_or_imp] at h
    simp only [evaluateMatch, referenceMatch, MatchSafe, hwhen]
    cases hval : referenceExpression row columns whenExpr with
    | error e => simp [caseResult, bind, Except.bind]
    | ok whenVal =>
      simp only [hval, reachedAfter] at h
      by_cases hnull : operandVal = .null ∨ whenVal = .null
      · simp only [comparison_of_null hnull] at h
        have hthen := h.2 thenExpr (by simp)
        rcases hv : referenceExpression row columns thenExpr with e | v <;>
          simp [caseResult, hnull, hthen, hv, comparison_of_null hnull,
            compareValues_of_null hnull, bind, Except.bind, pure, Except.pure]
      · simp only [comparison_of_not_null hnull] at h
        have hcomparison : comparison (· == .eq) operandVal whenVal =
            some (compareValues operandVal whenVal == .eq) := comparison_of_not_null hnull
        by_cases heq : compareValues operandVal whenVal = .eq
        · have hthen := h.2 thenExpr (by simp [heq])
          rcases hv : referenceExpression row columns thenExpr with e | v <;>
            simp [caseResult, hcomparison, heq, hnull, hthen, hv, bind, Except.bind, pure,
              Except.pure]
        · have hih := ih (by simpa [heq] using h.2)
          simpa [hcomparison, heq, hnull, bind, Except.bind, pure, Except.pure] using hih

/-! ## Expressions -/

theorem mem_reachedAfter {α : Type*} {val : Except ExecutorError Value} {rest : Value → List α}
    {a : α} : a ∈ reachedAfter val rest ↔ ∃ v, val = .ok v ∧ a ∈ rest v := by
  unfold reachedAfter
  split <;> simp_all

theorem sizeOf_lt_of_mem_listOperands {val : Value} {list : List PlanExpression}
    {d : PlanExpression} (h : d ∈ listOperands row columns val list) : sizeOf d < sizeOf list := by
  induction list with
  | nil => simp [listOperands] at h
  | cons item rest ih =>
    simp only [List.cons.sizeOf_spec]
    rw [listOperands, List.mem_cons, mem_reachedAfter] at h
    rcases h with rfl | ⟨v, -, h⟩
    · omega
    · split_ifs at h
      · have := ih h
        omega
      · simp at h

theorem sizeOf_lt_of_mem_toList {d : PlanExpression} {e : Option PlanExpression}
    (h : d ∈ e.toList) : sizeOf d < sizeOf e := by
  cases e with
  | none => simp at h
  | some e =>
    obtain rfl : d = e := by simpa using h
    simp

theorem sizeOf_lt_of_mem_matchOperands {operandVal : Value} {elseResult : Option PlanExpression}
    {conditions : List (PlanExpression × PlanExpression)} {d : PlanExpression}
    (h : d ∈ matchOperands row columns operandVal elseResult conditions) :
    sizeOf d < sizeOf conditions + sizeOf elseResult := by
  induction conditions with
  | nil =>
    have := sizeOf_lt_of_mem_toList h
    omega
  | cons branch rest ih =>
    obtain ⟨whenExpr, thenExpr⟩ := branch
    simp only [List.cons.sizeOf_spec, Prod.mk.sizeOf_spec]
    rw [matchOperands, List.mem_cons, mem_reachedAfter] at h
    rcases h with rfl | ⟨v, -, h⟩
    · omega
    · split_ifs at h
      · have := ih h
        omega
      · obtain rfl : d = thenExpr := by simpa using h
        omega

theorem sizeOf_lt_of_mem_conditionOperands {elseResult : Option PlanExpression}
    {conditions : List (PlanExpression × PlanExpression)} {d : PlanExpression}
    (h : d ∈ conditionOperands row columns elseResult conditions) :
    sizeOf d < sizeOf conditions + sizeOf elseResult := by
  induction conditions with
  | nil =>
    have := sizeOf_lt_of_mem_toList h
    omega
  | cons branch rest ih =>
    obtain ⟨whenExpr, thenExpr⟩ := branch
    simp only [List.cons.sizeOf_spec, Prod.mk.sizeOf_spec]
    rw [conditionOperands, List.mem_cons, mem_reachedAfter] at h
    rcases h with rfl | ⟨v, -, h⟩
    · omega
    · split_ifs at h
      · obtain rfl : d = thenExpr := by simpa using h
        omega
      · have := ih h
        omega

theorem sizeOf_lt_of_mem_operands {d e : PlanExpression} (h : d ∈ operands row columns e) :
    sizeOf d < sizeOf e := by
  cases e with
  | literal lit => simp [operands] at h
  | column name => simp [operands] at h
  | other value => simp [operands] at h
  | binaryOp left op right =>
    simp only [operands, List.mem_cons, mem_reachedAfter, List.not_mem_nil, or_false] at h
    simp only [PlanExpression.binaryOp.sizeOf_spec]
    rcases h with rfl | ⟨v, -, rfl⟩ <;> omega
  | unaryOp op expr =>
    obtain rfl : d = expr := by simpa [operands] using h
    simp only [PlanExpression.unaryOp.sizeOf_spec]
    omega
  | isNull expr negated =>
    obtain rfl : d = expr := by simpa [operands] using h
    simp only [PlanExpression.isNull.sizeOf_spec]
    omega
  | caseWhen operand conditions elseResult =>
    simp only [PlanExpression.caseWhen.sizeOf_spec]
    cases operand with
    | none =>
      have := sizeOf_lt_of_mem_conditionOperands h
      omega
    | some operand =>
      simp only [operands, List.mem_cons, mem_reachedAfter] at h
      rcases h with rfl | ⟨v, -, h⟩
      · simp only [Option.some.sizeOf_spec]
        omega
      · have := sizeOf_lt_of_mem_matchOperands h
        omega
  | inList expr list negated =>
    simp only [operands, List.mem_cons, mem_reachedAfter] at h
    simp only [PlanExpression.inList.sizeOf_spec]
    rcases h with rfl | ⟨v, -, h⟩
    · omega
    · have := sizeOf_lt_of_mem_listOperands h
      omega
  | between expr low high negated =>
    simp only [operands, List.mem_cons, mem_reachedAfter, List.not_mem_nil, or_false] at h
    simp only [PlanExpression.between.sizeOf_spec]
    rcases h with rfl | ⟨v, -, rfl | ⟨v, -, rfl⟩⟩ <;> omega

/-- Where its operands agree with the reference, an expression agrees with it exactly if its
outermost operator mistakes no NULL. -/
theorem evaluateExpression_eq_reference_iff {e : PlanExpression}
    (h : ∀ d ∈ operands row columns e,
      evaluateExpression row columns d = referenceExpression row columns d) :
    evaluateExpression row columns e = referenceExpression row columns e ↔
      NullSafe row columns e := by
  cases e with
  | literal lit => simp [evaluateExpression, referenceExpression, NullSafe]
  | column name => simp [evaluateExpression, referenceExpression, NullSafe]
  | other value => simp [evaluateExpression, referenceExpression, NullSafe]
  | binaryOp left op right =>
    simp only [operands, List.mem_cons, mem_reachedAfter, List.not_mem_nil, or_false,
      forall_eq_or_imp] at h
    obtain ⟨hleft, hright⟩ := h
    cases hl : referenceExpression row columns left with
    | error err =>
      cases op <;> simp [evaluateExpression, referenceExpression, NullSafe, hleft, hl, bind,
        Except.bind]
    | ok leftVal =>
      have hright := hright right ⟨leftVal, hl, rfl⟩
      cases hr : referenceExpression row columns right with
      | error err =>
        cases op <;> simp [evaluateExpression, referenceExpression, NullSafe, hleft, hl, hright, hr,
          bind, Except.bind]
      | ok rightVal =>
        simp only [evaluateExpression, referenceExpression, hleft, hl, hright, hr, bind,
          Except.bind]
        by_cases hand : op = .and
        · subst hand
          have hiff := evaluateBinaryOp_connective_iff false leftVal rightVal
          simpa [NullSafe, hl, hr, connective] using hiff
        · by_cases hor : op = .or
          · subst hor
            have hiff := evaluateBinaryOp_connective_iff true leftVal rightVal
            simpa [NullSafe, hl, hr, connective] using hiff
          · have heq := evaluateBinaryOp_comparison hand hor leftVal rightVal
            cases op <;> simp_all [NullSafe]
  | unaryOp op expr =>
    have hexpr := h expr (by simp [operands])
    cases op with
    | not =>
      simp only [evaluateExpression, referenceExpression, NullSafe, hexpr]
      cases hv : referenceExpression row columns expr with
      | error err => simp [bind, Except.bind]
      | ok val =>
        simpa [bind, Except.bind] using evaluateUnaryOp_not_iff val
  | isNull expr negated =>
    have hexpr := h expr (by simp [operands])
    simp [evaluateExpression, referenceExpression, NullSafe, hexpr]
  | caseWhen operand conditions elseResult =>
    cases operand with
    | none => simp [evaluateConditions_eq elseResult conditions h, NullSafe]
    | some operand =>
      simp only [operands, List.mem_cons, mem_reachedAfter, forall_eq_or_imp] at h
      simp only [evaluateExpression, referenceExpression, NullSafe, h.1]
      cases hv : referenceExpression row columns operand with
      | error err => simp [bind, Except.bind]
      | ok operandVal =>
        simpa [bind, Except.bind] using evaluateMatch_iff operandVal elseResult conditions
          fun d hd => h.2 d ⟨operandVal, hv, hd⟩
  | inList expr list negated =>
    simp only [operands, List.mem_cons, mem_reachedAfter, forall_eq_or_imp] at h
    simp only [evaluateExpression, referenceExpression, NullSafe, h.1]
    cases hv : referenceExpression row columns expr with
    | error err => simp [bind, Except.bind]
    | ok val =>
      have hlist := evaluateList_iff val list fun d hd => h.2 d ⟨val, hv, hd⟩
      simp only [bind, Except.bind, pure, Except.pure, Except.ok.injEq, forall_eq', ← hlist]
      rcases evaluateList row columns val list with err | found <;>
        rcases referenceList row columns val list with err' | truth
      · simp [Except.map]
      · simp [Except.map]
      · simp [Except.map]
      · simp [Except.map, negateIf_eq_some_iff]
  | between expr low high negated =>
    simp only [operands, List.mem_cons, mem_reachedAfter, List.not_mem_nil, or_false,
      forall_eq_or_imp] at h
    obtain ⟨hexpr, hrest⟩ := h
    simp only [evaluateExpression, referenceExpression, NullSafe, hexpr]
    cases hv : referenceExpression row columns expr with
    | error err => simp [bind, Except.bind]
    | ok val =>
      have hlow := hrest low ⟨val, hv, Or.inl rfl⟩
      cases hl : referenceExpression row columns low with
      | error err => simp [hlow, hl, bind, Except.bind]
      | ok lowVal =>
        have hhigh := hrest high ⟨val, hv, Or.inr ⟨lowVal, hl, rfl⟩⟩
        cases hh : referenceExpression row columns high with
        | error err => simp [hlow, hl, hhigh, hh, bind, Except.bind]
        | ok highVal =>
          have hbetween := evaluateBetween_iff val lowVal highVal
          simp [hlow, hl, hhigh, hh, bind, Except.bind, pure, Except.pure,
            negateIf_eq_some_iff, hbetween]

/-! ## Everything that is reached -/

theorem Reaches.trans {e d c : PlanExpression} (hed : Reaches row columns e d)
    (hdc : Reaches row columns d c) : Reaches row columns e c :=
  Relation.ReflTransGen.trans hed hdc

theorem Reaches.operand {e d : PlanExpression} (h : d ∈ operands row columns e) :
    Reaches row columns e d :=
  Relation.ReflTransGen.single h

theorem evaluateExpression_eq_reference (e : PlanExpression)
    (h : ∀ d, Reaches row columns e d → NullSafe row columns d) :
    evaluateExpression row columns e = referenceExpression row columns e := by
  induction hn : sizeOf e using Nat.strong_induction_on generalizing e with
  | h n ih =>
    subst hn
    refine (evaluateExpression_eq_reference_iff fun d hd => ?_).mpr (h e .refl)
    exact ih _ (sizeOf_lt_of_mem_operands hd) d
      (fun c hc => h c ((Reaches.operand hd).trans hc)) rfl

variable (row columns) in
/-- On an expression and everything its evaluation reaches, the executor has the values of
three-valued logic exactly if no operator that is reached mistakes a NULL.  A predicate that is
unknown is then returned by the opposite predicate: `NOT` takes NULL for false. -/
theorem threeValued_logic (e : PlanExpression) :
    ((∀ d, Reaches row columns e d →
        evaluateExpression row columns d = referenceExpression row columns d) ↔
      ∀ d, Reaches row columns e d → NullSafe row columns d) ∧
    ((∀ d, Reaches row columns e d → NullSafe row columns d) ∧
        referenceExpression row columns e = .ok .null →
      keepsRow row columns e = false ∧ keepsRow row columns (.unaryOp .not e) = true) := by
  refine ⟨⟨fun h d hd => ?_, fun h d hd => ?_⟩, fun ⟨hsafe, hnull⟩ => ?_⟩
  · refine (evaluateExpression_eq_reference_iff fun c hc => ?_).mp (h d hd)
    exact h c (hd.trans (.operand hc))
  · exact evaluateExpression_eq_reference d fun c hc => h c (hd.trans hc)
  · have heval := (evaluateExpression_eq_reference e hsafe).trans hnull
    refine ⟨?_, ?_⟩
    · rw [← Bool.not_eq_true, keepsRow_iff, heval]
      simp
    · rw [keepsRow_iff, evaluateExpression, heval]
      rfl

/-- `WHERE NOT x = 1` returns a row in which `x` is NULL. -/
theorem not_threeValued_logic :
    ¬∀ (row : Row) (columns : List String) (e : PlanExpression),
      evaluateExpression row columns e = referenceExpression row columns e ∧
        (referenceExpression row columns e = .ok .null →
          keepsRow row columns e = false ∧ keepsRow row columns (.unaryOp .not e) = false) := by
  intro h
  have hnot := (h [.null] ["x"] (.binaryOp (.column "x") .equal (.literal (.integer 1)))).2
    (by decide +kernel)
  exact absurd hnot.2 (by decide +kernel)

end Query

end AegisDB
