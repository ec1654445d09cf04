import AegisDB.Query.Snapshot

/-!
# Scripts

`QueryEngine::execute` runs the statements of a script one by one on the context of a database.
`BEGIN` copies the database and takes a snapshot, `ROLLBACK` puts the copy back, and so do a
statement that fails in a transaction and the end of a script that did not commit.  Two exits do
not: a statement that cannot be planned, and a `BEGIN` in a transaction.
-/

namespace AegisDB

namespace Server

open Query

/-- A statement of a script as it was planned. -/
inductive ScriptStatement where
  | beginTransaction
  | commitTransaction
  | rollbackTransaction
  /-- A statement that only reads, by what it answers in a context. -/
  | query (run : ExecutionContext → Except Failure QueryResult)
  | change (statement : Statement)
  | unplanned (message : String)

/-- How a script fails. -/
inductive ScriptError where
  | plan (message : String)
  | execute (message : String)
  | executor (e : ExecutorError)
deriving DecidableEq

/-- The context of a database, with what is stored of it. -/
structure QueryEngine where
  context : ExecutionContext
  /-- The stored snapshot, if there is a place to store one. -/
  file : Option (Option ExecutionContextSnapshot)

/-- What the loop over the statements keeps. -/
structure ScriptSession where
  lastResult : QueryResult
  inTransaction : Bool
  txnSnapshot : Option ExecutionContextSnapshot
  hadMutation : Bool

/-- How a statement of a script, or the script, ends. -/
inductive Outcome where
  | ok
  | err (e : ScriptError)
  | panicked
deriving DecidableEq

def ScriptSession.start : ScriptSession where
  lastResult := ⟨[], [], 0⟩
  inTransaction := false
  txnSnapshot := none
  hadMutation := false

/-- The answer to a statement about transactions. -/
def statusResult (status : String) : QueryResult where
  columns := ["status"]
  rows := [[.string status]]
  rowsAffected := 0

namespace QueryEngine

variable (text : DebugText) (order : HashOrder) (engine : QueryEngine) (session : ScriptSession)

def persist : QueryEngine :=
  { engine with file := engine.file.map fun _ => some (engine.context.toSnapshot order) }

/-- Put back the copy of the transaction, if there is one. -/
def rollBack : QueryEngine × ScriptSession :=
  match session.txnSnapshot with
  | none => (engine, session)
  | some snapshot =>
      ({ engine with
          context := (engine.context.restoreFromSnapshot text order snapshot).rollbackSnapshot },
        { session with txnSnapshot := none })

def executeBegin : (QueryEngine × ScriptSession) × Outcome :=
  if session.inTransaction then
    ((engine, session), .err (.execute "Already in a transaction"))
  else
    (({ engine with context := engine.context.beginSnapshot },
      { session with
        txnSnapshot := some (engine.context.toSnapshot order)
        inTransaction := true
        lastResult := statusResult "BEGIN" }),
      .ok)

def executeCommit : (QueryEngine × ScriptSession) × Outcome :=
  if session.inTransaction then
    let engine := { engine with context := engine.context.commitSnapshot }
    ((if session.hadMutation then engine.persist order else engine,
      { session with
        txnSnapshot := none
        inTransaction := false
        hadMutation := false
        lastResult := statusResult "COMMIT" }),
      .ok)
  else ((engine, session), .err (.execute "No transaction in progress"))

def executeRollback : (QueryEngine × ScriptSession) × Outcome :=
  if session.inTransaction then
    let done := engine.rollBack text order session
    ((done.1,
      { done.2 with
        inTransaction := false
        hadMutation := false
        lastResult := statusResult "ROLLBACK" }),
      .ok)
  else ((engine, session), .err (.execute "No transaction in progress"))

/-- What follows a statement that the executor has run. -/
def finishStatement (isMutation : Bool) :
    Except Failure QueryResult → (QueryEngine × ScriptSession) × Outcome
  | .error .panic => ((engine, session), .panicked)
  | .error (.error e) => (engine.rollBack text order session, .err (.executor e))
  | .ok result =>
      ((if isMutation && !session.inTransaction then engine.persist order else engine,
        { session with
          lastResult := result
          hadMutation := session.hadMutation || isMutation }),
        .ok)

/-- Run a statement of a script. -/
def executeStatement : ScriptStatement → (QueryEngine × ScriptSession) × Outcome
  | .beginTransaction => engine.executeBegin order session
  | .commitTransaction => engine.executeCommit order session
  | .rollbackTransaction => engine.executeRollback text order session
  | .query run => engine.finishStatement text order session false (run engine.context)
  | .change statement =>
      let done := engine.context.execute text statement
      finishStatement text order { engine with context := done.1 } session true done.2
  | .unplanned message => ((engine, session), .err (.plan message))

/-- The end of a script that has run through. -/
def finishScript : (QueryEngine × ScriptSession) × Outcome :=
  if session.inTransaction then
    (engine.rollBack text order session, .err (.execute
      "Transaction was not committed (missing COMMIT). Changes rolled back."))
  else ((engine, session), .ok)

/-- Run the statements of a script. -/
def executeAll :
    QueryEngine → ScriptSession → List ScriptStatement → (QueryEngine × ScriptSession) × Outcome
  | engine, session, [] => engine.finishScript text order session
  | engine, session, statement :: statements =>
      match engine.executeStatement text order session statement with
      | (done, .ok) => executeAll done.1 done.2 statements
      | (done, outcome) => (done, outcome)

/-- Run a script: the database that it leaves behind, and what it returns. -/
def execute (script : List ScriptStatement) :
    QueryEngine × Option (Except ScriptError QueryResult) :=
  let done := executeAll text order engine .start script
  (done.1.1,
    match done.2 with
    | .ok => some (.ok done.1.2.lastResult)
    | .err e => some (.error e)
    | .panicked => none)

end QueryEngine

/-! ## All or nothing -/

/-- A script on its way, with the context at the `BEGIN` of the transaction that is open. -/
structure ScriptRun where
  engine : QueryEngine
  session : ScriptSession
  begun : Option ExecutionContext

namespace ScriptRun

variable (text : DebugText) (order : HashOrder) (run : ScriptRun)

def start (engine : QueryEngine) : ScriptRun where
  engine := engine
  session := .start
  begun := none

/-- The transaction that is open after a statement that went well. -/
def begunAfter : ScriptStatement → Option ExecutionContext
  | .beginTransaction => some run.engine.context
  | .commitTransaction => none
  | .rollbackTransaction => none
  | _ => run.begun

/-- Run a statement. -/
def step (statement : ScriptStatement) : ScriptRun × Outcome :=
  let done := run.engine.executeStatement text order run.session statement
  ({ engine := done.1.1
     session := done.1.2
     begun := if done.2 = .ok then run.begunAfter statement else run.begun },
    done.2)

def finish : ScriptRun × Outcome :=
  let done := run.engine.finishScript text order run.session
  ({ run with engine := done.1.1, session := done.1.2 }, done.2)

def runAll : ScriptRun → List ScriptStatement → ScriptRun × Outcome
  | run, [] => run.finish text order
  | run, statement :: statements =>
      match run.step text order statement with
      | (run', .ok) => runAll run' statements
      | (run', outcome) => (run', outcome)

/-- If a script fails then the database is as it was before the `BEGIN` of the transaction that was
open, and no snapshot is active. -/
def AllOrNothing (engine : QueryEngine) (script : List ScriptStatement) : Prop :=
  let done := (start engine).runAll text order script
  ∀ e, done.2 = .err e →
    (∀ before ∈ done.1.begun, done.1.engine.context.Same before) ∧
      done.1.engine.context.snapshotVersion = none

/-- Whether a statement that fails leaves an open transaction as it is. -/
def abandons : Option ScriptStatement → Bool
  | some .beginTransaction => true
  | some (.unplanned _) => true
  | _ => false

/-- Where a script fails: what has run until then, and the statement that fails, if it is not the
end of the script that does. -/
def failurePoint : ScriptRun → List ScriptStatement → Option (ScriptRun × Option ScriptStatement)
  | run, [] =>
      match (run.finish text order).2 with
      | .err _ => some (run, none)
      | _ => none
  | run, statement :: statements =>
      match run.step text order statement with
      | (run', .ok) => failurePoint run' statements
      | (_, .err _) => some (run, some statement)
      | (_, .panicked) => none

/-- A failure in a transaction is of a kind that puts the database back, and the database at its
`BEGIN` can be put back; a failure outside happens when no snapshot is active. -/
structure Undone (next : Option ScriptStatement) : Prop where
  inside : ∀ before ∈ run.begun, before.Restorable text ∧ abandons next = false
  outside : run.begun = none → run.engine.context.snapshotVersion = none

/-! ### The invariant of the loop -/

/-- The session has the copy of the context at the `BEGIN` of the open transaction. -/
structure Consistent : Prop where
  outside : run.begun = none →
    run.session.inTransaction = false ∧ run.session.txnSnapshot = none
  inside : ∀ before ∈ run.begun,
    run.session.inTransaction = true ∧
      run.session.txnSnapshot = some (before.toSnapshot order) ∧
      run.engine.context.snapshotVersion = some before.versionClock ∧
      run.engine.context.versionClock = before.versionClock

variable {text} {order} {run}

theorem Consistent.start (engine : QueryEngine) : (start engine).Consistent order where
  outside _ := ⟨rfl, rfl⟩
  inside := by
    intro before hbefore
    cases hbefore

theorem Consistent.begun_of_not {run : ScriptRun} (h : run.Consistent order)
    (hnot : run.session.inTransaction = false) : run.begun = none := by
  cases hbegun : run.begun with
  | none => rfl
  | some before =>
    rw [(h.inside before hbegun).1] at hnot
    cases hnot

theorem Consistent.begun_of {run : ScriptRun} (h : run.Consistent order)
    (hin : run.session.inTransaction = true) : ∃ before, run.begun = some before := by
  cases hbegun : run.begun with
  | none =>
    rw [(h.outside hbegun).1] at hin
    cases hin
  | some before => exact ⟨before, rfl⟩

/-- Where a copy is put back, the database is as it was if it can be put back. -/
theorem undone_rollBack (h : run.Consistent order) {context : ExecutionContext}
    (hversion : run.engine.context.SameVersion context) {next : Option ScriptStatement}
    (hnext : abandons next = false) :
    let done := QueryEngine.rollBack text order { run.engine with context } run.session
    ((∀ before ∈ run.begun, done.1.context.Same before) ∧ done.1.context.snapshotVersion = none) ↔
      run.Undone text next := by
  cases hbegun : run.begun with
  | none =>
    have hcopy := (h.outside hbegun).2
    simp only [QueryEngine.rollBack, hcopy]
    constructor
    · rintro ⟨-, hnone⟩
      refine ⟨fun before hbefore => ?_, fun _ => ?_⟩
      · rw [hbegun] at hbefore
        cases hbefore
      · rw [← hversion.2]
        exact hnone
    · intro hundone
      refine ⟨fun before hbefore => ?_, ?_⟩
      · cases hbefore
      · rw [hversion.2]
        exact hundone.outside hbegun
  | some before =>
    obtain ⟨-, hcopy, -, hclock⟩ := h.inside before hbegun
    simp only [QueryEngine.rollBack, hcopy]
    have hsame : (context.restoreFromSnapshot text order (before.toSnapshot order)).Same before ↔
        before.Restorable text := by
      rw [ExecutionContext.restore_same_iff]
      exact and_iff_left (hversion.1.trans hclock)
    constructor
    · rintro ⟨hback, -⟩
      have hback := hback before rfl
      refine ⟨fun before' hbefore' => ?_, fun hnone => ?_⟩
      · rw [hbegun] at hbefore'
        obtain rfl := Option.some.inj hbefore'
        refine ⟨hsame.mp ?_, hnext⟩
        exact ⟨⟨hback.tables, hback.tableSchemas, hback.indexes, hback.managers⟩,
          hback.versionClock⟩
      · rw [hbegun] at hnone
        cases hnone
    · intro hundone
      have hback := hsame.mpr (hundone.inside before hbegun).1
      refine ⟨fun before' hbefore' => ?_, rfl⟩
      obtain rfl := Option.some.inj hbefore'
      exact ⟨hback.toSameData.rollbackSnapshot, hback.versionClock⟩

theorem Consistent.step (h : run.Consistent order) {statement : ScriptStatement} {run' : ScriptRun}
    (hstep : run.step text order statement = (run', .ok)) : run'.Consistent order := by
  have hrun' : run' = (run.step text order statement).1 := by rw [hstep]
  have hok : (run.engine.executeStatement text order run.session statement).2 = .ok :=
    congrArg Prod.snd hstep
  rw [hrun', ScriptRun.step, if_pos hok]
  cases statement with
  | beginTransaction =>
    simp only [QueryEngine.executeStatement, QueryEngine.executeBegin] at hok ⊢
    split_ifs at hok ⊢ with hin
    refine ⟨?_, fun before hbefore => ?_⟩
    · intro hnone
      cases hnone
    · obtain rfl := Option.some.inj hbefore
      exact ⟨rfl, rfl, rfl, rfl⟩
  | commitTransaction =>
    simp only [QueryEngine.executeStatement, QueryEngine.executeCommit] at hok ⊢
    split_ifs at hok ⊢ with hin
    all_goals
      refine ⟨fun _ => ⟨rfl, rfl⟩, fun before hbefore => ?_⟩
      cases hbefore
  | rollbackTransaction =>
    simp only [QueryEngine.executeStatement, QueryEngine.executeRollback] at hok ⊢
    split_ifs at hok ⊢ with hin
    obtain ⟨before, hbegun⟩ := h.begun_of hin
    obtain ⟨-, hcopy, -, -⟩ := h.inside before hbegun
    simp only [QueryEngine.rollBack, hcopy]
    refine ⟨fun _ => ⟨rfl, rfl⟩, fun before hbefore => ?_⟩
    cases hbefore
  | query answer =>
    simp only [QueryEngine.executeStatement] at hok ⊢
    cases hanswer : answer run.engine.context with
    | error e =>
      rw [hanswer] at hok
      cases e <;> cases hok
    | ok result => exact ⟨h.outside, h.inside⟩
  | change statement =>
    simp only [QueryEngine.executeStatement] at hok ⊢
    obtain ⟨hclock, hsnapshot⟩ :
        run.engine.context.SameVersion (run.engine.context.execute text statement).1 :=
      ExecutionContext.sameVersion_execute statement
    cases hanswer : (run.engine.context.execute text statement).2 with
    | error e =>
      rw [hanswer] at hok
      cases e <;> cases hok
    | ok result =>
      refine ⟨h.outside, fun before hbefore => ?_⟩
      obtain ⟨hin, hcopy, hsnap, hversion⟩ := h.inside before hbefore
      simp only [QueryEngine.finishStatement]
      split_ifs with hpersist
      · simp [hin] at hpersist
      · exact ⟨hin, hcopy, hsnapshot.trans hsnap, hclock.trans hversion⟩
  | unplanned message => cases hok

/-- Where a script that abandons its transaction fails, the snapshot is active. -/
theorem undone_abandons (h : run.Consistent order) {next : Option ScriptStatement}
    (hnext : abandons next = true) :
    ((∀ before ∈ run.begun, run.engine.context.Same before) ∧
        run.engine.context.snapshotVersion = none) ↔ run.Undone text next := by
  cases hbegun : run.begun with
  | none =>
    constructor
    · rintro ⟨-, hnone⟩
      refine ⟨fun before hbefore => ?_, fun _ => hnone⟩
      rw [hbegun] at hbefore
      cases hbefore
    · intro hundone
      refine ⟨fun before hbefore => ?_, hundone.outside hbegun⟩
      cases hbefore
  | some before =>
    constructor
    · rintro ⟨-, hnone⟩
      rw [(h.inside before hbegun).2.2.1] at hnone
      cases hnone
    · intro hundone
      rw [(hundone.inside before hbegun).2] at hnext
      cases hnext

theorem undone_outside (hbegun : run.begun = none) {next : Option ScriptStatement} :
    ((∀ before ∈ run.begun, run.engine.context.Same before) ∧
        run.engine.context.snapshotVersion = none) ↔ run.Undone text next := by
  constructor
  · rintro ⟨-, hnone⟩
    refine ⟨fun before hbefore => ?_, fun _ => hnone⟩
    rw [hbegun] at hbefore
    cases hbefore
  · intro hundone
    refine ⟨fun before hbefore => ?_, hundone.outside hbegun⟩
    rw [hbegun] at hbefore
    cases hbefore

/-- What a failing statement undoes, by cases on the statement. -/
theorem undone_step (h : run.Consistent order) {statement : ScriptStatement} {run' : ScriptRun}
    {e : ScriptError} (hstep : run.step text order statement = (run', .err e)) :
    ((∀ before ∈ run'.begun, run'.engine.context.Same before) ∧
        run'.engine.context.snapshotVersion = none) ↔ run.Undone text (some statement) := by
  have hrun' : run' = (run.step text order statement).1 := by rw [hstep]
  have herr : (run.engine.executeStatement text order run.session statement).2 = .err e :=
    congrArg Prod.snd hstep
  rw [hrun', ScriptRun.step, if_neg (by simp [herr])]
  cases statement with
  | beginTransaction =>
    simp only [QueryEngine.executeStatement, QueryEngine.executeBegin] at herr ⊢
    split_ifs at herr ⊢ with hin
    exact undone_abandons h rfl
  | commitTransaction =>
    simp only [QueryEngine.executeStatement, QueryEngine.executeCommit] at herr ⊢
    split_ifs at herr ⊢ with hin
    exact undone_outside (h.begun_of_not (by simpa using hin))
  | rollbackTransaction =>
    simp only [QueryEngine.executeStatement, QueryEngine.executeRollback] at herr ⊢
    split_ifs at herr ⊢ with hin
    exact undone_outside (h.begun_of_not (by simpa using hin))
  | query answer =>
    simp only [QueryEngine.executeStatement] at herr ⊢
    cases hanswer : answer run.engine.context with
    | error failure =>
      rw [hanswer] at herr
      cases failure with
      | panic => cases herr
      | error e' => exact undone_rollBack h .refl rfl
    | ok result =>
      rw [hanswer] at herr
      cases herr
  | change statement =>
    simp only [QueryEngine.executeStatement] at herr ⊢
    cases hanswer : (run.engine.context.execute text statement).2 with
    | error failure =>
      rw [hanswer] at herr
      cases failure with
      | panic => cases herr
      | error e' =>
        exact undone_rollBack h (ExecutionContext.sameVersion_execute statement) rfl
    | ok result =>
      rw [hanswer] at herr
      cases herr
  | unplanned message => exact undone_abandons h rfl

theorem undone_finish (h : run.Consistent order) {run' : ScriptRun} {e : ScriptError}
    (hfinish : run.finish text order = (run', .err e)) :
    ((∀ before ∈ run'.begun, run'.engine.context.Same before) ∧
        run'.engine.context.snapshotVersion = none) ↔ run.Undone text none := by
  have hrun' : run' = (run.finish text order).1 := by rw [hfinish]
  have herr : (run.engine.finishScript text order run.session).2 = .err e :=
    congrArg Prod.snd hfinish
  rw [hrun', ScriptRun.finish]
  simp only [QueryEngine.finishScript] at herr ⊢
  split_ifs at herr ⊢ with hin
  exact undone_rollBack h .refl rfl

/-- A script that fails leaves the database as it was before the `BEGIN` of the transaction that was
open, and no snapshot active, if and only if it does not fail by a `BEGIN` in a transaction nor by a
statement in a transaction that cannot be planned, the database at the `BEGIN` can be put back, and,
where it fails outside of transactions, no snapshot was active. -/
theorem allOrNothing_iff (text : DebugText) (order : HashOrder) (engine : QueryEngine)
    (script : List ScriptStatement) :
    AllOrNothing text order engine script ↔
      ∀ run next, failurePoint text order (start engine) script = some (run, next) →
        run.Undone text next := by
  suffices hall : ∀ run : ScriptRun, run.Consistent order →
      ((∀ e, (run.runAll text order script).2 = .err e →
        (∀ before ∈ (run.runAll text order script).1.begun,
          (run.runAll text order script).1.engine.context.Same before) ∧
        (run.runAll text order script).1.engine.context.snapshotVersion = none) ↔
      ∀ run' next, failurePoint text order run script = some (run', next) →
        run'.Undone text next) from hall _ (.start engine)
  induction script with
  | nil =>
    intro run h
    simp only [runAll, failurePoint]
    cases hfinish : run.finish text order with
    | mk run' outcome =>
      cases outcome with
      | ok => simp
      | panicked => simp
      | err e => simp [← undone_finish h hfinish]
  | cons statement script ih =>
    intro run h
    simp only [runAll, failurePoint]
    cases hstep : run.step text order statement with
    | mk run' outcome =>
      cases outcome with
      | ok => exact ih run' (h.step hstep)
      | panicked => simp
      | err e => simp [← undone_step h hstep]

/-- A transaction makes a table and then begins again. -/
def nestedBegin : List ScriptStatement :=
  [.beginTransaction,
    .change (.createTable { tableName := "t", columns := [], constraints := [],
                            ifNotExists := false }),
    .beginTransaction]

/-- The table stays, and the snapshot stays active. -/
theorem not_allOrNothing : ¬ ∀ text order engine script, .beginTransaction ∈ script →
    AllOrNothing text order engine script := by
  intro h
  let engine : QueryEngine := { context := .new, file := none }
  let text : DebugText := { value := fun _ => "", expression := fun _ => "" }
  obtain ⟨hsame, -⟩ := h text .insertion engine nestedBegin (by simp [nestedBegin])
    (.execute "Already in a transaction") rfl
  have hback := (hsame .new rfl).tables "t"
  have htable : (((start engine).runAll text .insertion nestedBegin).1.engine.context.tables.lookup
      "t").isSome = true := by
    decide +kernel
  rw [hback] at htable
  cases htable

end ScriptRun

end Server

end AegisDB
