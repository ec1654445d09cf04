import AegisDB.Library.Transition
import AegisDB.Server.Script

/-!
# Scripts that run at once

Several scripts run on the context of one database, statement by statement.  There is one database,
which holds the changes of all of them, and a rollback puts back a copy of all of it.  So a script
sees what another has not committed, what is stored has it too, and a rollback takes away what
others have changed since the `BEGIN`.  Where no script runs a statement or stores the database
while another is in a transaction that has changed it, such a transaction ends by `COMMIT` or is
rolled back, and none is rolled back after others have changed the database, none of this happens:
every change that is not committed belongs to a transaction that is open (`SharedRun.Accounted`).
-/

namespace AegisDB

namespace Server

open Query

deriving instance DecidableEq for ExecutionContext

/-- A change of the database by a statement. -/
structure Change where
  number : ℕ
  script : ℕ
  transaction : Option ℕ
  after : ExecutionContext
deriving DecidableEq

/-- A transaction of a script that has not ended. -/
structure OpenTransaction where
  number : ℕ
  context : ExecutionContext
  /-- The changes that the database held at its `BEGIN`. -/
  applied : List Change

structure RunningScript where
  session : ScriptSession
  transaction : Option OpenTransaction

/-- A database on which scripts run. -/
structure SharedRun where
  engine : QueryEngine
  scripts : Table ℕ RunningScript
  /-- The changes that the database holds, in their order. -/
  applied : List Change
  /-- The changes of statements that have returned, but for those that their own transaction has
  rolled back. -/
  completed : List Change
  committed : Finset ℕ
  /-- For each statement that was run, its script, and the changes in the database that were not
  committed then. -/
  views : List (ℕ × List Change)
  /-- The changes in what was stored last that were not committed then. -/
  stored : List Change
  changeCount : ℕ
  transactionCount : ℕ

/-- What a script does. -/
inductive ScriptAction where
  | statement (script : ℕ) (statement : ScriptStatement)
  | finish (script : ℕ)

namespace SharedRun

variable (text : DebugText) (order : HashOrder) (s : SharedRun)

/-- No script runs. -/
def start (engine : QueryEngine) : SharedRun where
  engine := engine
  scripts := ∅
  applied := []
  completed := []
  committed := ∅
  views := []
  stored := []
  changeCount := 0
  transactionCount := 0

def script (j : ℕ) : RunningScript :=
  (s.scripts.lookup j).getD ⟨.start, none⟩

/-- Whether a change was made in a transaction that has not committed. -/
def isUncommitted (c : Change) : Bool :=
  match c.transaction with
  | none => false
  | some t => t ∉ s.committed

def uncommitted : List Change :=
  s.applied.filter s.isUncommitted

def observe (j : ℕ) : SharedRun :=
  { s with views := s.views ++ [(j, s.uncommitted)] }

/-- A statement leaves a context behind. -/
def noteChange (j : ℕ) (returned : Bool) (context : ExecutionContext) : SharedRun :=
  if context = s.engine.context then s
  else
    let change : Change :=
      { number := s.changeCount
        script := j
        transaction := (s.script j).transaction.map OpenTransaction.number
        after := context }
    { s with
      applied := s.applied ++ [change]
      completed := if returned then s.completed ++ [change] else s.completed
      changeCount := s.changeCount + 1 }

/-- The database is stored, if there is a place to store it. -/
def noteStore : SharedRun :=
  if s.engine.file.isSome then { s with stored := s.uncommitted } else s

/-- The copy of a transaction is put back. -/
def noteRollback : Option OpenTransaction → SharedRun
  | none => s
  | some t =>
      { s with
        applied := t.applied
        completed := s.completed.filter fun c => c.transaction ≠ some t.number }

/-- What follows a statement that was run. -/
def answered (j : ℕ) (done : (QueryEngine × ScriptSession) × Outcome) : SharedRun :=
  match done.2 with
  | .ok =>
      { s with
        engine := done.1.1
        scripts := s.scripts.insert j { s.script j with session := done.1.2 } }
  | .err _ =>
      { s.noteRollback (s.script j).transaction with
        engine := done.1.1
        scripts := s.scripts.erase j }
  | .panicked => { s with engine := done.1.1, scripts := s.scripts.erase j }

/-- Run a statement of a script. -/
def stepStatement (j : ℕ) (statement : ScriptStatement) : SharedRun :=
  let session := (s.script j).session
  let done := s.engine.executeStatement text order session statement
  match statement with
  | .beginTransaction =>
      if done.2 = .ok then
        { s with
          engine := done.1.1
          scripts := s.scripts.insert j
            ⟨done.1.2, some ⟨s.transactionCount, s.engine.context, s.applied⟩⟩
          transactionCount := s.transactionCount + 1 }
      else { s with engine := done.1.1, scripts := s.scripts.erase j }
  | .commitTransaction =>
      if done.2 = .ok then
        let s' : SharedRun :=
          { s with
            engine := done.1.1
            scripts := s.scripts.insert j ⟨done.1.2, none⟩
            committed := match (s.script j).transaction with
              | none => s.committed
              | some t => insert t.number s.committed }
        if session.hadMutation then s'.noteStore else s'
      else { s with engine := done.1.1, scripts := s.scripts.erase j }
  | .rollbackTransaction =>
      if done.2 = .ok then
        { s.noteRollback (s.script j).transaction with
          engine := done.1.1
          scripts := s.scripts.insert j ⟨done.1.2, none⟩ }
      else { s with engine := done.1.1, scripts := s.scripts.erase j }
  | .query _ => (s.observe j).answered j done
  | .change statement =>
      let changed := (s.observe j).noteChange j (done.2 = .ok)
        (s.engine.context.execute text statement).1
      let answered := changed.answered j done
      if done.2 = .ok ∧ ¬ session.inTransaction then answered.noteStore else answered
  | .unplanned _ => { s with engine := done.1.1, scripts := s.scripts.erase j }

/-- One step. -/
def step : ScriptAction → Option SharedRun
  | .statement j statement => some (s.stepStatement text order j statement)
  | .finish j =>
      let done := s.engine.finishScript text order (s.script j).session
      some { s.noteRollback (s.script j).transaction with
        engine := done.1.1
        scripts := s.scripts.erase j }

def system (engine : QueryEngine) : System SharedRun ScriptAction where
  init := start engine
  step := step text order

/-! ## Isolation -/

/-- What a database is after changes, the last of which made it so. -/
def contextAfter (initial : ExecutionContext) (applied : List Change) : ExecutionContext :=
  (applied.getLast?.map Change.after).getD initial

/-- The database holds the changes of all statements that have returned, but for those of
transactions that their own script has rolled back; no script has seen changes of another that were
not committed, and nor are any in what is stored. -/
structure Isolated (initial : ExecutionContext) : Prop where
  /-- The database is what it was after the last change that it holds. -/
  held : s.engine.context.SameData (contextAfter initial s.applied)
  kept : ∀ c ∈ s.completed, c ∈ s.applied
  unseen : ∀ v ∈ s.views, ∀ c ∈ v.2, c.script = v.1
  unstored : s.stored = []

/-- The transaction of a script can be rolled back: its copy can be put back, and since its `BEGIN`
nobody else has changed the database. -/
def CanUndo (j : ℕ) : Prop :=
  ∀ t ∈ (s.script j).transaction, t.context.Restorable text ∧
    ∃ own, s.applied = t.applied ++ own ∧ ∀ c ∈ own, c.transaction = some t.number

/-- A transaction has changed the database. -/
def HasChanged (t : OpenTransaction) : Prop :=
  ∃ c ∈ s.applied, c.transaction = some t.number

/-- No other script is in a transaction that has changed the database. -/
def Alone (j : ℕ) : Prop :=
  ∀ i, i ≠ j → ∀ t ∈ (s.script i).transaction, ¬ s.HasChanged t

/-- A script may end as it is: it is not in a transaction that has changed the database. -/
def CanDrop (j : ℕ) : Prop :=
  ∀ t ∈ (s.script j).transaction, ¬ s.HasChanged t

/-- Statements are run, and changes stored at `COMMIT`, while no other script is in a transaction that
has changed the database; such a transaction does not end by a second `BEGIN`, a statement that
cannot be planned or a panic; and a transaction is rolled back only if it can be. -/
def Clean : ScriptAction → Prop
  | .statement j .beginTransaction => s.CanDrop j
  | .statement j .commitTransaction => (s.script j).session.hadMutation = true → s.Alone j
  | .statement j .rollbackTransaction => s.CanUndo text j
  | .statement j (.query run) => s.Alone j ∧
      (run s.engine.context = .error .panic → s.CanDrop j) ∧
      ∀ e, run s.engine.context = .error (.error e) → s.CanUndo text j
  | .statement j (.change statement) => s.Alone j ∧
      ((s.engine.context.execute text statement).2 = .error .panic →
        (s.script j).transaction = none) ∧
      ∀ e, (s.engine.context.execute text statement).2 = .error (.error e) → s.CanUndo text j
  | .statement j (.unplanned _) => s.CanDrop j
  | .finish j => s.CanUndo text j

/-! ## The invariant -/

/-- A script that is in a transaction has the copy of the context at its `BEGIN`, which held the
changes that are noted. -/
structure Consistent (initial : ExecutionContext) (script : RunningScript) : Prop where
  outside : script.transaction = none →
    script.session.inTransaction = false ∧ script.session.txnSnapshot = none
  inside : ∀ t ∈ script.transaction, script.session.inTransaction = true ∧
    script.session.txnSnapshot = some (t.context.toSnapshot order) ∧
      t.context.SameData (contextAfter initial t.applied)

/-- The changes that are not committed are those of the open transactions since their `BEGIN`. -/
structure Accounted : Prop where
  opened : ∀ c ∈ s.applied, s.isUncommitted c = true →
    ∃ t ∈ (s.script c.script).transaction, c.transaction = some t.number
  numbered : ∀ c ∈ s.applied, ∀ n, c.transaction = some n → n < s.transactionCount
  begun : ∀ i, ∀ t ∈ (s.script i).transaction,
    t.number < s.transactionCount ∧ ∀ c ∈ t.applied, c.transaction ≠ some t.number

/-- The scripts and the changes fit together. -/
structure Invariant (initial : ExecutionContext) : Prop where
  isolated : s.Isolated initial
  accounted : s.Accounted
  scripts : ∀ j, Consistent order initial (s.script j)

variable {text} {order} {s}

section Parts

variable {initial : ExecutionContext} {s' : SharedRun} {j : ℕ}

theorem consistent_start : Consistent order initial ⟨.start, none⟩ where
  outside _ := ⟨rfl, rfl⟩
  inside := by
    intro t ht
    cases ht

theorem consistent_insert (h : ∀ i, Consistent order initial (s.script i)) {x : RunningScript}
    (hx : Consistent order initial x) (hs' : s'.scripts = s.scripts.insert j x) (i : ℕ) :
    Consistent order initial (s'.script i) := by
  rw [script, hs', Table.lookup_insert]
  split_ifs
  · exact hx
  · exact h i

theorem consistent_erase (h : ∀ i, Consistent order initial (s.script i))
    (hs' : s'.scripts = s.scripts.erase j) (i : ℕ) : Consistent order initial (s'.script i) := by
  rw [script, hs', Table.lookup_erase]
  split_ifs
  · exact consistent_start
  · exact h i

theorem Consistent.session {x : RunningScript} (h : Consistent order initial x)
    {session : ScriptSession}
    (hin : session.inTransaction = x.session.inTransaction)
    (hcopy : session.txnSnapshot = x.session.txnSnapshot) :
    Consistent order initial { x with session } where
  outside hnone := ⟨hin.trans (h.outside hnone).1, hcopy.trans (h.outside hnone).2⟩
  inside t ht :=
    let ⟨h₁, h₂, h₃⟩ := h.inside t ht
    ⟨hin.trans h₁, hcopy.trans h₂, h₃⟩

theorem isUncommitted_of_subset {s s' : SharedRun} (h : s.committed ⊆ s'.committed) {c : Change}
    (hc : s'.isUncommitted c = true) : s.isUncommitted c = true := by
  unfold isUncommitted at hc ⊢
  cases hnumber : c.transaction with
  | none =>
    rw [hnumber] at hc
    cases hc
  | some t =>
    rw [hnumber] at hc
    simp only [decide_eq_true_eq] at hc ⊢
    exact fun ht => hc (h ht)

/-- Where no other script is in a transaction that has changed the database, the changes that are not
committed are the script's own. -/
theorem Accounted.own (h : s.Accounted) (halone : s.Alone j) :
    ∀ c ∈ s.uncommitted, c.script = j ∧ ∃ t ∈ (s.script j).transaction,
      c.transaction = some t.number := by
  intro c hc
  obtain ⟨hmem, hopen⟩ := List.mem_filter.mp hc
  obtain ⟨t, ht, hnumber⟩ := h.opened c hmem hopen
  by_cases hj : c.script = j
  · exact ⟨hj, t, hj ▸ ht, hnumber⟩
  · exact absurd ⟨c, hmem, hnumber⟩ (halone c.script hj t ht)

/-- Only sessions, and what has been seen, change. -/
theorem Accounted.keep (h : s.Accounted) (happlied : s'.applied = s.applied)
    (hcommitted : s'.committed = s.committed) (hcount : s'.transactionCount = s.transactionCount)
    (hscripts : ∀ i, (s'.script i).transaction = (s.script i).transaction) : s'.Accounted where
  opened c hc hopen := by
    rw [hscripts]
    exact h.opened c (happlied ▸ hc) (isUncommitted_of_subset hcommitted.ge hopen)
  numbered c hc n hn := hcount ▸ h.numbered c (happlied ▸ hc) n hn
  begun i t ht := hcount ▸ h.begun i t (hscripts i ▸ ht)

/-- The transaction of a script ends, and nothing is left of it that is not committed. -/
theorem Accounted.close (h : s.Accounted) (happlied : ∀ c ∈ s'.applied, c ∈ s.applied)
    (hcommitted : s.committed ⊆ s'.committed)
    (hcount : s'.transactionCount = s.transactionCount)
    (hscripts : ∀ i, i ≠ j → s'.script i = s.script i) (hnone : (s'.script j).transaction = none)
    (hown : ∀ t ∈ (s.script j).transaction, t.number ∉ s'.committed →
      ∀ c ∈ s'.applied, c.transaction ≠ some t.number) : s'.Accounted where
  opened c hc hopen := by
    obtain ⟨t, ht, hnumber⟩ := h.opened c (happlied c hc)
      (isUncommitted_of_subset hcommitted hopen)
    by_cases hj : c.script = j
    · refine absurd hnumber (hown t (hj ▸ ht) (fun hmem => ?_) c hc)
      rw [isUncommitted, hnumber] at hopen
      exact absurd hmem (of_decide_eq_true hopen)
    · exact ⟨t, hscripts _ hj ▸ ht, hnumber⟩
  numbered c hc n hn := hcount ▸ h.numbered c (happlied c hc) n hn
  begun i t ht := by
    by_cases hj : i = j
    · rw [hj, hnone] at ht
      cases ht
    · exact hcount ▸ h.begun i t (hscripts i hj ▸ ht)

theorem script_insert_of_ne {x : RunningScript} (hs' : s'.scripts = s.scripts.insert j x) {i : ℕ}
    (hi : i ≠ j) : s'.script i = s.script i := by
  rw [script, hs', Table.lookup_insert, if_neg hi, script]

theorem script_insert {x : RunningScript} (hs' : s'.scripts = s.scripts.insert j x) :
    s'.script j = x := by
  rw [script, hs', Table.lookup_insert, if_pos rfl, Option.getD_some]

theorem script_erase_of_ne (hs' : s'.scripts = s.scripts.erase j) {i : ℕ} (hi : i ≠ j) :
    s'.script i = s.script i := by
  rw [script, hs', Table.lookup_erase, if_neg hi, script]

theorem transaction_erase (hs' : s'.scripts = s.scripts.erase j) :
    (s'.script j).transaction = none := by
  rw [script, hs', Table.lookup_erase, if_pos rfl, Option.getD_none]

/-- A script ends whose transaction has left nothing in the database. -/
theorem Accounted.erase (h : s.Accounted) (happlied : s'.applied = s.applied)
    (hcommitted : s'.committed = s.committed) (hcount : s'.transactionCount = s.transactionCount)
    (hscripts : s'.scripts = s.scripts.erase j) (hdrop : s.CanDrop j) : s'.Accounted :=
  h.close (j := j) (fun _ hc => happlied ▸ hc) hcommitted.ge hcount
    (fun _ hi => script_erase_of_ne hscripts hi) (transaction_erase hscripts)
    fun t ht _ c hc hnumber => hdrop t ht ⟨c, happlied ▸ hc, hnumber⟩

/-- A transaction is rolled back. -/
theorem Accounted.undo (h : s.Accounted) {t : OpenTransaction}
    (ht : (s.script j).transaction = some t) {own : List Change}
    (hown : s.applied = t.applied ++ own) (happlied : s'.applied = t.applied)
    (hcommitted : s'.committed = s.committed) (hcount : s'.transactionCount = s.transactionCount)
    (hscripts : ∀ i, i ≠ j → s'.script i = s.script i)
    (hnone : (s'.script j).transaction = none) : s'.Accounted := by
  refine h.close (j := j) (fun c hc => ?_) hcommitted.ge hcount hscripts hnone ?_
  · rw [hown]
    exact List.mem_append_left _ (happlied ▸ hc)
  · intro t' ht' _ c hc
    obtain rfl := Option.some.inj (ht.symm.trans ht')
    exact (h.begun j t ht).2 c (happlied ▸ hc)

theorem Isolated.observe (h : s.Isolated initial) (hown : ∀ c ∈ s.uncommitted, c.script = j) :
    (s.observe j).Isolated initial where
  held := h.held
  kept := h.kept
  unseen := by
    intro v hv
    rcases List.mem_append.mp hv with hv | hv
    · exact h.unseen v hv
    · rw [List.mem_singleton.mp hv]
      exact hown
  unstored := h.unstored

theorem Isolated.noteChange (h : s.Isolated initial) (returned : Bool) {engine : QueryEngine} :
    ({ s.noteChange j returned engine.context with engine } : SharedRun).Isolated initial := by
  unfold SharedRun.noteChange
  by_cases hsame : engine.context = s.engine.context
  · rw [if_pos hsame]
    refine ⟨?_, h.kept, h.unseen, h.unstored⟩
    change engine.context.SameData _
    rw [hsame]
    exact h.held
  · rw [if_neg hsame]
    refine ⟨?_, ?_, h.unseen, h.unstored⟩
    · simp only [contextAfter, List.getLast?_concat]
      exact .refl _
    · intro c hc
      dsimp only at hc ⊢
      cases returned with
      | false => exact List.mem_append_left _ (h.kept c hc)
      | true =>
        rcases List.mem_append.mp hc with hc | hc
        · exact List.mem_append_left _ (h.kept c hc)
        · exact List.mem_append_right _ hc

theorem Isolated.noteRollback (h : s.Isolated initial) {t : OpenTransaction} {own : List Change}
    (hown : ∀ c ∈ s.completed, c ∈ t.applied ++ own)
    (hnumber : ∀ c ∈ own, c.transaction = some t.number) {engine : QueryEngine}
    (hback : engine.context.SameData (contextAfter initial t.applied)) :
    ({ s.noteRollback (some t) with engine } : SharedRun).Isolated initial where
  held := hback
  kept := by
    intro c hc
    obtain ⟨hmem, hother⟩ := List.mem_filter.mp hc
    rcases List.mem_append.mp (hown c hmem) with hc' | hc'
    · exact hc'
    · rw [hnumber c hc'] at hother
      simp at hother
  unseen := h.unseen
  unstored := h.unstored

theorem sameData_rollBack {engine : QueryEngine} {session : ScriptSession} {t : OpenTransaction}
    (hcopy : session.txnSnapshot = some (t.context.toSnapshot order))
    (ht : t.context.SameData (contextAfter initial t.applied)) (h : t.context.Restorable text) :
    (engine.rollBack text order session).1.context.SameData (contextAfter initial t.applied) := by
  have hback : (engine.context.restoreFromSnapshot text order
      (t.context.toSnapshot order)).SameData t.context :=
    ExecutionContext.restore_sameData_iff.mpr h
  simp only [QueryEngine.rollBack, hcopy]
  exact hback.rollbackSnapshot.trans ht

theorem Isolated.noteStore (h : s.Isolated initial) (hnone : s.uncommitted = []) :
    s.noteStore.Isolated initial := by
  unfold SharedRun.noteStore
  split_ifs
  · exact ⟨h.held, h.kept, h.unseen, hnone⟩
  · exact h

theorem Accounted.noteChange (h : s.Accounted) (returned : Bool) (context : ExecutionContext) :
    (s.noteChange j returned context).Accounted := by
  unfold SharedRun.noteChange
  split_ifs
  · exact h
  all_goals
    refine ⟨fun c hc hopen => ?_, fun c hc n hn => ?_, h.begun⟩
    · rcases List.mem_append.mp hc with hc | hc
      · exact h.opened c hc hopen
      · obtain rfl := List.mem_singleton.mp hc
        change ∃ t ∈ (s.script j).transaction, _
        cases ht : (s.script j).transaction with
        | none => simp [isUncommitted, ht] at hopen
        | some t => exact ⟨t, rfl, rfl⟩
    · rcases List.mem_append.mp hc with hc | hc
      · exact h.numbered c hc n hn
      · obtain rfl := List.mem_singleton.mp hc
        obtain ⟨t, ht, rfl⟩ := Option.map_eq_some_iff.mp hn
        exact (h.begun j t ht).1

/-- What follows a statement that was run, if the copy can be put back where it has failed. -/
theorem Invariant.answered (h : s.Invariant order initial) {s₁ : SharedRun}
    (hscripts : s₁.scripts = s.scripts) (hcommitted : s₁.committed = s.committed)
    (hcount : s₁.transactionCount = s.transactionCount) (haccounted : s₁.Accounted)
    {engine : QueryEngine} (hisolated : ({ s₁ with engine } : SharedRun).Isolated initial)
    (isMutation : Bool) {result : Except Failure QueryResult}
    (hpanic : result = .error .panic → s₁.CanDrop j)
    (hundo : ∀ e, result = .error (.error e) → s.CanUndo text j ∧ ∀ c ∈ s₁.completed, c ∈ s.applied) :
    (s₁.answered j (engine.finishStatement text order (s.script j).session isMutation
      result)).Invariant order initial := by
  have hscript (i : ℕ) : s₁.script i = s.script i := by rw [script, hscripts, script]
  have hall (i : ℕ) : Consistent order initial (s₁.script i) := by
    rw [hscript]
    exact h.scripts i
  unfold SharedRun.answered
  cases result with
  | ok result =>
    simp only [QueryEngine.finishStatement]
    refine ⟨?_, haccounted.keep rfl rfl rfl fun i => ?_, consistent_insert (j := j) hall ?_ rfl⟩
    · split_ifs
      · exact ⟨hisolated.held, hisolated.kept, hisolated.unseen, hisolated.unstored⟩
      · exact ⟨hisolated.held, hisolated.kept, hisolated.unseen, hisolated.unstored⟩
    · by_cases hi : i = j
      · rw [hi, script_insert (j := j) rfl]
      · rw [script_insert_of_ne (j := j) rfl hi]
    · rw [hscript]
      exact (h.scripts j).session rfl rfl
  | error failure =>
    cases failure with
    | panic =>
      refine ⟨?_, haccounted.erase (j := j) rfl rfl rfl rfl (hpanic rfl),
        consistent_erase (j := j) hall rfl⟩
      exact ⟨hisolated.held, hisolated.kept, hisolated.unseen, hisolated.unstored⟩
    | error e =>
      simp only [QueryEngine.finishStatement]
      rw [hscript]
      cases ht : (s.script j).transaction with
      | none =>
        have hcopy := ((h.scripts j).outside ht).2
        refine ⟨?_, haccounted.erase (j := j) rfl rfl rfl rfl fun t ht' => ?_,
          consistent_erase (j := j) hall rfl⟩
        · simp only [QueryEngine.rollBack, hcopy]
          exact ⟨hisolated.held, hisolated.kept, hisolated.unseen, hisolated.unstored⟩
        · rw [hscript, ht] at ht'
          cases ht'
      | some t =>
        obtain ⟨hcan, hcompleted⟩ := hundo e rfl
        obtain ⟨hrestorable, own, hown, hnumber⟩ := hcan t ht
        obtain ⟨-, hcopy, hbegun⟩ := (h.scripts j).inside t ht
        refine ⟨?_, h.accounted.undo ht hown rfl hcommitted hcount (fun i hi => ?_)
          (transaction_erase rfl), consistent_erase (j := j) hall rfl⟩
        · have hengine : (engine.rollBack text order (s.script j).session).1.context.SameData
              (contextAfter initial t.applied) := sameData_rollBack hcopy hbegun hrestorable
          have hback := hisolated.noteRollback (fun c hc => hown ▸ hcompleted c hc) hnumber hengine
          exact ⟨hback.held, hback.kept, hback.unseen, hback.unstored⟩
        · rw [script_erase_of_ne (j := j) (s := s₁.noteRollback (some t)) rfl hi]
          exact hscript i

end Parts

section Steps

variable {initial : ExecutionContext} {j : ℕ}

theorem frame_noteChange (returned : Bool) (context : ExecutionContext) :
    (s.noteChange j returned context).scripts = s.scripts ∧
      (s.noteChange j returned context).committed = s.committed ∧
      (s.noteChange j returned context).transactionCount = s.transactionCount := by
  unfold noteChange
  split_ifs <;> exact ⟨rfl, rfl, rfl⟩

theorem completed_noteChange (context : ExecutionContext) :
    (s.noteChange j false context).completed = s.completed := by
  unfold noteChange
  split_ifs with hsame hfalse
  · rfl
  · exact hfalse.elim
  · rfl

theorem uncommitted_noteChange (hnone : (s.script j).transaction = none) (returned : Bool)
    (context : ExecutionContext) :
    (s.noteChange j returned context).uncommitted = s.uncommitted := by
  unfold noteChange
  split_ifs
  · rfl
  all_goals
    simp only [uncommitted, hnone, Option.map_none]
    rw [List.filter_append, List.filter_cons_of_neg (by simp [isUncommitted]), List.filter_nil,
      List.append_nil]
    rfl

theorem Invariant.eraseScript (h : s.Invariant order initial) (hdrop : s.CanDrop j) :
    ({ s with scripts := s.scripts.erase j } : SharedRun).Invariant order initial where
  isolated := ⟨h.isolated.held, h.isolated.kept, h.isolated.unseen, h.isolated.unstored⟩
  accounted := h.accounted.erase (j := j) rfl rfl rfl rfl hdrop
  scripts := consistent_erase (j := j) h.scripts rfl

/-- A script that is in no transaction may end as it is. -/
theorem Invariant.canDrop (h : s.Invariant order initial)
    (hin : ¬(s.script j).session.inTransaction = true) : s.CanDrop j :=
  fun t ht => absurd ((h.scripts j).inside t ht).1 hin

theorem Invariant.beginTransaction (h : s.Invariant order initial)
    (hclean : s.Clean text (.statement j .beginTransaction)) :
    (s.stepStatement text order j .beginTransaction).Invariant order initial := by
  simp only [stepStatement, QueryEngine.executeStatement, QueryEngine.executeBegin]
  split_ifs with hin herr
  · cases herr
  · exact h.eraseScript hclean
  · have hnone : (s.script j).transaction = none := by
      cases ht : (s.script j).transaction with
      | none => rfl
      | some t => exact absurd ((h.scripts j).inside t ht).1 hin
    refine ⟨⟨?_, h.isolated.kept, h.isolated.unseen, h.isolated.unstored⟩, ⟨?_, ?_, ?_⟩,
      consistent_insert (j := j) h.scripts ?_ rfl⟩
    · exact ⟨h.isolated.held.tables, h.isolated.held.tableSchemas, h.isolated.held.indexes,
        h.isolated.held.managers⟩
    · intro c hc hopen
      obtain ⟨t, ht, hnumber⟩ := h.accounted.opened c hc hopen
      have hother : c.script ≠ j := by
        intro hj
        rw [hj, hnone] at ht
        cases ht
      rw [script_insert_of_ne (j := j) rfl hother]
      exact ⟨t, ht, hnumber⟩
    · exact fun c hc n hn => (h.accounted.numbered c hc n hn).trans (Nat.lt_succ_self _)
    · intro i t ht
      by_cases hi : i = j
      · -- the number of the new transaction is that of no change
        rw [hi, script_insert (j := j) rfl] at ht
        obtain rfl := Option.some.inj ht
        refine ⟨Nat.lt_succ_self _, fun c hc hnumber => ?_⟩
        exact lt_irrefl _ (h.accounted.numbered c hc _ hnumber)
      · rw [script_insert_of_ne (j := j) rfl hi] at ht
        obtain ⟨hlt, hbegun⟩ := h.accounted.begun i t ht
        exact ⟨hlt.trans (Nat.lt_succ_self _), hbegun⟩
    · refine ⟨fun hnone => ?_, fun t ht => ?_⟩
      · cases hnone
      · obtain rfl := Option.some.inj ht
        exact ⟨rfl, rfl, h.isolated.held⟩
  · contradiction

theorem Invariant.commitTransaction (h : s.Invariant order initial)
    (hclean : s.Clean text (.statement j .commitTransaction)) :
    (s.stepStatement text order j .commitTransaction).Invariant order initial := by
  simp only [stepStatement, QueryEngine.executeStatement, QueryEngine.executeCommit]
  by_cases hin : (s.script j).session.inTransaction = true
  swap
  · rw [if_neg hin, if_neg (by simp)]
    exact h.eraseScript (h.canDrop hin)
  rw [if_pos hin, if_pos rfl]
  have hheld : (QueryEngine.persist order
      { s.engine with context := s.engine.context.commitSnapshot }).context.SameData
        (contextAfter initial s.applied) :=
    ⟨h.isolated.held.tables, h.isolated.held.tableSchemas, h.isolated.held.indexes,
      h.isolated.held.managers⟩
  have hended (session : ScriptSession) (h₁ : session.inTransaction = false)
      (h₂ : session.txnSnapshot = none) : Consistent order initial ⟨session, none⟩ :=
    consistent_start.session h₁ h₂
  have hcommitted : s.committed ⊆ match (s.script j).transaction with
      | none => s.committed
      | some t => insert t.number s.committed := by
    cases (s.script j).transaction with
    | none => exact Finset.Subset.refl _
    | some t => exact Finset.subset_insert _ _
  have haccounted (engine : QueryEngine) (session : ScriptSession) (stored : List Change) :
      ({ s with
          engine
          scripts := s.scripts.insert j ⟨session, none⟩
          committed := match (s.script j).transaction with
            | none => s.committed
            | some t => insert t.number s.committed
          stored } : SharedRun).Accounted := by
    refine h.accounted.close (j := j) (fun _ hc => hc) hcommitted rfl
      (fun i hi => script_insert_of_ne rfl hi) (by rw [script_insert (j := j) rfl]) ?_
    intro t ht hopen
    have ht : (s.script j).transaction = some t := ht
    simp only [ht] at hopen
    exact absurd (Finset.mem_insert_self _ _) hopen
  by_cases hmutation : (s.script j).session.hadMutation = true
  · rw [if_pos hmutation, if_pos hmutation]
    unfold SharedRun.noteStore
    split_ifs
    · refine ⟨⟨hheld, h.isolated.kept, h.isolated.unseen, ?_⟩, haccounted _ _ _,
        consistent_insert (j := j) h.scripts (hended _ rfl rfl) rfl⟩
      -- what was uncommitted is of the transaction that commits
      refine List.filter_eq_nil_iff.mpr fun c hc hopen => ?_
      obtain ⟨-, t, ht, hnumber⟩ := h.accounted.own (hclean hmutation) c
        (List.mem_filter.mpr ⟨hc, isUncommitted_of_subset hcommitted hopen⟩)
      have ht : (s.script j).transaction = some t := ht
      simp [isUncommitted, hnumber, ht] at hopen
    · exact ⟨⟨hheld, h.isolated.kept, h.isolated.unseen, h.isolated.unstored⟩, haccounted _ _ _,
        consistent_insert (j := j) h.scripts (hended _ rfl rfl) rfl⟩
  · rw [if_neg hmutation, if_neg hmutation]
    refine ⟨⟨?_, h.isolated.kept, h.isolated.unseen, h.isolated.unstored⟩, haccounted _ _ _,
      consistent_insert (j := j) h.scripts (hended _ rfl rfl) rfl⟩
    exact hheld

theorem Invariant.rollbackTransaction (h : s.Invariant order initial)
    (hclean : s.CanUndo text j) :
    (s.stepStatement text order j .rollbackTransaction).Invariant order initial := by
  simp only [stepStatement, QueryEngine.executeStatement, QueryEngine.executeRollback]
  by_cases hin : (s.script j).session.inTransaction = true
  swap
  · rw [if_neg hin, if_neg (by simp)]
    exact h.eraseScript (h.canDrop hin)
  rw [if_pos hin, if_pos rfl]
  cases ht : (s.script j).transaction with
  | none =>
    rw [((h.scripts j).outside ht).1] at hin
    cases hin
  | some t =>
    obtain ⟨-, hcopy, hbegun⟩ := (h.scripts j).inside t ht
    obtain ⟨hrestorable, own, happlied, hnumber⟩ := hclean t ht
    have hengine : (s.engine.rollBack text order (s.script j).session).1.context.SameData
        (contextAfter initial t.applied) := sameData_rollBack hcopy hbegun hrestorable
    have hback := h.isolated.noteRollback (fun c hc => happlied ▸ h.isolated.kept c hc) hnumber
      hengine
    refine ⟨⟨hback.held, hback.kept, hback.unseen, hback.unstored⟩,
      h.accounted.undo ht happlied rfl rfl rfl (fun i hi => script_insert_of_ne rfl hi)
        (by rw [script_insert (j := j) rfl]), consistent_insert (j := j) h.scripts ?_ rfl⟩
    refine consistent_start.session rfl ?_
    simp only [QueryEngine.rollBack, hcopy]
    rfl

theorem Invariant.query (h : s.Invariant order initial)
    {run : ExecutionContext → Except Failure QueryResult}
    (hclean : s.Clean text (.statement j (.query run))) :
    (s.stepStatement text order j (.query run)).Invariant order initial := by
  obtain ⟨halone, hpanic, hundo⟩ := hclean
  have hseen := h.isolated.observe fun c hc => (h.accounted.own halone c hc).1
  simp only [stepStatement, QueryEngine.executeStatement]
  have hscripts : (s.observe j).scripts = s.scripts := rfl
  have haccounted : (s.observe j).Accounted := h.accounted.keep rfl rfl rfl fun _ => rfl
  refine h.answered hscripts rfl rfl haccounted ?_ false hpanic fun e he => ?_
  · exact ⟨hseen.held, hseen.kept, hseen.unseen, hseen.unstored⟩
  · exact ⟨hundo e he, h.isolated.kept⟩

theorem Invariant.change (h : s.Invariant order initial) {statement : Statement}
    (hclean : s.Clean text (.statement j (.change statement))) :
    (s.stepStatement text order j (.change statement)).Invariant order initial := by
  obtain ⟨halone, hpanic, hundo⟩ := hclean
  have hseen := h.isolated.observe fun c hc => (h.accounted.own halone c hc).1
  let context := (s.engine.context.execute text statement).1
  let result := (s.engine.context.execute text statement).2
  let done := QueryEngine.finishStatement text order { s.engine with context }
    (s.script j).session true result
  let changed := (s.observe j).noteChange j (decide (done.2 = .ok)) context
  have hdone : done = QueryEngine.finishStatement text order { s.engine with context }
    (s.script j).session true result := rfl
  have hchanged : changed = (s.observe j).noteChange j (decide (done.2 = .ok)) context := rfl
  change (if done.2 = .ok ∧ ¬ (s.script j).session.inTransaction then
    (changed.answered j done).noteStore else changed.answered j done).Invariant order initial
  obtain ⟨hscripts, hcommitted, hcount⟩ : changed.scripts = s.scripts ∧
      changed.committed = s.committed ∧ changed.transactionCount = s.transactionCount :=
    frame_noteChange _ _
  have haccounted : changed.Accounted :=
    Accounted.noteChange (s := s.observe j) (h.accounted.keep rfl rfl rfl fun _ => rfl) _ _
  have hisolated : ({ changed with engine := { s.engine with context } } : SharedRun).Isolated
      initial := hseen.noteChange _
  have hanswered : (changed.answered j done).Invariant order initial := by
    refine h.answered hscripts hcommitted hcount haccounted hisolated true (fun he t ht => ?_)
      fun e he => ⟨hundo e he, fun c hc => ?_⟩
    · rw [script, hscripts] at ht
      exact absurd ((hpanic he).symm.trans ht) (Option.some_ne_none t).symm
    · have hfailed : done.2 ≠ .ok := by
        rw [hdone, he]
        simp [QueryEngine.finishStatement]
      rw [hchanged, decide_eq_false hfailed, completed_noteChange] at hc
      exact h.isolated.kept c hc
  split_ifs with hstore
  · obtain ⟨hok, hin⟩ := hstore
    have htransaction : (s.script j).transaction = none := by
      cases ht : (s.script j).transaction with
      | none => rfl
      | some t => exact absurd ((h.scripts j).inside t ht).1 hin
    have hnone : s.uncommitted = [] := by
      refine List.eq_nil_iff_forall_not_mem.mpr fun c hc => ?_
      obtain ⟨-, t, ht, -⟩ := h.accounted.own halone c hc
      rw [htransaction] at ht
      cases ht
    have hempty : (changed.answered j done).uncommitted = [] := by
      have hkeep : (changed.answered j done).uncommitted = changed.uncommitted := by
        unfold SharedRun.answered
        rw [hok]
        rfl
      rw [hkeep, hchanged, uncommitted_noteChange (s := s.observe j) htransaction]
      exact hnone
    have hstored : (changed.answered j done).noteStore.Accounted := by
      unfold SharedRun.noteStore
      split_ifs
      · exact hanswered.accounted.keep rfl rfl rfl fun _ => rfl
      · exact hanswered.accounted
    refine ⟨hanswered.isolated.noteStore hempty, hstored, fun i => ?_⟩
    unfold SharedRun.noteStore
    split_ifs <;> exact hanswered.scripts i
  · exact hanswered

end Steps

/-- One statement keeps the account of whose changes are open. -/
theorem Invariant.step {initial : ExecutionContext} (h : s.Invariant order initial)
    {a : ScriptAction} (hclean : s.Clean text a) {s' : SharedRun}
    (hstep : s.step text order a = some s') : s'.Invariant order initial := by
  cases a with
  | statement j statement =>
    obtain rfl := Option.some.inj hstep
    cases statement with
    | beginTransaction => exact h.beginTransaction hclean
    | commitTransaction => exact h.commitTransaction hclean
    | rollbackTransaction => exact h.rollbackTransaction hclean
    | query run => exact h.query hclean
    | change statement => exact h.change hclean
    | unplanned message => exact h.eraseScript hclean
  | finish j =>
    obtain rfl := Option.some.inj hstep
    cases ht : (s.script j).transaction with
    | none =>
      obtain ⟨hin, hcopy⟩ := (h.scripts j).outside ht
      simp only [QueryEngine.finishScript, hin]
      exact h.eraseScript (h.canDrop (by simp [hin]))
    | some t =>
      obtain ⟨hin, hcopy, hbegun⟩ := (h.scripts j).inside t ht
      obtain ⟨hrestorable, own, happlied, hnumber⟩ := hclean t ht
      have hengine : (s.engine.rollBack text order (s.script j).session).1.context.SameData
          (contextAfter initial t.applied) := sameData_rollBack hcopy hbegun hrestorable
      have hback := h.isolated.noteRollback (fun c hc => happlied ▸ h.isolated.kept c hc) hnumber
        hengine
      simp only [QueryEngine.finishScript, hin, if_true]
      exact ⟨⟨hback.held, hback.kept, hback.unseen, hback.unstored⟩,
        h.accounted.undo ht happlied rfl rfl rfl (fun i hi => script_erase_of_ne rfl hi)
          (transaction_erase rfl), consistent_erase (j := j) h.scripts rfl⟩

/-! ## Runs -/

def noText : DebugText where
  value _ := ""
  expression _ := ""

def emptyEngine : QueryEngine where
  context := .new
  file := none

/-- A context without indexes can be restored if its tables and schemas are under their own names and
no table is poisoned. -/
theorem restorable_of_plain {ctx : ExecutionContext}
    (htables : ∀ e ∈ ctx.tables.entries, e.2.data.name = e.1 ∧ e.2.poisoned = false)
    (hschemas : ∀ e ∈ ctx.tableSchemas.entries, e.2.name = e.1)
    (hindexes : ctx.indexes = ∅ ∧ ctx.tableIndexes = ∅) : ctx.Restorable text where
  tables name shared h := htables ⟨name, shared⟩ (AList.mem_lookup_iff.mp h)
  tableSchemas name schema h := hschemas ⟨name, schema⟩ (AList.mem_lookup_iff.mp h)
  managers table := by
    have hrebuilt : ctx.rebuilt text table = .new := by
      unfold ExecutionContext.rebuilt
      rw [hindexes.1, AList.lookup_empty]
      cases ctx.tables.lookup table <;> rfl
    have hmanager : ctx.manager table = .new := by
      rw [ExecutionContext.manager, hindexes.2, AList.lookup_empty, Option.getD_none]
    rw [hrebuilt, hmanager]
    exact fun _ => rfl

/-- `Alone`, by a look at the scripts that run. -/
def isAlone (s : SharedRun) (j : ℕ) : Bool :=
  s.scripts.entries.all fun e => e.1 = j || e.2.transaction.all fun t =>
    s.applied.all fun c => c.transaction ≠ some t.number

/-- `CanUndo`, of a transaction before which there were no indexes. -/
def isUndoable (s : SharedRun) (j : ℕ) : Bool :=
  (s.script j).transaction.all fun t =>
    (t.context.tables.entries.all fun e => e.2.data.name = e.1 && !e.2.poisoned) &&
      (t.context.tableSchemas.entries.all fun e => e.2.name = e.1) &&
      decide (t.context.indexes = ∅ ∧ t.context.tableIndexes = ∅) &&
      decide (s.applied = t.applied ++ s.applied.drop t.applied.length) &&
      (s.applied.drop t.applied.length).all fun c => c.transaction = some t.number

/-- Whether a step is clean, for statements that do not panic, and where no transaction is left. -/
def isClean (text : DebugText) (order : HashOrder) (s : SharedRun) : ScriptAction → Bool
  | .statement j .beginTransaction => (s.script j).transaction.isNone
  | .statement _ (.unplanned _) => false
  | .statement j statement =>
      s.isAlone j && s.isUndoable j &&
        (s.engine.executeStatement text order (s.script j).session statement).2 ≠ .panicked
  | .finish j => s.isUndoable j

theorem alone_of_isAlone (h : s.isAlone j = true) : s.Alone j := by
  rintro i hi t ht ⟨c, hc, hnumber⟩
  obtain ⟨x, hx, hxt⟩ : ∃ x, s.scripts.lookup i = some x ∧ x.transaction = some t := by
    unfold script at ht
    cases hx : s.scripts.lookup i with
    | none =>
      rw [hx] at ht
      cases ht
    | some x =>
      rw [hx] at ht
      exact ⟨x, rfl, ht⟩
  have hentry := List.all_eq_true.mp h ⟨i, x⟩ (AList.mem_lookup_iff.mp hx)
  simp only [hi, hxt, decide_false, Bool.false_or, Option.all_some] at hentry
  exact of_decide_eq_true (List.all_eq_true.mp hentry c hc) hnumber

theorem canUndo_of_isUndoable (h : s.isUndoable j = true) : s.CanUndo text j := by
  intro t ht
  have ht : (s.script j).transaction = some t := ht
  simp only [isUndoable, ht, Option.all_some, Bool.and_eq_true, decide_eq_true_eq,
    List.all_eq_true, Bool.not_eq_true'] at h
  obtain ⟨⟨⟨⟨htables, hschemas⟩, hindexes⟩, happlied⟩, hown⟩ := h
  exact ⟨restorable_of_plain htables hschemas hindexes, _, happlied, hown⟩

theorem clean_of_isClean {a : ScriptAction} (h : s.isClean text order a = true) :
    s.Clean text a := by
  have hdrop {j : ℕ} (hnone : (s.script j).transaction.isNone = true) : s.CanDrop j := by
    intro t ht
    rw [Option.isNone_iff_eq_none.mp hnone] at ht
    cases ht
  cases a with
  | finish j => exact canUndo_of_isUndoable h
  | statement j statement =>
    cases statement with
    | beginTransaction => exact hdrop h
    | unplanned message => cases h
    | commitTransaction =>
      simp only [isClean, Bool.and_eq_true] at h
      exact fun _ => alone_of_isAlone h.1.1
    | rollbackTransaction =>
      simp only [isClean, Bool.and_eq_true] at h
      exact canUndo_of_isUndoable h.1.2
    | query run =>
      simp only [isClean, Bool.and_eq_true, decide_eq_true_eq] at h
      refine ⟨alone_of_isAlone h.1.1, fun hpanic => ?_, fun _ _ => canUndo_of_isUndoable h.1.2⟩
      refine absurd ?_ h.2
      rw [QueryEngine.executeStatement, hpanic]
      rfl
    | change statement =>
      simp only [isClean, Bool.and_eq_true, decide_eq_true_eq] at h
      refine ⟨alone_of_isAlone h.1.1, fun hpanic => ?_, fun _ _ => canUndo_of_isUndoable h.1.2⟩
      refine absurd ?_ h.2
      simp only [QueryEngine.executeStatement, hpanic]
      rfl

/-- Two scripts begin; one makes a table and rolls it back, then the other makes one and commits.
A third script inserts a row by itself, and a fourth inserts one in a transaction, of which a
statement fails; at last the first asks again. -/
def sharedScripts : List ScriptAction :=
  let create (name : String) : ScriptStatement :=
    .change (.createTable { tableName := name, columns := [], constraints := [],
                            ifNotExists := false })
  let insert (name : String) : ScriptStatement :=
    .change (.insert { tableName := name, columns := [], source := .values [[]] })
  let rows (ctx : ExecutionContext) : Except Failure QueryResult :=
    .ok ⟨[], (ctx.tables.lookup "u").elim [] (·.data.visibleRows ctx.snapshotVersion), 0⟩
  [.statement 0 .beginTransaction, .statement 1 .beginTransaction, .statement 0 (create "t"),
    .statement 0 .rollbackTransaction, .statement 1 (create "u"), .statement 1 .commitTransaction,
    .finish 1, .statement 2 (insert "u"), .finish 2, .statement 3 .beginTransaction,
    .statement 3 (insert "u"), .statement 3 (insert "t"),
    .statement 0 (.query rows), .finish 0]

/-- A script makes a table while another is in a transaction, which is rolled back. -/
def lostTable : List ScriptAction :=
  [.statement 0 .beginTransaction,
    .statement 1 (.change (.createTable { tableName := "t", columns := [], constraints := [],
                                          ifNotExists := false })),
    .finish 1,
    .statement 0 .rollbackTransaction]

end SharedRun

end Server

end AegisDB
