import AegisDB.Library.Text
import AegisDB.Server.ScriptIsolation

/-!
# Transactions of a client

A client keeps a flag for whether it is in a transaction, and answers `BEGIN`, `COMMIT` and
`ROLLBACK` by itself; every other statement goes to the server, which runs it as a script of its
own.  So what a transaction changes is in the database at once, where others see it, and stays there
whatever becomes of the transaction.  Nobody notices where no other client sends anything while a
transaction has changed the database, and such a transaction ends by a commit: then every change
that is not committed belongs to the transaction that is open on its connection
(`ClientRun.Accounted`).
-/

namespace AegisDB

namespace Client

open Query Server

/-- What a client and its server are made with: the server's debug texts and orders of hash maps,
the script that the server makes of a request, and the upper case of texts. -/
structure Setting where
  text : DebugText
  order : HashOrder
  parse : String → List Value → Except String (List ScriptStatement)
  uppercase : Uppercase

structure Connection where
  connected : Bool
  inTransaction : Bool

/-- A transaction, which has a connection of its own. -/
structure Transaction where
  committed : Bool
  rolledBack : Bool

def Transaction.isActive (tx : Transaction) : Bool :=
  !tx.committed && !tx.rolledBack

inductive ClientError where
  | notConnected
  | noTransaction
  | transactionAlreadyStarted
  /-- The network failed, or the server has answered with an error. -/
  | queryFailed
deriving DecidableEq

/-- What becomes of a request. -/
inductive Delivery where
  | answered
  | requestLost
  | answerLost

/-- A change of the database by a request. -/
structure ClientChange where
  connection : ℕ
  transaction : Option ℕ
  after : ExecutionContext

/-- Clients with their connections, and the database of the server. -/
structure ClientRun where
  engine : QueryEngine
  connections : Table ℕ Connection
  transactions : Table ℕ Transaction
  /-- The numbers of the transactions that have begun on a connection and have not ended. -/
  current : Table ℕ ℕ
  committed : Finset ℕ
  /-- The transactions whose rollback has returned `Ok`, or that were dropped uncommitted. -/
  rolledBack : Finset ℕ
  /-- The changes that the database holds, in their order. -/
  applied : List ClientChange
  /-- For each request that the server has run, its connection, and the changes in the database that
  were not committed then. -/
  views : List (ℕ × List ClientChange)
  transactionCount : ℕ

/-- What clients do. -/
inductive ClientAction where
  | connect (c : ℕ)
  | setConnected (c : ℕ) (connected : Bool)
  | query (c : ℕ) (sql : String) (params : List Value) (delivery : Delivery)
  /-- Savepoints are made and ended by statements, too. -/
  | execute (c : ℕ) (sql : String) (params : List Value) (delivery : Delivery)
  | beginTransaction (c : ℕ)
  | commit (c : ℕ)
  | rollback (c : ℕ)
  | transactionBegin (c : ℕ)
  | transactionQuery (c : ℕ) (sql : String) (params : List Value) (delivery : Delivery)
  | transactionExecute (c : ℕ) (sql : String) (params : List Value) (delivery : Delivery)
  | transactionCommit (c : ℕ)
  | transactionRollback (c : ℕ)
  | transactionDrop (c : ℕ)

namespace ClientRun

variable (setting : Setting) (s : ClientRun)

def start (engine : QueryEngine) : ClientRun where
  engine := engine
  connections := ∅
  transactions := ∅
  current := ∅
  committed := ∅
  rolledBack := ∅
  applied := []
  views := []
  transactionCount := 0

/-! ## Requests -/

/-- The server runs a request as a script of its own. -/
def serve (engine : QueryEngine) (sql : String) (params : List Value) :
    QueryEngine × Except ClientError QueryResult :=
  match setting.parse sql params with
  | .error _ => (engine, .error .queryFailed)
  | .ok script =>
      let done := engine.execute setting.text setting.order script
      (done.1,
        match done.2 with
        | some (.ok result) => .ok result
        | _ => .error .queryFailed)

/-- Whether a change was made in a transaction that has not committed. -/
def isUncommitted (change : ClientChange) : Bool :=
  match change.transaction with
  | none => false
  | some n => n ∉ s.committed

/-- A request, what it sees and what it changes. -/
def request (c : ℕ) (sql : String) (params : List Value) (delivery : Delivery) :
    ClientRun × Except ClientError QueryResult :=
  let done := serve setting s.engine sql params
  let change : ClientChange :=
    { connection := c, transaction := s.current.lookup c, after := done.1.context }
  let s' : ClientRun :=
    { s with
      engine := done.1
      applied := if done.1.context = s.engine.context then s.applied else s.applied ++ [change]
      views := s.views ++ [(c, s.applied.filter s.isUncommitted)] }
  match delivery with
  | .answered => (s', done.2)
  | .requestLost => (s, .error .queryFailed)
  | .answerLost => (s', .error .queryFailed)

/-! ## Connections -/

def isConnected (c : ℕ) : Bool :=
  match s.connections.lookup c with
  | none => false
  | some connection => connection.connected

def inTransaction (c : ℕ) : Bool :=
  match s.connections.lookup c with
  | none => false
  | some connection => connection.inTransaction

def setInTransaction (c : ℕ) (flag : Bool) : ClientRun :=
  { s with connections := s.connections.modify c fun connection =>
      { connection with inTransaction := flag } }

def queryWithParams (c : ℕ) (sql : String) (params : List Value) (delivery : Delivery) :
    ClientRun × Except ClientError QueryResult :=
  if s.isConnected c then s.request setting c sql params delivery
  else (s, .error .notConnected)

/-- Statements about transactions are not sent. -/
def executeWithParams (c : ℕ) (sql : String) (params : List Value) (delivery : Delivery) :
    ClientRun × Except ClientError ℕ :=
  if s.isConnected c then
    if setting.uppercase.startsWith sql "BEGIN" then (s.setInTransaction c true, .ok 0)
    else if setting.uppercase.startsWith sql "COMMIT" ||
        setting.uppercase.startsWith sql "ROLLBACK" then
      (s.setInTransaction c false, .ok 0)
    else
      let done := s.request setting c sql params delivery
      (done.1, done.2.map QueryResult.rowsAffected)
  else (s, .error .notConnected)

def noteBegin (c : ℕ) : ClientRun :=
  { s with
    current := s.current.insert c s.transactionCount
    transactionCount := s.transactionCount + 1 }

/-- The transaction of the connection has committed. -/
def noteCommit (c : ℕ) : ClientRun :=
  { s with
    current := s.current.erase c
    committed := match s.current.lookup c with
      | none => s.committed
      | some n => insert n s.committed }

/-- The transaction of the connection has ended without a commit. -/
def noteRollback (c : ℕ) : ClientRun :=
  { s with
    current := s.current.erase c
    rolledBack := match s.current.lookup c with
      | none => s.rolledBack
      | some n => insert n s.rolledBack }

def beginTransaction (c : ℕ) : ClientRun × Except ClientError Unit :=
  if s.inTransaction c then (s, .error .transactionAlreadyStarted)
  else
    match s.executeWithParams setting c "BEGIN" [] .answered with
    | (s', .error e) => (s', .error e)
    | (s', .ok _) => (s'.noteBegin c, .ok ())

def commit (c : ℕ) : ClientRun × Except ClientError Unit :=
  if s.inTransaction c then
    match s.executeWithParams setting c "COMMIT" [] .answered with
    | (s', .error e) => (s', .error e)
    | (s', .ok _) => (s'.noteCommit c, .ok ())
  else (s, .error .noTransaction)

def rollback (c : ℕ) : ClientRun × Except ClientError Unit :=
  if s.inTransaction c then
    match s.executeWithParams setting c "ROLLBACK" [] .answered with
    | (s', .error e) => (s', .error e)
    | (s', .ok _) => (s'.noteRollback c, .ok ())
  else (s, .error .noTransaction)

/-! ## Transactions -/

def transactionBegin (c : ℕ) : ClientRun × Except ClientError Unit :=
  match s.executeWithParams setting c "BEGIN" [] .answered with
  | (s', .error e) => (s', .error e)
  | (s', .ok _) =>
      ({ s'.noteBegin c with transactions := s'.transactions.insert c ⟨false, false⟩ }, .ok ())

def checkActive (c : ℕ) : Except ClientError Unit :=
  match s.transactions.lookup c with
  | none => .error .noTransaction
  | some tx => if tx.isActive then .ok () else .error .noTransaction

/-- A transaction that is dropped while it is active counts as rolled back; nothing is sent. -/
def transactionDrop (c : ℕ) : ClientRun :=
  match s.checkActive c with
  | .error _ => { s with transactions := s.transactions.erase c }
  | .ok () => { s.noteRollback c with transactions := s.transactions.erase c }

/-- A call of a method of a transaction that sends a statement. -/
def transactionCall {α : Type} (c : ℕ) (call : ClientRun × Except ClientError α) :
    ClientRun × Except ClientError α :=
  match s.checkActive c with
  | .error e => (s, .error e)
  | .ok () => call

/-- The transaction is used up, also where the commit fails. -/
def transactionCommit (c : ℕ) : ClientRun × Except ClientError Unit :=
  match s.checkActive c with
  | .error e => (s.transactionDrop c, .error e)
  | .ok () =>
      match s.executeWithParams setting c "COMMIT" [] .answered with
      | (s', .error e) => (s'.transactionDrop c, .error e)
      | (s', .ok _) =>
          ({ s'.noteCommit c with transactions := s'.transactions.erase c }, .ok ())

def transactionRollback (c : ℕ) : ClientRun × Except ClientError Unit :=
  match s.checkActive c with
  | .error e => (s.transactionDrop c, .error e)
  | .ok () =>
      match s.executeWithParams setting c "ROLLBACK" [] .answered with
      | (s', .error e) => (s'.transactionDrop c, .error e)
      | (s', .ok _) =>
          ({ s'.noteRollback c with transactions := s'.transactions.erase c }, .ok ())

/-! ## Runs -/

/-- One step. -/
def step : ClientAction → Option ClientRun
  | .connect c =>
      if c ∈ s.connections then none
      else some { s with connections := s.connections.insert c ⟨true, false⟩ }
  | .setConnected c connected =>
      some { s with connections := s.connections.modify c fun connection =>
        { connection with connected } }
  | .query c sql params delivery => some (s.queryWithParams setting c sql params delivery).1
  | .execute c sql params delivery => some (s.executeWithParams setting c sql params delivery).1
  | .beginTransaction c => some (s.beginTransaction setting c).1
  | .commit c => some (s.commit setting c).1
  | .rollback c => some (s.rollback setting c).1
  | .transactionBegin c =>
      if c ∈ s.transactions then none else some (s.transactionBegin setting c).1
  | .transactionQuery c sql params delivery =>
      some (s.transactionCall c (s.queryWithParams setting c sql params delivery)).1
  | .transactionExecute c sql params delivery =>
      some (s.transactionCall c (s.executeWithParams setting c sql params delivery)).1
  | .transactionCommit c => some (s.transactionCommit setting c).1
  | .transactionRollback c => some (s.transactionRollback setting c).1
  | .transactionDrop c => some (s.transactionDrop c)

def system (engine : QueryEngine) : System ClientRun ClientAction where
  init := start engine
  step := step setting

/-- The database holds no change of a transaction that was rolled back or dropped, and no request has
seen changes of a transaction of another connection whose commit had not returned. -/
structure Isolated (initial : ExecutionContext) : Prop where
  /-- The database is what it was after the last change that it holds. -/
  held : s.engine.context = (s.applied.getLast?.map ClientChange.after).getD initial
  undone : ∀ change ∈ s.applied, ∀ n ∈ change.transaction, n ∉ s.rolledBack
  unseen : ∀ v ∈ s.views, ∀ change ∈ v.2, change.connection = v.1

/-- No other connection is in a transaction that has changed the database. -/
def Alone (c : ℕ) : Prop :=
  ∀ e ∈ s.current.entries, e.1 ≠ c → ∀ change ∈ s.applied, change.transaction ≠ some e.2

/-- The connection is not in a transaction that has changed the database. -/
def CanDrop (c : ℕ) : Prop :=
  ∀ n ∈ s.current.lookup c, ∀ change ∈ s.applied, change.transaction ≠ some n

/-- The connection that sends a request. -/
def sends : ClientAction → Option ℕ
  | .query c _ _ _ => some c
  | .execute c _ _ _ => some c
  | .transactionQuery c _ _ _ => some c
  | .transactionExecute c _ _ _ => some c
  | _ => none

/-- The connection whose transaction, if it is in one, ends otherwise than by a commit. -/
def leaves : ClientAction → Option ℕ
  | .beginTransaction c => some c
  | .rollback c => some c
  | .transactionBegin c => some c
  | .transactionCommit c => if s.isConnected c then none else some c
  | .transactionRollback c => some c
  | .transactionDrop c => some c
  | _ => none

/-- A connection sends a request only while no other one is in a transaction that has changed the
database, and such a transaction is neither rolled back nor dropped nor left for another one. -/
def Clean (a : ClientAction) : Prop :=
  (∀ c ∈ sends a, s.Alone c) ∧ ∀ c ∈ s.leaves a, s.CanDrop c

instance (c : ℕ) : Decidable (s.Alone c) :=
  inferInstanceAs (Decidable (∀ e ∈ s.current.entries, _))

instance (c : ℕ) : Decidable (s.CanDrop c) :=
  Option.decidableForallMem (s.current.lookup c)

instance (a : ClientAction) : Decidable (s.Clean a) :=
  let _ := Option.decidableForallMem (p := s.Alone) (sends a)
  let _ := Option.decidableForallMem (p := s.CanDrop) (s.leaves a)
  instDecidableAnd

/-! ## Statements about transactions -/

variable {setting} {s}

theorem startsWith_self (u : Uppercase) {keyword : String}
    (h : keyword.toList.all (fun c => decide (c.toNat < 128 ∧ c.toUpper = c)) = true)
    (htrim : trimText keyword.toList = keyword.toList) : u.startsWith keyword keyword = true := by
  rw [Uppercase.startsWith, htrim, u.text_eq_self h]
  exact List.isPrefixOf_iff_prefix.mpr List.prefix_rfl

theorem startsWith_begin (u : Uppercase) : u.startsWith "BEGIN" "BEGIN" = true :=
  startsWith_self u (by decide) (by decide)

theorem startsWith_commit (u : Uppercase) : u.startsWith "COMMIT" "COMMIT" = true :=
  startsWith_self u (by decide) (by decide)

theorem startsWith_rollback (u : Uppercase) : u.startsWith "ROLLBACK" "ROLLBACK" = true :=
  startsWith_self u (by decide) (by decide)

/-- Statements about transactions are answered by the client, if it is connected. -/
theorem executeWithParams_local {c : ℕ} {sql : String}
    (h : setting.uppercase.startsWith sql "BEGIN" = true ∨
      setting.uppercase.startsWith sql "COMMIT" = true ∨
        setting.uppercase.startsWith sql "ROLLBACK" = true) {s' : ClientRun}
    {answer : Except ClientError ℕ}
    (hcall : s.executeWithParams setting c sql [] .answered = (s', answer)) :
    (∃ connections, s' = { s with connections }) ∧
      ∀ e, answer = .error e → s.isConnected c = false := by
  unfold executeWithParams at hcall
  split_ifs at hcall with hconnected hbegin hend <;> obtain ⟨rfl, rfl⟩ := Prod.mk.inj hcall
  · exact ⟨⟨_, rfl⟩, fun e he => by cases he⟩
  · exact ⟨⟨_, rfl⟩, fun e he => by cases he⟩
  · rcases h with h | h | h
    · exact absurd h hbegin
    · simp [h] at hend
    · simp [h] at hend
  · exact ⟨⟨s.connections, rfl⟩, fun _ _ => Bool.eq_false_iff.mpr hconnected⟩

theorem begin_local {c : ℕ} {s' : ClientRun} {answer : Except ClientError ℕ}
    (h : s.executeWithParams setting c "BEGIN" [] .answered = (s', answer)) :
    ∃ connections, s' = { s with connections } :=
  (executeWithParams_local (.inl (startsWith_begin _)) h).1

theorem commit_local {c : ℕ} {s' : ClientRun} {answer : Except ClientError ℕ}
    (h : s.executeWithParams setting c "COMMIT" [] .answered = (s', answer)) :
    (∃ connections, s' = { s with connections }) ∧
      ∀ e, answer = .error e → s.isConnected c = false :=
  executeWithParams_local (.inr (.inl (startsWith_commit _))) h

theorem rollback_local {c : ℕ} {s' : ClientRun} {answer : Except ClientError ℕ}
    (h : s.executeWithParams setting c "ROLLBACK" [] .answered = (s', answer)) :
    ∃ connections, s' = { s with connections } :=
  (executeWithParams_local (.inr (.inr (startsWith_rollback _))) h).1

/-! ## The invariant -/

/-- The changes that are not committed are those of the transactions that are open. -/
structure Accounted (s : ClientRun) : Prop where
  opened : ∀ change ∈ s.applied, ∀ n, change.transaction = some n →
    n ∈ s.committed ∨ s.current.lookup change.connection = some n
  numbered : ∀ change ∈ s.applied, ∀ n, change.transaction = some n → n < s.transactionCount
  begun : ∀ c n, s.current.lookup c = some n → n < s.transactionCount ∧ n ∉ s.rolledBack ∧
    ∀ c', s.current.lookup c' = some n → c' = c
  ended : ∀ n ∈ s.rolledBack, n < s.transactionCount

structure Invariant (s : ClientRun) (initial : ExecutionContext) : Prop where
  isolated : s.Isolated initial
  accounted : s.Accounted

section Steps

variable {initial : ExecutionContext} {c : ℕ}

/-- Connections and the flags of transactions do not matter. -/
theorem Invariant.keep (h : s.Invariant initial) (connections : Table ℕ Connection)
    (transactions : Table ℕ Transaction) :
    ({ s with connections, transactions } : ClientRun).Invariant initial :=
  ⟨⟨h.isolated.held, h.isolated.undone, h.isolated.unseen⟩,
    ⟨h.accounted.opened, h.accounted.numbered, h.accounted.begun, h.accounted.ended⟩⟩

/-- What a connection that can drop its transaction leaves uncommitted is none of its own. -/
theorem Accounted.opened_of_canDrop (h : s.Accounted) (hdrop : s.CanDrop c) {change : ClientChange}
    (hchange : change ∈ s.applied) {n : ℕ} (hn : change.transaction = some n) :
    n ∈ s.committed ∨ change.connection ≠ c ∧ s.current.lookup change.connection = some n := by
  refine (h.opened change hchange n hn).imp_right fun hopen => ⟨?_, hopen⟩
  rintro rfl
  exact hdrop n hopen change hchange hn

theorem Invariant.noteBegin (h : s.Invariant initial) (hdrop : s.CanDrop c) :
    (s.noteBegin c).Invariant initial := by
  refine ⟨⟨h.isolated.held, h.isolated.undone, h.isolated.unseen⟩, ⟨?_, ?_, ?_, ?_⟩⟩
  · intro change hchange n hn
    rcases h.accounted.opened_of_canDrop hdrop hchange hn with hcommitted | ⟨hother, hopen⟩
    · exact .inl hcommitted
    · refine .inr ?_
      exact (AList.lookup_insert_ne hother).trans hopen
  · exact fun change hchange n hn =>
      (h.accounted.numbered change hchange n hn).trans (Nat.lt_succ_self _)
  · intro i n hn
    have hnew (i : ℕ) (hi : (s.noteBegin c).current.lookup i = some s.transactionCount) : i = c := by
      by_contra hne
      exact lt_irrefl _ (h.accounted.begun i _ ((AList.lookup_insert_ne hne).symm.trans hi)).1
    by_cases hi : i = c
    · subst hi
      obtain rfl := Option.some.inj ((AList.lookup_insert _).symm.trans hn)
      refine ⟨Nat.lt_succ_self _, fun hmem => ?_, hnew⟩
      exact lt_irrefl _ (h.accounted.ended _ hmem)
    · have hn : s.current.lookup i = some n := (AList.lookup_insert_ne hi).symm.trans hn
      obtain ⟨hlt, hopen, hunique⟩ := h.accounted.begun i n hn
      refine ⟨hlt.trans (Nat.lt_succ_self _), hopen, fun i' hi' => ?_⟩
      by_cases hc : i' = c
      · subst hc
        obtain rfl := Option.some.inj ((AList.lookup_insert _).symm.trans hi')
        exact absurd hlt (lt_irrefl _)
      · exact hunique i' ((AList.lookup_insert_ne hc).symm.trans hi')
  · exact fun n hn => (h.accounted.ended n hn).trans (Nat.lt_succ_self _)

/-- A transaction of a connection that ends is the only one that does. -/
theorem Accounted.of_lookup_erase (h : s.Accounted) {i n : ℕ}
    (hn : (s.current.erase c).lookup i = some n) :
    i ≠ c ∧ s.current.lookup i = some n ∧ s.current.lookup c ≠ some n := by
  rw [Table.lookup_erase] at hn
  split_ifs at hn with hi
  exact ⟨hi, hn, fun hc => hi ((h.begun i n hn).2.2 c hc).symm⟩

theorem Invariant.noteCommit (h : s.Invariant initial) : (s.noteCommit c).Invariant initial := by
  have hsubset : s.committed ⊆ (s.noteCommit c).committed := by
    unfold ClientRun.noteCommit
    cases s.current.lookup c with
    | none => exact Finset.Subset.refl _
    | some n => exact Finset.subset_insert _ _
  refine ⟨⟨h.isolated.held, h.isolated.undone, h.isolated.unseen⟩,
    ⟨?_, h.accounted.numbered, ?_, h.accounted.ended⟩⟩
  · intro change hchange n hn
    rcases h.accounted.opened change hchange n hn with hcommitted | hopen
    · exact .inl (hsubset hcommitted)
    · by_cases hc : change.connection = c
      · rw [hc] at hopen
        refine .inl ?_
        simp only [ClientRun.noteCommit, hopen]
        exact Finset.mem_insert_self _ _
      · refine .inr ?_
        change (s.current.erase c).lookup _ = _
        rw [Table.lookup_erase, if_neg hc]
        exact hopen
  · intro i n hn
    obtain ⟨-, hn, -⟩ := h.accounted.of_lookup_erase hn
    obtain ⟨hlt, hopen, hunique⟩ := h.accounted.begun i n hn
    exact ⟨hlt, hopen, fun i' hi' => hunique i' (h.accounted.of_lookup_erase hi').2.1⟩

theorem Invariant.noteRollback (h : s.Invariant initial) (hdrop : s.CanDrop c) :
    (s.noteRollback c).Invariant initial := by
  have hmem (n : ℕ) : n ∈ (s.noteRollback c).rolledBack ↔
      s.current.lookup c = some n ∨ n ∈ s.rolledBack := by
    unfold ClientRun.noteRollback
    cases s.current.lookup c with
    | none => simp
    | some n' => simp [eq_comm]
  refine ⟨⟨h.isolated.held, fun change hchange n hn hback => ?_, h.isolated.unseen⟩,
    ⟨?_, h.accounted.numbered, ?_, ?_⟩⟩
  · rcases (hmem n).mp hback with hopen | hback
    · exact hdrop n hopen change hchange hn
    · exact h.isolated.undone change hchange n hn hback
  · intro change hchange n hn
    rcases h.accounted.opened_of_canDrop hdrop hchange hn with hcommitted | ⟨hother, hopen⟩
    · exact .inl hcommitted
    · refine .inr ?_
      change (s.current.erase c).lookup _ = _
      rw [Table.lookup_erase, if_neg hother]
      exact hopen
  · intro i n hn
    obtain ⟨-, hn, hne⟩ := h.accounted.of_lookup_erase hn
    obtain ⟨hlt, hopen, hunique⟩ := h.accounted.begun i n hn
    refine ⟨hlt, fun hback => ?_, fun i' hi' => hunique i' (h.accounted.of_lookup_erase hi').2.1⟩
    exact ((hmem n).mp hback).elim hne hopen
  · intro n hn
    rcases (hmem n).mp hn with hopen | hback
    · exact (h.accounted.begun c n hopen).1
    · exact h.accounted.ended n hback

theorem Invariant.transactionDrop (h : s.Invariant initial)
    (hdrop : s.checkActive c = .ok () → s.CanDrop c) :
    (s.transactionDrop c).Invariant initial := by
  unfold ClientRun.transactionDrop
  cases hactive : s.checkActive c with
  | error e => exact h.keep _ _
  | ok u => exact (h.noteRollback (hdrop hactive)).keep _ _

/-- A request sees no change of another connection that is not committed, and what it changes belongs
to the transaction of its own. -/
theorem Invariant.request (h : s.Invariant initial) (halone : s.Alone c) (sql : String)
    (params : List Value) (delivery : Delivery) :
    (s.request setting c sql params delivery).1.Invariant initial := by
  have hran : (s.request setting c sql params .answered).1.Invariant initial := by
    refine ⟨⟨?_, ?_, ?_⟩, ⟨?_, ?_, h.accounted.begun, h.accounted.ended⟩⟩
    · simp only [ClientRun.request]
      split_ifs with hsame
      · rw [hsame]
        exact h.isolated.held
      · rw [List.getLast?_concat]
        rfl
    · intro change hchange n hn
      simp only [ClientRun.request] at hchange ⊢
      split_ifs at hchange with hsame
      · exact h.isolated.undone change hchange n hn
      · rcases List.mem_append.mp hchange with hchange | hchange
        · exact h.isolated.undone change hchange n hn
        · rw [List.mem_singleton.mp hchange] at hn
          exact (h.accounted.begun c n hn).2.1
    · intro v hv change hchange
      rcases List.mem_append.mp hv with hv | hv
      · exact h.isolated.unseen v hv change hchange
      rw [List.mem_singleton.mp hv] at hchange ⊢
      obtain ⟨hmem, hopen⟩ := List.mem_filter.mp hchange
      unfold isUncommitted at hopen
      cases hn : change.transaction with
      | none =>
        rw [hn] at hopen
        cases hopen
      | some n =>
        rw [hn] at hopen
        by_contra hne
        have hcurrent := (h.accounted.opened change hmem n hn).resolve_left (of_decide_eq_true hopen)
        exact halone ⟨_, n⟩ (AList.mem_lookup_iff.mp hcurrent) hne change hmem hn
    · intro change hchange n hn
      simp only [ClientRun.request] at hchange ⊢
      split_ifs at hchange with hsame
      · exact h.accounted.opened change hchange n hn
      · rcases List.mem_append.mp hchange with hchange | hchange
        · exact h.accounted.opened change hchange n hn
        · rw [List.mem_singleton.mp hchange] at hn ⊢
          exact .inr hn
    · intro change hchange n hn
      simp only [ClientRun.request] at hchange ⊢
      split_ifs at hchange with hsame
      · exact h.accounted.numbered change hchange n hn
      · rcases List.mem_append.mp hchange with hchange | hchange
        · exact h.accounted.numbered change hchange n hn
        · rw [List.mem_singleton.mp hchange] at hn
          exact (h.accounted.begun c n hn).1
  cases delivery with
  | answered => exact hran
  | requestLost => exact h
  | answerLost => exact hran

theorem Invariant.queryWithParams (h : s.Invariant initial) (halone : s.Alone c) (sql : String)
    (params : List Value) (delivery : Delivery) :
    (s.queryWithParams setting c sql params delivery).1.Invariant initial := by
  unfold ClientRun.queryWithParams
  split_ifs
  · exact h.request halone sql params delivery
  · exact h

theorem Invariant.executeWithParams (h : s.Invariant initial) (halone : s.Alone c) (sql : String)
    (params : List Value) (delivery : Delivery) :
    (s.executeWithParams setting c sql params delivery).1.Invariant initial := by
  unfold ClientRun.executeWithParams
  split_ifs
  · exact h.keep _ _
  · exact h.keep _ _
  · exact h.request halone sql params delivery
  · exact h

end Steps

/-- One call of a client keeps the account of what is committed. -/
theorem Invariant.step {initial : ExecutionContext} (h : s.Invariant initial) {a : ClientAction}
    (hclean : s.Clean a) {s' : ClientRun} (hstep : s.step setting a = some s') :
    s'.Invariant initial := by
  cases a with
  | connect c =>
    simp only [ClientRun.step] at hstep
    split_ifs at hstep
    obtain rfl := Option.some.inj hstep
    exact h.keep _ _
  | setConnected c connected =>
    obtain rfl := Option.some.inj hstep
    exact h.keep _ _
  | query c sql params delivery =>
    obtain rfl := Option.some.inj hstep
    exact h.queryWithParams (hclean.1 c rfl) sql params delivery
  | execute c sql params delivery =>
    obtain rfl := Option.some.inj hstep
    exact h.executeWithParams (hclean.1 c rfl) sql params delivery
  | beginTransaction c =>
    obtain rfl := Option.some.inj hstep
    unfold ClientRun.beginTransaction
    split_ifs
    · exact h
    · split
      · rename_i s' e heq
        obtain ⟨connections, rfl⟩ := begin_local heq
        exact h.keep _ _
      · rename_i s' n heq
        obtain ⟨connections, rfl⟩ := begin_local heq
        exact (h.noteBegin (hclean.2 c rfl)).keep connections _
  | commit c =>
    obtain rfl := Option.some.inj hstep
    unfold ClientRun.commit
    split_ifs
    · split
      · rename_i s' e heq
        obtain ⟨⟨connections, rfl⟩, -⟩ := commit_local heq
        exact h.keep _ _
      · rename_i s' n heq
        obtain ⟨⟨connections, rfl⟩, -⟩ := commit_local heq
        exact h.noteCommit.keep connections _
    · exact h
  | rollback c =>
    obtain rfl := Option.some.inj hstep
    unfold ClientRun.rollback
    split_ifs
    · split
      · rename_i s' e heq
        obtain ⟨connections, rfl⟩ := rollback_local heq
        exact h.keep _ _
      · rename_i s' n heq
        obtain ⟨connections, rfl⟩ := rollback_local heq
        exact (h.noteRollback (hclean.2 c rfl)).keep connections _
    · exact h
  | transactionBegin c =>
    simp only [ClientRun.step] at hstep
    split_ifs at hstep
    obtain rfl := Option.some.inj hstep
    unfold ClientRun.transactionBegin
    split
    · rename_i s' e heq
      obtain ⟨connections, rfl⟩ := begin_local heq
      exact h.keep _ _
    · rename_i s' n heq
      obtain ⟨connections, rfl⟩ := begin_local heq
      exact (h.noteBegin (hclean.2 c rfl)).keep connections _
  | transactionQuery c sql params delivery =>
    obtain rfl := Option.some.inj hstep
    unfold ClientRun.transactionCall
    split
    · exact h
    · exact h.queryWithParams (hclean.1 c rfl) sql params delivery
  | transactionExecute c sql params delivery =>
    obtain rfl := Option.some.inj hstep
    unfold ClientRun.transactionCall
    split
    · exact h
    · exact h.executeWithParams (hclean.1 c rfl) sql params delivery
  | transactionCommit c =>
    obtain rfl := Option.some.inj hstep
    unfold ClientRun.transactionCommit
    split
    · rename_i e hactive
      exact h.transactionDrop fun hok => by simp [hok] at hactive
    · split
      · rename_i s' e heq
        -- nothing was sent, and the transaction is dropped
        obtain ⟨⟨connections, rfl⟩, hconnected⟩ := commit_local heq
        exact (h.keep connections _).transactionDrop fun _ =>
          hclean.2 c (by simp [leaves, hconnected e rfl])
      · rename_i s' n heq
        obtain ⟨⟨connections, rfl⟩, -⟩ := commit_local heq
        exact h.noteCommit.keep connections _
  | transactionRollback c =>
    obtain rfl := Option.some.inj hstep
    unfold ClientRun.transactionRollback
    split
    · exact h.transactionDrop fun _ => hclean.2 c rfl
    · split
      · rename_i s' e heq
        obtain ⟨connections, rfl⟩ := rollback_local heq
        exact (h.keep connections _).transactionDrop fun _ => hclean.2 c rfl
      · rename_i s' n heq
        obtain ⟨connections, rfl⟩ := rollback_local heq
        exact (h.noteRollback (hclean.2 c rfl)).keep connections _
  | transactionDrop c =>
    obtain rfl := Option.some.inj hstep
    exact h.transactionDrop fun _ => hclean.2 c rfl

/-! ## Runs -/

/-- A server that knows a statement that asks for what a table has; every other text makes the
table. -/
def tableSetting : Setting where
  text := SharedRun.noText
  order := .insertion
  parse sql _ :=
    if sql = "SELECT * FROM t" then
      .ok [.query fun ctx => .ok ⟨[], (ctx.tables.lookup "t").elim []
        (·.data.visibleRows ctx.snapshotVersion), 0⟩]
    else if sql = "INSERT INTO t VALUES ()" then
      .ok [.change (.insert { tableName := "t", columns := [], source := .values [[]] })]
    else
      .ok [.change (.createTable
        { tableName := "t", columns := [], constraints := [], ifNotExists := false })]
  uppercase := .ascii

/-- A transaction makes a table, puts a row into it, asks for it and commits; another, whose rollback
comes after it, and a third, which is dropped, ask for the row; in between a connection inserts
another one outside of transactions. -/
def inTurn : List ClientAction :=
  [.connect 0, .connect 1, .transactionBegin 1, .transactionBegin 0,
    .transactionExecute 0 "CREATE TABLE t ()" [] .answered,
    .transactionExecute 0 "INSERT INTO t VALUES ()" [] .answerLost,
    .transactionQuery 0 "SELECT * FROM t" [] .answered, .transactionCommit 0,
    .transactionQuery 1 "SELECT * FROM t" [] .answered,
    .execute 0 "INSERT INTO t VALUES ()" [] .answered, .transactionRollback 1,
    .transactionBegin 1, .query 0 "SELECT * FROM t" [] .requestLost, .transactionDrop 1]

/-- A transaction makes a table and is rolled back. -/
def rolledBackTable : List ClientAction :=
  [.connect 0, .transactionBegin 0,
    .transactionExecute 0 "CREATE TABLE t ()" [] .answered, .transactionRollback 0]

end ClientRun

end Client

end AegisDB
