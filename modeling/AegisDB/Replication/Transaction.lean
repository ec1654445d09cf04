import AegisDB.Library.Bytes
import AegisDB.Library.Table
import Mathlib.Data.Finset.Basic

/-!
# Distributed transactions

The two-phase commit of `transaction.rs`: the coordinator with its table of transactions, and the
handler at a participant.  Hash maps are association lists; their order is the order in which
requests are generated, and nothing else depends on it.
-/

namespace AegisDB

namespace Replication

/-! ## A transaction at its coordinator -/

/-- State of a distributed transaction. -/
inductive TransactionState
  | preparing
  | prepared
  | committing
  | committed
  | aborting
  | aborted
  | unknown
  deriving DecidableEq

namespace TransactionState

def isTerminal : TransactionState → Bool
  | committed | aborted => true
  | _ => false

def canCommit : TransactionState → Bool
  | prepared => true
  | _ => false

def canAbort : TransactionState → Bool
  | committed => false
  | _ => true

end TransactionState

/-- Vote of a participant. -/
inductive ParticipantVote
  | commit
  | abort
  | pending
  deriving DecidableEq

/-- A participant, as the coordinator sees it. -/
structure TransactionParticipant where
  vote : ParticipantVote := .pending
  prepared : Bool := false
  committed : Bool := false

namespace TransactionParticipant

def recordPrepare (p : TransactionParticipant) (vote : ParticipantVote) :
    TransactionParticipant :=
  { p with vote := vote, prepared := vote = .commit }

def recordCommit (p : TransactionParticipant) : TransactionParticipant :=
  { p with committed := true }

end TransactionParticipant

/-- An operation within a distributed transaction. -/
inductive TransactionOperation
  | read (key shardId : String)
  | write (key : String) (value : Bytes) (shardId : String)
  | delete (key shardId : String)
  /-- Write a value to a key that has the expected one. -/
  | compareAndSwap (key : String) (expected : Option Bytes) (newValue : Bytes)
    (shardId : String)

namespace TransactionOperation

def key : TransactionOperation → String
  | read key _ | write key _ _ | delete key _ | compareAndSwap key _ _ _ => key

def isWrite : TransactionOperation → Bool
  | read _ _ => false
  | _ => true

end TransactionOperation

/-- A distributed transaction managed by two-phase commit. -/
structure DistributedTransaction (N : Type*) where
  participants : Table N TransactionParticipant := ∅
  state : TransactionState := .preparing
  createdAt : UInt64
  timeoutMs : UInt64
  operations : List TransactionOperation := []

namespace DistributedTransaction

variable {N : Type*} (txn : DistributedTransaction N)

def allPrepared : Bool :=
  txn.participants.values.all fun p => p.prepared

def allCommitted : Bool :=
  txn.participants.values.all fun p => p.committed

def anyAbort : Bool :=
  txn.participants.values.any fun p => p.vote = .abort

variable [DecidableEq N]

/-- Add a participant, unless it takes part already. -/
def addParticipant (n : N) : DistributedTransaction N :=
  if n ∈ txn.participants then txn
  else { txn with participants := txn.participants.insert n {} }

/-- Change what is known about a participant, if it takes part. -/
def updateParticipant (n : N) (f : TransactionParticipant → TransactionParticipant) :
    DistributedTransaction N :=
  match txn.participants.lookup n with
  | some p => { txn with participants := txn.participants.replace n (f p) }
  | none => txn

end DistributedTransaction

/-- Messages of the protocol. -/
inductive TwoPhaseMessage (N T : Type*)
  | prepareRequest (txnId : T) (operations : List TransactionOperation)
  | prepareResponse (txnId : T) (vote : ParticipantVote) (participant : N)
  | commitRequest (txnId : T)
  | commitAck (txnId : T) (participant : N)
  | abortRequest (txnId : T)
  | abortAck (txnId : T) (participant : N)

/-! ## The coordinator -/

/-- Coordinator of distributed transactions. -/
structure TransactionCoordinator (N T : Type*) where
  transactions : Table T (DistributedTransaction N) := ∅
  defaultTimeoutMs : UInt64 := 30000
  preparedLog : Finset T := ∅

namespace TransactionCoordinator

variable {N T : Type*} (c : TransactionCoordinator N T)

def cleanupCompleted : TransactionCoordinator N T :=
  { c with transactions := c.transactions.filterValues fun _ txn => !txn.state.isTerminal }

variable [DecidableEq T]

def put (t : T) (txn : DistributedTransaction N) : TransactionCoordinator N T :=
  { c with transactions := c.transactions.insert t txn }

/-- Begin a transaction with a specific identifier. -/
def beginTransactionWithId (t : T) (now : UInt64) : TransactionCoordinator N T :=
  c.put t { createdAt := now, timeoutMs := c.defaultTimeoutMs }

def addOperation (t : T) (operation : TransactionOperation) : TransactionCoordinator N T :=
  match c.transactions.lookup t with
  | some txn => c.put t { txn with operations := txn.operations ++ [operation] }
  | none => c

/-- Address one message to every participant of a transaction. -/
def broadcast (txn : DistributedTransaction N) (message : TwoPhaseMessage N T) :
    List (N × TwoPhaseMessage N T) :=
  txn.participants.keys.map fun n => (n, message)

/-- Phase 1: the prepare requests of a transaction that is being prepared. -/
def prepare (t : T) : Option (List (N × TwoPhaseMessage N T)) :=
  match c.transactions.lookup t with
  | some txn =>
    if txn.state = .preparing then some (broadcast txn (.prepareRequest t txn.operations))
    else none
  | none => none

/-- Phase 2: move a prepared transaction to `committing`, and generate the commit requests. -/
def commit (t : T) : TransactionCoordinator N T × Option (List (N × TwoPhaseMessage N T)) :=
  match c.transactions.lookup t with
  | some txn =>
    if txn.state.canCommit then
      (c.put t { txn with state := .committing }, some (broadcast txn (.commitRequest t)))
    else (c, none)
  | none => (c, none)

/-- Abort a transaction, and generate the abort requests. -/
def abort (t : T) : TransactionCoordinator N T × Option (List (N × TwoPhaseMessage N T)) :=
  match c.transactions.lookup t with
  | some txn =>
    if txn.state.canAbort then
      (c.put t { txn with state := .aborting }, some (broadcast txn (.abortRequest t)))
    else (c, none)
  | none => (c, none)

def handleAbortAck (t : T) : TransactionCoordinator N T × Bool :=
  match c.transactions.lookup t with
  | some txn => (c.put t { txn with state := .aborted }, true)
  | none => (c, false)

def getState (t : T) : Option TransactionState :=
  (c.transactions.lookup t).map fun txn => txn.state

variable [DecidableEq N]

def addParticipant (t : T) (n : N) : TransactionCoordinator N T :=
  match c.transactions.lookup t with
  | some txn => c.put t (txn.addParticipant n)
  | none => c

/-- Handle a prepare response: record the vote, and decide if the votes allow it. -/
def handlePrepareResponse (t : T) (participant : N) (vote : ParticipantVote) :
    TransactionCoordinator N T × Option TransactionState :=
  match c.transactions.lookup t with
  | some txn =>
    let voted := txn.updateParticipant participant fun p => p.recordPrepare vote
    if voted.anyAbort then
      (c.put t { voted with state := .aborting }, some .aborting)
    else if voted.allPrepared then
      ({ c.put t { voted with state := .prepared } with
          preparedLog := insert t c.preparedLog }, some .prepared)
    else (c.put t voted, none)
  | none => (c, none)

/-- Handle a commit acknowledgment. -/
def handleCommitAck (t : T) (participant : N) :
    TransactionCoordinator N T × Option TransactionState :=
  match c.transactions.lookup t with
  | some txn =>
    let acked := txn.updateParticipant participant TransactionParticipant.recordCommit
    if acked.allCommitted then (c.put t { acked with state := .committed }, some .committed)
    else (c.put t acked, none)
  | none => (c, none)

end TransactionCoordinator

/-! ## The participant -/

/-- Result of validating the operations of a transaction. -/
structure ValidationResult where
  success : Bool
  error : Option String
  lockedKeys : List String

namespace ValidationResult

def ok (lockedKeys : List String) : ValidationResult :=
  { success := true, error := none, lockedKeys := lockedKeys }

def failure (error : String) : ValidationResult :=
  { success := false, error := some error, lockedKeys := [] }

end ValidationResult

/-- Handler of the transactions a node participates in. -/
structure ParticipantHandler (N T : Type*) where
  nodeId : N
  pendingPrepares : Table T (List TransactionOperation) := ∅
  prepared : Finset T := ∅
  committed : Finset T := ∅
  /-- The keys that the prepared transactions have locked. -/
  lockedKeys : Table T (List String) := ∅

namespace ParticipantHandler

variable {N T : Type*} [DecidableEq T] (h : ParticipantHandler N T)

/-- The reason for which another transaction keeps an operation from being prepared. -/
def conflict [ToString T] (t : T) (operation : TransactionOperation) : Option String :=
  let key := operation.key
  let locker := h.lockedKeys.entries.find? fun e => e.1 ≠ t ∧ key ∈ e.2
  let writer := h.pendingPrepares.entries.find? fun e =>
    e.1 ≠ t ∧ e.2.any fun other => other.key = key && other.isWrite && operation.isWrite
  match locker, writer with
  | some e, _ => some ("Key '" ++ key ++ "' is locked by transaction " ++ toString e.1)
  | none, some e =>
    some ("Write conflict on key '" ++ key ++ "' with transaction " ++ toString e.1)
  | none, none => none

/-- Validation of the operations when no callback is set: the first conflict, or the keys that
are written. -/
def basicValidation [ToString T] (t : T) : List TransactionOperation → List String →
    ValidationResult
  | [], keysToLock => .ok keysToLock
  | operation :: operations, keysToLock =>
    match h.conflict t operation with
    | some error => .failure error
    | none =>
      basicValidation t operations
        (if operation.isWrite then keysToLock ++ [operation.key] else keysToLock)

/-- Handle a prepare request, with the answer of the validation callback if one is set. -/
def handlePrepare [ToString T] (t : T) (operations : List TransactionOperation)
    (callback : Option ValidationResult) : ParticipantHandler N T × TwoPhaseMessage N T :=
  let validation := callback.getD (h.basicValidation t operations [])
  if validation.success then
    ({ h with
        lockedKeys := h.lockedKeys.insert t validation.lockedKeys
        pendingPrepares := h.pendingPrepares.insert t operations
        prepared := insert t h.prepared },
      .prepareResponse t .commit h.nodeId)
  else (h, .prepareResponse t .abort h.nodeId)

/-- Handle a prepare request with the verdict of a validation function. -/
def handlePrepareWithValidation (t : T) (operations : List TransactionOperation) (valid : Bool) :
    ParticipantHandler N T × TwoPhaseMessage N T :=
  if valid then
    ({ h with
        pendingPrepares := h.pendingPrepares.insert t operations
        prepared := insert t h.prepared },
      .prepareResponse t .commit h.nodeId)
  else (h, .prepareResponse t .abort h.nodeId)

/-- Handle a commit request.  The commit callback only has effects elsewhere. -/
def handleCommit (t : T) : ParticipantHandler N T × TwoPhaseMessage N T :=
  ({ h with
      pendingPrepares := h.pendingPrepares.erase t
      prepared := h.prepared.erase t
      lockedKeys := h.lockedKeys.erase t
      committed := insert t h.committed },
    .commitAck t h.nodeId)

/-- Handle an abort request.  The abort callback only has effects elsewhere. -/
def handleAbort (t : T) : ParticipantHandler N T × TwoPhaseMessage N T :=
  ({ h with
      pendingPrepares := h.pendingPrepares.erase t
      prepared := h.prepared.erase t
      lockedKeys := h.lockedKeys.erase t },
    .abortAck t h.nodeId)

def isCommitted (t : T) : Bool :=
  t ∈ h.committed

end ParticipantHandler

end Replication

end AegisDB
