import AegisDB.Library.Bytes
import AegisDB.Library.Table
import Mathlib.Data.Finset.Basic

/-!
# Storage transactions

The multi-version transaction manager of the storage engine.  Identifiers and timestamps are
natural numbers.  A version with the versions behind it is a list, newest first.  Operations are
atomic: a lock that cannot be granted at once is not granted before the request times out.
-/

namespace AegisDB

namespace Storage

/-- Errors of the transaction manager. -/
inductive TransactionError
  /-- The call does not fit the state of the transaction. -/
  | transaction (message : String)
  | lockTimeout
  | serializationFailure
  deriving DecidableEq

/-! ## Versions -/

/-- Current state of a transaction. -/
inductive TransactionState
  | active
  | preparing
  | committed
  | aborted
  deriving DecidableEq

/-- Isolation level of a transaction. -/
inductive IsolationLevel
  | readUncommitted
  | readCommitted
  | repeatableRead
  | serializable
  deriving DecidableEq

/-- Key of a row. -/
structure VersionKey where
  tableId : ℕ
  rowId : ℕ
  deriving DecidableEq

/-- State of a version. -/
inductive VersionState
  | active
  | committed (timestamp : ℕ)
  | aborted
  deriving DecidableEq

/-- A version of a row. -/
structure Version where
  createdBy : ℕ
  state : VersionState := .active
  data : Bytes

/-- A snapshot for the reads of a transaction. -/
structure Snapshot where
  timestamp : ℕ
  activeTransactions : Finset ℕ

/-- A version is visible to a snapshot. -/
def Snapshot.isVisible (snapshot : Snapshot) (version : Version) : Bool :=
  match version.state with
  | .committed commitTs =>
    commitTs ≤ snapshot.timestamp && version.createdBy ∉ snapshot.activeTransactions
  | .active => false
  | .aborted => false

/-- A transaction. -/
structure Transaction where
  state : TransactionState := .active
  isolationLevel : IsolationLevel
  startTimestamp : ℕ
  commitTimestamp : Option ℕ := none
  snapshot : Snapshot
  /-- No call of the manager adds to it. -/
  readSet : Finset VersionKey := ∅
  writeSet : Finset VersionKey := ∅

namespace Transaction

/-- A new transaction. -/
def new (isolationLevel : IsolationLevel) (startTimestamp : ℕ) (activeTransactions : Finset ℕ) :
    Transaction where
  isolationLevel := isolationLevel
  startTimestamp := startTimestamp
  snapshot := { timestamp := startTimestamp, activeTransactions := activeTransactions }

def isActive (tx : Transaction) : Bool :=
  tx.state = .active

def addToWriteSet (tx : Transaction) (key : VersionKey) : Transaction :=
  { tx with writeSet := insert key tx.writeSet }

end Transaction

/-! ## Locks -/

/-- Type of a lock. -/
inductive LockMode
  | shared
  | exclusive
  | intentShared
  | intentExclusive
  | update
  deriving DecidableEq

/-- Two lock modes are compatible. -/
def LockMode.isCompatible : LockMode → LockMode → Bool
  | shared, shared
  | shared, intentShared
  | intentShared, shared
  | intentShared, intentShared
  | intentShared, intentExclusive
  | intentExclusive, intentShared
  | intentExclusive, intentExclusive => true
  | _, _ => false

/-- A lock request. -/
structure LockRequest where
  txId : ℕ
  key : VersionKey
  mode : LockMode
  granted : Bool := false

/-- Entry of the lock table. -/
structure LockEntry where
  holders : List LockRequest := []
  waiters : List LockRequest := []

/-- The lock manager. -/
structure LockManager where
  locks : Table VersionKey LockEntry := ∅

namespace LockManager

def entry (lm : LockManager) (key : VersionKey) : LockEntry :=
  (lm.locks.lookup key).getD {}

/-- A request agrees with all locks that other transactions hold. -/
def canGrant (holders : List LockRequest) (request : LockRequest) : Bool :=
  holders.all fun h => h.txId = request.txId || h.mode.isCompatible request.mode

/-- Acquire a lock.  A request that waits for nothing to change is withdrawn when it times out. -/
def acquire (lm : LockManager) (request : LockRequest) :
    LockManager × Except TransactionError Unit :=
  let entry := lm.entry request.key
  if canGrant entry.holders request then
    ({ locks := lm.locks.insert request.key
        { entry with holders := entry.holders ++ [{ request with granted := true }] } }, .ok ())
  else
    ({ locks := lm.locks.insert request.key
        { entry with waiters := entry.waiters.filter fun w => w.txId ≠ request.txId } },
      .error .lockTimeout)

/-- Release all locks held by a transaction. -/
def releaseAll (lm : LockManager) (txId : ℕ) : LockManager where
  locks :=
    (lm.locks.mapValues fun _ entry =>
      { holders := entry.holders.filter fun h => h.txId ≠ txId
        waiters := entry.waiters.filter fun w => w.txId ≠ txId : LockEntry }).filterValues
      fun _ entry => !(entry.holders.isEmpty && entry.waiters.isEmpty)

end LockManager

/-! ## The transaction manager -/

/-- Manages all transactions. -/
structure TransactionManager where
  transactions : Table ℕ Transaction := ∅
  nextTxId : ℕ := 1
  nextTimestamp : ℕ := 1
  lockManager : LockManager := {}
  versions : Table VersionKey (List Version) := ∅

/-- Statistics of a garbage collection. -/
structure GcStats where
  versionsCollected : ℕ
  transactionsCleaned : ℕ
  minActiveTimestamp : ℕ

/-- Give the newest version a state, if the transaction wrote it. -/
def markHead (txId : ℕ) (state : VersionState) : List Version → List Version
  | [] => []
  | version :: older =>
    if version.createdBy = txId then { version with state := state } :: older
    else version :: older

/-- Collect the garbage behind the newest version, and count what is removed.  An aborted version
is unlinked; a committed version behind a committed one is cut off with all that is behind it when
both are older than every active transaction. -/
def gcVersionChain (minTs : ℕ) : List Version → List Version × ℕ
  | [] => ([], 0)
  | version :: older =>
    let (older, collected) := gcVersionChain minTs older
    match older with
    | [] => ([version], collected)
    | prev :: behind =>
      if prev.state = .aborted then (version :: behind, collected + 1)
      else
        match version.state, prev.state with
        | .committed currCommitTs, .committed prevCommitTs =>
          if prevCommitTs < minTs ∧ currCommitTs < minTs then ([version], collected + 1)
          else (version :: prev :: behind, collected)
        | _, _ => (version :: prev :: behind, collected)

namespace TransactionManager

variable (m : TransactionManager)

def chain (key : VersionKey) : List Version :=
  (m.versions.lookup key).getD []

/-- Begin a new transaction. -/
def begin (isolationLevel : IsolationLevel) : TransactionManager × ℕ :=
  let activeTxs := (m.transactions.filterValues fun _ tx => tx.isActive).keys.toFinset
  let transaction := Transaction.new isolationLevel m.nextTimestamp activeTxs
  ({ m with
      transactions := m.transactions.insert m.nextTxId transaction
      nextTxId := m.nextTxId + 1
      nextTimestamp := m.nextTimestamp + 1 }, m.nextTxId)

/-- Give the newest versions of the keys in the write set of a transaction a state. -/
def markVersions (txId : ℕ) (tx : Transaction) (state : VersionState) :
    Table VersionKey (List Version) :=
  m.versions.mapValues fun key chain =>
    if key ∈ tx.writeSet then markHead txId state chain else chain

/-- Take the lock on the transaction table for reading, in a thread that may have it for writing
already.  The lock is not reentrant, so such a thread waits for itself and never gets it. -/
def readTransactions (writing : Bool) : Option (Table ℕ Transaction) :=
  if writing then none else some m.transactions

/-- Look for a transaction that has committed since this one began, and written what this one has
read. -/
def validateSerializable (writing : Bool) (txId : ℕ) (tx : Transaction) :
    Option (Except TransactionError Unit) :=
  (m.readTransactions writing).map fun transactions =>
    if transactions.entries.any fun e =>
        decide (e.1 ≠ txId ∧ e.2.state = .committed ∧
          (∃ commitTs ∈ e.2.commitTimestamp, tx.startTimestamp < commitTs) ∧
          ¬ Disjoint tx.readSet e.2.writeSet) then
      .error .serializationFailure
    else .ok ()

/-- Commit a transaction, with the transaction table locked for writing; no result is a call that
never returns. -/
def commit (txId : ℕ) : Option (TransactionManager × Except TransactionError Unit) :=
  let commitTs := m.nextTimestamp
  let m := { m with nextTimestamp := m.nextTimestamp + 1 }
  match m.transactions.lookup txId with
  | none => some (m, .error (.transaction "Transaction not found"))
  | some tx =>
    if tx.state ≠ .active then some (m, .error (.transaction "Transaction not active"))
    else do
      let validated ← if tx.isolationLevel = .serializable then m.validateSerializable true txId tx
        else some (.ok ())
      match validated with
      | .error e => some (m, .error e)
      | .ok () =>
        some
          ({ m with
              transactions := m.transactions.insert txId
                { tx with state := .committed, commitTimestamp := some commitTs }
              versions := m.markVersions txId tx (.committed commitTs)
              lockManager := m.lockManager.releaseAll txId }, .ok ())

/-- The commit of an active serializable transaction never returns: its validation waits for the
transaction table, which the call has locked itself. -/
theorem commit_eq (txId : ℕ) : m.commit txId =
    let commitTs := m.nextTimestamp
    let m := { m with nextTimestamp := m.nextTimestamp + 1 }
    match m.transactions.lookup txId with
    | none => some (m, .error (.transaction "Transaction not found"))
    | some tx =>
      if tx.state ≠ .active then some (m, .error (.transaction "Transaction not active"))
      else if tx.isolationLevel = .serializable then none
      else
        some
          ({ m with
              transactions := m.transactions.insert txId
                { tx with state := .committed, commitTimestamp := some commitTs }
              versions := m.markVersions txId tx (.committed commitTs)
              lockManager := m.lockManager.releaseAll txId }, .ok ()) := by
  unfold commit
  dsimp only
  cases m.transactions.lookup txId with
  | none => rfl
  | some tx =>
    dsimp only
    split_ifs <;> rfl

/-- Abort a transaction. -/
def abort (txId : ℕ) : TransactionManager × Except TransactionError Unit :=
  match m.transactions.lookup txId with
  | none => (m, .error (.transaction "Transaction not found"))
  | some tx =>
    ({ m with
        transactions := m.transactions.insert txId { tx with state := .aborted }
        versions := m.markVersions txId tx .aborted
        lockManager := m.lockManager.releaseAll txId }, .ok ())

/-- Read the version of a key that is visible to a transaction. -/
def read (txId : ℕ) (key : VersionKey) : Except TransactionError (Option Bytes) :=
  match m.transactions.lookup txId with
  | none => .error (.transaction "Transaction not found")
  | some tx =>
    if tx.isActive then
      .ok (((m.chain key).find? tx.snapshot.isVisible).map fun version => version.data)
    else .error (.transaction "Transaction not active")

/-- Write a new version of a key. -/
def write (txId : ℕ) (key : VersionKey) (data : Bytes) :
    TransactionManager × Except TransactionError Unit :=
  match m.transactions.lookup txId with
  | none => (m, .error (.transaction "Transaction not found"))
  | some tx =>
    if tx.isActive then
      let (lockManager, result) := m.lockManager.acquire
        { txId := txId, key := key, mode := .exclusive }
      let m :=
        { m with
          transactions := m.transactions.insert txId (tx.addToWriteSet key)
          lockManager := lockManager }
      match result with
      | .ok () =>
        ({ m with
            versions := m.versions.insert key
              ({ createdBy := txId, data := data } :: m.chain key) }, .ok ())
      | .error e => (m, .error e)
    else (m, .error (.transaction "Transaction not active"))

def delete (txId : ℕ) (key : VersionKey) : TransactionManager × Except TransactionError Unit :=
  m.write txId key []

/-- The start of the oldest active transaction. -/
def getMinActiveTimestamp : ℕ :=
  ((m.transactions.values.filter Transaction.isActive).map
    fun tx => tx.startTimestamp).min?.getD (2 ^ 64 - 1)

/-- The transaction is over and older than every active transaction. -/
def cleanable (minTs : ℕ) (tx : Transaction) : Bool :=
  match tx.state with
  | .committed | .aborted => tx.commitTimestamp.getD tx.startTimestamp < minTs
  | _ => false

/-- Remove the versions and the transactions that are no longer needed. -/
def runGc : TransactionManager × GcStats :=
  let minTs := m.getMinActiveTimestamp
  ({ m with
      versions := m.versions.mapValues fun _ chain => (gcVersionChain minTs chain).1
      transactions := m.transactions.filterValues fun _ tx => !cleanable minTs tx },
    { versionsCollected :=
        (m.versions.values.map fun chain => (gcVersionChain minTs chain).2).sum
      transactionsCleaned := (m.transactions.values.filter (cleanable minTs)).length
      minActiveTimestamp := minTs })

end TransactionManager

end Storage

end AegisDB
