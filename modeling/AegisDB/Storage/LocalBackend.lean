import AegisDB.Library.Batch
import AegisDB.Library.Table
import AegisDB.Storage.Block

/-!
# The local backend

The backend of `backend.rs` that keeps each block in a file of a data directory.  The directory is
two tables, the block files and the temporary files, both under the identifiers in their names.  A
call that changes files is a list of file operations that are carried out one after another; a
failure of one ends the call.  The index of block paths and the statistics are left out.
-/

namespace AegisDB

namespace Storage

namespace Local

open Layers

/-! ## Files -/

/-- The files of the data directory. -/
structure Files where
  dataFiles : Table BlockId Bytes
  tempFiles : Table BlockId Bytes

/-- One operation on the files. -/
inductive FileOp
  | writeTemp (id : BlockId) (data : Bytes)
  | syncTemp (id : BlockId)
  /-- Rename a temporary file to the block file; `data` is what the call wrote to it. -/
  | rename (id : BlockId) (data : Bytes)
  | remove (id : BlockId)
  | removeBlock (id : BlockId)
  | syncDirectory
  deriving DecidableEq

namespace FileOp

/-- What an operation does. -/
def run : FileOp → Files → Except AegisError Files
  | writeTemp id data, files => .ok { files with tempFiles := files.tempFiles.insert id data }
  | syncTemp id, files =>
    match files.tempFiles.lookup id with
    | none => .error .io
    | some _ => .ok files
  | rename id _, files =>
    match files.tempFiles.lookup id with
    | none => .error .io
    | some data =>
      .ok
        { dataFiles := files.dataFiles.insert id data
          tempFiles := files.tempFiles.erase id }
  | remove id, files => .ok { files with dataFiles := files.dataFiles.erase id }
  | removeBlock id, files =>
    match files.dataFiles.lookup id with
    | none => .error (.blockNotFound id)
    | some _ => .ok { files with dataFiles := files.dataFiles.erase id }
  | syncDirectory, files => .ok files

/-- What is left when the operation fails: a write may leave part of the file. -/
def broken (torn : Option Bytes) : FileOp → Files → Files
  | writeTemp id _, files =>
    match torn with
    | none => files
    | some bytes => { files with tempFiles := files.tempFiles.insert id bytes }
  | _, files => files

end FileOp

/-- A failure of the file operation at a position of a call, with what a write leaves. -/
structure Fault where
  position : ℕ
  torn : Option Bytes := none

/-- The operation that a fault makes fail. -/
def breaks (fault : Option Fault) (n : ℕ) (op : FileOp) (files : Files) :
    Option (Files × AegisError) :=
  match fault with
  | none => none
  | some f => if f.position = n then some (op.broken f.torn files, .io) else none

def perform (fault : Option Fault) (program : List FileOp) (files : Files) :
    Files × Option AegisError :=
  FailStop.run FileOp.run (breaks fault) 0 program files

/-! ## The backend -/

abbrev TransactionId := UInt64

/-- Transaction state tracking. -/
inductive TransactionState
  | active
  | committed
  | rolledBack
  deriving DecidableEq

/-- Pending operation for a transaction: a put is a `Write` of the bytes of a block, a deletion a
`Delete`. -/
abbrev PendingOperation := BatchOp BlockId Bytes

/-- Local filesystem storage backend. -/
structure LocalBackend where
  files : Files
  nextBlockId : BlockId
  nextTxId : TransactionId := 1
  syncWrites : Bool
  transactions : Table TransactionId TransactionState := ∅
  /-- The pending operations of each transaction, the oldest first. -/
  pendingOps : Table TransactionId (List PendingOperation) := ∅

namespace LocalBackend

/-- A backend over a data directory: the next block is the one after the greatest that has a
file. -/
def new (files : Files) (syncWrites : Bool) : LocalBackend where
  files := files
  nextBlockId := files.dataFiles.keys.foldl (fun maxId id => if maxId ≤ id then id else maxId) 0 + 1
  syncWrites := syncWrites

/-- The block that a call writes: the one in the header, or a new one for `0`. -/
def blockIdOf (b : LocalBackend) (block : Block) : BlockId × LocalBackend :=
  if block.header.blockId = 0 then (b.nextBlockId, { b with nextBlockId := b.nextBlockId + 1 })
  else (block.header.blockId, b)

def encode (block : Block) (blockId : BlockId) : Bytes :=
  Block.toBytes { block with header := { block.header with blockId := blockId } }

/-- The file operations that write one temporary file. -/
def stage (syncWrites : Bool) (id : BlockId) (data : Bytes) : List FileOp :=
  .writeTemp id data :: if syncWrites then [.syncTemp id] else []

/-- The sync of the directory at the end of a call. -/
def sync (syncWrites : Bool) : List FileOp :=
  if syncWrites then [.syncDirectory] else []

def writeProgram (syncWrites : Bool) (id : BlockId) (data : Bytes) : List FileOp :=
  stage syncWrites id data ++ [.rename id data] ++ sync syncWrites

def deleteProgram (syncWrites : Bool) (id : BlockId) : List FileOp :=
  .removeBlock id :: sync syncWrites

/-- The file operations of a commit: every write to a temporary file, then the renames, then the
removals of the deleted blocks. -/
def commitProgram (syncWrites : Bool) (operations : List PendingOperation) : List FileOp :=
  (Batch.puts operations).flatMap (fun w => stage syncWrites w.1 w.2) ++
    (Batch.puts operations).map (fun w => .rename w.1 w.2) ++
      (Batch.dels operations).map .remove ++ sync syncWrites

/-! ### Calls outside a transaction -/

/-- Write a block to storage. -/
def writeBlock (fault : Option Fault) (b : LocalBackend) (block : Block) :
    Except AegisError BlockId × LocalBackend :=
  let (blockId, b) := b.blockIdOf block
  match perform fault (writeProgram b.syncWrites blockId (encode block blockId)) b.files with
  | (files, some e) => (.error e, { b with files := files })
  | (files, none) => (.ok blockId, { b with files := files })

/-- Delete a block from storage. -/
def deleteBlock (fault : Option Fault) (b : LocalBackend) (id : BlockId) :
    Except AegisError Unit × LocalBackend :=
  match perform fault (deleteProgram b.syncWrites id) b.files with
  | (files, some e) => (.error e, { b with files := files })
  | (files, none) => (.ok (), { b with files := files })

/-- The newest pending operation on a block in the first active transaction that has one, for the
transactions in the order in which the map is walked. -/
def pendingOp (b : LocalBackend) (order : List TransactionId) (id : BlockId) :
    Option PendingOperation :=
  order.findSome? fun txId =>
    if b.transactions.lookup txId = some .active then
      lastAt BatchOp.key id ((b.pendingOps.lookup txId).getD [])
    else none

/-- Read a block from storage. -/
def readBlock (b : LocalBackend) (order : List TransactionId) (ioError : Bool) (id : BlockId) :
    Except AegisError Block :=
  match b.pendingOp order id with
  | some (.put _ data) => Block.fromBytes data
  | some (.del _) => .error (.blockNotFound id)
  | none =>
    if ioError then .error .io
    else
      match b.files.dataFiles.lookup id with
      | none => .error (.blockNotFound id)
      | some data => Block.fromBytes data

/-- Check if a block exists. -/
def blockExists (b : LocalBackend) (order : List TransactionId) (ioError : Bool) (id : BlockId) :
    Bool :=
  match b.pendingOp order id with
  | some (.put _ _) => true
  | some (.del _) => false
  | none => !ioError && (b.files.dataFiles.lookup id).isSome

/-! ### Transactions -/

/-- Begin a new transaction. -/
def beginTransaction (b : LocalBackend) : TransactionId × LocalBackend :=
  (b.nextTxId,
    { b with
      nextTxId := b.nextTxId + 1
      transactions := b.transactions.insert b.nextTxId .active
      pendingOps := b.pendingOps.insert b.nextTxId [] })

/-- The check at the start of an operation of a transaction. -/
def checkActive (b : LocalBackend) (txId : TransactionId) : Except AegisError Unit :=
  match b.transactions.lookup txId with
  | some .active => .ok ()
  | some _ => .error (.transaction "Transaction not active")
  | none => .error (.transaction "Transaction not found")

def push (b : LocalBackend) (txId : TransactionId) (op : PendingOperation) : LocalBackend :=
  { b with pendingOps := b.pendingOps.insert txId ((b.pendingOps.lookup txId).getD [] ++ [op]) }

/-- Write a block within a transaction context. -/
def writeBlockInTx (b : LocalBackend) (txId : TransactionId) (block : Block) :
    Except AegisError BlockId × LocalBackend :=
  match b.checkActive txId with
  | .error e => (.error e, b)
  | .ok () =>
    let (blockId, b) := b.blockIdOf block
    (.ok blockId, b.push txId (.put blockId (encode block blockId)))

/-- Delete a block within a transaction context. -/
def deleteBlockInTx (b : LocalBackend) (txId : TransactionId) (id : BlockId) :
    Except AegisError Unit × LocalBackend :=
  match b.checkActive txId with
  | .error e => (.error e, b)
  | .ok () => (.ok (), b.push txId (.del id))

/-- The commit before its first file operation: the pending operations are taken out. -/
def beginCommit (b : LocalBackend) (txId : TransactionId) :
    Except AegisError (List FileOp) × LocalBackend :=
  match b.transactions.lookup txId with
  | some .active =>
    (.ok (commitProgram b.syncWrites ((b.pendingOps.lookup txId).getD [])),
      { b with pendingOps := b.pendingOps.erase txId })
  | some .committed => (.error (.transaction "Transaction already committed"), b)
  | some .rolledBack => (.error (.transaction "Transaction was rolled back"), b)
  | none => (.error (.transaction "Transaction not found"), b)

def finishCommit (b : LocalBackend) (txId : TransactionId) : LocalBackend :=
  { b with transactions := b.transactions.insert txId .committed }

/-- Commit a transaction. -/
def commitTransaction (fault : Option Fault) (b : LocalBackend) (txId : TransactionId) :
    Except AegisError Unit × LocalBackend :=
  match b.beginCommit txId with
  | (.error e, b) => (.error e, b)
  | (.ok program, b) =>
    match perform fault program b.files with
    | (files, some e) => (.error e, { b with files := files })
    | (files, none) => (.ok (), { b with files := files }.finishCommit txId)

/-- Rollback a transaction: its pending operations are dropped and every temporary file is
removed, but for the files whose removal fails, which are kept. -/
def rollbackTransaction (kept : List BlockId) (b : LocalBackend) (txId : TransactionId) :
    Except AegisError Unit × LocalBackend :=
  match b.transactions.lookup txId with
  | some .active =>
    (.ok (),
      { b with
        files :=
          { b.files with tempFiles := b.files.tempFiles.filterValues fun id _ => id ∈ kept }
        transactions := b.transactions.insert txId .rolledBack
        pendingOps := b.pendingOps.erase txId })
  | some .committed => (.error (.transaction "Cannot rollback committed transaction"), b)
  | some .rolledBack => (.ok (), b)
  | none => (.error (.transaction "Transaction not found"), b)

/-! ## What a read returns -/

def blocks (b : LocalBackend) (id : BlockId) : Option Bytes :=
  b.files.dataFiles.lookup id

/-- What a read returns for the bytes of a block, if there are any. -/
def decode (id : BlockId) : Option Bytes → Except AegisError Block
  | none => .error (.blockNotFound id)
  | some data => Block.fromBytes data

theorem readBlock_eq (b : LocalBackend) (order : List TransactionId) (id : BlockId) :
    b.readBlock order false id =
      decode id (((b.pendingOp order id).map BatchOp.value).getD (b.blocks id)) := by
  rw [readBlock, blocks]
  cases b.pendingOp order id with
  | none => cases b.files.dataFiles.lookup id <;> rfl
  | some op => cases op <;> rfl

theorem blockExists_eq (b : LocalBackend) (order : List TransactionId) (id : BlockId) :
    b.blockExists order false id =
      (((b.pendingOp order id).map BatchOp.value).getD (b.blocks id)).isSome := by
  rw [blockExists, blocks]
  cases b.pendingOp order id with
  | none => rfl
  | some op => cases op <;> rfl

end LocalBackend

end Local

end Storage

end AegisDB
