import AegisDB.Library.Table
import AegisDB.Library.Transition
import AegisDB.Storage.LogRecord

/-!
# The write-ahead log

The log directory of `wal.rs`, appending with rotation, checkpoints and truncation, and recovery.
Reads and writes of files succeed.  The writer keeps bytes back until it is flushed, so a process
that stops leaves any part of them.

`WalRun` is a log directory with the process that uses it, if there is one, and with a record of
what was logged; `WalRun.system` lets one process after the other use the directory.
-/

namespace AegisDB

namespace Storage

def walSegmentSize : ℕ := 64 * 1024 * 1024

/-- Checkpoint data stored in checkpoint records. -/
structure CheckpointData where
  activeTransactions : List UInt64
  dirtyPages : List UInt64

/-- What the log takes from libraries: a checksum, and the encoding of checkpoints. -/
structure LogFormat where
  crc32 : Bytes → UInt32
  serialize : CheckpointData → Bytes
  deserialize : Bytes → Option CheckpointData
  deserialize_serialize : ∀ checkpoint, deserialize (serialize checkpoint) = some checkpoint

/-! ## The directory -/

/-- The log directory. -/
structure WalDir where
  /-- The files of the closed segments, by their numbers. -/
  segments : Table ℕ Bytes := ∅
  current : Option Bytes := none

namespace WalDir

def findLatestSegment (dir : WalDir) : ℕ :=
  dir.segments.keys.foldl max 0

/-- The files in the order of their names: the closed segments by number, then the current one. -/
def sortedSegments (dir : WalDir) : List Bytes :=
  (dir.segments.entries.insertionSort fun a b => a.1 ≤ b.1).map (fun e => e.2) ++
    dir.current.toList

def records (F : LogFormat) (dir : WalDir) : List LogRecord :=
  dir.sortedSegments.flatMap (readSegment F.crc32)

def openSegment (dir : WalDir) : WalDir :=
  { dir with current := some (dir.current.getD []) }

def write (dir : WalDir) (bytes : Bytes) : WalDir :=
  { dir with current := dir.current.map fun b => b ++ bytes }

end WalDir

/-! ## Recovery -/

/-- What recovery has found so far. -/
structure RecoveryState where
  /-- The transactions, and whether they are committed. -/
  txStatus : Table UInt64 Bool := ∅
  txRecords : Table UInt64 (List LogRecord) := ∅
  maxLsn : UInt64 := 0
  recordsProcessed : ℕ := 0

namespace RecoveryState

/-- Process a record. -/
def process (F : LogFormat) (s : RecoveryState) (r : LogRecord) : RecoveryState :=
  let s :=
    { s with
      recordsProcessed := s.recordsProcessed + 1
      maxLsn := max s.maxLsn r.lsn }
  match r.recordType with
  | .begin =>
    { s with
      txStatus := s.txStatus.insert r.txId false
      txRecords := s.txRecords.insert r.txId [] }
  | .commit => { s with txStatus := s.txStatus.insert r.txId true }
  | .abort =>
    { s with
      txStatus := s.txStatus.erase r.txId
      txRecords := s.txRecords.erase r.txId }
  | .insert | .update | .delete =>
    match s.txRecords.lookup r.txId with
    | some records => { s with txRecords := s.txRecords.insert r.txId (records ++ [r]) }
    | none => s
  | .checkpoint =>
    match F.deserialize r.data with
    | some checkpoint =>
      { s with
        txStatus := checkpoint.activeTransactions.foldl
          (fun status txId => if txId ∈ status then status else status.insert txId false)
          s.txStatus }
    | none => s
  | .compensationLogRecord => s

/-- The records of the committed transactions, taken in the order in which the hash map of the
transactions is walked, and sorted by sequence number. -/
def redoRecords (s : RecoveryState) (order : List UInt64) : List LogRecord :=
  ((order.filter fun txId => s.txStatus.lookup txId = some true).flatMap fun txId =>
    (s.txRecords.lookup txId).getD []).insertionSort fun a b => a.lsn ≤ b.lsn

def incompleteTransactions (s : RecoveryState) : Finset UInt64 :=
  (s.txStatus.filterValues fun _ committed => !committed).keys.toFinset

end RecoveryState

/-- Result of a recovery. -/
structure RecoveryResult where
  redoRecords : List LogRecord
  incompleteTransactions : Finset UInt64
  maxLsn : UInt64
  recordsProcessed : ℕ
  segmentsScanned : ℕ

def WalDir.recoveryState (F : LogFormat) (dir : WalDir) : RecoveryState :=
  (dir.records F).foldl (RecoveryState.process F) {}

/-- Recover from a log directory.  The hash map of the transactions is walked in the given
order. -/
def recoverFromDirectory (F : LogFormat) (dir : WalDir) (order : List UInt64) : RecoveryResult :=
  let s := dir.recoveryState F
  { redoRecords := s.redoRecords order
    incompleteTransactions := s.incompleteTransactions
    maxLsn := s.maxLsn
    recordsProcessed := s.recordsProcessed
    segmentsScanned := dir.sortedSegments.length }

/-! ## The log -/

/-- A process with the log open. -/
structure WriteAheadLog where
  dir : WalDir
  currentLsn : UInt64
  flushedLsn : UInt64
  checkpointLsn : UInt64 := 0
  syncOnCommit : Bool
  pending : Bytes := []
  /-- The size of the current segment, with what the writer keeps back. -/
  segmentOffset : ℕ
  currentSegment : ℕ

namespace WriteAheadLog

variable (F : LogFormat)

/-- Open the current segment of a directory. -/
def openDir (dir : WalDir) (currentLsn flushedLsn : UInt64) (syncOnCommit : Bool) :
    WriteAheadLog where
  dir := dir.openSegment
  currentLsn := currentLsn
  flushedLsn := flushedLsn
  syncOnCommit := syncOnCommit
  segmentOffset := (dir.current.getD []).length
  currentSegment := dir.findLatestSegment

def new (dir : WalDir) (syncOnCommit : Bool) : WriteAheadLog :=
  openDir dir 1 0 syncOnCommit

/-- The sequence number after the highest one found, at least `1`. -/
def lsnAfter (maxLsn : UInt64) : UInt64 :=
  max (if maxLsn = UInt64.ofNat (2 ^ 64 - 1) then maxLsn else maxLsn + 1) 1

def openAndRecover (dir : WalDir) (syncOnCommit : Bool) (order : List UInt64) :
    WriteAheadLog × RecoveryResult :=
  let recovery := recoverFromDirectory F dir order
  (openDir dir (lsnAfter recovery.maxLsn) recovery.maxLsn syncOnCommit, recovery)

variable (w : WriteAheadLog)

def writeOut : WriteAheadLog :=
  { w with
    dir := w.dir.write w.pending
    pending := [] }

/-- Rotate to a new segment: the file of the current segment gets its number. -/
def rotateSegment : WriteAheadLog :=
  let w := w.writeOut
  { w with
    dir :=
      { segments :=
          match w.dir.current with
          | some bytes => w.dir.segments.insert w.currentSegment bytes
          | none => w.dir.segments
        current := some [] }
    segmentOffset := 0
    currentSegment := w.currentSegment + 1 }

def rotates (r : LogRecord) : Bool :=
  walSegmentSize < w.segmentOffset + (r.toBytes F.crc32).length

/-- Append a record, rotating the segment if needed. -/
def append (r : LogRecord) : WriteAheadLog :=
  let w := if w.rotates F r then w.rotateSegment else w
  { w with
    pending := w.pending ++ r.toBytes F.crc32
    segmentOffset := w.segmentOffset + (r.toBytes F.crc32).length }

def flush : WriteAheadLog :=
  { w.writeOut with flushedLsn := w.currentLsn - 1 }

/-- Allocate the next sequence number and append a record with it. -/
def log (record : UInt64 → LogRecord) : WriteAheadLog :=
  append F { w with currentLsn := w.currentLsn + 1 } (record w.currentLsn)

def logBegin (txId : UInt64) : WriteAheadLog :=
  w.log F fun lsn => .begin lsn txId

def logCommit (txId prevLsn : UInt64) : WriteAheadLog :=
  let logged := w.log F fun lsn => .commit lsn prevLsn txId
  if w.syncOnCommit then logged.flush else logged

def logAbort (txId prevLsn : UInt64) : WriteAheadLog :=
  w.log F fun lsn => .abort lsn prevLsn txId

def logInsert (txId : UInt64) (prevLsn : Option UInt64) (pageId : UInt64) (data : Bytes) :
    WriteAheadLog :=
  w.log F fun lsn => .dataRecord lsn prevLsn txId .insert pageId data

def logUpdate (txId : UInt64) (prevLsn : Option UInt64) (pageId : UInt64) (data : Bytes) :
    WriteAheadLog :=
  w.log F fun lsn => .dataRecord lsn prevLsn txId .update pageId data

def logDelete (txId : UInt64) (prevLsn : Option UInt64) (pageId : UInt64) (data : Bytes) :
    WriteAheadLog :=
  w.log F fun lsn => .dataRecord lsn prevLsn txId .delete pageId data

/-- The record of a checkpoint. -/
def checkpointRecord (activeTransactions dirtyPages : List UInt64) (lsn : UInt64) : LogRecord :=
  { lsn := lsn
    txId := 0
    recordType := .checkpoint
    data := F.serialize ⟨activeTransactions, dirtyPages⟩ }

def logCheckpoint (activeTransactions dirtyPages : List UInt64) : WriteAheadLog :=
  { (w.log F (checkpointRecord F activeTransactions dirtyPages)).flush with
    checkpointLsn := w.currentLsn }

/-- A closed segment is removed by a truncation. -/
def removes (number : ℕ) : Bool :=
  w.checkpointLsn ≠ 0 && number + 2 < w.currentSegment

/-- Remove old segments, and count them. -/
def truncateBeforeCheckpoint : WriteAheadLog × ℕ :=
  ({ w with
      dir :=
        { w.dir with
          segments := w.dir.segments.filterValues fun number _ => !w.removes number } },
    (w.dir.segments.keys.filter w.removes).length)

/-- The process stops; so many of the bytes that were kept back still reach the disk. -/
def stop (kept : ℕ) : WalDir :=
  w.dir.write (w.pending.take kept)

end WriteAheadLog

/-! ## Runs -/

/-- The state of the log between and during processes. -/
inductive WalProcess
  | closed (dir : WalDir)
  | running (wal : WriteAheadLog)

def WalProcess.dir : WalProcess → WalDir
  | closed dir => dir
  | running wal => wal.dir

/-- A log and what has been logged. -/
structure WalRun where
  process : WalProcess := .closed {}
  /-- The records that have reached the disk, also those that were removed by a truncation. -/
  history : List LogRecord := []
  /-- The records appended since the writer was last written out. -/
  unflushed : List LogRecord := []
  truncated : ℕ := 0

/-- What can happen. -/
inductive WalAction
  | new (syncOnCommit : Bool)
  | openAndRecover (syncOnCommit : Bool)
  /-- The process stops, and some of the bytes kept back are lost. -/
  | stop (kept : ℕ)
  | append (record : LogRecord)
  | flush
  | logBegin (txId : UInt64)
  | logCommit (txId prevLsn : UInt64)
  | logAbort (txId prevLsn : UInt64)
  | logInsert (txId : UInt64) (prevLsn : Option UInt64) (pageId : UInt64) (data : Bytes)
  | logUpdate (txId : UInt64) (prevLsn : Option UInt64) (pageId : UInt64) (data : Bytes)
  | logDelete (txId : UInt64) (prevLsn : Option UInt64) (pageId : UInt64) (data : Bytes)
  | logCheckpoint (activeTransactions dirtyPages : List UInt64)
  | truncate

/-- The record that an action appends, given the next sequence number. -/
def WalAction.record (F : LogFormat) (lsn : UInt64) : WalAction → Option LogRecord
  | .append record => some record
  | .logBegin txId => some (.begin lsn txId)
  | .logCommit txId prevLsn => some (.commit lsn prevLsn txId)
  | .logAbort txId prevLsn => some (.abort lsn prevLsn txId)
  | .logInsert txId prevLsn pageId data =>
    some (.dataRecord lsn prevLsn txId .insert pageId data)
  | .logUpdate txId prevLsn pageId data =>
    some (.dataRecord lsn prevLsn txId .update pageId data)
  | .logDelete txId prevLsn pageId data =>
    some (.dataRecord lsn prevLsn txId .delete pageId data)
  | .logCheckpoint activeTransactions dirtyPages =>
    some (WriteAheadLog.checkpointRecord F activeTransactions dirtyPages lsn)
  | _ => none

namespace WalRun

variable (F : LogFormat)

def dir (s : WalRun) : WalDir :=
  s.process.dir

/-- The records that the log should hold: those that have reached the disk and were not removed. -/
def stored (s : WalRun) : List LogRecord :=
  s.history.drop s.truncated

/-- Everything that was logged, is not removed, and was not lost so far. -/
def logged (s : WalRun) : List LogRecord :=
  s.stored ++ s.unflushed

/-- Process `w` has appended a record, and is `w'` now. -/
def appended (s : WalRun) (w w' : WriteAheadLog) (record : LogRecord) : WalRun :=
  if w.rotates F record then
    { s with
      process := .running w'
      history := s.history ++ s.unflushed
      unflushed := [record] }
  else
    { s with
      process := .running w'
      unflushed := s.unflushed ++ [record] }

/-- Everything has been written out, and the process is `w'` now. -/
def flushed (s : WalRun) (w' : WriteAheadLog) : WalRun :=
  { s with
    process := .running w'
    history := s.history ++ s.unflushed
    unflushed := [] }

/-- What a process does. -/
def act (s : WalRun) (w : WriteAheadLog) : WalAction → Option WalRun
  | .new _ | .openAndRecover _ => none
  | .stop kept =>
    some
      { s with
        process := .closed (w.stop kept)
        history := s.history ++ (segmentFormat F.crc32).fitting kept s.unflushed
        unflushed := [] }
  | .append record => some (s.appended F w (w.append F record) record)
  | .flush => some (s.flushed w.flush)
  | .logBegin txId => some (s.appended F w (w.logBegin F txId) (.begin w.currentLsn txId))
  | .logCommit txId prevLsn =>
    let s' := s.appended F w (w.logCommit F txId prevLsn) (.commit w.currentLsn prevLsn txId)
    some (if w.syncOnCommit then s'.flushed (w.logCommit F txId prevLsn) else s')
  | .logAbort txId prevLsn =>
    some (s.appended F w (w.logAbort F txId prevLsn) (.abort w.currentLsn prevLsn txId))
  | .logInsert txId prevLsn pageId data =>
    some (s.appended F w (w.logInsert F txId prevLsn pageId data)
      (.dataRecord w.currentLsn prevLsn txId .insert pageId data))
  | .logUpdate txId prevLsn pageId data =>
    some (s.appended F w (w.logUpdate F txId prevLsn pageId data)
      (.dataRecord w.currentLsn prevLsn txId .update pageId data))
  | .logDelete txId prevLsn pageId data =>
    some (s.appended F w (w.logDelete F txId prevLsn pageId data)
      (.dataRecord w.currentLsn prevLsn txId .delete pageId data))
  | .logCheckpoint activeTransactions dirtyPages =>
    let w' := w.logCheckpoint F activeTransactions dirtyPages
    some ((s.appended F w w'
      (WriteAheadLog.checkpointRecord F activeTransactions dirtyPages w.currentLsn)).flushed w')
  | .truncate =>
    let removed : WalDir :=
      { segments := w.dir.segments.filterValues fun number _ => w.removes number }
    some
      { s with
        process := .running w.truncateBeforeCheckpoint.1
        truncated := s.truncated + (removed.records F).length }

/-- One step: a process opens the log, or the process that has it open does something. -/
def step (s : WalRun) (a : WalAction) : Option WalRun :=
  match s.process with
  | .closed dir =>
    match a with
    | .new syncOnCommit => some { s with process := .running (.new dir syncOnCommit) }
    | .openAndRecover syncOnCommit =>
      some { s with process := .running (WriteAheadLog.openAndRecover F dir syncOnCommit []).1 }
    | _ => none
  | .running w => s.act F w a

def system : System WalRun WalAction where
  init := {}
  step := step F

end WalRun

end Storage

end AegisDB
