import AegisDB.Library.Transition
import AegisDB.TimeSeries.ColdFrame
import AegisDB.TimeSeries.Engine

/-!
# The cold tier

Every series that has blocks on disk has one file of frames, to which blocks are appended, and an
entry in an index that is saved whenever a series comes or goes.  A compaction reads the files one
after the other and replaces those that have frames that are too old.  Nothing keeps an append and a
compaction apart, so both are modelled step by step, and a crash may come after any byte.
-/

namespace AegisDB

namespace TimeSeries

/-- What the index of the cold tier has of a series. -/
structure ColdSeriesMeta where
  metric : Metric
  tags : Tags

/-- What a compaction reports. -/
structure ColdCompactReport where
  filesScanned : ℕ := 0
  filesRewritten : ℕ := 0
  filesRemoved : ℕ := 0
  framesDropped : ℕ := 0

def fnv1a64 (s : String) : UInt64 :=
  s.toUTF8.toList.foldl (fun h b => (h ^^^ b.toUInt64) * 0x100000001b3) 0xcbf29ce484222325

/-- The directory of the cold tier: the files by the hashes in their names, and the index as it was
saved. -/
structure ColdDir where
  files : Table UInt64 Bytes := ∅
  index : Option (Table String ColdSeriesMeta) := none

structure ColdStore where
  dir : ColdDir
  index : Table String ColdSeriesMeta

namespace ColdStore

def openDir (dir : ColdDir) : ColdStore where
  dir := dir
  index := dir.index.getD ∅

variable (store : ColdStore)

def contains (seriesId : String) : Bool :=
  seriesId ∈ store.index

def file (seriesId : String) : Option Bytes :=
  store.dir.files.lookup (fnv1a64 seriesId)

def content (seriesId : String) : Bytes :=
  (store.file seriesId).getD []

def saveIndex : ColdStore :=
  { store with dir := { store.dir with index := some store.index } }

/-- The store with another file of a series, or with none. -/
def setFile (seriesId : String) (bytes : Option Bytes) : ColdStore :=
  { store with
    dir :=
      { store.dir with
        files := match bytes with
          | some bytes => store.dir.files.insert (fnv1a64 seriesId) bytes
          | none => store.dir.files.erase (fnv1a64 seriesId) } }

def frames (blocks : List CompressedBlock) : Bytes :=
  blocks.flatMap writeFrame

/-- Enter a series in the index after its blocks were written; it is saved if the series is new. -/
def enter (seriesId : String) (series : ColdSeriesMeta) : ColdStore :=
  let entered := { store with index := store.index.insert seriesId series }
  if seriesId ∈ store.index then entered else entered.saveIndex

/-- Whether a block is outside of a range, by its times. -/
def outside (startMs endMs : Int64) (firstTs lastTs : Int64) : Bool :=
  lastTs < startMs || firstTs > endMs

/-- The blocks of a series that overlap a range. -/
def readRange (seriesId : String) (startMs endMs : Int64) : List CompressedBlock :=
  if !store.contains seriesId then []
  else
    match store.file seriesId with
    | none => []
    | some bytes => (readFrames (outside startMs endMs) bytes.length bytes).1

def tooOld (cutoffMs : Int64) (_ lastTs : Int64) : Bool :=
  lastTs < cutoffMs

/-- Put the blocks that are kept in the place of a file, or remove it if there are none. -/
def replaceFile (seriesId : String) (keep : List CompressedBlock) : ColdStore :=
  store.setFile seriesId (if keep.isEmpty then none else some (frames keep))

def forget (ids : List String) : ColdStore :=
  { store with index := ids.foldl (fun index id => index.erase id) store.index }

/-- Remove series, with their files; how many of them there were. -/
def removeMany (seriesIds : List String) : ColdStore × ℕ :=
  let removed := seriesIds.dedup.filter fun id => id ∈ store.index
  let emptied := removed.foldl (fun store id => store.setFile id none) (store.forget removed)
  (if removed.isEmpty then emptied else emptied.saveIndex, removed.length)

end ColdStore

/-! ## Steps -/

/-- An append that is going on. -/
structure Appending where
  seriesId : String
  series : ColdSeriesMeta
  blocks : List CompressedBlock
  written : ℕ := 0
  /-- The file that was opened is still the file of the series. -/
  attached : Bool := true

/-- A compaction that is going on. -/
structure Compacting where
  cutoffMs : Int64
  remaining : List String
  removed : List String := []
  /-- The series whose file is to be replaced, with the bytes that were read and the blocks that are
  kept. -/
  current : Option (String × Bytes × List CompressedBlock) := none
  report : ColdCompactReport := {}

/-- A cold tier, what is going on in it, and the blocks that were appended and not yet compacted or
removed. -/
structure ColdRun where
  store : ColdStore := .openDir {}
  appending : Option Appending := none
  compacting : Option Compacting := none
  expected : String → List CompressedBlock := fun _ => []

inductive ColdAction where
  | beginAppend (seriesId : String) (series : ColdSeriesMeta) (blocks : List CompressedBlock)
  | write (n : ℕ)
  | endAppend
  | failAppend
  | beginCompact (cutoffMs : Int64)
  | readFile
  | replaceFile
  | endCompact
  | remove (seriesIds : List String)
  /-- A crash, after which the directory is opened again. -/
  | crash

namespace Appending

/-- The append after the file of a series was replaced. -/
def detach (a : Appending) (seriesId : String) : Appending :=
  { a with attached := a.attached && fnv1a64 a.seriesId ≠ fnv1a64 seriesId }

def IsWritten (a : Appending) : Prop :=
  (ColdStore.frames a.blocks).length ≤ a.written

instance (a : Appending) : Decidable a.IsWritten :=
  inferInstanceAs (Decidable (_ ≤ _))

end Appending

/-- Read the file of the next series. -/
def Compacting.readFile (c : Compacting) (store : ColdStore) (id : String) (rest : List String) :
    Compacting :=
  let report := { c.report with filesScanned := c.report.filesScanned + 1 }
  match store.file id with
  | none => { c with remaining := rest, removed := c.removed ++ [id], report }
  | some bytes =>
      let (keep, dropped) := readFrames (ColdStore.tooOld c.cutoffMs) bytes.length bytes
      if dropped = 0 then { c with remaining := rest, report }
      else
        { c with
          remaining := rest
          current := some (id, bytes, keep)
          report := { report with framesDropped := report.framesDropped + dropped } }

/-- The file that was read is replaced. -/
def Compacting.replaced (c : Compacting) (id : String) (keep : List CompressedBlock) :
    Compacting :=
  if keep.isEmpty then
    { c with
      current := none
      removed := c.removed ++ [id]
      report := { c.report with filesRemoved := c.report.filesRemoved + 1 } }
  else
    { c with
      current := none
      report := { c.report with filesRewritten := c.report.filesRewritten + 1 } }

def Compacting.finish (c : Compacting) (store : ColdStore) : ColdStore :=
  if c.removed.isEmpty then store else (store.forget c.removed).saveIndex

namespace ColdRun

variable (s : ColdRun)

def act : ColdAction → Option ColdRun
  | .beginAppend id series blocks =>
      if s.appending.isSome then none
      else if blocks.isEmpty then some s
      else some { s with
        store := s.store.setFile id (some (s.store.content id))
        appending := some { seriesId := id, series, blocks } }
  | .write n =>
      match s.appending with
      | none => none
      | some a =>
          let bytes := ((ColdStore.frames a.blocks).drop a.written).take n
          some { s with
            store :=
              if a.attached then
                s.store.setFile a.seriesId (some (s.store.content a.seriesId ++ bytes))
              else s.store
            appending := some { a with written := a.written + n } }
  | .endAppend =>
      match s.appending with
      | none => none
      | some a =>
          if a.IsWritten then some { s with
            store := s.store.enter a.seriesId a.series
            appending := none
            expected :=
              Function.update s.expected a.seriesId (s.expected a.seriesId ++ a.blocks) }
          else none
  | .failAppend => if s.appending.isSome then some { s with appending := none } else none
  | .beginCompact cutoffMs =>
      if s.compacting.isSome then none
      else some { s with compacting := some { cutoffMs, remaining := s.store.index.keys } }
  | .readFile =>
      match s.compacting with
      | some c =>
          match c.current, c.remaining with
          | none, id :: rest => some { s with compacting := some (c.readFile s.store id rest) }
          | _, _ => none
      | none => none
  | .replaceFile =>
      match s.compacting with
      | some c =>
          match c.current with
          | some (id, _, keep) =>
              some { s with
                store := s.store.replaceFile id keep
                appending := s.appending.map fun a => a.detach id
                compacting := some (c.replaced id keep)
                expected := Function.update s.expected id
                  ((s.expected id).filter fun b => c.cutoffMs ≤ b.lastTimestamp) }
          | none => none
      | none => none
  | .endCompact =>
      match s.compacting with
      | some c =>
          if c.current.isNone ∧ c.remaining = [] then
            some { s with store := c.finish s.store, compacting := none }
          else none
      | none => none
  | .remove ids =>
      some { s with
        store := (s.store.removeMany ids).1
        appending := s.appending.map fun a =>
          (ids.filter fun id => id ∈ s.store.index).foldl Appending.detach a
        expected := fun id => if id ∈ ids then [] else s.expected id }
  | .crash =>
      some { s with store := .openDir s.store.dir, appending := none, compacting := none }

/-- Blocks are appended, compacted and removed, in any order of steps. -/
def system : System ColdRun ColdAction where
  init := {}
  step := act

/-- What is read of a series that is not being appended to is what was appended and not yet
compacted or removed, as far as it overlaps the range. -/
def Refines : Prop :=
  ∀ id, (∀ a ∈ s.appending, a.seriesId ≠ id) → ∀ startMs endMs,
    s.store.readRange id startMs endMs = (s.expected id).filter fun b =>
      startMs ≤ b.lastTimestamp && b.firstTimestamp ≤ endMs

end ColdRun

end TimeSeries

end AegisDB
