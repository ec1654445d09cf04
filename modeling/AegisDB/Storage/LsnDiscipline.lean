import AegisDB.Storage.RecordRoundTrip
import AegisDB.Storage.WalRecovery

/-!
# Sequence numbers in their order

A call that logs a record allocates its sequence number first, without a lock, and appends the
record later; where the segment has no room, it lets the lock go before it rotates the segment, and
takes it again to write.  A flush takes the sequence number before the next one for the last one
flushed.  `LsnRun` is the log with the calls under way, so that its runs are the interleavings of
these steps over any number of sessions.

The sequence numbers that the log and the calls hold, in this order, are those that were allocated
(`LsnInv.next`).  So the records are in the order of their sequence numbers as long as every call
writes before those that allocated after it, nobody flushes in between, and a session goes on where
the one before stopped: it recovers, and finds the last record that has reached the disk.  The
record is found because whatever is closed or removed leaves it in the current segment or in the
last one that was closed (`LsnInv.latest`).
-/

namespace AegisDB

namespace Storage

variable {F : LogFormat}

/-! ## Calls -/

/-- Write a record into the current segment. -/
def WriteAheadLog.writeRecord (F : LogFormat) (w : WriteAheadLog) (r : LogRecord) :
    WriteAheadLog :=
  { w with
    pending := w.pending ++ r.toBytes F.crc32
    segmentOffset := w.segmentOffset + (r.toBytes F.crc32).length }

/-- How far a call has come that logs a record. -/
inductive LogCall
  | allocated (lsn : UInt64)
  | full (record : LogRecord)
  | rotated (record : LogRecord)
  deriving DecidableEq

namespace LogCall

def lsn : LogCall → UInt64
  | allocated lsn => lsn
  | full record => record.lsn
  | rotated record => record.lsn

/-- The record that the call writes once it has rotated the segment. -/
def toWrite : LogCall → Option LogRecord
  | rotated record => some record
  | _ => none

end LogCall

/-- A log with the calls under way. -/
structure LsnRun where
  process : WalProcess := .closed {}
  /-- The records that have reached the disk, as they are stored. -/
  history : List LogRecord := []
  /-- The records written since the writer was last written out, as they are stored. -/
  unflushed : List LogRecord := []
  /-- The calls under way, in the order of their allocations. -/
  calls : List LogCall := []

/-- What can happen. -/
inductive LsnAction
  | new (syncOnCommit : Bool)
  | openAndRecover (syncOnCommit : Bool)
  | nextLsn
  /-- A call appends the record with its sequence number, if there is room. -/
  | append (call : ℕ) (record : LogRecord)
  | rotateSegment (call : ℕ)
  /-- A call writes its record after it has rotated the segment. -/
  | write (call : ℕ)
  | flush
  /-- Remember the sequence number of a checkpoint that was flushed. -/
  | setCheckpoint (lsn : UInt64)
  | removeSegment (number : ℕ)
  /-- The process stops with its calls, and some of the bytes kept back are lost. -/
  | stop (kept : ℕ)

/-- The action creates a log, without a look at what the directory holds. -/
def LsnAction.creates : LsnAction → Bool
  | new _ => true
  | _ => false

namespace LsnRun

variable (F)

/-- The call has written its record. -/
def written (s : LsnRun) (w : WriteAheadLog) (call : ℕ) (record : LogRecord) : LsnRun :=
  { s with
    process := .running (w.writeRecord F record)
    unflushed := s.unflushed ++ [record.stored]
    calls := s.calls.eraseIdx call }

/-- Everything has been written out, and the process is `w'` now. -/
def writtenOut (s : LsnRun) (w' : WriteAheadLog) (calls : List LogCall) : LsnRun where
  process := .running w'
  history := s.history ++ s.unflushed
  calls := calls

/-- What a process does. -/
def act (s : LsnRun) (w : WriteAheadLog) : LsnAction → Option LsnRun
  | .new _ | .openAndRecover _ => none
  | .nextLsn =>
    some
      { s with
        process := .running { w with currentLsn := w.currentLsn + 1 }
        calls := s.calls ++ [.allocated w.currentLsn] }
  | .append call record =>
    if s.calls[call]? = some (.allocated record.lsn) then
      if w.rotates F record then some { s with calls := s.calls.set call (.full record) }
      else some (s.written F w call record)
    else none
  | .rotateSegment call =>
    match s.calls[call]? with
    | some (.full record) =>
      some (s.writtenOut w.rotateSegment (s.calls.set call (.rotated record)))
    | _ => none
  | .write call =>
    match s.calls[call]? with
    | some (.rotated record) => some (s.written F w call record)
    | _ => none
  | .flush => some (s.writtenOut w.flush s.calls)
  | .setCheckpoint lsn =>
    if ∃ r ∈ s.history, r.recordType = .checkpoint ∧ r.lsn = lsn then
      some { s with process := .running { w with checkpointLsn := lsn } }
    else none
  | .removeSegment number =>
    if w.removes number then
      some
        { s with
          process := .running { w with
            dir := { w.dir with segments := w.dir.segments.erase number } } }
    else none
  | .stop kept =>
    some
      { process := .closed (w.stop kept)
        history := s.history ++ (segmentFormat F.crc32).fitting kept s.unflushed }

/-- One step: a process opens the log, or the process that has it open does something. -/
def step (s : LsnRun) (a : LsnAction) : Option LsnRun :=
  match s.process with
  | .closed dir =>
    match a with
    | .new syncOnCommit => some { s with process := .running (.new dir syncOnCommit) }
    | .openAndRecover syncOnCommit =>
      some { s with process := .running (WriteAheadLog.openAndRecover F dir syncOnCommit []).1 }
    | _ => none
  | .running w => s.act F w a

def system : System LsnRun LsnAction where
  init := {}
  step := step F

variable {F}

/-! ## The discipline -/

/-- The sequence numbers of the records of the log. -/
def lsns (s : LsnRun) : List UInt64 :=
  (s.history ++ s.unflushed).map LogRecord.lsn

/-- The sequence numbers in use: those of the records, and those of the calls. -/
def inUse (s : LsnRun) : List UInt64 :=
  s.lsns ++ s.calls.map LogCall.lsn

/-- The last sequence number of a list, `0` if there is none. -/
def lastOf (lsns : List UInt64) : UInt64 :=
  lsns.getLast?.getD 0

def wal (s : LsnRun) : Option WriteAheadLog :=
  match s.process with
  | .closed _ => none
  | .running w => some w

/-- The sequence numbers of successive records increase, and the last one flushed is not beyond the
last record that has reached the disk. -/
def Disciplined (s : LsnRun) : Prop :=
  s.lsns.Pairwise (· < ·) ∧
    ∀ w ∈ s.wal, w.flushedLsn ≤ lastOf (s.history.map LogRecord.lsn)

instance (s : LsnRun) : Decidable s.Disciplined :=
  inferInstanceAs (Decidable (_ ∧ _))

variable (F)

/-- A record can be read back where it is written: its data fit their length field, and nothing
has broken off before it. -/
def Readable (w : WriteAheadLog) (r : LogRecord) : Prop :=
  r.data.length < 2 ^ 32 ∧ ∀ bytes ∈ w.dir.current, (segmentFormat F.crc32).Whole bytes

instance (w : WriteAheadLog) (r : LogRecord) : Decidable (Readable F w r) :=
  inferInstanceAs (Decidable (_ ∧ ∀ bytes ∈ w.dir.current, _))

/-- What a process does keeps to the order: a call writes its record, where it can be read back,
before the calls that have allocated after it; the highest sequence number is not in use when
another one is allocated; a flush finds no call under way; and the segment that is closed holds a
record, unless nothing has reached the disk. -/
def InTurn (s : LsnRun) (w : WriteAheadLog) : LsnAction → Prop
  | .nextLsn => lastLsn ∉ s.inUse
  | .append call record => w.rotates F record = true ∨ (call = 0 ∧ Readable F w record)
  | .rotateSegment _ =>
    w.dir.currentRecords F ≠ [] ∨ s.unflushed ≠ [] ∨ s.history = []
  | .write call => call = 0 ∧ ∀ c ∈ s.calls[call]?, ∀ r ∈ c.toWrite, Readable F w r
  | .flush => s.calls = []
  | _ => True

instance (s : LsnRun) (w : WriteAheadLog) (a : LsnAction) : Decidable (s.InTurn F w a) :=
  match a with
  | .nextLsn => inferInstanceAs (Decidable (_ ∉ _))
  | .append _ _ => inferInstanceAs (Decidable (_ ∨ _))
  | .rotateSegment _ => inferInstanceAs (Decidable (_ ≠ [] ∨ _ ≠ [] ∨ _ = []))
  | .write call =>
    inferInstanceAs (Decidable (_ ∧ ∀ c ∈ s.calls[call]?, ∀ r ∈ c.toWrite, Readable F w r))
  | .flush => inferInstanceAs (Decidable (_ = []))
  | .new _ | .openAndRecover _ | .setCheckpoint _ | .removeSegment _ | .stop _ =>
    inferInstanceAs (Decidable True)

/-- A log is created only where no record has reached the disk, and a process keeps to the
order. -/
def Orderly (s : LsnRun) (a : LsnAction) : Prop :=
  (a.creates = true → s.history = []) ∧ ∀ w ∈ s.wal, s.InTurn F w a

instance (s : LsnRun) (a : LsnAction) : Decidable (s.Orderly F a) :=
  inferInstanceAs (Decidable ((_ → _) ∧ ∀ w ∈ s.wal, s.InTurn F w a))

end LsnRun

/-! ## The latest record of a directory -/

namespace WalDir

variable {dir dir' : WalDir} {r : LogRecord} {rs history : List LogRecord}

theorem mem_records : r ∈ dir.records F ↔
    (∃ n bytes, dir.segments.lookup n = some bytes ∧ r ∈ readSegment F.crc32 bytes) ∨
      r ∈ dir.currentRecords F := by
  rw [records_eq, List.mem_append]
  refine or_congr_left ?_
  unfold closedRecords
  rw [List.mem_flatMap]
  constructor
  · rintro ⟨⟨n, bytes⟩, hmem, hr⟩
    exact ⟨n, bytes, AList.mem_lookup_iff.mpr ((List.mem_insertionSort _).mp hmem), hr⟩
  · rintro ⟨n, bytes, hlookup, hr⟩
    exact ⟨⟨n, bytes⟩, (List.mem_insertionSort _).mpr (AList.mem_lookup_iff.mp hlookup), hr⟩

theorem findLatestSegment_le {n : ℕ} (h : ∀ m ∈ dir.segments, m ≤ n) :
    dir.findLatestSegment ≤ n := by
  suffices hall : ∀ (l : List ℕ) (least : ℕ), least ≤ n → (∀ m ∈ l, m ≤ n) →
      l.foldl max least ≤ n from
    hall _ 0 (Nat.zero_le n) fun m hm => h m (AList.mem_keys.mpr hm)
  intro l
  induction l with
  | nil => exact fun least hleast _ => hleast
  | cons a l ih =>
    intro least hleast hl
    exact ih _ (Nat.max_le.mpr ⟨hleast, hl a List.mem_cons_self⟩)
      fun m hm => hl m (List.mem_cons_of_mem _ hm)

/-- The record is in the current segment, or there is none in it and the record is in the closed
segment with the largest number. -/
def Latest (F : LogFormat) (dir : WalDir) (r : LogRecord) : Prop :=
  r ∈ dir.currentRecords F ∨
    (dir.currentRecords F = [] ∧ ∃ n bytes, dir.segments.lookup n = some bytes ∧
      r ∈ readSegment F.crc32 bytes ∧ ∀ m ∈ dir.segments, m ≤ n)

theorem Latest.mem_records (h : dir.Latest F r) : r ∈ dir.records F := by
  rcases h with h | ⟨-, n, bytes, hlookup, hr, -⟩
  · exact WalDir.mem_records.mpr (.inr h)
  · exact WalDir.mem_records.mpr (.inl ⟨n, bytes, hlookup, hr⟩)

theorem mem_of_added (hsegments : dir'.segments = dir.segments)
    (hcurrent : dir'.currentRecords F = dir.currentRecords F ++ rs)
    (h : ∀ r ∈ dir.records F, r ∈ history) : ∀ r ∈ dir'.records F, r ∈ history ++ rs := by
  intro r hr
  rw [mem_records, hsegments, hcurrent, List.mem_append, ← or_assoc, ← mem_records] at hr
  exact List.mem_append.mpr (hr.imp_left (h r))

theorem latest_of_added (hsegments : dir'.segments = dir.segments)
    (hcurrent : dir'.currentRecords F = dir.currentRecords F ++ rs)
    (h : ∀ r ∈ history.getLast?, dir.Latest F r) :
    ∀ r ∈ (history ++ rs).getLast?, dir'.Latest F r := by
  intro r hr
  rcases List.eq_nil_or_concat rs with rfl | ⟨rs, last, rfl⟩
  · rw [List.append_nil] at hr hcurrent
    unfold Latest
    rw [hsegments, hcurrent]
    exact h r hr
  · rw [List.concat_eq_append, ← List.append_assoc, List.getLast?_concat] at hr
    obtain rfl := Option.some.inj hr
    refine .inl ?_
    rw [hcurrent]
    simp

end WalDir

theorem Buffered.closed_rotateSegment {w : WriteAheadLog} {unflushed : List LogRecord}
    (h : Buffered F w unflushed) :
    ∃ bytes, w.rotateSegment.dir =
        { segments := w.dir.segments.insert w.currentSegment bytes, current := some [] } ∧
      readSegment F.crc32 bytes = w.dir.currentRecords F ++ unflushed := by
  have hwrite := h.currentRecords_write w.pending.length
  rw [List.take_length, FrameFormat.fitting_of_length_le _ (by rw [h.pending])] at hwrite
  obtain ⟨bytes, hbytes, -⟩ := h.current
  refine ⟨bytes ++ w.pending, ?_, ?_⟩
  · simp only [WriteAheadLog.rotateSegment, WriteAheadLog.writeOut, WalDir.write, hbytes,
      Option.map_some]
  · rw [← hwrite]
    simp [WalDir.currentRecords, WalDir.write, hbytes]

namespace LsnRun

open WriteAheadLog

variable {s s' : LsnRun} {w : WriteAheadLog} {a : LsnAction}

/-! ## Lists of sequence numbers -/

@[simp] theorem lastOf_concat (lsns : List UInt64) (lsn : UInt64) :
    lastOf (lsns ++ [lsn]) = lsn := by
  rw [lastOf, List.getLast?_concat, Option.getD_some]

theorem le_lastOf {lsns : List UInt64} (h : lsns.Pairwise (· < ·)) :
    ∀ lsn ∈ lsns, lsn ≤ lastOf lsns := by
  intro lsn hmem
  rcases List.eq_nil_or_concat lsns with rfl | ⟨l, last, rfl⟩
  · cases hmem
  · rw [List.concat_eq_append] at h hmem ⊢
    rw [lastOf_concat]
    rcases List.mem_append.mp hmem with hmem | hmem
    · have hlt := (List.pairwise_append.mp h).2.2 lsn hmem last (List.mem_singleton_self _)
      exact UInt64.le_of_lt hlt
    · rw [List.mem_singleton.mp hmem]
      exact UInt64.le_refl _

theorem lastOf_le_append {lsns more : List UInt64} (h : (lsns ++ more).Pairwise (· < ·)) :
    lastOf lsns ≤ lastOf (lsns ++ more) := by
  rcases List.eq_nil_or_concat lsns with rfl | ⟨l, last, rfl⟩
  · exact UInt64.zero_le
  · refine le_lastOf h _ ?_
    rw [List.concat_eq_append, lastOf_concat]
    simp

theorem lt_add_one {lsn : UInt64} (h : lsn ≠ lastLsn) : lsn < lsn + 1 := by
  have hne : lsn.toNat ≠ 2 ^ 64 - 1 := fun heq => h (UInt64.toNat_inj.mp heq)
  have hlt := lsn.toNat_lt
  rw [UInt64.lt_iff_toNat_lt, UInt64.toNat_add]
  simp only [UInt64.reduceToNat]
  omega

theorem map_lsn_set {calls : List LogCall} {call : ℕ} {c c' : LogCall}
    (h : calls[call]? = some c) (hlsn : c'.lsn = c.lsn) :
    (calls.set call c').map LogCall.lsn = calls.map LogCall.lsn := by
  obtain ⟨hlt, rfl⟩ := List.getElem?_eq_some_iff.mp h
  rw [List.map_set, hlsn, ← List.getElem_map LogCall.lsn, List.set_getElem_self]
  rwa [List.length_map]

/-! ## The invariant -/

/-- A process has the log open: it keeps back the records that were written last, it closes
segments one after the other, and it allocates after the last sequence number in use. -/
structure OpenInv (F : LogFormat) (s : LsnRun) (w : WriteAheadLog) : Prop where
  buffered : Buffered F w s.unflushed
  /-- The current segment is the newest one that is closed, or the one after it. -/
  newest : ∀ n ∈ w.dir.segments, (∀ m ∈ w.dir.segments, m ≤ n) → w.currentSegment ≤ n + 1
  /-- The next sequence number follows the last one in use. -/
  next : lastOf s.inUse = lastLsn ∨ w.currentLsn = lastOf s.inUse + 1
  flushed : w.flushedLsn ≤ lastOf (s.history.map LogRecord.lsn)

/-- The directory shows where the log has got to. -/
structure LsnInv (F : LogFormat) (s : LsnRun) : Prop where
  /-- The directory holds records that have reached it. -/
  onDisk : ∀ r ∈ s.process.dir.records F, r ∈ s.history
  latest : ∀ r ∈ s.history.getLast?, s.process.dir.Latest F r
  increasing : s.inUse.Pairwise (· < ·)
  /-- Nothing is under way while no process has the log open. -/
  closed : ∀ dir, s.process = .closed dir → s.unflushed = [] ∧ s.calls = []
  running : ∀ w, s.process = .running w → s.OpenInv F w

theorem LsnInv.lsns_increasing (h : LsnInv F s) : s.lsns.Pairwise (· < ·) :=
  (List.pairwise_append.mp h.increasing).1

theorem LsnInv.disciplined (h : LsnInv F s) : s.Disciplined := by
  refine ⟨h.lsns_increasing, fun w hw => ?_⟩
  cases hp : s.process with
  | closed dir => simp [wal, hp] at hw
  | running w' =>
    obtain rfl : w' = w := by simpa [wal, hp] using hw
    exact (h.running w' hp).flushed

/-! ## Steps -/

theorem LsnInv.openDir (h : LsnInv F s) {dir : WalDir} (hd : s.process = .closed dir)
    {currentLsn flushedLsn : UInt64} (syncOnCommit : Bool)
    (hnext : lastOf s.inUse = lastLsn ∨ currentLsn = lastOf s.inUse + 1)
    (hflushed : flushedLsn ≤ lastOf (s.history.map LogRecord.lsn)) :
    LsnInv F
      { s with process := .running (WriteAheadLog.openDir dir currentLsn flushedLsn syncOnCommit) }
      := by
  have hdir : s.process.dir = dir := by rw [hd]; rfl
  obtain ⟨hunflushed, hcalls⟩ := h.closed dir hd
  refine
    { onDisk := ?_
      latest := ?_
      increasing := h.increasing
      closed := fun dir hd => by cases hd
      running := fun w hw => ?_ }
  · show ∀ r ∈ dir.openSegment.records F, r ∈ s.history
    rw [WalDir.records_openSegment, ← hdir]
    exact h.onDisk
  · have hlatest := h.latest
    rw [hdir] at hlatest
    exact hlatest
  · obtain rfl := WalProcess.running.inj hw
    refine
      { buffered := ?_
        newest := fun n _ hn => ?_
        next := hnext
        flushed := hflushed }
    · show Buffered F _ s.unflushed
      rw [hunflushed]
      exact ⟨⟨dir.current.getD [], rfl, fun hne => absurd rfl hne⟩, rfl, (fun r hr => nomatch hr),
        fun n hn => dir.le_findLatestSegment hn⟩
    · exact Nat.le_succ_of_le (WalDir.findLatestSegment_le hn)

theorem LsnInv.nextLsn (h : LsnInv F s) (hw : s.process = .running w)
    (hmax : lastLsn ∉ s.inUse) :
    LsnInv F
      { s with
        process := .running { w with currentLsn := w.currentLsn + 1 }
        calls := s.calls ++ [.allocated w.currentLsn] } := by
  have hdir : s.process.dir = w.dir := by rw [hw]; rfl
  have hopen := h.running w hw
  have hlast : lastOf s.inUse ≠ lastLsn := by
    intro heq
    rcases List.eq_nil_or_concat s.inUse with hnil | ⟨l, last, hl⟩
    · rw [hnil] at heq
      exact absurd heq (by decide)
    · rw [hl, List.concat_eq_append, lastOf_concat] at heq
      exact hmax (by rw [hl, ← heq]; simp)
  have hcurrent : w.currentLsn = lastOf s.inUse + 1 := hopen.next.resolve_left hlast
  have hinUse : LsnRun.inUse
      { s with
        process := .running { w with currentLsn := w.currentLsn + 1 }
        calls := s.calls ++ [.allocated w.currentLsn] } = s.inUse ++ [w.currentLsn] := by
    unfold LsnRun.inUse LsnRun.lsns
    simp [LogCall.lsn]
  refine
    { onDisk := ?_
      latest := ?_
      increasing := ?_
      closed := fun dir hd => by cases hd
      running := fun w₁ hw₁ => ?_ }
  · have honDisk := h.onDisk
    rw [hdir] at honDisk
    exact honDisk
  · have hlatest := h.latest
    rw [hdir] at hlatest
    exact hlatest
  · rw [hinUse, List.pairwise_append]
    refine ⟨h.increasing, List.pairwise_singleton _ _, fun lsn hlsn lsn' hlsn' => ?_⟩
    rw [List.mem_singleton.mp hlsn', hcurrent]
    exact UInt64.lt_of_le_of_lt (le_lastOf h.increasing lsn hlsn) (lt_add_one hlast)
  · obtain rfl := WalProcess.running.inj hw₁
    refine
      { buffered := hopen.buffered.congr ⟨rfl, rfl, rfl⟩
        newest := hopen.newest
        next := .inr ?_
        flushed := hopen.flushed }
    rw [hinUse, lastOf_concat]

/-- A call that finds no room changes nothing but how far it has come. -/
theorem LsnInv.full (h : LsnInv F s) (hw : s.process = .running w) {call : ℕ}
    {record : LogRecord} (hc : s.calls[call]? = some (.allocated record.lsn)) :
    LsnInv F { s with calls := s.calls.set call (.full record) } := by
  have hopen := h.running w hw
  have hinUse : LsnRun.inUse { s with calls := s.calls.set call (.full record) } = s.inUse :=
    congrArg (s.lsns ++ ·) (map_lsn_set hc rfl)
  refine
    { onDisk := h.onDisk
      latest := h.latest
      increasing := by rw [hinUse]; exact h.increasing
      closed := fun dir hd => ?_
      running := fun w₁ hw₁ => ?_ }
  · rw [hw] at hd
    cases hd
  · obtain rfl : w = w₁ := WalProcess.running.inj (hw.symm.trans hw₁)
    exact
      { buffered := hopen.buffered
        newest := hopen.newest
        next := by rw [hinUse]; exact hopen.next
        flushed := hopen.flushed }

/-- To write the record of the call that was the first one to allocate. -/
theorem LsnInv.written (h : LsnInv F s) (hw : s.process = .running w) {c : LogCall}
    {record : LogRecord} (hc : s.calls[0]? = some c) (hlsn : c.lsn = record.lsn)
    (hr : Readable F w record) : LsnInv F (s.written F w 0 record) := by
  have hdir : s.process.dir = w.dir := by rw [hw]; rfl
  have hopen := h.running w hw
  have hinUse : (s.written F w 0 record).inUse = s.inUse := by
    obtain ⟨cs, hcs⟩ : ∃ cs, s.calls = c :: cs := by
      cases hcalls : s.calls with
      | nil => simp [hcalls] at hc
      | cons c' cs =>
        rw [hcalls] at hc
        exact ⟨cs, by rw [Option.some.inj hc]⟩
    simp [LsnRun.inUse, LsnRun.lsns, LsnRun.written, hcs, hlsn, LogRecord.stored]
  refine
    { onDisk := ?_
      latest := ?_
      increasing := by rw [hinUse]; exact h.increasing
      closed := fun dir hd => by cases hd
      running := fun w₁ hw₁ => ?_ }
  · have honDisk := h.onDisk
    rw [hdir] at honDisk
    exact honDisk
  · have hlatest := h.latest
    rw [hdir] at hlatest
    exact hlatest
  · obtain rfl := WalProcess.running.inj hw₁
    refine
      { buffered := ?_
        newest := hopen.newest
        next := by rw [hinUse]; exact hopen.next
        flushed := hopen.flushed }
    have hpush := hopen.buffered.push (LogRecord.encodable_stored hr.1) hr.2
      (w.segmentOffset + (record.toBytes F.crc32).length)
    rw [LogRecord.toBytes_stored] at hpush
    exact hpush

/-- To write out what was kept back, be it to flush or to rotate. -/
theorem LsnInv.writtenOut (h : LsnInv F s) (hw : s.process = .running w) {w' : WriteAheadLog}
    {calls : List LogCall} (hcalls : calls.map LogCall.lsn = s.calls.map LogCall.lsn)
    (honDisk : ∀ r ∈ w'.dir.records F, r ∈ s.history ++ s.unflushed)
    (hlatest : ∀ r ∈ (s.history ++ s.unflushed).getLast?, w'.dir.Latest F r)
    (hbuffered : Buffered F w' [])
    (hnewest : ∀ n ∈ w'.dir.segments, (∀ m ∈ w'.dir.segments, m ≤ n) → w'.currentSegment ≤ n + 1)
    (hcurrent : w'.currentLsn = w.currentLsn)
    (hflushed : w'.flushedLsn = w.flushedLsn ∨ w'.flushedLsn ≤ lastOf s.lsns) :
    LsnInv F (s.writtenOut w' calls) := by
  have hopen := h.running w hw
  have hlsns : (s.writtenOut w' calls).lsns = s.lsns := by
    unfold LsnRun.lsns LsnRun.writtenOut
    rw [List.append_nil]
  have hinUse : (s.writtenOut w' calls).inUse = s.inUse := by
    unfold LsnRun.inUse
    rw [hlsns]
    exact congrArg _ hcalls
  have hfurther : lastOf (s.history.map LogRecord.lsn) ≤ lastOf s.lsns := by
    have hincreasing := h.lsns_increasing
    rw [LsnRun.lsns, List.map_append] at hincreasing ⊢
    exact lastOf_le_append hincreasing
  refine
    { onDisk := honDisk
      latest := hlatest
      increasing := by rw [hinUse]; exact h.increasing
      closed := fun dir hd => by cases hd
      running := fun w₁ hw₁ => ?_ }
  obtain rfl := WalProcess.running.inj hw₁
  refine
    { buffered := hbuffered
      newest := hnewest
      next := by rw [hinUse, hcurrent]; exact hopen.next
      flushed := ?_ }
  show w'.flushedLsn ≤ lastOf s.lsns
  rcases hflushed with hsame | hle
  · rw [hsame]
    exact UInt64.le_trans hopen.flushed hfurther
  · exact hle

theorem LsnInv.flush (h : LsnInv F s) (hw : s.process = .running w) (hcalls : s.calls = []) :
    LsnInv F (s.writtenOut w.flush s.calls) := by
  have hdir : s.process.dir = w.dir := by rw [hw]; rfl
  have hopen := h.running w hw
  have hwrite := hopen.buffered.currentRecords_write w.pending.length
  rw [List.take_length, FrameFormat.fitting_of_length_le _ (by rw [hopen.buffered.pending])]
    at hwrite
  have honDisk := h.onDisk
  have hlatest := h.latest
  rw [hdir] at honDisk hlatest
  have hsegments : (w.dir.write w.pending).segments = w.dir.segments := rfl
  refine h.writtenOut hw rfl (WalDir.mem_of_added hsegments hwrite honDisk)
    (WalDir.latest_of_added hsegments hwrite hlatest)
    (hopen.buffered.writeOut.1.congr ⟨rfl, rfl, rfl⟩) hopen.newest rfl
    (.inr ?_)
  -- the last sequence number in use is that of the last record
  have hinUse : s.inUse = s.lsns := by
    rw [LsnRun.inUse, hcalls, List.map_nil, List.append_nil]
  show w.currentLsn - 1 ≤ lastOf s.lsns
  rw [← hinUse]
  rcases hopen.next with hmax | hnext
  · have hlt := (w.currentLsn - 1).toNat_lt
    have hhighest : lastLsn.toNat = 2 ^ 64 - 1 := rfl
    rw [hmax, UInt64.le_iff_toNat_le, hhighest]
    omega
  · rw [hnext, UInt64.add_sub_cancel]
    exact UInt64.le_refl _

/-- To rotate a segment that holds a record, or one from before any record. -/
theorem LsnInv.rotateSegment (h : LsnInv F s) (hw : s.process = .running w) {call : ℕ}
    {record : LogRecord} (hc : s.calls[call]? = some (.full record))
    (hsome : w.dir.currentRecords F ≠ [] ∨ s.unflushed ≠ [] ∨ s.history = []) :
    LsnInv F (s.writtenOut w.rotateSegment (s.calls.set call (.rotated record))) := by
  have hdir : s.process.dir = w.dir := by rw [hw]; rfl
  have hopen := h.running w hw
  obtain ⟨bytes, hrotated, hbytes⟩ := hopen.buffered.closed_rotateSegment
  have hlookup : w.rotateSegment.dir.segments.lookup w.currentSegment = some bytes := by
    rw [hrotated]
    exact AList.lookup_insert _
  have hempty : w.rotateSegment.dir.currentRecords F = [] := by
    rw [hrotated]
    rfl
  have hkeys : ∀ m ∈ w.rotateSegment.dir.segments, m ≤ w.currentSegment := by
    intro m hm
    rw [hrotated, AList.mem_insert] at hm
    rcases hm with rfl | hm
    · exact Nat.le_refl _
    · exact hopen.buffered.numbers m (AList.mem_keys.mp hm)
  have honDisk := h.onDisk
  have hlatest := h.latest
  rw [hdir] at honDisk hlatest
  refine h.writtenOut hw (map_lsn_set hc rfl) ?_ ?_ ?_ ?_ rfl (.inl rfl)
  · intro r hr
    rw [WalDir.mem_records, hempty, hrotated] at hr
    simp only [List.not_mem_nil, or_false] at hr
    obtain ⟨n, found, hfound, hr⟩ := hr
    rw [Table.lookup_insert] at hfound
    split_ifs at hfound with hn
    · obtain rfl := Option.some.inj hfound
      rw [hbytes, List.mem_append] at hr
      exact List.mem_append.mpr
        (hr.imp_left fun hr => honDisk r (WalDir.mem_records.mpr (.inr hr)))
    · refine List.mem_append_left _ (honDisk r ?_)
      exact WalDir.mem_records.mpr (.inl ⟨n, found, hfound, hr⟩)
  · -- the closed segment ends with the last record
    intro r hr
    refine .inr ⟨hempty, w.currentSegment, bytes, hlookup, ?_, hkeys⟩
    rw [hbytes]
    rcases List.eq_nil_or_concat s.unflushed with hnone | ⟨rs, last, hrs⟩
    · rw [hnone, List.append_nil] at hr ⊢
      rcases hlatest r hr with hr | ⟨hno, -⟩
      · exact hr
      · rcases hsome with hsome | hsome | hsome
        · exact absurd hno hsome
        · exact absurd hnone hsome
        · rw [hsome] at hr
          cases hr
    · rw [hrs, List.concat_eq_append, ← List.append_assoc, List.getLast?_concat] at hr
      obtain rfl := Option.some.inj hr
      rw [hrs, List.concat_eq_append]
      simp
  · refine ⟨⟨[], by rw [hrotated], fun hne => absurd rfl hne⟩, rfl, (fun r hr => absurd hr (List.not_mem_nil)), ?_⟩
    exact fun n hn => Nat.le_succ_of_le (hkeys n (AList.mem_keys.mpr hn))
  · intro n _ hn
    have hmem : w.currentSegment ∈ w.rotateSegment.dir.segments :=
      AList.lookup_isSome.mp (by rw [hlookup]; rfl)
    exact Nat.succ_le_succ (hn _ hmem)

theorem LsnInv.setCheckpoint (h : LsnInv F s) (hw : s.process = .running w) (lsn : UInt64) :
    LsnInv F { s with process := .running { w with checkpointLsn := lsn } } := by
  have hdir : s.process.dir = w.dir := by rw [hw]; rfl
  have hopen := h.running w hw
  have honDisk := h.onDisk
  have hlatest := h.latest
  rw [hdir] at honDisk hlatest
  refine
    { onDisk := honDisk
      latest := hlatest
      increasing := h.increasing
      closed := fun dir hd => by cases hd
      running := fun w₁ hw₁ => ?_ }
  obtain rfl := WalProcess.running.inj hw₁
  exact
    { buffered := hopen.buffered.congr ⟨rfl, rfl, rfl⟩
      newest := hopen.newest
      next := hopen.next
      flushed := hopen.flushed }

/-- An old segment is removed: it is not the last one that was closed. -/
theorem LsnInv.removeSegment (h : LsnInv F s) (hw : s.process = .running w) {number : ℕ}
    (hold : w.removes number = true) :
    LsnInv F
      { s with
        process := .running { w with
          dir := { w.dir with segments := w.dir.segments.erase number } } } := by
  have hdir : s.process.dir = w.dir := by rw [hw]; rfl
  have hopen := h.running w hw
  have hnumber : number + 2 < w.currentSegment := by
    simp only [removes, Bool.and_eq_true, decide_eq_true_eq] at hold
    exact hold.2
  have honDisk := h.onDisk
  have hlatest := h.latest
  rw [hdir] at honDisk hlatest
  have hsub : ∀ {n bytes}, (w.dir.segments.erase number).lookup n = some bytes →
      w.dir.segments.lookup n = some bytes := by
    intro n bytes hlookup
    exact Table.lookup_of_lookup_erase hlookup
  refine
    { onDisk := fun r hr => ?_
      latest := fun r hr => ?_
      increasing := h.increasing
      closed := fun dir hd => by cases hd
      running := fun w₁ hw₁ => ?_ }
  · rcases WalDir.mem_records.mp hr with ⟨n, bytes, hlookup, hr⟩ | hr
    · exact honDisk r (WalDir.mem_records.mpr (.inl ⟨n, bytes, hsub hlookup, hr⟩))
    · exact honDisk r (WalDir.mem_records.mpr (.inr hr))
  · rcases hlatest r hr with hr | ⟨hno, n, bytes, hlookup, hr, hn⟩
    · exact .inl hr
    · have hcurrent := hopen.newest n (AList.lookup_isSome.mp (by rw [hlookup]; rfl)) hn
      refine .inr ⟨hno, n, bytes, ?_, hr, fun m hm => hn m (AList.mem_erase.mp hm).2⟩
      show (w.dir.segments.erase number).lookup n = some bytes
      rw [Table.lookup_erase, if_neg (by omega), hlookup]
  · obtain rfl := WalProcess.running.inj hw₁
    obtain ⟨hcurrent, hpending, hencodable, hnumbers⟩ := hopen.buffered
    refine
      { buffered := ⟨hcurrent, hpending, hencodable, fun n hn => ?_⟩
        newest := fun n hn hmost => ?_
        next := hopen.next
        flushed := hopen.flushed }
    · exact hnumbers n (AList.mem_keys.mp (AList.mem_erase.mp (AList.mem_keys.mpr hn)).2)
    · refine hopen.newest n (AList.mem_erase.mp hn).2 fun m hm => ?_
      by_cases hmn : m = number
      · -- were it the largest one, it would not be old
        by_contra hlt
        have hlargest := hopen.newest m hm fun k hk => by
          by_cases hkm : k = number
          · omega
          · have := hmost k (AList.mem_erase.mpr ⟨hkm, hk⟩)
            omega
        omega
      · exact hmost m (AList.mem_erase.mpr ⟨hmn, hm⟩)

/-- The process stops, and some of what it has kept back has reached the disk. -/
theorem LsnInv.stop (h : LsnInv F s) (hw : s.process = .running w) (kept : ℕ) :
    LsnInv F
      { process := .closed (w.stop kept)
        history := s.history ++ (segmentFormat F.crc32).fitting kept s.unflushed } := by
  have hdir : s.process.dir = w.dir := by rw [hw]; rfl
  have hopen := h.running w hw
  have hwrite := hopen.buffered.currentRecords_write kept
  have honDisk := h.onDisk
  have hlatest := h.latest
  rw [hdir] at honDisk hlatest
  have hsegments : (w.stop kept).segments = w.dir.segments := rfl
  refine
    { onDisk := WalDir.mem_of_added hsegments hwrite honDisk
      latest := WalDir.latest_of_added hsegments hwrite hlatest
      increasing := ?_
      closed := fun _ _ => ⟨rfl, rfl⟩
      running := fun w₁ hw₁ => nomatch hw₁ }
  have hsub : (s.history ++ (segmentFormat F.crc32).fitting kept s.unflushed).Sublist
      (s.history ++ s.unflushed) :=
    ((segmentFormat F.crc32).fitting_isPrefix kept s.unflushed).sublist.append_left _
  unfold LsnRun.inUse LsnRun.lsns
  simp only [List.append_nil, List.map_nil]
  exact h.lsns_increasing.sublist (hsub.map _)

theorem maxLsn_foldl_le {bound : UInt64} {rs : List LogRecord} {found : RecoveryState}
    (hfound : found.maxLsn ≤ bound) (hrs : ∀ r ∈ rs, r.lsn ≤ bound) :
    (rs.foldl (RecoveryState.process F) found).maxLsn ≤ bound := by
  induction rs generalizing found with
  | nil => exact hfound
  | cons r rs ih =>
    refine ih ?_ fun r' hr' => hrs r' (List.mem_cons_of_mem _ hr')
    rw [process_maxLsn]
    show (if found.maxLsn ≤ r.lsn then r.lsn else found.maxLsn) ≤ bound
    split_ifs
    · exact hrs r List.mem_cons_self
    · exact hfound

theorem LsnInv.maxLsn (h : LsnInv F s) :
    (s.process.dir.recoveryState F).maxLsn = lastOf (s.history.map LogRecord.lsn) := by
  have hincreasing : (s.history.map LogRecord.lsn).Pairwise (· < ·) := by
    have hall := h.lsns_increasing
    rw [LsnRun.lsns, List.map_append] at hall
    exact (List.pairwise_append.mp hall).1
  refine UInt64.le_antisymm (maxLsn_foldl_le UInt64.zero_le fun r hr => ?_) ?_
  · exact le_lastOf hincreasing r.lsn (List.mem_map_of_mem (h.onDisk r hr))
  · cases hlast : s.history.getLast? with
    | none =>
      rw [lastOf, List.getLast?_map, hlast]
      exact UInt64.zero_le
    | some r =>
      rw [lastOf, List.getLast?_map, hlast]
      exact (maxLsn_foldl (s.process.dir.records F) {}).2.1 r
        (h.latest r hlast).mem_records

theorem lsnAfter_eq {lsn : UInt64} (h : lsn ≠ lastLsn) : lsnAfter lsn = lsn + 1 := by
  have hlt := lt_add_one h
  have hne : lsn ≠ UInt64.ofNat (2 ^ 64 - 1) := h
  rw [lsnAfter, if_neg hne]
  show (if lsn + 1 ≤ 1 then 1 else lsn + 1) = lsn + 1
  split_ifs with hone
  · refine UInt64.le_antisymm ?_ hone
    rw [UInt64.lt_iff_toNat_lt] at hlt
    rw [UInt64.le_iff_toNat_le]
    have : (1 : UInt64).toNat = 1 := rfl
    omega
  · rfl

/-- The directory still shows where the log has got to, by cases on the process. -/
theorem lsnInv_step (h : LsnInv F s) (ha : s.Orderly F a) (hstep : s.step F a = some s') :
    LsnInv F s' := by
  cases hp : s.process with
  | closed dir =>
    obtain ⟨hunflushed, hcalls⟩ := h.closed dir hp
    have hinUse : s.inUse = s.history.map LogRecord.lsn := by
      rw [LsnRun.inUse, LsnRun.lsns, hunflushed, hcalls, List.append_nil, List.map_nil,
        List.append_nil]
    rw [step, hp] at hstep
    cases a with
    | new syncOnCommit =>
      obtain rfl := Option.some.inj hstep
      have hnone : s.inUse = [] := by rw [hinUse, ha.1 rfl, List.map_nil]
      refine h.openDir hp syncOnCommit (.inr ?_) UInt64.zero_le
      rw [hnone]
      rfl
    | openAndRecover syncOnCommit =>
      obtain rfl := Option.some.inj hstep
      have hmax : (dir.recoveryState F).maxLsn = lastOf (s.history.map LogRecord.lsn) := by
        rw [← h.maxLsn, hp]
        rfl
      refine h.openDir hp syncOnCommit ?_ (by rw [← hmax]; exact UInt64.le_refl _)
      show lastOf s.inUse = _ ∨ lsnAfter (dir.recoveryState F).maxLsn = _
      rw [hmax, ← hinUse]
      exact or_iff_not_imp_left.mpr lsnAfter_eq
    | _ => cases hstep
  | running w =>
    have hturn : s.InTurn F w a := ha.2 w (by simp [wal, hp])
    have hact : s.act F w a = some s' := by rwa [step, hp] at hstep
    cases a with
    | new _ | openAndRecover _ => cases hact
    | nextLsn =>
      obtain rfl := Option.some.inj hact
      exact h.nextLsn hp hturn
    | append call record =>
      rw [act] at hact
      split_ifs at hact with hc hfull
      · obtain rfl := Option.some.inj hact
        exact h.full hp hc
      · obtain rfl := Option.some.inj hact
        obtain ⟨rfl, hr⟩ := hturn.resolve_left hfull
        exact h.written hp hc rfl hr
    | rotateSegment call =>
      rw [act] at hact
      split at hact
      · next record hc =>
        obtain rfl := Option.some.inj hact
        exact h.rotateSegment hp hc hturn
      · cases hact
    | write call =>
      rw [act] at hact
      split at hact
      · next record hc =>
        obtain rfl := Option.some.inj hact
        obtain ⟨rfl, hr⟩ := hturn
        exact h.written hp hc rfl (hr _ hc record rfl)
      · cases hact
    | flush =>
      obtain rfl := Option.some.inj hact
      exact h.flush hp hturn
    | setCheckpoint lsn =>
      rw [act] at hact
      split_ifs at hact
      obtain rfl := Option.some.inj hact
      exact h.setCheckpoint hp lsn
    | removeSegment number =>
      rw [act] at hact
      split_ifs at hact with hold
      obtain rfl := Option.some.inj hact
      exact h.removeSegment hp hold
    | stop kept =>
      obtain rfl := Option.some.inj hact
      exact h.stop hp kept

/-! ## Runs -/

theorem lsnInv_of_reach (h : (system F).Reach (Orderly F) s) : LsnInv F s := by
  refine h.invariant ?_ fun s a s' _ hinv ha hstep => lsnInv_step hinv ha hstep
  exact
    { onDisk := fun r hr => nomatch hr
      latest := fun r hr => nomatch hr
      increasing := List.Pairwise.nil
      closed := fun _ _ => ⟨rfl, rfl⟩
      running := fun w hw => nomatch hw }

/-- Over any number of sessions, and with the calls interleaved in any way that keeps to the order,
the sequence numbers of successive records increase, and the last one flushed is not beyond the
last record that has reached the disk. -/
theorem lsns_disciplined (h : (system F).Reach (Orderly F) s) : s.Disciplined :=
  (lsnInv_of_reach h).disciplined

/-- Two sessions with a crash between them.  Two calls allocate at once, and a third one has found
the disk as the crash has left it. -/
def twoWriters : List LsnAction :=
  [.new true, .nextLsn, .nextLsn, .append 0 (.begin 1 7), .append 0 (.begin 2 8), .flush,
    .nextLsn, .append 0 (.commit 3 1 7), .stop 0, .openAndRecover true, .nextLsn,
    .append 0 (.abort 3 2 8), .flush]

/-- The third sequence number is used again only because its record was lost. -/
theorem lsns_disciplined_twoWriters :
    ∃ s : LsnRun, s.lsns = [1, 2, 3] ∧ s.Disciplined := by
  have hrun : ((system .plain).run (Orderly .plain) twoWriters).any
      (fun s => decide (s.lsns = [1, 2, 3])) = true := by
    decide +kernel
  obtain ⟨s, -, hreach, hs⟩ := System.exists_reach_of_any hrun
  exact ⟨s, of_decide_eq_true hs, lsns_disciplined hreach⟩

/-- A log that is created where there is one already repeats its sequence numbers; of two calls the
one that allocated later writes first; and a flush counts what a call has only allocated. -/
theorem lsns_not_disciplined :
    (∃ s, (system .plain).Reachable s ∧ s.lsns = [1, 1] ∧ ¬ s.Disciplined) ∧
      (∃ s, (system .plain).Reachable s ∧ s.lsns = [2, 1] ∧ ¬ s.Disciplined) ∧
        ∃ s, (system .plain).Reachable s ∧ s.lsns = [] ∧ ¬ s.Disciplined := by
  have hreached (script : List LsnAction) (lsns : List UInt64)
      (hrun : ((system .plain).run (fun _ _ => True) script).any
        (fun s => decide (s.lsns = lsns ∧ ¬ s.Disciplined)) = true) :
      ∃ s, (system .plain).Reachable s ∧ s.lsns = lsns ∧ ¬ s.Disciplined := by
    obtain ⟨s, -, hreach, hs⟩ := System.exists_reach_of_any hrun
    exact ⟨s, hreach, of_decide_eq_true hs⟩
  refine ⟨?_, ?_, ?_⟩
  · exact hreached [.new true, .nextLsn, .append 0 (.begin 1 7), .flush, .stop 0, .new true,
      .nextLsn, .append 0 (.begin 1 8)] _ (by decide +kernel)
  · exact hreached [.new true, .nextLsn, .nextLsn, .append 1 (.begin 2 8),
      .append 0 (.begin 1 7)] _ (by decide +kernel)
  · exact hreached [.new true, .nextLsn, .flush] _ (by decide +kernel)

end LsnRun

end Storage

end AegisDB
