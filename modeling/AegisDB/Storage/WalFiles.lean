import AegisDB.Library.Crc32
import AegisDB.Storage.Wal

/-!
# The files of the log

As long as no record is appended behind one that broke off, and no rotation takes a number that is
in use, the records read from the directory are those that have reached the disk, in the order in
which they were appended.  Neither is seen to by the log: it appends to whatever a crash has left,
and after it is opened again it takes the largest number in use for the next closed segment.
-/

namespace AegisDB

namespace Storage

variable {F : LogFormat}

/-! ## The records of a directory -/

namespace WalDir

def closedRecords (F : LogFormat) (dir : WalDir) : List LogRecord :=
  (dir.segments.entries.insertionSort fun a b => a.1 ≤ b.1).flatMap fun e =>
    readSegment F.crc32 e.2

def currentRecords (F : LogFormat) (dir : WalDir) : List LogRecord :=
  readSegment F.crc32 (dir.current.getD [])

variable (dir : WalDir)

theorem records_eq : dir.records F = dir.closedRecords F ++ dir.currentRecords F := by
  unfold records sortedSegments closedRecords currentRecords
  rw [List.flatMap_append, List.flatMap_map]
  cases dir.current <;> simp [readSegment]

theorem records_openSegment : dir.openSegment.records F = dir.records F := by
  rw [records_eq, records_eq]
  rfl

theorem le_findLatestSegment {n : ℕ} (h : n ∈ dir.segments.keys) : n ≤ dir.findLatestSegment := by
  suffices hall : ∀ (l : List ℕ) (least : ℕ), least ≤ l.foldl max least ∧
      ∀ n ∈ l, n ≤ l.foldl max least from (hall _ 0).2 n h
  intro l
  induction l with
  | nil => exact fun least => ⟨Nat.le_refl _, fun n hn => nomatch hn⟩
  | cons a l ih =>
    intro least
    obtain ⟨hleast, hmem⟩ := ih (max least a)
    refine ⟨(Nat.le_max_left _ _).trans hleast, fun n hn => ?_⟩
    rcases List.mem_cons.mp hn with rfl | hn
    · exact (Nat.le_max_right _ _).trans hleast
    · exact hmem n hn

end WalDir

theorem orderedInsert_of_lt {β : Type*} {e : Sigma fun _ : ℕ => β}
    {l : List (Sigma fun _ : ℕ => β)} (h : ∀ e' ∈ l, e'.1 < e.1) :
    l.orderedInsert (fun a b => a.1 ≤ b.1) e = l ++ [e] := by
  induction l with
  | nil => rfl
  | cons e' l ih =>
    have hlt := h e' List.mem_cons_self
    rw [List.orderedInsert, if_neg (by omega), ih fun e'' he => h e'' (List.mem_cons_of_mem _ he)]
    rfl

theorem WalDir.closedRecords_insert {dir : WalDir} {n : ℕ} {bytes : Bytes} {current : Option Bytes}
    (h : ∀ m ∈ dir.segments.keys, m < n) :
    WalDir.closedRecords F { segments := dir.segments.insert n bytes, current := current } =
      dir.closedRecords F ++ readSegment F.crc32 bytes := by
  have hfresh : n ∉ dir.segments := fun hmem => (h n (AList.mem_keys.mp hmem)).false
  unfold closedRecords
  rw [AList.entries_insert_of_notMem hfresh, List.insertionSort_cons, orderedInsert_of_lt]
  · rw [List.flatMap_append]
    simp
  · intro e he
    rw [List.mem_insertionSort] at he
    exact h e.1 (List.mem_map_of_mem he)

/-- Sorted entries without those up to a number are the end of the sorted entries. -/
theorem insertionSort_filter {β : Type*} {l : List (Sigma fun _ : ℕ => β)} (hl : l.NodupKeys)
    {p : ℕ → Bool} (hp : ∀ m n, m ≤ n → p n = true → p m = true) :
    l.insertionSort (fun a b => a.1 ≤ b.1) =
      (l.filter fun e => p e.1).insertionSort (fun a b => a.1 ≤ b.1) ++
        (l.filter fun e => !p e.1).insertionSort (fun a b => a.1 ≤ b.1) := by
  have hsorted (l : List (Sigma fun _ : ℕ => β)) :
      (l.insertionSort fun a b => a.1 ≤ b.1).Pairwise fun a b => a.1 ≤ b.1 := by
    have : Std.Total fun a b : Sigma fun _ : ℕ => β => a.1 ≤ b.1 := ⟨fun a b => Nat.le_total _ _⟩
    have : IsTrans (Sigma fun _ : ℕ => β) fun a b => a.1 ≤ b.1 := ⟨fun a b c => Nat.le_trans⟩
    exact List.pairwise_insertionSort _ _
  refine List.Perm.eq_of_pairwise ?_ (hsorted l) ?_ ?_
  · intro a b ha hb hab hba
    have ha' := (List.mem_insertionSort _).mp ha
    have hb' : b ∈ l := by
      rcases List.mem_append.mp hb with hb | hb
      · exact List.mem_of_mem_filter ((List.mem_insertionSort _).mp hb)
      · exact List.mem_of_mem_filter ((List.mem_insertionSort _).mp hb)
    exact hl.eq_of_fst_eq ha' hb' (Nat.le_antisymm hab hba)
  · refine List.pairwise_append.mpr ⟨hsorted _, hsorted _, fun a ha b hb => ?_⟩
    have hpa := List.of_mem_filter ((List.mem_insertionSort _).mp ha)
    have hpb := List.of_mem_filter ((List.mem_insertionSort _).mp hb)
    rcases Nat.le_total a.1 b.1 with hab | hba
    · exact hab
    · simp [hp _ _ hba hpa] at hpb
  · refine (List.perm_insertionSort _ l).trans ?_
    refine List.Perm.trans ?_
      ((List.perm_insertionSort _ _).append (List.perm_insertionSort _ _)).symm
    exact (List.filter_append_perm (fun e => p e.1) l).symm

theorem WalDir.records_filterValues (dir : WalDir) {p : ℕ → Bool}
    (hp : ∀ m n, m ≤ n → p n = true → p m = true) :
    dir.records F =
      WalDir.records F { segments := dir.segments.filterValues fun n _ => p n } ++
        WalDir.records F { dir with segments := dir.segments.filterValues fun n _ => !p n } := by
  have hnone : WalDir.currentRecords F
      { segments := dir.segments.filterValues fun n _ => p n } = [] := rfl
  rw [records_eq, records_eq, records_eq, hnone, List.append_nil, ← List.append_assoc]
  congr 1
  unfold closedRecords
  rw [insertionSort_filter dir.segments.nodupKeys hp, List.flatMap_append]
  rfl

/-! ## What a process does to the files -/

namespace WriteAheadLog

/-- The logs agree in the directory, in what is kept back and in the number of the segment. -/
structure SameFiles (w w' : WriteAheadLog) : Prop where
  dir : w.dir = w'.dir
  pending : w.pending = w'.pending
  currentSegment : w.currentSegment = w'.currentSegment

variable {w w' : WriteAheadLog}

theorem SameFiles.writeOut (h : SameFiles w w') : SameFiles w.writeOut w'.writeOut := by
  refine ⟨?_, rfl, h.currentSegment⟩
  unfold WriteAheadLog.writeOut
  rw [h.dir, h.pending]

theorem append_currentLsn (w : WriteAheadLog) (r : LogRecord) :
    (w.append F r).currentLsn = w.currentLsn := by
  unfold append
  dsimp only
  split <;> rfl

theorem SameFiles.rotateSegment (h : SameFiles w w') :
    SameFiles w.rotateSegment w'.rotateSegment := by
  have hout := h.writeOut
  refine ⟨?_, rfl, ?_⟩
  · simp only [WriteAheadLog.rotateSegment, hout.dir, hout.currentSegment]
  · simp only [WriteAheadLog.rotateSegment, hout.currentSegment]

theorem SameFiles.append (h : SameFiles w w') (hsize : w.segmentOffset = w'.segmentOffset)
    (r : LogRecord) : SameFiles (w.append F r) (w'.append F r) := by
  have hrot : w.rotates F r = w'.rotates F r := by rw [rotates, rotates, hsize]
  unfold WriteAheadLog.append
  dsimp only
  rw [hrot]
  cases w'.rotates F r with
  | true =>
    have hr := h.rotateSegment
    exact ⟨hr.dir, by rw [if_pos rfl, if_pos rfl, hr.pending], hr.currentSegment⟩
  | false => exact ⟨h.dir, congrArg (fun p => p ++ r.toBytes F.crc32) h.pending, h.currentSegment⟩

theorem sameFiles_log (w : WriteAheadLog) (record : UInt64 → LogRecord) :
    SameFiles (w.log F record) (w.append F (record w.currentLsn)) := by
  have hsame : SameFiles { w with currentLsn := w.currentLsn + 1 } w := ⟨rfl, rfl, rfl⟩
  exact hsame.append rfl _

theorem log_currentLsn (w : WriteAheadLog) (record : UInt64 → LogRecord) :
    (w.log F record).currentLsn = w.currentLsn + 1 :=
  append_currentLsn _ _

theorem flush_currentLsn (w : WriteAheadLog) : w.flush.currentLsn = w.currentLsn := rfl

theorem logCommit_currentLsn (w : WriteAheadLog) (txId prevLsn : UInt64) :
    (w.logCommit F txId prevLsn).currentLsn = w.currentLsn + 1 := by
  unfold logCommit
  dsimp only
  split
  · rw [flush_currentLsn, log_currentLsn]
  · rw [log_currentLsn]

end WriteAheadLog

namespace WalRun

open WriteAheadLog

variable {s s' : WalRun} {w w' : WriteAheadLog} {a : WalAction} {r : LogRecord}

theorem flushed_appended (s : WalRun) (w w₁ w₂ w₃ : WriteAheadLog) (r : LogRecord) :
    (s.appended F w w₁ r).flushed w₃ = (s.appended F w w₂ r).flushed w₃ := by
  unfold appended flushed
  split <;> rfl

/-- What a process that has the log open can do: it stops, flushes or truncates, or it appends a
record, and flushes or not.  Unless the record comes from elsewhere, it has the next sequence
number. -/
theorem act_cases (h : s.act F w a = some s') :
    (∃ kept, a = .stop kept ∧
      s' = { s with
        process := .closed (w.stop kept)
        history := s.history ++ (segmentFormat F.crc32).fitting kept s.unflushed
        unflushed := [] }) ∨
    (a = .flush ∧ s' = s.flushed w.flush) ∨
    (a = .truncate ∧
      s' = { s with
        process := .running w.truncateBeforeCheckpoint.1
        truncated := s.truncated + (WalDir.records F
          { segments := w.dir.segments.filterValues fun number _ => w.removes number }).length }) ∨
    ∃ r w', a.record F w.currentLsn = some r ∧
      (a = .append r ∨ (r.lsn = w.currentLsn ∧ w'.currentLsn = w.currentLsn + 1)) ∧
      ((s' = s.appended F w w' r ∧ SameFiles w' (w.append F r)) ∨
        (s' = (s.appended F w (w.append F r) r).flushed w' ∧
          SameFiles w' (w.append F r).writeOut)) := by
  cases a with
  | new _ | openAndRecover _ => cases h
  | stop kept => exact .inl ⟨kept, rfl, (Option.some.inj h).symm⟩
  | flush => exact .inr (.inl ⟨rfl, (Option.some.inj h).symm⟩)
  | truncate => exact .inr (.inr (.inl ⟨rfl, (Option.some.inj h).symm⟩))
  | append record =>
    exact .inr (.inr (.inr ⟨record, w.append F record, rfl, .inl rfl,
      .inl ⟨(Option.some.inj h).symm, rfl, rfl, rfl⟩⟩))
  | logBegin txId =>
    exact .inr (.inr (.inr ⟨_, w.logBegin F txId, rfl, .inr ⟨rfl, log_currentLsn _ _⟩,
      .inl ⟨(Option.some.inj h).symm, sameFiles_log _ _⟩⟩))
  | logAbort txId prevLsn =>
    exact .inr (.inr (.inr ⟨_, w.logAbort F txId prevLsn, rfl, .inr ⟨rfl, log_currentLsn _ _⟩,
      .inl ⟨(Option.some.inj h).symm, sameFiles_log _ _⟩⟩))
  | logInsert txId prevLsn pageId data =>
    exact .inr (.inr (.inr ⟨_, w.logInsert F txId prevLsn pageId data, rfl,
      .inr ⟨rfl, log_currentLsn _ _⟩, .inl ⟨(Option.some.inj h).symm, sameFiles_log _ _⟩⟩))
  | logUpdate txId prevLsn pageId data =>
    exact .inr (.inr (.inr ⟨_, w.logUpdate F txId prevLsn pageId data, rfl,
      .inr ⟨rfl, log_currentLsn _ _⟩, .inl ⟨(Option.some.inj h).symm, sameFiles_log _ _⟩⟩))
  | logDelete txId prevLsn pageId data =>
    exact .inr (.inr (.inr ⟨_, w.logDelete F txId prevLsn pageId data, rfl,
      .inr ⟨rfl, log_currentLsn _ _⟩, .inl ⟨(Option.some.inj h).symm, sameFiles_log _ _⟩⟩))
  | logCommit txId prevLsn =>
    refine .inr (.inr (.inr ⟨_, w.logCommit F txId prevLsn, rfl,
      .inr ⟨rfl, logCommit_currentLsn _ _ _⟩, ?_⟩))
    have hs := sameFiles_log (F := F) w fun lsn => .commit lsn prevLsn txId
    by_cases hsync : w.syncOnCommit = true
    · have h' := Option.some.inj h
      rw [if_pos hsync] at h'
      have hlog : w.logCommit F txId prevLsn =
          (w.log F fun lsn => .commit lsn prevLsn txId).flush := if_pos hsync
      refine .inr ⟨h'.symm.trans (flushed_appended _ _ _ _ _ _), ?_⟩
      rw [hlog]
      exact ⟨hs.writeOut.dir, rfl, hs.currentSegment⟩
    · have h' := Option.some.inj h
      rw [if_neg hsync] at h'
      have hlog : w.logCommit F txId prevLsn = w.log F fun lsn => .commit lsn prevLsn txId :=
        if_neg hsync
      refine .inl ⟨h'.symm, ?_⟩
      rw [hlog]
      exact hs
  | logCheckpoint activeTransactions dirtyPages =>
    have hs := sameFiles_log (F := F) w (checkpointRecord F activeTransactions dirtyPages)
    have hlsn : (w.logCheckpoint F activeTransactions dirtyPages).currentLsn =
        w.currentLsn + 1 := by
      unfold logCheckpoint
      dsimp only
      rw [flush_currentLsn, log_currentLsn]
    have hfiles : SameFiles (w.logCheckpoint F activeTransactions dirtyPages)
        (w.append F (checkpointRecord F activeTransactions dirtyPages w.currentLsn)).writeOut := by
      refine ⟨hs.writeOut.dir, rfl, hs.currentSegment⟩
    have h' : s' = (s.appended F w (w.logCheckpoint F activeTransactions dirtyPages)
        (checkpointRecord F activeTransactions dirtyPages w.currentLsn)).flushed
          (w.logCheckpoint F activeTransactions dirtyPages) := (Option.some.inj h).symm
    rw [flushed_appended _ _ _ (w.append F
      (checkpointRecord F activeTransactions dirtyPages w.currentLsn))] at h'
    exact .inr (.inr (.inr ⟨_, w.logCheckpoint F activeTransactions dirtyPages, rfl,
      .inr ⟨rfl, hlsn⟩, .inr ⟨h', hfiles⟩⟩))

/-! ## The invariant -/

def wal (s : WalRun) : Option WriteAheadLog :=
  match s.process with
  | .closed _ => none
  | .running w => some w

/-- A record is appended only if the format can represent it, only behind whole records, and, if
the segment is rotated, only if the number of the closed segment is not in use. -/
def AppendsSafely (F : LogFormat) (s : WalRun) (a : WalAction) : Prop :=
  ∀ w ∈ s.wal, ∀ r ∈ a.record F w.currentLsn, r.Encodable ∧
    (∀ bytes ∈ w.dir.current, (segmentFormat F.crc32).Whole bytes) ∧
      (w.rotates F r = true → w.currentSegment ∉ w.dir.segments)

instance (s : WalRun) (a : WalAction) : Decidable (AppendsSafely F s a) :=
  inferInstanceAs (Decidable (∀ w ∈ s.wal, ∀ r ∈ a.record F w.currentLsn, _ ∧ _ ∧ (_ → _)))

end WalRun

/-- A process keeps back the bytes of the records `unflushed`, and none of them would be written
behind a record that broke off. -/
structure Buffered (F : LogFormat) (w : WriteAheadLog) (unflushed : List LogRecord) : Prop where
  /-- The current segment exists, and consists of whole records if something is to follow. -/
  current : ∃ bytes, w.dir.current = some bytes ∧
    (unflushed ≠ [] → (segmentFormat F.crc32).Whole bytes)
  pending : w.pending = (segmentFormat F.crc32).encodeAll unflushed
  encodable : ∀ r ∈ unflushed, r.Encodable
  /-- No closed segment has a larger number than the current one. -/
  numbers : ∀ n ∈ w.dir.segments.keys, n ≤ w.currentSegment

namespace Buffered

open WriteAheadLog

variable {w w' : WriteAheadLog} {unflushed : List LogRecord} {r : LogRecord}

theorem congr (h : Buffered F w unflushed) (hw : SameFiles w' w) : Buffered F w' unflushed := by
  obtain ⟨hcurrent, hpending, hencodable, hnumbers⟩ := h
  refine ⟨?_, hw.pending.trans hpending, hencodable, ?_⟩
  · rw [hw.dir]
    exact hcurrent
  · rw [hw.dir, hw.currentSegment]
    exact hnumbers

theorem currentRecords_write (h : Buffered F w unflushed) (n : ℕ) :
    (w.dir.write (w.pending.take n)).currentRecords F =
      w.dir.currentRecords F ++ (segmentFormat F.crc32).fitting n unflushed := by
  obtain ⟨⟨bytes, hbytes, hwhole⟩, hpending, hencodable, -⟩ := h
  simp only [WalDir.currentRecords, WalDir.write, hbytes, Option.map_some, Option.getD_some,
    readSegment]
  cases unflushed with
  | nil => simp [hpending, FrameFormat.fitting]
  | cons u us =>
    rw [FrameFormat.read_append _ (hwhole (List.cons_ne_nil _ _)), hpending,
      FrameFormat.read_take _ hencodable]

theorem records_write (h : Buffered F w unflushed) (n : ℕ) :
    (w.dir.write (w.pending.take n)).records F =
      w.dir.records F ++ (segmentFormat F.crc32).fitting n unflushed := by
  have hclosed : (w.dir.write (w.pending.take n)).closedRecords F = w.dir.closedRecords F := rfl
  rw [WalDir.records_eq, WalDir.records_eq, List.append_assoc, hclosed, h.currentRecords_write]

theorem writeOut (h : Buffered F w unflushed) :
    Buffered F w.writeOut [] ∧ w.writeOut.dir.records F = w.dir.records F ++ unflushed := by
  have hwrite := h.records_write w.pending.length
  rw [List.take_length, FrameFormat.fitting_of_length_le _ (by rw [h.pending])] at hwrite
  obtain ⟨⟨bytes, hbytes, -⟩, -, -, hnumbers⟩ := h
  refine ⟨⟨⟨bytes ++ w.pending, ?_, fun hne => absurd rfl hne⟩, rfl, (fun r hr => nomatch hr),
    hnumbers⟩, hwrite⟩
  simp [WriteAheadLog.writeOut, WalDir.write, hbytes]

/-- A rotation under a number that is not in use keeps all records in their order. -/
theorem rotateSegment (h : Buffered F w unflushed) (hfree : w.currentSegment ∉ w.dir.segments) :
    Buffered F w.rotateSegment [] ∧
      w.rotateSegment.dir.records F = w.dir.records F ++ unflushed := by
  obtain ⟨hout, hrecords⟩ := h.writeOut
  obtain ⟨⟨bytes, hbytes, -⟩, -, -, hnumbers⟩ := hout
  have hdir : w.rotateSegment.dir =
      { segments := w.writeOut.dir.segments.insert w.currentSegment bytes
        current := some [] } := by
    simp only [WriteAheadLog.rotateSegment, hbytes]
    rfl
  have hlt : ∀ m ∈ w.writeOut.dir.segments.keys, m < w.currentSegment := by
    intro m hm
    refine lt_of_le_of_ne (hnumbers m hm) fun heq => hfree ?_
    rw [← heq]
    exact AList.mem_keys.mpr hm
  constructor
  · refine ⟨⟨[], by rw [hdir], fun hne => absurd rfl hne⟩, rfl, (fun r hr => nomatch hr), ?_⟩
    intro n hn
    rw [hdir, AList.keys_insert] at hn
    have hnext : w.rotateSegment.currentSegment = w.currentSegment + 1 := rfl
    rw [hnext]
    rcases List.mem_cons.mp hn with rfl | hn
    · exact Nat.le_succ _
    · exact Nat.le_succ_of_le (hnumbers n (List.mem_of_mem_erase hn))
  · rw [← hrecords, hdir, WalDir.records_eq, WalDir.records_eq, WalDir.closedRecords_insert hlt]
    simp [WalDir.currentRecords, hbytes, readSegment]

theorem push (h : Buffered F w unflushed) (hr : r.Encodable)
    (hwhole : ∀ bytes ∈ w.dir.current, (segmentFormat F.crc32).Whole bytes) (offset : ℕ) :
    Buffered F
      { w with
        pending := w.pending ++ r.toBytes F.crc32
        segmentOffset := offset } (unflushed ++ [r]) := by
  obtain ⟨⟨bytes, hbytes, -⟩, hpending, hencodable, hnumbers⟩ := h
  refine ⟨⟨bytes, hbytes, fun _ => hwhole bytes hbytes⟩, ?_, fun r' hr' => ?_, hnumbers⟩
  · rw [FrameFormat.encodeAll_append, ← hpending]
    simp [FrameFormat.encodeAll, segmentFormat]
  · rcases List.mem_append.mp hr' with hr' | hr'
    · exact hencodable r' hr'
    · rw [List.mem_singleton.mp hr']
      exact hr

end Buffered

namespace WalRun

open WriteAheadLog

variable {s s' : WalRun} {w w' : WriteAheadLog} {a : WalAction} {r : LogRecord}

/-- The directory holds the records that it should hold. -/
structure FilesInv (F : LogFormat) (s : WalRun) : Prop where
  records : s.dir.records F = s.stored
  /-- Only records that have reached the disk are removed. -/
  truncated : s.truncated ≤ s.history.length
  /-- Nothing is kept back while no process has the log open. -/
  closed : ∀ dir, s.process = .closed dir → s.unflushed = []
  running : ∀ w, s.process = .running w → Buffered F w s.unflushed

theorem FilesInv.stored_append (h : FilesInv F s) (rs : List LogRecord) :
    (s.history ++ rs).drop s.truncated = s.stored ++ rs :=
  List.drop_append_of_le_length h.truncated

theorem FilesInv.flushed (h : FilesInv F s) (hw : s.process = .running w)
    (hfiles : SameFiles w' w.writeOut) : FilesInv F (s.flushed w') := by
  obtain ⟨hout, hrecords⟩ := (h.running w hw).writeOut
  have hdir : s.dir = w.dir := by rw [dir, hw]; rfl
  refine
    { records := ?_
      truncated := ?_
      closed := fun dir hd => nomatch hd
      running := fun w₁ hw₁ => ?_ }
  · show w'.dir.records F = (s.history ++ s.unflushed).drop s.truncated
    rw [hfiles.dir, hrecords, h.stored_append, ← h.records, hdir]
  · have := h.truncated
    simp only [WalRun.flushed, List.length_append]
    omega
  · obtain rfl := WalProcess.running.inj hw₁
    exact hout.congr hfiles

theorem FilesInv.appended (h : FilesInv F s) (hw : s.process = .running w) (hr : r.Encodable)
    (hwhole : ∀ bytes ∈ w.dir.current, (segmentFormat F.crc32).Whole bytes)
    (hfree : w.rotates F r = true → w.currentSegment ∉ w.dir.segments)
    (hfiles : SameFiles w' (w.append F r)) : FilesInv F (s.appended F w w' r) := by
  have hbuffered := h.running w hw
  have hdir : s.dir = w.dir := by rw [dir, hw]; rfl
  have htruncated := h.truncated
  unfold WalRun.appended
  unfold WriteAheadLog.append at hfiles
  by_cases hrot : w.rotates F r = true
  · obtain ⟨hnew, hrecords⟩ := hbuffered.rotateSegment (hfree hrot)
    rw [if_pos hrot] at hfiles ⊢
    have hempty : ∀ bytes ∈ w.rotateSegment.dir.current, (segmentFormat F.crc32).Whole bytes := by
      intro bytes hbytes
      obtain rfl : [] = bytes := Option.some.inj hbytes
      rfl
    refine
      { records := ?_
        truncated := ?_
        closed := fun dir hd => nomatch hd
        running := fun w₁ hw₁ => ?_ }
    · show w'.dir.records F = (s.history ++ s.unflushed).drop s.truncated
      rw [hfiles.dir, h.stored_append, ← h.records, hdir]
      exact hrecords
    · simp only [List.length_append]
      omega
    · obtain rfl := WalProcess.running.inj hw₁
      exact (hnew.push hr hempty _).congr hfiles
  · rw [if_neg hrot] at hfiles ⊢
    refine
      { records := ?_
        truncated := htruncated
        closed := fun dir hd => nomatch hd
        running := fun w₁ hw₁ => ?_ }
    · show w'.dir.records F = s.stored
      rw [hfiles.dir, ← h.records, hdir]
    · obtain rfl := WalProcess.running.inj hw₁
      exact (hbuffered.push hr hwhole _).congr hfiles

/-- A process that stops leaves the records that fit into the bytes written out. -/
theorem FilesInv.stop (h : FilesInv F s) (hw : s.process = .running w) (kept : ℕ) :
    FilesInv F
      { s with
        process := .closed (w.stop kept)
        history := s.history ++ (segmentFormat F.crc32).fitting kept s.unflushed
        unflushed := [] } := by
  have hdir : s.dir = w.dir := by rw [dir, hw]; rfl
  refine
    { records := ?_
      truncated := ?_
      closed := fun _ _ => rfl
      running := fun w₁ hw₁ => nomatch hw₁ }
  · show (w.stop kept).records F =
      (s.history ++ (segmentFormat F.crc32).fitting kept s.unflushed).drop s.truncated
    rw [h.stored_append, ← h.records, hdir]
    exact (h.running w hw).records_write kept
  · have := h.truncated
    simp only [List.length_append]
    omega

/-- A truncation removes the first records of those that are stored. -/
theorem FilesInv.truncate (h : FilesInv F s) (hw : s.process = .running w) :
    FilesInv F
      { s with
        process := .running w.truncateBeforeCheckpoint.1
        truncated := s.truncated + (WalDir.records F
          { segments := w.dir.segments.filterValues fun number _ => w.removes number }).length }
      := by
  have hdir : s.dir = w.dir := by rw [dir, hw]; rfl
  have hdown : ∀ m n, m ≤ n → w.removes n = true → w.removes m = true := by
    intro m n hmn hn
    simp only [removes, Bool.and_eq_true, decide_eq_true_eq] at hn ⊢
    exact ⟨hn.1, by omega⟩
  have hsplit := w.dir.records_filterValues (F := F) hdown
  have hrecords := h.records
  rw [hdir] at hrecords
  obtain ⟨⟨bytes, hbytes, hwhole⟩, hpending, hencodable, hnumbers⟩ := h.running w hw
  refine
    { records := ?_
      truncated := ?_
      closed := fun dir hd => nomatch hd
      running := fun w₁ hw₁ => ?_ }
  · show w.truncateBeforeCheckpoint.1.dir.records F = s.history.drop (s.truncated + _)
    have hstored : s.history.drop s.truncated = s.stored := rfl
    rw [← List.drop_drop, hstored, ← hrecords, hsplit, List.drop_left]
    rfl
  · show s.truncated + _ ≤ s.history.length
    have hlen := congrArg List.length (hrecords.symm.trans hsplit)
    have hle := h.truncated
    rw [stored, List.length_drop, List.length_append] at hlen
    omega
  · obtain rfl := WalProcess.running.inj hw₁
    refine ⟨⟨bytes, hbytes, hwhole⟩, hpending, hencodable, fun n hn => hnumbers n ?_⟩
    have hsub : (w.dir.segments.filterValues fun number _ => !w.removes number).entries.Sublist
        w.dir.segments.entries := List.filter_sublist
    exact (hsub.map Sigma.fst).subset hn

theorem FilesInv.openDir (h : FilesInv F s) {dir : WalDir} (hd : s.process = .closed dir)
    (currentLsn flushedLsn : UInt64) (syncOnCommit : Bool) :
    FilesInv F
      { s with process := .running (WriteAheadLog.openDir dir currentLsn flushedLsn syncOnCommit) }
      := by
  have hdir : s.dir = dir := by rw [WalRun.dir, hd]; rfl
  have hunflushed := h.closed dir hd
  refine
    { records := ?_
      truncated := h.truncated
      closed := fun dir hd => nomatch hd
      running := fun w₁ hw₁ => ?_ }
  · show dir.openSegment.records F = s.stored
    rw [WalDir.records_openSegment, ← hdir, h.records]
  · obtain rfl := WalProcess.running.inj hw₁
    show Buffered F _ s.unflushed
    rw [hunflushed]
    exact ⟨⟨dir.current.getD [], rfl, fun hne => absurd rfl hne⟩, rfl, (fun r hr => nomatch hr),
      fun n hn => dir.le_findLatestSegment hn⟩

theorem step_closed {dir : WalDir} (hd : s.process = .closed dir)
    (h : s.step F a = some s') :
    (∃ syncOnCommit, a = .new syncOnCommit ∧
      s' = { s with process := .running (.openDir dir 1 0 syncOnCommit) }) ∨
    ∃ syncOnCommit, a = .openAndRecover syncOnCommit ∧
      s' = { s with
        process := .running (.openDir dir (lsnAfter (dir.recoveryState F).maxLsn)
          (dir.recoveryState F).maxLsn syncOnCommit) } := by
  rw [step, hd] at h
  cases a with
  | new syncOnCommit => exact .inl ⟨syncOnCommit, rfl, (Option.some.inj h).symm⟩
  | openAndRecover syncOnCommit => exact .inr ⟨syncOnCommit, rfl, (Option.some.inj h).symm⟩
  | _ => cases h

/-- The directory still holds the records it should hold, by cases on the process. -/
theorem filesInv_step (h : FilesInv F s) (ha : AppendsSafely F s a)
    (hstep : s.step F a = some s') : FilesInv F s' := by
  cases hp : s.process with
  | closed dir =>
    rcases step_closed hp hstep with ⟨syncOnCommit, -, rfl⟩ | ⟨syncOnCommit, -, rfl⟩
    · exact h.openDir hp _ _ _
    · exact h.openDir hp _ _ _
  | running w =>
    have hact : s.act F w a = some s' := by rwa [step, hp] at hstep
    have hwal : w ∈ s.wal := by simp [wal, hp]
    rcases act_cases hact with ⟨kept, -, rfl⟩ | ⟨-, rfl⟩ | ⟨-, rfl⟩ | ⟨r, w', hr, -, hfiles⟩
    · exact h.stop hp kept
    · exact h.flushed hp ⟨rfl, rfl, rfl⟩
    · exact h.truncate hp
    · obtain ⟨hencodable, hwhole, hfree⟩ := ha w hwal r hr
      rcases hfiles with ⟨rfl, hfiles⟩ | ⟨rfl, hfiles⟩
      · exact h.appended hp hencodable hwhole hfree hfiles
      · have happended := h.appended hp hencodable hwhole hfree ⟨rfl, rfl, rfl⟩
        refine happended.flushed ?_ hfiles
        unfold WalRun.appended
        split <;> rfl

theorem filesInv (h : (system F).Reach (AppendsSafely F) s) : FilesInv F s := by
  refine h.invariant ?_ fun s a s' _ hinv ha hstep => filesInv_step hinv ha hstep
  exact
    { records := rfl
      truncated := Nat.le_refl _
      closed := fun _ _ => rfl
      running := fun w hw => nomatch hw }

/-! ## What a step does to the segments -/

/-- A closed segment stays as it is, with all its bytes. -/
def KeepsSegments (dir dir' : WalDir) : Prop :=
  ∀ n bytes, dir.segments.lookup n = some bytes → dir'.segments.lookup n = some bytes

theorem keepsSegments_append {w : WriteAheadLog} {r : LogRecord}
    (hfree : w.rotates F r = true → w.currentSegment ∉ w.dir.segments) :
    KeepsSegments w.dir (w.append F r).dir := by
  intro n bytes hn
  unfold WriteAheadLog.append
  dsimp only
  split_ifs with hrot
  · unfold WriteAheadLog.rotateSegment
    dsimp only
    have hne : n ≠ w.currentSegment := by
      rintro rfl
      exact hfree hrot (AList.lookup_isSome.mp (by rw [hn]; rfl))
    have hsegments : w.writeOut.dir.segments = w.dir.segments := rfl
    cases w.writeOut.dir.current with
    | none => exact hn
    | some current =>
      have hnumber : w.writeOut.currentSegment = w.currentSegment := rfl
      rw [hsegments, hnumber]
      dsimp only
      rw [Table.lookup_insert, if_neg hne]
      exact hn
  · exact hn

/-- Only a truncation takes away from the closed segments, and from what is stored. -/
theorem step_keeps (h : FilesInv F s) (ha : AppendsSafely F s a)
    (hstep : s.step F a = some s') (hnot : a ≠ .truncate) :
    KeepsSegments s.dir s'.dir ∧ s.stored <+: s'.stored := by
  have hkept : ∀ rs, s.stored <+: (s.history ++ rs).drop s.truncated := by
    intro rs
    rw [h.stored_append]
    exact List.prefix_append _ _
  cases hp : s.process with
  | closed dir =>
    have hdir : s.dir = dir := by rw [WalRun.dir, hp]; rfl
    rcases step_closed hp hstep with ⟨syncOnCommit, -, rfl⟩ | ⟨syncOnCommit, -, rfl⟩
    · exact ⟨fun n bytes hn => by rwa [hdir] at hn, List.prefix_rfl⟩
    · exact ⟨fun n bytes hn => by rwa [hdir] at hn, List.prefix_rfl⟩
  | running w =>
    have hdir : s.dir = w.dir := by rw [WalRun.dir, hp]; rfl
    have hact : s.act F w a = some s' := by rwa [step, hp] at hstep
    have hwal : w ∈ s.wal := by simp [wal, hp]
    rcases act_cases hact with ⟨kept, -, rfl⟩ | ⟨-, rfl⟩ | ⟨rfl, -⟩ | ⟨r, w', hr, -, hfiles⟩
    · exact ⟨fun n bytes hn => by rwa [hdir] at hn, hkept _⟩
    · exact ⟨fun n bytes hn => by rwa [hdir] at hn, hkept _⟩
    · exact absurd rfl hnot
    · obtain ⟨-, -, hfree⟩ := ha w hwal r hr
      have hsegments := keepsSegments_append hfree
      have happended : s.stored <+: (s.appended F w (w.append F r) r).stored := by
        unfold WalRun.appended
        split
        · exact hkept _
        · exact List.prefix_rfl
      rcases hfiles with ⟨rfl, hfiles⟩ | ⟨rfl, hfiles⟩
      · have hnew : (s.appended F w w' r).dir = (w.append F r).dir := by
          rw [← hfiles.dir]
          unfold WalRun.appended
          split <;> rfl
        refine ⟨by rwa [hdir, hnew], ?_⟩
        unfold WalRun.appended at happended ⊢
        split at happended
        · rwa [if_pos ‹_›]
        · rwa [if_neg ‹_›]
      · have hinv : FilesInv F (s.appended F w (w.append F r) r) :=
          h.appended hp (ha w hwal r hr).1 (ha w hwal r hr).2.1 hfree ⟨rfl, rfl, rfl⟩
        constructor
        · rw [hdir]
          intro n bytes hn
          have hnew : w'.dir.segments = (w.append F r).dir.segments := by
            rw [hfiles.dir]
            rfl
          show w'.dir.segments.lookup n = some bytes
          rw [hnew]
          exact hsegments n bytes hn
        · have hmore := hinv.stored_append (s.appended F w (w.append F r) r).unflushed
          have hflushed : ((s.appended F w (w.append F r) r).flushed w').stored =
              (s.appended F w (w.append F r) r).stored ++
                (s.appended F w (w.append F r) r).unflushed := hmore
          rw [hflushed]
          exact happended.trans (List.prefix_append _ _)

/-! ## No record is lost -/

/-- Every record that was flushed, and that no truncation has removed, is read from the directory,
in the order in which the records were appended; and whatever happens next, unless it is a
truncation, keeps the closed segments and leaves the records that are read in front of what is
read then.  This holds as long as no record is appended behind one that broke off, and no segment
is closed under a number that is in use. -/
theorem flushed_records_read (h : (system F).Reach (AppendsSafely F) s) :
    s.dir.records F = s.stored ∧
      ∀ a s', AppendsSafely F s a → s.step F a = some s' → a ≠ .truncate →
        KeepsSegments s.dir s'.dir ∧ s.dir.records F <+: s'.dir.records F := by
  have hinv := filesInv h
  refine ⟨hinv.records, fun a s' ha hstep hnot => ?_⟩
  obtain ⟨hsegments, hstored⟩ := step_keeps hinv ha hstep hnot
  refine ⟨hsegments, ?_⟩
  rwa [hinv.records, (filesInv_step hinv ha hstep).records]

/-! ## A format, and two runs -/

/-- Numbers of eight bytes, one after the other. -/
def numberFormat : FrameFormat UInt64 where
  encode n := le 8 n.toNat
  next bytes :=
    if bytes.length < 8 then none else some (UInt64.ofNat (ofLe (bytes.take 8)), bytes.drop 8)
  Valid _ := True
  next_encode n _ rest := by
    have hlen := length_le 8 n.toNat
    rw [if_neg (by simp), List.take_left' hlen, List.drop_left' hlen, ofLe_le, ofNat_toNat_mod]
  next_take n _ k hk := by
    rw [length_le] at hk
    rw [if_pos (by simp; omega)]
  next_length bytes n rest h := by
    split at h
    · cases h
    · obtain ⟨-, rfl⟩ := Prod.mk.inj (Option.some.inj h)
      rw [List.length_drop]
      omega
  next_valid _ _ _ _ := trivial

end WalRun

/-- A log format: the checksum is CRC-32, and a checkpoint is the number of its transactions in
unary, and its numbers. -/
def LogFormat.plain : LogFormat where
  crc32 := Crc32.hash
  serialize checkpoint :=
    List.replicate checkpoint.activeTransactions.length 1 ++
      0 :: WalRun.numberFormat.encodeAll (checkpoint.activeTransactions ++ checkpoint.dirtyPages)
  deserialize bytes :=
    let count := (bytes.takeWhile fun b => b = 1).length
    let numbers := WalRun.numberFormat.read (bytes.drop (count + 1))
    some ⟨numbers.take count, numbers.drop count⟩
  deserialize_serialize checkpoint := by
    obtain ⟨active, dirty⟩ := checkpoint
    have hcount (rest : Bytes) : ((List.replicate active.length (1 : UInt8) ++ 0 :: rest).takeWhile
        fun b => b = 1).length = active.length := by
      rw [List.takeWhile_append_of_pos (by simp)]
      simp
    have hread (numbers : List UInt64) :
        WalRun.numberFormat.read (WalRun.numberFormat.encodeAll numbers) = numbers := by
      have hvalid : ∀ n ∈ numbers, WalRun.numberFormat.Valid n := fun _ _ => trivial
      have := WalRun.numberFormat.read_encodeAll_append hvalid []
      rwa [List.append_nil, FrameFormat.read_nil, List.append_nil] at this
    dsimp only
    rw [hcount, List.append_cons, List.drop_left' (by simp), hread]
    simp

namespace WalRun

/-- Two sessions; the first one stops after a flush, the second one logs on. -/
def twoSessions : List WalAction :=
  [.new true, .logBegin 1, .logInsert 1 (some 1) 0 [7], .logCommit 1 2, .logBegin 2, .stop 0,
    .openAndRecover true, .logBegin 3, .flush]

/-- In this run the directory holds the four records that were flushed. -/
theorem flushed_records_read_sessions :
    ∃ s, s.history.length = 4 ∧ s.dir.records .plain = s.stored ∧ ∀ a s', AppendsSafely .plain s a →
      s.step .plain a = some s' → a ≠ .truncate →
      KeepsSegments s.dir s'.dir ∧ s.dir.records .plain <+: s'.dir.records .plain := by
  have hrun : ((system .plain).run (AppendsSafely .plain) twoSessions).map
      (fun s => s.history.length) = some 4 := by
    decide +kernel
  obtain ⟨s, hs, hhistory⟩ := Option.map_eq_some_iff.mp hrun
  exact ⟨s, hhistory, flushed_records_read (System.reach_of_run hs)⟩

/-- Two sessions; the first one stops when the first byte of a record has been written. -/
def tornTail : List WalAction :=
  [.new false, .logBegin 1, .stop 1, .openAndRecover true, .logInsert 1 none 0 [7], .flush]

/-- A record that was flushed is not read: it was appended behind a byte that a crash has left. -/
theorem not_flushed_records_read : ∃ s, (system .plain).Reachable s ∧ s.truncated = 0 ∧
    ∃ r ∈ s.history, r ∉ s.dir.records .plain := by
  have hrun : ((system .plain).run (fun _ _ => True) tornTail).map
      (fun s => (s.truncated, s.history, s.dir.records .plain)) =
        some (0, [.dataRecord 1 none 1 .insert 0 [7]], []) := by
    decide +kernel
  obtain ⟨s, hs, hproj⟩ := Option.map_eq_some_iff.mp hrun
  obtain ⟨htruncated, hrest⟩ := Prod.mk.inj hproj
  obtain ⟨hhistory, hrecords⟩ := Prod.mk.inj hrest
  refine ⟨s, System.reach_of_run hs, htruncated, ?_⟩
  rw [hhistory, hrecords]
  exact ⟨_, List.mem_singleton_self _, List.not_mem_nil⟩

end WalRun

end Storage

end AegisDB
