import AegisDB.Server.RedoLog
import AegisDB.TimeSeries.Engine

/-!
# Recovery of time-series points

Points are written to the engine and to the redo log, a checkpoint saves a copy of the engine that
was taken when the log was cut, and retires the log up to the cut.  A server that starts loads what
was saved and replays the log.  Replaying is not idempotent: where the saved data have records that
are still in the log, their points are there twice.  Where no such record has any points, and no
time is cut off to milliseconds or does not fit into the log, every point is there once.
-/

namespace AegisDB

namespace Server

open TimeSeries

/-- A call that writes points. -/
structure PointBatch where
  metric : String
  tags : Tags
  points : List DataPoint
deriving DecidableEq

namespace PointBatch

def seriesId (batch : PointBatch) : String :=
  TimeSeriesIndex.seriesIdFor batch.metric batch.tags

/-- What is logged for a call.  A time that does not fit is logged as zero. -/
def op (batch : PointBatch) : Op :=
  .tsWrite batch.metric batch.tags
    (batch.points.map fun p => ((p.timestamp.timestampNanosOpt.getD 0).toInt, p.value))

/-- What a record is replayed as. -/
def ofOp : Op → Option PointBatch
  | .tsWrite metric tags points =>
      some ⟨metric, tags, points.map fun p =>
        ⟨DateTime.fromTimestampNanos (Int64.ofInt p.1), p.2⟩⟩
  | _ => none

def fits (batch : PointBatch) : Bool :=
  batch.points.all fun p => p.timestamp.timestampNanosOpt.isSome

theorem ofOp_op {batch : PointBatch} (h : batch.fits = true) : ofOp batch.op = some batch := by
  obtain ⟨metric, tags, points⟩ := batch
  have hpoints : (points.map fun p => ((p.timestamp.timestampNanosOpt.getD 0).toInt, p.value)).map
      (fun p => (⟨DateTime.fromTimestampNanos (Int64.ofInt p.1), p.2⟩ : DataPoint)) = points := by
    rw [List.map_map]
    refine (List.map_congr_left fun p hp => ?_).trans (List.map_id _)
    have hfits : p.timestamp.timestampNanosOpt.isSome = true := List.all_eq_true.mp h p hp
    obtain ⟨time, value⟩ := p
    unfold DateTime.timestampNanosOpt at hfits
    split_ifs at hfits with hrange
    · simp only [Function.comp_apply, DateTime.timestampNanosOpt, if_pos hrange, Option.getD_some,
        Int64.ofInt_toInt, DateTime.fromTimestampNanos_ofInt hrange, id_eq]
    · cases hfits
  rw [op, ofOp, hpoints]

end PointBatch

/-- The points of a series in some batches, as often as they are there. -/
def pointsIn (batches : List PointBatch) (seriesId : String) : Multiset DataPoint :=
  (batches.map fun b => if b.seriesId = seriesId then (b.points : Multiset DataPoint) else 0).sum

theorem pointsIn_cons (batch : PointBatch) (batches : List PointBatch) (seriesId : String) :
    pointsIn (batch :: batches) seriesId =
      (if batch.seriesId = seriesId then (batch.points : Multiset DataPoint) else 0) +
        pointsIn batches seriesId :=
  List.sum_cons

theorem pointsIn_append (batches batches' : List PointBatch) (seriesId : String) :
    pointsIn (batches ++ batches') seriesId =
      pointsIn batches seriesId + pointsIn batches' seriesId := by
  rw [pointsIn, List.map_append, List.sum_append]
  rfl

theorem sum_filter_add_filter {α M : Type*} [AddCommMonoid M] {f : α → M} {l : List α}
    {p q : α → Bool} (h : ∀ e ∈ l, p e = q e → f e = 0) :
    ((l.filter p).map f).sum + ((l.filter q).map f).sum = (l.map f).sum := by
  induction l with
  | nil => exact add_zero 0
  | cons e l ih =>
    have ih := ih fun e' he' => h e' (List.mem_cons_of_mem _ he')
    have he := h e List.mem_cons_self
    rw [List.map_cons, List.sum_cons, ← ih, List.filter_cons, List.filter_cons]
    cases hp : p e <;> cases hq : q e
    · simp [he (hp.trans hq.symm)]
    · simp [add_left_comm]
    · simp [add_assoc]
    · simp [he (hp.trans hq.symm)]

/-! ## Replaying -/

section Replay

variable (nexus : NexusCodec)

/-- Replay a record.  Other records are about other data; a batch that is refused is only noted. -/
def replayPoints (engine : TimeSeriesEngine) (op : Op) : TimeSeriesEngine :=
  match PointBatch.ofOp op with
  | none => engine
  | some batch => (engine.writeBatch nexus batch.metric batch.tags batch.points).1

/-- Every batch is within the limit when it is replayed, and no finer time than milliseconds is
sealed. -/
def Replayable (engine : TimeSeriesEngine) : List Op → Prop
  | [] => True
  | op :: ops =>
      (∀ batch ∈ PointBatch.ofOp op, batch.points ≠ [] →
        engine.exceedsLimit batch.metric batch.tags = false ∧
          engine.KeepsTimes nexus (engine.metricFor batch.metric) batch.tags batch.points) ∧
      Replayable (replayPoints nexus engine op) ops

variable {nexus} {engine : TimeSeriesEngine}

theorem named_replayPoints (h : engine.Named) (op : Op) : (replayPoints nexus engine op).Named := by
  unfold replayPoints
  split
  · exact h
  · unfold TimeSeriesEngine.writeBatch
    split_ifs <;> exact h

theorem pointsOf_replay (hnamed : engine.Named) {ops : List Op}
    (hops : Replayable nexus engine ops) (seriesId : String) :
    (ops.foldl (replayPoints nexus) engine).pointsOf nexus seriesId =
      engine.pointsOf nexus seriesId + pointsIn (ops.filterMap PointBatch.ofOp) seriesId := by
  induction ops generalizing engine with
  | nil => exact (add_zero _).symm
  | cons op ops ih =>
    obtain ⟨hop, hops⟩ := hops
    rw [List.foldl_cons, ih (named_replayPoints hnamed op) hops]
    cases hbatch : PointBatch.ofOp op with
    | none =>
      rw [replayPoints, hbatch, List.filterMap_cons_none hbatch]
    | some batch =>
      rw [List.filterMap_cons_some hbatch, pointsIn_cons, ← add_assoc]
      congr 1
      unfold replayPoints TimeSeriesEngine.writeBatch
      rw [hbatch]
      dsimp only
      by_cases hempty : batch.points = []
      · rw [if_pos (by simp [hempty]), hempty]
        simp
      · obtain ⟨hlimit, hkeeps⟩ := hop batch hbatch hempty
        rw [if_neg (by simpa using hempty), hlimit]
        change (engine.addBatch nexus _ _ _).pointsOf nexus seriesId = _
        rw [TimeSeriesEngine.pointsOf_addBatch hkeeps, hnamed.metricFor]
        rfl

end Replay

/-! ## Runs -/

/-- A call in progress. -/
inductive WriteCall where
  | admitted (batch : PointBatch) (metric : Metric)
  | applied (batch : PointBatch)

/-- The points that a call has put into a series and has not logged. -/
def WriteCall.pending (seriesId : String) : WriteCall → Multiset DataPoint
  | .admitted _ _ => 0
  | .applied batch => pointsIn [batch] seriesId

/-- A checkpoint in progress, with the last generation that it has. -/
inductive PointCheckpoint where
  | idle
  | captured (covered : ℕ) (state : PersistedState)
  | saved (covered : ℕ)

structure PointServer where
  engine : TimeSeriesEngine
  generation : ℕ
  calls : Table ℕ WriteCall
  checkpoint : PointCheckpoint

/-- What happens to the points. -/
inductive PointAction where
  | start
  | begin (caller : ℕ) (batch : PointBatch)
  | apply (caller : ℕ)
  | log (caller : ℕ)
  | cut
  | save
  | abort
  /-- A retirement that removes so many segments before it ends, fails or is cut off. -/
  | retire (count : ℕ)
  | crash

/-- The data directory with the server, if one runs. -/
structure PointRun where
  dir : LogDir
  saved : Option PersistedState
  server : Option PointServer
  /-- The calls that have returned, in order, with the generations that they were logged in. -/
  acknowledged : List (ℕ × PointBatch)
  /-- The first generation that the saved data do not have. -/
  uncovered : ℕ

namespace PointRun

variable (codec : OpCodec) (nexus : NexusCodec) (config : EngineConfig) (s : PointRun)

/-- Start a server. -/
def start : PointRun :=
  let ops := LogDir.recover codec s.dir
  let next := OpLogRun.nextGeneration s.dir
  { s with
    dir := LogDir.createSegment s.dir next
    server := some
      { engine := ops.foldl (replayPoints nexus) (TimeSeriesEngine.loadFromDisk config s.saved)
        generation := next
        calls := ∅
        checkpoint := .idle } }

/-- One step of a server. -/
def serverStep (server : PointServer) : PointAction → Option PointRun
  | .start => none
  | .begin caller batch =>
      if caller ∈ server.calls then none
      else if batch.points.isEmpty then
        some { s with server := some { server with
          calls := server.calls.insert caller (.applied batch) } }
      else if server.engine.exceedsLimit batch.metric batch.tags then some s
      else
        some { s with server := some { server with
          calls := server.calls.insert caller
            (.admitted batch (server.engine.metricFor batch.metric)) } }
  | .apply caller =>
      match server.calls.lookup caller with
      | some (.admitted batch metric) =>
          some { s with server := some { server with
            engine := server.engine.addBatch nexus metric batch.tags batch.points
            calls := server.calls.insert caller (.applied batch) } }
      | _ => none
  | .log caller =>
      match server.calls.lookup caller with
      | some (.applied batch) =>
          some { s with
            dir := LogDir.append codec s.dir server.generation batch.op
            server := some { server with calls := server.calls.erase caller }
            acknowledged := s.acknowledged ++ [(server.generation, batch)] }
      | _ => none
  | .cut =>
      -- no call is in progress
      match server.checkpoint, server.calls.keys with
      | .idle, [] =>
          some { s with
            dir := LogDir.createSegment s.dir (server.generation + 1)
            server := some { server with
              generation := server.generation + 1
              checkpoint := .captured server.generation server.engine.capture } }
      | _, _ => none
  | .save =>
      match server.checkpoint with
      | .captured covered state =>
          some { s with
            saved := some state
            server := some { server with checkpoint := .saved covered }
            uncovered := covered + 1 }
      | _ => none
  | .abort => some { s with server := some { server with checkpoint := .idle } }
  | .retire count =>
      match server.checkpoint with
      | .saved covered =>
          some { s with
            dir := LogDir.retire s.dir covered count
            server := some { server with checkpoint := .idle } }
      | _ => none
  | .crash => some { s with server := none }

/-- One step. -/
def step (a : PointAction) : Option PointRun :=
  match s.server with
  | some server => s.serverStep codec nexus server a
  | none =>
      match a with
      | .start => some (s.start codec nexus config)
      | _ => none

def system : System PointRun PointAction where
  init := { dir := ∅, saved := none, server := none, acknowledged := [], uncovered := 0 }
  step := step codec nexus config

/-- A server has every point of the calls that have returned or are in progress once, in its series,
and no other.  Where it has just started, no call is in progress. -/
def ExactlyOnce : Prop :=
  ∀ server ∈ s.server, ∀ seriesId, server.engine.pointsOf nexus seriesId =
    pointsIn (s.acknowledged.map Prod.snd) seriesId +
      Table.sumValues (WriteCall.pending seriesId) server.calls

/-- Where a server starts, no record in the log that the saved data have has any points, and the log
can be replayed; no finer time than milliseconds is sealed; and what is logged fits. -/
def Clean : PointAction → Prop
  | .start =>
      (∀ g bytes, s.dir.lookup g = some bytes → g < s.uncovered →
        ∀ op ∈ (readSegment codec bytes).1, ∀ batch ∈ PointBatch.ofOp op, batch.points = []) ∧
      Replayable nexus (TimeSeriesEngine.loadFromDisk config s.saved) (LogDir.recover codec s.dir)
  | .apply caller => ∀ server ∈ s.server, ∀ batch metric,
      server.calls.lookup caller = some (.admitted batch metric) →
        server.engine.KeepsTimes nexus metric batch.tags batch.points
  | .log caller => ∀ server ∈ s.server, ∀ batch,
      server.calls.lookup caller = some (.applied batch) → batch.points ≠ [] →
        codec.fits batch.op = true ∧ batch.fits = true
  | _ => True

/-! ## The invariant -/

/-- The calls that have returned and were logged. -/
def logged : List (ℕ × PointBatch) :=
  s.acknowledged.filter fun e => codec.fits e.2.op

/-- The calls that were logged before a generation. -/
def before (generation : ℕ) : List PointBatch :=
  (s.acknowledged.filter fun e => e.1 < generation).map Prod.snd

/-- A checkpoint in progress has what was logged before its cut. -/
def CheckpointInvariant (server : PointServer) : PointCheckpoint → Prop
  | .idle => True
  | .captured covered state =>
      covered < server.generation ∧ covered + 1 ∈ s.dir ∧ s.uncovered ≤ covered + 1 ∧
        ∀ seriesId, (TimeSeriesEngine.loadFromDisk config (some state)).pointsOf nexus seriesId =
          pointsIn (s.before (covered + 1)) seriesId
  | .saved covered => s.uncovered = covered + 1

/-- A server appends to the last segment, and its engine has every point once. -/
structure ServerInvariant (server : PointServer) : Prop where
  current : server.generation ∈ s.dir
  last : ∀ g ∈ s.dir, g ≤ server.generation
  points : ∀ seriesId, server.engine.pointsOf nexus seriesId =
    pointsIn (s.acknowledged.map Prod.snd) seriesId +
      Table.sumValues (WriteCall.pending seriesId) server.calls
  named : server.engine.Named
  admitted : ∀ caller batch metric, server.calls.lookup caller = some (.admitted batch metric) →
    metric.name = batch.metric
  checkpoint : s.CheckpointInvariant nexus config server server.checkpoint

/-- What was logged is in the saved data or in the log. -/
structure Invariant : Prop where
  log : RedoLog codec s.dir ((s.logged codec).map fun e => (e.1, e.2.op))
  saved : ∀ seriesId, (TimeSeriesEngine.loadFromDisk config s.saved).pointsOf nexus seriesId =
    pointsIn (s.before s.uncovered) seriesId
  uncovered : s.uncovered = 0 ∨ s.uncovered ∈ s.dir
  kept : ∀ e ∈ s.acknowledged, s.uncovered ≤ e.1 → e.1 ∈ s.dir
  fits : ∀ e ∈ s.acknowledged, PointBatch.ofOp e.2.op = some e.2 ∧
    (codec.fits e.2.op = false → e.2.points = [])
  server : ∀ server ∈ s.server, s.ServerInvariant nexus config server

section Steps

variable {codec} {nexus} {config} {s}

theorem Invariant.init : (system codec nexus config).init.Invariant codec nexus config where
  log := RedoLog.empty codec
  saved := fun _ => rfl
  uncovered := .inl rfl
  kept := by
    intro e he
    cases he
  fits := by
    intro e he
    cases he
  server := by
    intro server hserver
    cases hserver

theorem Invariant.filterMap_recover (h : s.Invariant codec nexus config) :
    (LogDir.recover codec s.dir).filterMap PointBatch.ofOp =
      (s.acknowledged.filter fun e => codec.fits e.2.op && decide (e.1 ∈ s.dir)).map Prod.snd := by
  rw [h.log.recover, List.filter_map, List.map_map, logged, List.filter_filter,
    List.filterMap_map]
  have hfilter : (s.acknowledged.filter fun e =>
      ((fun e => decide (e.1 ∈ s.dir)) ∘ fun e : ℕ × PointBatch => (e.1, e.2.op)) e &&
        codec.fits e.2.op) =
      s.acknowledged.filter fun e => codec.fits e.2.op && decide (e.1 ∈ s.dir) :=
    List.filter_congr fun e _ => Bool.and_comm _ _
  rw [hfilter]
  rw [← List.filterMap_eq_map]
  exact List.filterMap_congr fun e he => (h.fits e (List.mem_filter.mp he).1).1

theorem Invariant.pointsOf_start (h : s.Invariant codec nexus config)
    (hclean : s.Clean codec nexus config .start) (seriesId : String) :
    ((LogDir.recover codec s.dir).foldl (replayPoints nexus)
        (TimeSeriesEngine.loadFromDisk config s.saved)).pointsOf nexus seriesId =
      pointsIn (s.acknowledged.map Prod.snd) seriesId := by
  rw [pointsOf_replay (TimeSeriesEngine.named_loadFromDisk config s.saved) hclean.2, h.saved,
    h.filterMap_recover]
  simp only [pointsIn, before, List.map_map]
  refine sum_filter_add_filter fun e he hpq => ?_
  have hempty : e.2.points = [] := by
    obtain ⟨hop, hunfit⟩ := h.fits e he
    by_cases hcovered : e.1 < s.uncovered
    · simp only [hcovered, decide_true, Bool.true_eq, Bool.and_eq_true, decide_eq_true_eq] at hpq
      obtain ⟨hfits, hdir⟩ := hpq
      obtain ⟨bytes, hbytes⟩ := Option.isSome_iff_exists.mp (AList.lookup_isSome.mpr hdir)
      refine hclean.1 e.1 bytes hbytes hcovered e.2.op ?_ e.2 hop
      rw [h.log.read e.1 bytes hbytes]
      refine mem_segment.mpr (List.mem_map.mpr ⟨e, List.mem_filter.mpr ⟨he, hfits⟩, rfl⟩)
    · refine hunfit ?_
      simpa [hcovered, h.kept e he (not_lt.mp hcovered)] using hpq
  simp [hempty]

theorem Invariant.start (h : s.Invariant codec nexus config)
    (hclean : s.Clean codec nexus config .start) :
    (s.start codec nexus config).Invariant codec nexus config := by
  have hnew : ∀ g ∈ s.dir, g < OpLogRun.nextGeneration s.dir :=
    fun g hg => OpLogRun.lt_nextGeneration hg
  have hkept (g : ℕ) (hg : g ∈ s.dir) :
      g ∈ LogDir.createSegment s.dir (OpLogRun.nextGeneration s.dir) :=
    (OpLogRun.mem_createSegment _ _).mpr (.inr hg)
  refine ⟨h.log.createSegment hnew, h.saved, h.uncovered.imp_right (hkept _),
    fun e he hle => hkept _ (h.kept e he hle), h.fits, ?_⟩
  intro server hserver
  obtain rfl := Option.some.inj hserver
  refine ⟨(OpLogRun.mem_createSegment _ _).mpr (.inl rfl), ?_, ?_, ?_, ?_, trivial⟩
  · intro g hg
    rcases (OpLogRun.mem_createSegment _ _).mp hg with rfl | hg
    · exact le_rfl
    · exact (hnew g hg).le
  · intro seriesId
    exact (h.pointsOf_start hclean seriesId).trans (add_zero _).symm
  · have hnamed (ops : List Op) (engine : TimeSeriesEngine) (hengine : engine.Named) :
        (ops.foldl (replayPoints nexus) engine).Named := by
      induction ops generalizing engine with
      | nil => exact hengine
      | cons op ops ih => exact ih _ (named_replayPoints hengine op)
    exact hnamed _ _ (TimeSeriesEngine.named_loadFromDisk config s.saved)
  · intro caller batch metric hcall
    cases hcall

theorem Invariant.withServer (h : s.Invariant codec nexus config) {server : PointServer}
    (hserver : s.ServerInvariant nexus config server) :
    ({ s with server := some server } : PointRun).Invariant codec nexus config := by
  refine ⟨h.log, h.saved, h.uncovered, h.kept, h.fits, ?_⟩
  intro server' hserver'
  obtain rfl := Option.some.inj hserver'
  exact ⟨hserver.current, hserver.last, hserver.points, hserver.named, hserver.admitted,
    hserver.checkpoint⟩

theorem ServerInvariant.begin {server : PointServer} (h : s.ServerInvariant nexus config server)
    {caller : ℕ} {call : WriteCall} (hnew : caller ∉ server.calls)
    (hpending : ∀ seriesId, call.pending seriesId = 0)
    (hname : ∀ batch metric, call = .admitted batch metric → metric.name = batch.metric) :
    s.ServerInvariant nexus config { server with calls := server.calls.insert caller call } where
  current := h.current
  last := h.last
  points := by
    intro seriesId
    rw [Table.sumValues_insert, hpending, zero_add,
      Table.sumValues_erase_of_none _ (AList.lookup_eq_none.mpr hnew)]
    exact h.points seriesId
  named := h.named
  admitted := by
    intro caller' batch metric hcall
    dsimp only at hcall
    rw [Table.lookup_insert] at hcall
    split_ifs at hcall
    · exact hname batch metric (Option.some.inj hcall)
    · exact h.admitted caller' batch metric hcall
  checkpoint := h.checkpoint

theorem ServerInvariant.apply {server : PointServer} (h : s.ServerInvariant nexus config server)
    {caller : ℕ} {batch : PointBatch} {metric : Metric}
    (hcall : server.calls.lookup caller = some (.admitted batch metric))
    (hkeeps : server.engine.KeepsTimes nexus metric batch.tags batch.points) :
    s.ServerInvariant nexus config { server with
      engine := server.engine.addBatch nexus metric batch.tags batch.points
      calls := server.calls.insert caller (.applied batch) } where
  current := h.current
  last := h.last
  points := by
    intro seriesId
    have hpoints := h.points seriesId
    rw [Table.sumValues_eq_add_erase _ hcall] at hpoints
    rw [TimeSeriesEngine.pointsOf_addBatch hkeeps, hpoints, Table.sumValues_insert,
      h.admitted caller batch metric hcall, WriteCall.pending, WriteCall.pending, pointsIn_cons,
      zero_add, add_assoc]
    congr 1
    rw [add_comm]
    exact congrArg (· + _) (add_zero _).symm
  named := h.named
  admitted := by
    intro caller' batch' metric' hcall'
    dsimp only at hcall'
    rw [Table.lookup_insert] at hcall'
    split_ifs at hcall'
    · cases hcall'
    · exact h.admitted caller' batch' metric' hcall'
  checkpoint := h.checkpoint

theorem Invariant.uncovered_le (h : s.Invariant codec nexus config) {server : PointServer}
    (hserver : s.ServerInvariant nexus config server) : s.uncovered ≤ server.generation := by
  rcases h.uncovered with hzero | hmem
  · exact hzero ▸ Nat.zero_le _
  · exact hserver.last _ hmem

theorem mem_append (dir : LogDir) (g g' : ℕ) (op : Op) :
    g' ∈ LogDir.append codec dir g op ↔ g' ∈ dir := by
  unfold LogDir.append
  split_ifs
  · exact OpLogRun.mem_write _ _ _
  · rfl

theorem before_append {g generation : ℕ} (hle : generation ≤ g) (batch : PointBatch) (dir : LogDir)
    (server : Option PointServer) :
    ({ s with
        dir, server
        acknowledged := s.acknowledged ++ [(g, batch)] } : PointRun).before generation =
      s.before generation := by
  have hnot : ¬ g < generation := not_lt.mpr hle
  simp [before, hnot]

theorem Invariant.append (h : s.Invariant codec nexus config) {server : PointServer}
    (hserver : s.ServerInvariant nexus config server) {caller : ℕ} {batch : PointBatch}
    (hcall : server.calls.lookup caller = some (.applied batch))
    (hfits : batch.points ≠ [] → codec.fits batch.op = true ∧ batch.fits = true) :
    ({ s with
      dir := LogDir.append codec s.dir server.generation batch.op
      server := some { server with calls := server.calls.erase caller }
      acknowledged := s.acknowledged ++ [(server.generation, batch)] } : PointRun).Invariant
        codec nexus config where
  log := by
    by_cases hop : codec.fits batch.op = true
    · have hlog := h.log.append hop hserver.current hserver.last
      simpa [logged, hop] using hlog
    · have hdir : LogDir.append codec s.dir server.generation batch.op = s.dir := if_neg hop
      simpa [logged, hop, hdir] using h.log
  saved := by
    intro seriesId
    rw [before_append (h.uncovered_le hserver)]
    exact h.saved seriesId
  uncovered := h.uncovered.imp_right (mem_append _ _ _ _).mpr
  kept := by
    intro e he hle
    rw [mem_append]
    rcases List.mem_append.mp he with he | he
    · exact h.kept e he hle
    · obtain rfl := List.mem_singleton.mp he
      exact hserver.current
  fits := by
    intro e he
    rcases List.mem_append.mp he with he | he
    · exact h.fits e he
    · obtain rfl := List.mem_singleton.mp he
      by_cases hempty : batch.points = []
      · refine ⟨PointBatch.ofOp_op ?_, fun _ => hempty⟩
        rw [PointBatch.fits, hempty]
        rfl
      · obtain ⟨hop, hbatch⟩ := hfits hempty
        refine ⟨PointBatch.ofOp_op hbatch, fun hunfit => ?_⟩
        rw [hop] at hunfit
        cases hunfit
  server := by
    intro server' hserver'
    obtain rfl := Option.some.inj hserver'
    refine ⟨(mem_append _ _ _ _).mpr hserver.current,
      fun g hg => hserver.last g ((mem_append _ _ _ _).mp hg), ?_, hserver.named, ?_, ?_⟩
    · intro seriesId
      have hpoints := hserver.points seriesId
      rw [Table.sumValues_eq_add_erase _ hcall, WriteCall.pending, ← add_assoc] at hpoints
      rw [List.map_append, pointsIn_append]
      exact hpoints
    · intro caller' batch' metric hcall'
      dsimp only at hcall'
      exact hserver.admitted caller' batch' metric (Table.lookup_of_lookup_erase hcall')
    · have hcheckpoint := hserver.checkpoint
      dsimp only
      cases hphase : server.checkpoint with
      | idle => trivial
      | saved covered =>
        rw [hphase] at hcheckpoint
        exact hcheckpoint
      | captured covered state =>
        rw [hphase] at hcheckpoint
        obtain ⟨hlt, hmem, hle, hstate⟩ := hcheckpoint
        refine ⟨hlt, (mem_append _ _ _ _).mpr hmem, hle, fun seriesId => ?_⟩
        rw [before_append (Nat.succ_le_of_lt hlt)]
        exact hstate seriesId

/-- The log is cut, and the engine copied, while no call is in progress. -/
theorem Invariant.cut (h : s.Invariant codec nexus config) {server : PointServer}
    (hserver : s.ServerInvariant nexus config server) (hcalls : server.calls.keys = []) :
    ({ s with
      dir := LogDir.createSegment s.dir (server.generation + 1)
      server := some { server with
        generation := server.generation + 1
        checkpoint := .captured server.generation server.engine.capture } } : PointRun).Invariant
          codec nexus config := by
  have hnew : ∀ g ∈ s.dir, g < server.generation + 1 :=
    fun g hg => Nat.lt_succ_of_le (hserver.last g hg)
  have hkept (g : ℕ) (hg : g ∈ s.dir) :
      g ∈ LogDir.createSegment s.dir (server.generation + 1) :=
    (OpLogRun.mem_createSegment _ _).mpr (.inr hg)
  have hnext : server.generation + 1 ∈ LogDir.createSegment s.dir (server.generation + 1) :=
    (OpLogRun.mem_createSegment _ _).mpr (.inl rfl)
  refine ⟨h.log.createSegment hnew, h.saved, h.uncovered.imp_right (hkept _),
    fun e he hle => hkept _ (h.kept e he hle), h.fits, ?_⟩
  intro server' hserver'
  obtain rfl := Option.some.inj hserver'
  refine ⟨hnext, ?_, hserver.points, hserver.named, hserver.admitted, Nat.lt_succ_self _, hnext,
    (h.uncovered_le hserver).trans (Nat.le_succ _), ?_⟩
  · intro g hg
    rcases (OpLogRun.mem_createSegment _ _).mp hg with rfl | hg
    · exact le_rfl
    · exact (hnew g hg).le
  · intro seriesId
    have hempty : server.calls = ∅ := AList.ext (List.map_eq_nil_iff.mp hcalls)
    have hall : s.before (server.generation + 1) = s.acknowledged.map Prod.snd := by
      refine congrArg (List.map Prod.snd) (List.filter_eq_self.mpr fun e he => ?_)
      rcases le_or_gt s.uncovered e.1 with hle | hlt
      · exact decide_eq_true (hnew e.1 (h.kept e he hle))
      · have := h.uncovered_le hserver
        exact decide_eq_true (by omega)
    have hpoints := hserver.points seriesId
    rw [hempty, Table.sumValues_empty, add_zero] at hpoints
    rw [TimeSeriesEngine.pointsOf_loadFromDisk_capture, hpoints]
    exact congrArg (pointsIn · seriesId) hall.symm

theorem Invariant.save (h : s.Invariant codec nexus config) {server : PointServer}
    (hserver : s.ServerInvariant nexus config server) {covered : ℕ} {state : PersistedState}
    (hphase : server.checkpoint = .captured covered state) :
    ({ s with
      saved := some state
      server := some { server with checkpoint := .saved covered }
      uncovered := covered + 1 } : PointRun).Invariant codec nexus config := by
  have hcheckpoint := hserver.checkpoint
  rw [hphase] at hcheckpoint
  obtain ⟨-, hmem, hle, hstate⟩ := hcheckpoint
  refine ⟨h.log, hstate, .inr hmem, fun e he hle' => h.kept e he (hle.trans hle'), h.fits, ?_⟩
  intro server' hserver'
  obtain rfl := Option.some.inj hserver'
  exact ⟨hserver.current, hserver.last, hserver.points, hserver.named, hserver.admitted, rfl⟩

theorem ServerInvariant.idle {server : PointServer} (h : s.ServerInvariant nexus config server) :
    s.ServerInvariant nexus config { server with checkpoint := .idle } :=
  ⟨h.current, h.last, h.points, h.named, h.admitted, trivial⟩

theorem Invariant.retire (h : s.Invariant codec nexus config) {server : PointServer}
    (hserver : s.ServerInvariant nexus config server) {covered : ℕ}
    (hphase : server.checkpoint = .saved covered) (count : ℕ) :
    ({ s with
      dir := LogDir.retire s.dir covered count
      server := some { server with checkpoint := .idle } } : PointRun).Invariant
        codec nexus config := by
  have hcovered : s.uncovered = covered + 1 := by
    have hcheckpoint := hserver.checkpoint
    rw [hphase] at hcheckpoint
    exact hcheckpoint
  have hkept (g : ℕ) (hg : g ∈ s.dir) (hle : s.uncovered ≤ g) :
      g ∈ LogDir.retire s.dir covered count := by
    refine (mem_eraseAll _ _ _).mpr ⟨hg, fun hmem => ?_⟩
    have hold : g ≤ covered := by
      simpa using (List.mem_filter.mp (List.mem_of_mem_take hmem)).2
    omega
  have hmem (g : ℕ) (hg : g ∈ LogDir.retire s.dir covered count) : g ∈ s.dir :=
    ((mem_eraseAll _ _ _).mp hg).1
  have hcurrent := hkept _ hserver.current (h.uncovered_le hserver)
  refine ⟨h.log.eraseAll hserver.current hserver.last ((mem_eraseAll _ _ _).mp hcurrent).2,
    h.saved, h.uncovered.imp_right fun hg => hkept _ hg le_rfl,
    fun e he hle => hkept _ (h.kept e he hle) hle, h.fits, ?_⟩
  intro server' hserver'
  obtain rfl := Option.some.inj hserver'
  exact ⟨hcurrent, fun g hg => hserver.last g (hmem g hg), hserver.points, hserver.named,
    hserver.admitted, trivial⟩

theorem Invariant.step {a : PointAction} {s' : PointRun} (h : s.Invariant codec nexus config)
    (hclean : s.Clean codec nexus config a) (hstep : s.step codec nexus config a = some s') :
    s'.Invariant codec nexus config := by
  unfold PointRun.step at hstep
  cases hs : s.server with
  | none =>
    rw [hs] at hstep
    cases a with
    | start =>
      obtain rfl := Option.some.inj hstep
      exact h.start hclean
    | _ => cases hstep
  | some server =>
    rw [hs] at hstep
    have hserver := h.server server hs
    cases a with
    | start => cases hstep
    | begin caller batch =>
      simp only [serverStep] at hstep
      split_ifs at hstep with hcaller hempty hlimit
      · obtain rfl := Option.some.inj hstep
        refine h.withServer (hserver.begin hcaller (fun seriesId => ?_) fun _ _ heq => ?_)
        · rw [WriteCall.pending, pointsIn_cons, List.isEmpty_iff.mp hempty]
          simp [pointsIn]
        · cases heq
      · obtain rfl := Option.some.inj hstep
        exact h
      · obtain rfl := Option.some.inj hstep
        refine h.withServer (hserver.begin hcaller (fun _ => rfl) fun batch' metric heq => ?_)
        cases heq
        exact hserver.named.metricFor _
    | apply caller =>
      simp only [serverStep] at hstep
      split at hstep
      · rename_i batch metric hcall
        obtain rfl := Option.some.inj hstep
        exact h.withServer (hserver.apply hcall (hclean server hs batch metric hcall))
      · cases hstep
    | log caller =>
      simp only [serverStep] at hstep
      split at hstep
      · rename_i batch hcall
        obtain rfl := Option.some.inj hstep
        exact h.append hserver hcall (hclean server hs batch hcall)
      · cases hstep
    | cut =>
      simp only [serverStep] at hstep
      split at hstep
      · rename_i hcalls
        obtain rfl := Option.some.inj hstep
        exact h.cut hserver hcalls
      · cases hstep
    | save =>
      simp only [serverStep] at hstep
      split at hstep
      · rename_i covered state hphase
        obtain rfl := Option.some.inj hstep
        exact h.save hserver hphase
      · cases hstep
    | abort =>
      obtain rfl := Option.some.inj hstep
      exact h.withServer hserver.idle
    | retire count =>
      simp only [serverStep] at hstep
      split at hstep
      · rename_i covered hphase
        obtain rfl := Option.some.inj hstep
        exact h.retire hserver hphase count
      · cases hstep
    | crash =>
      obtain rfl := Option.some.inj hstep
      refine ⟨h.log, h.saved, h.uncovered, h.kept, h.fits, fun server' hserver' => ?_⟩
      cases hserver'

end Steps

/-- If servers start only where no record that the saved data have is still in the log with any
points, and no time is cut off or does not fit into the log, then a server has every point once. -/
theorem exactlyOnce_of_clean (codec : OpCodec) (nexus : NexusCodec) (config : EngineConfig)
    (s : PointRun) (h : (system codec nexus config).Reach (Clean codec nexus config) s) :
    s.ExactlyOnce nexus := by
  have hinv : s.Invariant codec nexus config := by
    refine h.invariant Invariant.init ?_
    intro s a s' _ hs hclean hstep
    exact hs.step hclean hstep
  exact fun server hserver seriesId => (hinv.server server hserver).points seriesId

/-- The encoding of a record of one point of the metric `cpu` without tags, up to the point. -/
def cpuHeader : Bytes :=
  le 4 6 ++ le 8 3 ++ [99, 112, 117] ++ le 8 0 ++ le 8 1

/-- The encoding of such records; other records are refused. -/
def cpuCodec : OpCodec where
  serialize
    | .tsWrite metric tags [(nanos, value)] =>
        if metric = "cpu" ∧ tags = ∅ ∧ -2 ^ 63 ≤ nanos ∧ nanos < 2 ^ 63 then
          some (cpuHeader ++
            (le 8 (Int64.ofInt nanos).toUInt64.toNat ++ le 8 value.bits.toNat))
        else none
    | _ => none
  deserialize bytes :=
    let nanos := getLe 8 (bytes.drop 31)
    let bits := getLe 8 nanos.2
    if bytes.take 31 = cpuHeader ∧ bits.2 = [] then
      some (.tsWrite "cpu" ∅ [((UInt64.ofNat nanos.1).toInt64.toInt, ⟨UInt64.ofNat bits.1⟩)])
    else none
  deserialize_serialize := by
    intro op bytes h
    split at h
    · rename_i metric tags nanos value
      split_ifs at h with hop
      obtain ⟨rfl, rfl, hlow, hhigh⟩ := hop
      obtain rfl := Option.some.inj h
      have hlength : cpuHeader.length = 31 := rfl
      have hnanos := (Int64.ofInt nanos).toUInt64.toNat_lt
      have hbits := value.bits.toNat_lt
      dsimp only
      rw [List.take_left' hlength, List.drop_left' hlength, getLe_le]
      dsimp only
      rw [← List.append_nil (le 8 value.bits.toNat), getLe_le, if_pos ⟨rfl, rfl⟩,
        Nat.mod_eq_of_lt (by simpa using hnanos), Nat.mod_eq_of_lt (by simpa using hbits),
        UInt64.ofNat_toNat, UInt64.ofNat_toNat, Int64.toInt64_toUInt64,
        Int64.toInt_ofInt_of_le hlow hhigh]
    · cases h

def noFrames : NexusCodec :=
  ⟨fun _ => none⟩

section Decidable

variable (codec : OpCodec) (nexus : NexusCodec) (config : EngineConfig)

instance (engine : TimeSeriesEngine) (metric : Metric) (tags : Tags) (points : List DataPoint) :
    Decidable (engine.KeepsTimes nexus metric tags points) :=
  inferInstanceAs (Decidable (_ = true → _ = true → ∀ p ∈ (_ : List DataPoint), p.timestamp.IsWhole))

instance decidableReplayable (engine : TimeSeriesEngine) :
    (ops : List Op) → Decidable (Replayable nexus engine ops)
  | [] => .isTrue trivial
  | op :: ops =>
      @instDecidableAnd _ _ (Option.decidableForallMem _)
        (decidableReplayable (replayPoints nexus engine op) ops)

instance (call : Option WriteCall) (p : PointBatch → Metric → Prop)
    [∀ batch metric, Decidable (p batch metric)] :
    Decidable (∀ batch metric, call = some (.admitted batch metric) → p batch metric) :=
  match call with
  | some (.admitted batch metric) =>
      decidable_of_iff (p batch metric)
        ⟨fun h _ _ heq => by cases heq; exact h, fun h => h batch metric rfl⟩
  | some (.applied _) | none => .isTrue fun _ _ heq => by cases heq

instance (call : Option WriteCall) (p : PointBatch → Prop) [DecidablePred p] :
    Decidable (∀ batch, call = some (.applied batch) → p batch) :=
  match call with
  | some (.applied batch) =>
      decidable_of_iff (p batch) ⟨fun h _ heq => by cases heq; exact h, fun h => h batch rfl⟩
  | some (.admitted _ _) | none => .isTrue fun _ heq => by cases heq

instance (dir : LogDir) (p : ℕ → Bytes → Prop) [∀ g bytes, Decidable (p g bytes)] :
    Decidable (∀ g bytes, dir.lookup g = some bytes → p g bytes) :=
  decidable_of_iff (∀ e ∈ dir.entries, p e.1 e.2)
    ⟨fun h g bytes hg => h ⟨g, bytes⟩ (AList.mem_lookup_iff.mp hg),
      fun h e he => h e.1 e.2 (AList.mem_lookup_iff.mpr he)⟩

instance (s : PointRun) : (a : PointAction) → Decidable (s.Clean codec nexus config a)
  | .start =>
      letI (op : Op) : Decidable (∀ batch ∈ PointBatch.ofOp op, batch.points = []) :=
        Option.decidableForallMem _
      inferInstanceAs (Decidable ((∀ g bytes, s.dir.lookup g = some bytes → g < s.uncovered →
        ∀ op ∈ (readSegment codec bytes).1, ∀ batch ∈ PointBatch.ofOp op, batch.points = []) ∧ _))
  | .apply _ => Option.decidableForallMem _
  | .log _ => Option.decidableForallMem _
  | .begin _ _ | .cut | .save | .abort | .retire _ | .crash => .isTrue trivial

end Decidable

def firstBatch : PointBatch :=
  ⟨"cpu", ∅, [⟨⟨1700000000001000000, by decide⟩, ⟨0x3FF0000000000000⟩⟩]⟩

def secondBatch : PointBatch :=
  ⟨"cpu", ∅, [⟨⟨1700000000002000000, by decide⟩, ⟨0x4000000000000000⟩⟩]⟩

def thirdBatch : PointBatch :=
  ⟨"cpu", ∅, [⟨⟨1700000000003000000, by decide⟩, ⟨0x4008000000000000⟩⟩]⟩

/-- Two calls that are covered by a checkpoint and sealed into a block, and one during the checkpoint;
the log is retired, and the server stops and starts again. -/
def checkpointedRun : List PointAction :=
  [.start, .begin 0 firstBatch, .begin 1 secondBatch, .apply 0, .apply 1, .log 1, .log 0, .cut,
    .begin 0 thirdBatch, .apply 0, .save, .log 0, .retire 1, .crash, .start]

/-- After the restart the points of all three calls are there once. -/
theorem exactlyOnce_of_clean_checkpointedRun :
    ∃ s server, (system cpuCodec noFrames { compressionThreshold := 2 }).run
        (Clean cpuCodec noFrames { compressionThreshold := 2 }) checkpointedRun = some s ∧
      s.server = some server ∧ (server.engine.pointsOf noFrames "cpu:").card = 3 ∧
      s.acknowledged = [(1, secondBatch), (1, firstBatch), (2, thirdBatch)] ∧
      s.ExactlyOnce noFrames := by
  have hrun : ((system cpuCodec noFrames { compressionThreshold := 2 }).run
      (Clean cpuCodec noFrames { compressionThreshold := 2 }) checkpointedRun).any (fun s =>
        s.server.any (fun server => (server.engine.pointsOf noFrames "cpu:").card = 3) ∧
          s.acknowledged = [(1, secondBatch), (1, firstBatch), (2, thirdBatch)]) = true := by
    decide +kernel
  obtain ⟨s, hs, hreach, hend⟩ := System.exists_reach_of_any hrun
  obtain ⟨hserver, hack⟩ := of_decide_eq_true hend
  obtain ⟨server, hserver, hcard⟩ := (Option.any_eq_true _ _).mp hserver
  exact ⟨s, server, hs, hserver, of_decide_eq_true hcard, hack,
    exactlyOnce_of_clean cpuCodec noFrames { compressionThreshold := 2 } s hreach⟩

/-- A point that is written before a checkpoint, which stops before the log is retired. -/
def duplicatingRun : List PointAction :=
  [.start, .begin 0 ⟨"cpu", ∅, [⟨⟨1700000000123456789, by decide⟩, ⟨0x3FF0000000000000⟩⟩]⟩,
    .apply 0, .log 0, .cut, .save, .crash, .start]

/-- What is both saved and in the log is there twice. -/
theorem not_exactlyOnce :
    ¬ ∀ codec nexus config s, (system codec nexus config).Reachable s → s.ExactlyOnce nexus := by
  intro h
  have hrun : ((system cpuCodec noFrames {}).run (fun _ _ => True) duplicatingRun).map
      (fun s => (s.server.map fun server =>
        ((server.engine.pointsOf noFrames "cpu:").card,
          (pointsIn (s.acknowledged.map Prod.snd) "cpu:" +
            Table.sumValues (WriteCall.pending "cpu:") server.calls).card))) =
      some (some (2, 1)) := by
    decide +kernel
  obtain ⟨s, hs, heq⟩ := Option.map_eq_some_iff.mp hrun
  obtain ⟨server, hserver, heq⟩ := Option.map_eq_some_iff.mp heq
  have honce := h cpuCodec noFrames {} s (System.reach_of_run hs) server hserver "cpu:"
  rw [honce] at heq
  obtain ⟨htwo, hone⟩ := Prod.mk.inj heq
  omega

end PointRun

end Server

end AegisDB
