import AegisDB.Library.Table
import AegisDB.TimeSeries.Compression

/-!
# The time-series engine

A series is what has one id, which is made of the name of its metric and of its tags.  Its points
are in a buffer, from which they are sealed into blocks once there are enough of them.  Sealed
points have their times in milliseconds, so a series keeps its points only if those that are sealed
have no finer times.
-/

namespace AegisDB

namespace TimeSeries

inductive MetricType where
  | counter | gauge | histogram | summary
deriving DecidableEq

structure Metric where
  name : String
  metricType : MetricType
  description : Option String
  unit : Option String
deriving DecidableEq

/-- A metric that was not registered. -/
def Metric.gauge (name : String) : Metric where
  name := name
  metricType := .gauge
  description := none
  unit := none

abbrev Tags := Table String String

namespace Tags

/-- The tags as a text, in the order of their keys. -/
def seriesKey (tags : Tags) : String :=
  ",".intercalate
    ((tags.entries.insertionSort fun a b => a.1 ≤ b.1).map fun e => e.1 ++ "=" ++ e.2)

end Tags

/-! ## The index -/

structure SeriesMetadata where
  seriesId : String
  metricName : String
  tags : Tags

structure TimeSeriesIndex where
  seriesById : Table String SeriesMetadata := ∅
  seriesByMetric : Table String (Finset String) := ∅
  seriesByTag : Table String (Table String (Finset String)) := ∅

namespace TimeSeriesIndex

variable (index : TimeSeriesIndex)

def seriesIdFor (metricName : String) (tags : Tags) : String :=
  metricName ++ ":" ++ tags.seriesKey

/-- A series with one more tag that it can be found by. -/
def registerTag (seriesId : String) (byTag : Table String (Table String (Finset String)))
    (tag : Sigma fun _ : String => String) : Table String (Table String (Finset String)) :=
  let values := (byTag.lookup tag.1).getD ∅
  byTag.insert tag.1 (values.insert tag.2 (insert seriesId ((values.lookup tag.2).getD ∅)))

/-- Register a series. -/
def register (metric : Metric) (tags : Tags) : TimeSeriesIndex :=
  let seriesId := seriesIdFor metric.name tags
  { seriesById := index.seriesById.insert seriesId ⟨seriesId, metric.name, tags⟩
    seriesByMetric := index.seriesByMetric.insert metric.name
      (insert seriesId ((index.seriesByMetric.lookup metric.name).getD ∅))
    seriesByTag := tags.entries.foldl (registerTag seriesId) index.seriesByTag }

def contains (seriesId : String) : Bool :=
  seriesId ∈ index.seriesById

def countForMetric (metricName : String) : ℕ :=
  ((index.seriesByMetric.lookup metricName).map Finset.card).getD 0

end TimeSeriesIndex

/-! ## Buffers -/

structure SeriesBuffer where
  metric : Metric
  tags : Tags
  points : List DataPoint := []
  compressedBlocks : List CompressedBlock := []

namespace SeriesBuffer

variable (nexus : NexusCodec) (buffer : SeriesBuffer)

/-- Whether the buffered points would be sealed; a block that does not match them is dropped. -/
def canSeal : Bool :=
  !buffer.points.isEmpty &&
    blockMatchesPoints nexus (Compressor.compressAll buffer.points) buffer.points

/-- Seal the buffered points. -/
def compress : SeriesBuffer :=
  if buffer.canSeal nexus then
    { buffer with
      compressedBlocks := buffer.compressedBlocks ++ [Compressor.compressAll buffer.points]
      points := [] }
  else buffer

def allPoints : List DataPoint :=
  buffer.compressedBlocks.flatMap (decodeBlock nexus) ++ buffer.points

end SeriesBuffer

/-! ## The engine -/

structure EngineConfig where
  compressionEnabled : Bool := true
  compressionThreshold : ℕ := 1000
  maxSeriesPerMetric : ℕ := 100000
  maxQueryPoints : ℕ := 2000000

inductive EngineError where
  | metricAlreadyExists (name : String)
  | metricNotFound (name : String)
  | seriesNotFound (id : String)
  | invalidDataPoint (message : String)
  | storageError (message : String)
deriving DecidableEq

structure TimeSeriesEngine where
  config : EngineConfig
  index : TimeSeriesIndex := {}
  seriesData : Table String SeriesBuffer := ∅
  metrics : Table String Metric := ∅

/-- What a series is saved as. -/
structure PersistedSeries where
  seriesId : String
  metric : Metric
  tags : Tags
  points : List DataPoint
  compressedBlocks : List CompressedBlock

/-- What an engine is saved as. -/
structure PersistedState where
  version : ℕ
  metrics : List Metric
  series : List PersistedSeries

namespace TimeSeriesEngine

variable (nexus : NexusCodec) (engine : TimeSeriesEngine)

/-- Whether a series would be one too many of its metric. -/
def exceedsLimit (metricName : String) (tags : Tags) : Bool :=
  !engine.index.contains (TimeSeriesIndex.seriesIdFor metricName tags) &&
    engine.config.maxSeriesPerMetric ≤ engine.index.countForMetric metricName

def limitError (metricName : String) : EngineError :=
  .storageError (s!"Metric '{metricName}' exceeds max_series_per_metric limit of " ++
    toString engine.config.maxSeriesPerMetric)

def metricFor (metricName : String) : Metric :=
  (engine.metrics.lookup metricName).getD (Metric.gauge metricName)

def buffered (metric : Metric) (tags : Tags) (points : List DataPoint) : SeriesBuffer :=
  let seriesId := TimeSeriesIndex.seriesIdFor metric.name tags
  let buffer := (engine.seriesData.lookup seriesId).getD { metric, tags }
  { buffer with points := buffer.points ++ points }

/-- Whether a buffer is long enough to be sealed. -/
def isFull (buffer : SeriesBuffer) : Bool :=
  engine.config.compressionEnabled && engine.config.compressionThreshold ≤ buffer.points.length

/-- Register the series of a batch that is within the limit, and buffer its points. -/
def addBatch (metric : Metric) (tags : Tags) (points : List DataPoint) : TimeSeriesEngine :=
  let buffer := engine.buffered metric tags points
  let buffer := if engine.isFull buffer then buffer.compress nexus else buffer
  { engine with
    index := engine.index.register metric tags
    seriesData :=
      engine.seriesData.insert (TimeSeriesIndex.seriesIdFor metric.name tags) buffer }

/-- Write a batch of data points. -/
def writeBatch (metricName : String) (tags : Tags) (points : List DataPoint) :
    TimeSeriesEngine × Except EngineError Unit :=
  if points.isEmpty then (engine, .ok ())
  else if engine.exceedsLimit metricName tags then
    (engine, .error (engine.limitError metricName))
  else (engine.addBatch nexus (engine.metricFor metricName) tags points, .ok ())

/-- Copy the resident series. -/
def capture : PersistedState where
  version := 1
  metrics := engine.metrics.values
  series := engine.seriesData.entries.map fun e =>
    ⟨e.1, e.2.metric, e.2.tags, e.2.points, e.2.compressedBlocks⟩

/-- Restore a series. -/
def loadSeries (saved : PersistedSeries) : TimeSeriesEngine :=
  { engine with
    index := engine.index.register saved.metric saved.tags
    seriesData := engine.seriesData.insert saved.seriesId
      ⟨saved.metric, saved.tags, saved.points, saved.compressedBlocks⟩ }

/-- An engine with the data that was saved, if any was. -/
def loadFromDisk (config : EngineConfig) : Option PersistedState → TimeSeriesEngine
  | none => { config }
  | some state =>
      state.series.foldl loadSeries
        { config
          metrics := Table.ofValues Metric.name state.metrics }

/-! ### Points -/

/-- The points of a series, as often as they are there. -/
def pointsOf (seriesId : String) : Multiset DataPoint :=
  ((engine.seriesData.lookup seriesId).map fun buffer =>
    (buffer.allPoints nexus : Multiset DataPoint)).getD 0

/-- No point of a batch, and of the buffer that it joins, is sealed that has a finer time than
milliseconds. -/
def KeepsTimes (metric : Metric) (tags : Tags) (points : List DataPoint) : Prop :=
  let buffer := engine.buffered metric tags points
  engine.isFull buffer = true → buffer.canSeal nexus = true →
    ∀ p ∈ buffer.points, p.timestamp.IsWhole

section Points

variable {nexus} {engine}

theorem allPoints_compress {buffer : SeriesBuffer}
    (h : buffer.canSeal nexus = true → ∀ p ∈ buffer.points, p.timestamp.IsWhole) :
    (buffer.compress nexus).allPoints nexus = buffer.allPoints nexus := by
  unfold SeriesBuffer.compress
  split_ifs with hseal
  · have hmatches : blockMatchesPoints nexus (Compressor.compressAll buffer.points)
        buffer.points = true := by
      unfold SeriesBuffer.canSeal at hseal
      exact (Bool.and_eq_true_iff.mp hseal).2
    have hdecode := decodeBlock_of_matches hmatches (h hseal)
    simp only [SeriesBuffer.allPoints, List.flatMap_append, List.flatMap_singleton, hdecode,
      List.append_nil]
  · rfl

theorem pointsOf_addBatch {metric : Metric} {tags : Tags} {points : List DataPoint}
    (h : engine.KeepsTimes nexus metric tags points) (seriesId : String) :
    (engine.addBatch nexus metric tags points).pointsOf nexus seriesId =
      engine.pointsOf nexus seriesId +
        if TimeSeriesIndex.seriesIdFor metric.name tags = seriesId then
          (points : Multiset DataPoint) else 0 := by
  have hsealed : (if engine.isFull (engine.buffered metric tags points) then
        (engine.buffered metric tags points).compress nexus
      else engine.buffered metric tags points).allPoints nexus =
        (engine.buffered metric tags points).allPoints nexus := by
    split_ifs with hfull
    · exact allPoints_compress (h hfull)
    · rfl
  unfold pointsOf addBatch
  dsimp only
  rw [Table.lookup_insert]
  by_cases hid : seriesId = TimeSeriesIndex.seriesIdFor metric.name tags
  · rw [if_pos hid, if_pos hid.symm, hid, Option.map_some, Option.getD_some, hsealed]
    unfold buffered
    cases hbuffer : engine.seriesData.lookup (TimeSeriesIndex.seriesIdFor metric.name tags) with
    | none => simp [SeriesBuffer.allPoints, hbuffer]
    | some buffer =>
      simp only [hbuffer, Option.getD_some, Option.map_some, SeriesBuffer.allPoints,
        ← List.append_assoc, Multiset.coe_add]
  · rw [if_neg hid, if_neg (Ne.symm hid), add_zero]

theorem lookup_foldl_loadSeries (entries : List (Sigma fun _ : String => SeriesBuffer))
    (hnodup : (entries.map Sigma.fst).Nodup) (engine : TimeSeriesEngine) (seriesId : String) :
    ((entries.map fun e => (⟨e.1, e.2.metric, e.2.tags, e.2.points, e.2.compressedBlocks⟩ :
        PersistedSeries)).foldl loadSeries engine).seriesData.lookup seriesId =
      (entries.dlookup seriesId).or (engine.seriesData.lookup seriesId) := by
  induction entries generalizing engine with
  | nil => rfl
  | cons e entries ih =>
    obtain ⟨id, buffer⟩ := e
    rw [List.map_cons, List.nodup_cons] at hnodup
    rw [List.map_cons, List.foldl_cons, ih hnodup.2]
    have hload : (engine.loadSeries ⟨id, buffer.metric, buffer.tags, buffer.points,
        buffer.compressedBlocks⟩).seriesData = engine.seriesData.insert id buffer := rfl
    rw [hload, Table.lookup_insert]
    by_cases hid : seriesId = id
    · subst hid
      have hnone : entries.dlookup seriesId = none := List.dlookup_eq_none.mpr hnodup.1
      rw [hnone, List.dlookup_cons_eq, if_pos rfl]
      rfl
    · rw [List.dlookup_cons_ne _ _ hid, if_neg hid]

theorem pointsOf_loadFromDisk_capture (config : EngineConfig) (seriesId : String) :
    (loadFromDisk config (some engine.capture)).pointsOf nexus seriesId =
      engine.pointsOf nexus seriesId := by
  unfold pointsOf loadFromDisk capture
  dsimp only
  rw [lookup_foldl_loadSeries _ engine.seriesData.nodupKeys]
  change (Option.map _ ((engine.seriesData.lookup seriesId).or none)).getD 0 = _
  rw [Option.or_none]

def Named (engine : TimeSeriesEngine) : Prop :=
  ∀ name metric, engine.metrics.lookup name = some metric → metric.name = name

theorem Named.metricFor (h : engine.Named) (name : String) :
    (engine.metricFor name).name = name := by
  unfold TimeSeriesEngine.metricFor
  cases hmetric : engine.metrics.lookup name with
  | none => rfl
  | some metric => exact h name metric hmetric

theorem metrics_foldl_loadSeries (series : List PersistedSeries) (engine : TimeSeriesEngine) :
    (series.foldl loadSeries engine).metrics = engine.metrics := by
  induction series generalizing engine with
  | nil => rfl
  | cons saved series ih => exact ih _

theorem named_loadFromDisk (config : EngineConfig) (saved : Option PersistedState) :
    (loadFromDisk config saved).Named := by
  intro name metric hmetric
  cases saved with
  | none => cases hmetric
  | some state =>
    rw [loadFromDisk, metrics_foldl_loadSeries] at hmetric
    exact (Table.mem_of_lookup_ofValues hmetric).2

end Points

end TimeSeriesEngine

end TimeSeries

end AegisDB
