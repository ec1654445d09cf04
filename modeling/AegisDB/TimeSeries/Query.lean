import AegisDB.Library.Layers
import AegisDB.TimeSeries.Retention
import AegisDB.TimeSeries.SeriesIndex

/-!
# Queries of time series

A query takes the series of a metric or of some tags, and of each the blocks and the buffered points
that overlap its range.  The newest data come first: the buffered points, and then the blocks by
their last times.  The points are put in order, and of those with one time the first is kept.
-/

namespace AegisDB

namespace TimeSeries

open Layers (sortByKey dedupByKey)

namespace DateTime

instance : LinearOrder DateTime where
  le t t' := t ≤ t'
  lt t t' := t < t'
  le_refl t := Int.le_refl t.nanos
  le_trans _ _ _ := Int.le_trans
  lt_iff_le_not_ge t t' := lt_iff_le_not_ge (a := t.nanos) (b := t'.nanos)
  le_antisymm _ _ h h' := (DateTime.mk.injEq _ _ _ _).mpr (Int.le_antisymm h h')
  le_total t t' := Int.le_total t.nanos t'.nanos
  toDecidableLE t t' := inferInstanceAs (Decidable (t.nanos ≤ t'.nanos))
  toDecidableEq := inferInstance
  toDecidableLT t t' := inferInstanceAs (Decidable (t.nanos < t'.nanos))

end DateTime

/-! ## Queries and their results -/

/-- A time series query. -/
structure TimeSeriesQuery where
  metric : String
  tags : Option Tags := none
  start : DateTime
  endTime : DateTime
  aggregation : Option (List DataPoint → List DataPoint) := none
  limit : Option ℕ := none

/-- A series, and the points of it that were asked for. -/
structure Series where
  metric : Metric
  tags : Tags
  points : List DataPoint

/-- The result of a query. -/
structure QueryResult where
  series : List Series := []
  pointsScanned : ℕ := 0
  pointsReturned : ℕ := 0
  overLimit : Bool := false

namespace TimeSeriesQuery

variable (query : TimeSeriesQuery)

/-- Whether a point is in the range, which ends before the end. -/
def inRange (p : DataPoint) : Bool :=
  query.start ≤ p.timestamp && p.timestamp < query.endTime

/-- The series with the points that the query asks for: of more than the limit the newest. -/
def answer (s : Series) : Series :=
  let points := s.points.filter query.inRange
  let points := match query.aggregation with
    | some aggregation => aggregation points
    | none => points
  let points := match query.limit with
    | some limit => points.drop (points.length - limit)
    | none => points
  { s with points }

/-- Execute the query on some series. -/
def execute (series : List Series) : QueryResult :=
  let matching := series.filter fun s => query.tags.all fun filter => s.tags.matches filter
  let result := (matching.map query.answer).filter fun s => !s.points.isEmpty
  { series := result
    pointsScanned := (matching.map fun s => s.points.length).sum
    pointsReturned := (result.map fun s => s.points.length).sum }

/-- The limit, if it is one of the points that are decoded. -/
def earlyLimit : Option ℕ :=
  if query.aggregation.isNone then query.limit else none

variable (nexus : NexusCodec)

/-- The points of blocks behind those that there are, until there are enough. -/
def decodeBlocks (points : List DataPoint) : List CompressedBlock → List DataPoint
  | [] => points
  | block :: blocks =>
      if query.earlyLimit.any fun limit => limit ≤ points.length then points
      else decodeBlocks (points ++ (decodeBlock nexus block).filter query.inRange) blocks

/-- The points of a series in order, the first that was met of each time. -/
def readPoints (blocks : List CompressedBlock) (tail : List DataPoint) : List DataPoint :=
  let blocks := sortByKey (fun b => OrderDual.toDual b.lastTimestamp.toInt) blocks
  let points := query.decodeBlocks nexus (tail.filter query.inRange) blocks
  dedupByKey DataPoint.timestamp (sortByKey DataPoint.timestamp points)

end TimeSeriesQuery

/-! ## What is read of a series -/

/-- The data of a series that overlap a range. -/
structure RangeSnapshot where
  metric : Metric
  tags : Tags
  blocks : List CompressedBlock
  points : List DataPoint

/-- The blocks and the buffered points that overlap a range of milliseconds. -/
def SeriesBuffer.snapshotRange (startMs endMs : Int64) (buffer : SeriesBuffer) :
    RangeSnapshot where
  metric := buffer.metric
  tags := buffer.tags
  blocks := buffer.compressedBlocks.filter fun b =>
    startMs ≤ b.lastTimestamp && b.firstTimestamp ≤ endMs
  points := buffer.points.filter fun p =>
    startMs ≤ p.timestamp.timestampMillis && p.timestamp.timestampMillis ≤ endMs

namespace TimeSeriesEngine

variable (engine : TimeSeriesEngine) (query : TimeSeriesQuery)

/-- The ids of the series that a query asks for. -/
def seriesIds : Finset String :=
  match query.tags with
  | some tags =>
      let ids := engine.index.findByTags tags
      if query.metric.isEmpty then ids
      else ids.filter fun id =>
        (engine.index.get id).any fun metadata => metadata.metricName = query.metric
  | none => engine.index.findByMetric query.metric

/-- The metric and the tags of a series, from its buffer or else from the index. -/
def identOf (id : String) : Option RangeSnapshot → Option (Metric × Tags)
  | some hot => some (hot.metric, hot.tags)
  | none => (engine.index.get id).map fun metadata =>
      (engine.metricFor metadata.metricName, metadata.tags)

end TimeSeriesEngine

namespace TieredEngine

variable (nexus : NexusCodec) (t : TieredEngine) (hotCutoff : DateTime) (query : TimeSeriesQuery)

def reachCold : Option ColdStore :=
  t.cold.filter fun _ => query.start < hotCutoff

/-- What one series adds to the result, if it has data at all. -/
def readSeries (snap : String × Option RangeSnapshot) : Option QueryResult :=
  let hotBlocks := (snap.2.map RangeSnapshot.blocks).getD []
  let tail := (snap.2.map RangeSnapshot.points).getD []
  let coldBlocks := ((t.reachCold hotCutoff query).map fun store =>
    store.readRange snap.1 query.start.timestampMillis query.endTime.timestampMillis).getD []
  let blocks := hotBlocks ++ coldBlocks
  if blocks.isEmpty && tail.isEmpty then none
  else
    (t.engine.identOf snap.1 snap.2).map fun ident =>
      query.execute [⟨ident.1, ident.2, query.readPoints nexus blocks tail⟩]

/-- Read one series after the other, until there are too many points. -/
def readAll (result : QueryResult) : List (String × Option RangeSnapshot) → QueryResult
  | [] => result
  | snap :: snaps =>
      match t.readSeries nexus hotCutoff query snap with
      | none => readAll result snaps
      | some r =>
          let result : QueryResult :=
            { series := result.series ++ r.series
              pointsScanned := result.pointsScanned + r.pointsScanned
              pointsReturned :=
                result.pointsReturned + (r.series.map fun s => s.points.length).sum }
          if t.engine.config.maxQueryPoints < result.pointsReturned then
            { result with overLimit := true }
          else readAll result snaps

end TieredEngine

/-- An order in which the ids of a set are visited. -/
structure Visits where
  order : Finset String → List String
  nodup : ∀ ids, (order ids).Nodup
  mem_order : ∀ ids id, id ∈ order ids ↔ id ∈ ids

/-- Execute a query. -/
def TieredEngine.query (nexus : NexusCodec) (t : TieredEngine) (hotCutoff : DateTime)
    (visits : Visits) (query : TimeSeriesQuery) : QueryResult :=
  let snaps := (visits.order (t.engine.seriesIds query)).map fun id =>
    (id, (t.engine.seriesData.lookup id).map
      (SeriesBuffer.snapshotRange query.start.timestampMillis query.endTime.timestampMillis))
  t.readAll nexus hotCutoff query {} snaps

end TimeSeries

end AegisDB
