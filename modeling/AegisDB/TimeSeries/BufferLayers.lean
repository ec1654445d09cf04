import AegisDB.TimeSeries.Query

/-!
# Buffers as layers

The blocks of a buffer are layers: the points that were sealed together, and the interval from the
first of them to the last as they arrived.  A query reads the buffered points before the blocks, so
it finds of each time the point that was written last as long as the blocks are current and the
buffered points of one time agree.
-/

namespace AegisDB

namespace TimeSeries

open Layers

def DateTime.millis (t : DateTime) : ℤ :=
  t.timestampMillis.toInt

theorem DateTime.millis_mono {t t' : DateTime} (h : t ≤ t') : t.millis ≤ t'.millis := by
  rw [millis, millis, toInt_timestampMillis, toInt_timestampMillis]
  exact Int.ediv_le_ediv (by decide) h

/-- The points of a block, and the interval that it is found by. -/
def CompressedBlock.layer (nexus : NexusCodec) (block : CompressedBlock) : Layer ℤ DataPoint where
  first := block.firstTimestamp.toInt
  last := block.lastTimestamp.toInt
  entries := decodeBlock nexus block

namespace SeriesBuffer

variable (nexus : NexusCodec)

/-- The blocks as layers, in the order they were sealed in. -/
def layers (buffer : SeriesBuffer) : List (Layer ℤ DataPoint) :=
  buffer.compressedBlocks.map (CompressedBlock.layer nexus)

/-- What was written is in the buffer, and of each time the last point is read first. -/
structure Holds (written : List DataPoint) (buffer : SeriesBuffer) : Prop where
  /-- All points are there, in the order they were written in. -/
  allPoints : buffer.allPoints nexus = written
  current : Current DataPoint.timestamp DateTime.millis (buffer.layers nexus)
  /-- The first buffered point of each time is the last. -/
  firstIsLast : FirstIsLast DataPoint.timestamp buffer.points

/-- The buffered points may be sealed: their times are whole milliseconds, and each point that
changes what the blocks have at its time is in the interval of the new block, which ends later than
all blocks with this time. -/
structure Sealable (buffer : SeriesBuffer) : Prop where
  whole : ∀ p ∈ buffer.points, p.timestamp.IsWhole
  fits : Fits DataPoint.timestamp DateTime.millis (buffer.layers nexus)
    ((Compressor.compressAll buffer.points).layer nexus)

variable {nexus} {buffer : SeriesBuffer} {written points : List DataPoint}

theorem allPoints_eq :
    buffer.allPoints nexus = (buffer.layers nexus).flatMap Layer.entries ++ buffer.points := by
  rw [allPoints, layers, List.flatMap_map]
  rfl

theorem holds_of_points (h : FirstIsLast DataPoint.timestamp points) (metric : Metric)
    (tags : Tags) : (⟨metric, tags, points, []⟩ : SeriesBuffer).Holds nexus points where
  allPoints := rfl
  current := current_nil _ _
  firstIsLast := h

theorem Holds.append (h : buffer.Holds nexus written)
    (hfirst : FirstIsLast DataPoint.timestamp (buffer.points ++ points)) :
    ({ buffer with points := buffer.points ++ points } : SeriesBuffer).Holds nexus
      (written ++ points) where
  allPoints := by
    rw [← h.allPoints, SeriesBuffer.allPoints, SeriesBuffer.allPoints, List.append_assoc]
  current := h.current
  firstIsLast := hfirst

theorem Holds.compress (h : buffer.Holds nexus written) (hseal : buffer.Sealable nexus) :
    (buffer.compress nexus).Holds nexus written := by
  have hall : (buffer.compress nexus).allPoints nexus = written := by
    rw [TimeSeriesEngine.allPoints_compress fun _ => hseal.whole, h.allPoints]
  by_cases hcan : buffer.canSeal nexus = true
  · have hcompress : buffer.compress nexus = { buffer with
        compressedBlocks := buffer.compressedBlocks ++ [Compressor.compressAll buffer.points]
        points := [] } := if_pos hcan
    have hlayers : (buffer.compress nexus).layers nexus =
        buffer.layers nexus ++ [(Compressor.compressAll buffer.points).layer nexus] := by
      rw [hcompress, layers, List.map_append]
      rfl
    have hentries : ((Compressor.compressAll buffer.points).layer nexus).entries =
        buffer.points := by
      refine (decodeBlock_compressAll nexus buffer.points).trans ?_
      conv_rhs => rw [← List.map_id buffer.points]
      exact List.map_congr_left fun p hp => DataPoint.stored_eq_self (hseal.whole p hp)
    refine ⟨hall, ?_, ?_⟩
    · rw [hlayers]
      refine h.current.concat ?_ hseal.fits
      rw [hentries]
      exact h.firstIsLast
    · rw [hcompress]
      exact fun p hp => absurd hp List.not_mem_nil
  · have hcompress : buffer.compress nexus = buffer := if_neg hcan
    rw [hcompress]
    exact h

theorem Holds.congr {buffer' : SeriesBuffer} (h : buffer.Holds nexus written)
    (hlayers : buffer'.layers nexus = buffer.layers nexus)
    (hpoints : buffer'.points = buffer.points) : buffer'.Holds nexus written where
  allPoints := by rw [← h.allPoints, allPoints_eq, allPoints_eq, hlayers, hpoints]
  current := by
    rw [hlayers]
    exact h.current
  firstIsLast := by
    rw [hpoints]
    exact h.firstIsLast

end SeriesBuffer

/-! ## What a query reads -/

namespace TimeSeriesQuery

variable {nexus : NexusCodec} {query : TimeSeriesQuery} {buffer : SeriesBuffer}
  {written : List DataPoint} {p : DataPoint}

/-- A query that asks for all points as they are. -/
structure Plain (query : TimeSeriesQuery) : Prop where
  unlimited : query.limit = none
  unaggregated : query.aggregation = none

theorem inRange_congr {q : DataPoint} (h : p.timestamp = q.timestamp) :
    query.inRange p = query.inRange q := by
  rw [inRange, inRange, h]

theorem millis_of_inRange (h : query.inRange p = true) :
    query.start.millis ≤ p.timestamp.millis ∧ p.timestamp.millis ≤ query.endTime.millis := by
  unfold inRange at h
  simp only [Bool.and_eq_true, decide_eq_true_eq] at h
  exact ⟨DateTime.millis_mono h.1, DateTime.millis_mono h.2.le⟩

theorem decodeBlocks_of_plain (h : query.Plain) (points : List DataPoint)
    (blocks : List CompressedBlock) :
    query.decodeBlocks nexus points blocks =
      points ++ (blocks.flatMap (decodeBlock nexus)).filter query.inRange := by
  have hlimit : query.earlyLimit = none := by
    rw [earlyLimit, h.unlimited]
    split_ifs <;> rfl
  induction blocks generalizing points with
  | nil => exact (List.append_nil points).symm
  | cons block blocks ih =>
    rw [decodeBlocks, hlimit, Option.any_none, if_neg Bool.false_ne_true, ih, List.flatMap_cons,
      List.filter_append, List.append_assoc]

theorem mem_readPoints (h : query.Plain) {blocks : List CompressedBlock}
    {tail : List DataPoint} :
    p ∈ query.readPoints nexus blocks tail ↔ query.inRange p = true ∧
      firstAt DataPoint.timestamp p.timestamp
        (tail ++ (sortByKey (fun b : CompressedBlock => OrderDual.toDual b.lastTimestamp.toInt)
          blocks).flatMap (decodeBlock nexus)) = some p := by
  rw [readPoints, mem_dedupByKey_sortByKey, decodeBlocks_of_plain h, ← List.filter_append]
  constructor
  · intro hfirst
    have hin := (List.mem_filter.mp (mem_of_firstAt hfirst)).2
    refine ⟨hin, ?_⟩
    rwa [firstAt_filter fun q hq => (inRange_congr hq).trans hin] at hfirst
  · rintro ⟨hin, hfirst⟩
    rwa [firstAt_filter fun q hq => (inRange_congr hq).trans hin]

theorem pairwise_readPoints (blocks : List CompressedBlock) (tail : List DataPoint) :
    (query.readPoints nexus blocks tail).Pairwise fun p q => p.timestamp < q.timestamp :=
  pairwise_dedupByKey_sortByKey _

theorem flatMap_snapshotRange (startMs endMs : Int64) :
    (sortByKey (fun b : CompressedBlock => OrderDual.toDual b.lastTimestamp.toInt)
        (buffer.snapshotRange startMs endMs).blocks).flatMap (decodeBlock nexus) =
      Layers.read startMs.toInt endMs.toInt (buffer.layers nexus) := by
  have hsort : (sortByKey (fun b : CompressedBlock => OrderDual.toDual b.lastTimestamp.toInt)
        (buffer.snapshotRange startMs endMs).blocks).map (CompressedBlock.layer nexus) =
      inWindow startMs.toInt endMs.toInt (buffer.layers nexus) := by
    rw [inWindow, SeriesBuffer.layers, List.filter_map]
    refine (List.map_insertionSort _
      (fun x y : Layer ℤ DataPoint => OrderDual.toDual x.last ≤ OrderDual.toDual y.last)
      (CompressedBlock.layer nexus) _ fun _ _ _ _ => Iff.rfl).trans ?_
    refine congrArg (fun blocks => sortByKey (fun layer : Layer ℤ DataPoint =>
      OrderDual.toDual layer.last) (List.map _ blocks)) (List.filter_congr fun b _ => ?_)
    rw [Function.comp_apply, ← Bool.decide_and]
    exact decide_eq_decide.mpr (and_congr Int64.le_iff_toInt_le Int64.le_iff_toInt_le)
  rw [Layers.read, ← hsort, List.flatMap_map]
  rfl

/-- A query that asks for all points as they are reads of each time in its range the point that was
written last. -/
theorem mem_readPoints_snapshotRange (h : query.Plain) (hbuffer : buffer.Holds nexus written) :
    p ∈ query.readPoints nexus
        (buffer.snapshotRange query.start.timestampMillis query.endTime.timestampMillis).blocks
        (buffer.snapshotRange query.start.timestampMillis query.endTime.timestampMillis).points ↔
      query.inRange p = true ∧ lastAt DataPoint.timestamp p.timestamp written = some p := by
  rw [mem_readPoints h]
  refine and_congr_right fun hin => ?_
  obtain ⟨hstart, hend⟩ := millis_of_inRange hin
  have htail : firstAt DataPoint.timestamp p.timestamp (buffer.snapshotRange
      query.start.timestampMillis query.endTime.timestampMillis).points =
        firstAt DataPoint.timestamp p.timestamp buffer.points := by
    refine firstAt_filter fun q hq => ?_
    rw [hq, Bool.and_eq_true, decide_eq_true_iff, decide_eq_true_iff, Int64.le_iff_toInt_le,
      Int64.le_iff_toInt_le]
    exact ⟨hstart, hend⟩
  have hblocks := hbuffer.current query.start.timestampMillis.toInt
    query.endTime.timestampMillis.toInt p.timestamp hstart hend
  rw [flatMap_snapshotRange, firstAt_append, htail, hbuffer.firstIsLast.firstAt_eq, hblocks,
    ← lastAt_append, ← SeriesBuffer.allPoints_eq,
    hbuffer.allPoints]

end TimeSeriesQuery

end TimeSeries

end AegisDB
