import AegisDB.TimeSeries.BufferLayers

/-!
# Compaction and recompression

Compaction seals the buffered points of every series.  Recompression replaces blocks by blocks of
the other codec that have the same points and the same interval.  It finds the block to be replaced
by its checksum, its interval and the number of its points, so it keeps all points if no other block
of the series is found by these.
-/

namespace AegisDB

namespace TimeSeries

open Layers

/-! ## The other codec -/

/-- The other codec with what makes a frame of columns with so many rows. -/
structure NexusCompress extends NexusCodec where
  compressBatch : List Bytes → ℕ → Option Bytes

/-- Points as a block of the other codec, if there are points and it can compress them. -/
def compressPointsNexus (nexus : NexusCompress) (points : List DataPoint) :
    Option CompressedBlock :=
  if points.isEmpty then none
  else
    let millis := points.map fun p => p.timestamp.timestampMillis
    let times := millis.flatMap fun t => le 8 t.toUInt64.toNat
    let values := points.flatMap fun p => le 8 p.value.bits.toNat
    (nexus.compressBatch [times, values] points.length).bind fun frame =>
      let block : CompressedBlock :=
        { data := frame
          firstTimestamp := millis.min?.getD 0
          lastTimestamp := millis.max?.getD 0
          count := points.length
          checksum := Crc32.hash frame }
      if isNexusBlock block then some block else none

/-- What comes of a block that is to be compressed again. -/
inductive Recompression where
  /-- The block or what it was compressed to does not have its points. -/
  | damaged
  | refused
  | ready (block : CompressedBlock)
deriving DecidableEq

/-- Compress a block again; the new one has the interval of the old. -/
def recompress (nexus : NexusCompress) (old : CompressedBlock) : Recompression :=
  let points := decodeBlock nexus.toNexusCodec old
  if points.length ≠ old.count then .damaged
  else
    match compressPointsNexus nexus points with
    | none => .refused
    | some block =>
        if blockMatchesPoints nexus.toNexusCodec block points then
          .ready { block with
            firstTimestamp := old.firstTimestamp
            lastTimestamp := old.lastTimestamp }
        else .damaged

/-! ## Swapping blocks -/

/-- A block that is not of the other codec yet, and agrees with an old one in all that the old one
is found by. -/
def CompressedBlock.standsFor (old b : CompressedBlock) : Bool :=
  !isNexusBlock b && b.checksum = old.checksum && b.firstTimestamp = old.firstTimestamp &&
    b.lastTimestamp = old.lastTimestamp && b.count = old.count

/-- Put a block in the place of the first that stands for an old one. -/
def swapBlock (old new : CompressedBlock) : List CompressedBlock → List CompressedBlock
  | [] => []
  | b :: blocks => if old.standsFor b then new :: blocks else b :: swapBlock old new blocks

/-- A block that has been compressed again. -/
structure PreparedBlock where
  seriesId : String
  old : CompressedBlock
  new : CompressedBlock

/-- The outcome of a recompression. -/
structure CompressionReport where
  blocksScanned : ℕ := 0
  blocksRecompressed : ℕ := 0
  blocksAlready : ℕ := 0
  bytesBefore : ℕ := 0
  bytesAfter : ℕ := 0
  blocksSkippedDamaged : ℕ := 0

namespace TimeSeriesEngine

variable (nexus : NexusCompress) (engine : TimeSeriesEngine)

def compact : TimeSeriesEngine :=
  { engine with
    seriesData := engine.seriesData.mapValues fun _ buffer =>
      buffer.compress nexus.toNexusCodec }

/-- The blocks of the series of a metric, or of all series if none is named. -/
def scannedBlocks (metric : String) : List (String × CompressedBlock) :=
  engine.seriesData.entries.flatMap fun e =>
    if !metric.isEmpty && e.2.metric.name ≠ metric then []
    else e.2.compressedBlocks.map fun b => (e.1, b)

/-- Those that overlap a range and are not of the other codec yet. -/
def candidates (metric : String) (startMs endMs : Int64) : List (String × CompressedBlock) :=
  (engine.scannedBlocks metric).filter fun e =>
    !isNexusBlock e.2 && !(e.2.lastTimestamp < startMs || endMs < e.2.firstTimestamp)

/-- A candidate that has been compressed again. -/
def prepare (e : String × CompressedBlock) : Option PreparedBlock :=
  match recompress nexus e.2 with
  | .ready block => some ⟨e.1, e.2, block⟩
  | _ => none

/-- Those of the candidates that have been compressed again. -/
def preparedBlocks (metric : String) (startMs endMs : Int64) : List PreparedBlock :=
  (engine.candidates metric startMs endMs).filterMap (prepare nexus)

/-- Swap a block in, if the old one can still be found. -/
def swap (state : TimeSeriesEngine × CompressionReport) (p : PreparedBlock) :
    TimeSeriesEngine × CompressionReport :=
  match (state.1.seriesData.lookup p.seriesId).bind fun buffer =>
      buffer.compressedBlocks.find? p.old.standsFor with
  | none => state
  | some block =>
      ({ state.1 with
          seriesData := state.1.seriesData.modify p.seriesId fun buffer =>
            { buffer with compressedBlocks := swapBlock p.old p.new buffer.compressedBlocks } },
        { state.2 with
          blocksRecompressed := state.2.blocksRecompressed + 1
          bytesBefore := state.2.bytesBefore + block.data.length
          bytesAfter := state.2.bytesAfter + p.new.data.length })

/-- Compress the blocks of a metric that overlap a range again. -/
def compressSection (metric : String) (startMs endMs : Int64) :
    TimeSeriesEngine × CompressionReport :=
  let scanned := engine.scannedBlocks metric
  let candidates := engine.candidates metric startMs endMs
  let report : CompressionReport :=
    { blocksScanned := scanned.length
      blocksAlready := scanned.countP fun e => isNexusBlock e.2
      blocksSkippedDamaged := candidates.countP fun e => recompress nexus e.2 = .damaged }
  (engine.preparedBlocks nexus metric startMs endMs).foldl swap (engine, report)

/-- What stands for a block that has been compressed again has its points. -/
def Distinguishable (metric : String) (startMs endMs : Int64) : Prop :=
  ∀ p ∈ engine.preparedBlocks nexus metric startMs endMs, ∀ buffer,
    engine.seriesData.lookup p.seriesId = some buffer →
      ∀ b ∈ buffer.compressedBlocks, p.old.standsFor b = true →
        decodeBlock nexus.toNexusCodec b = decodeBlock nexus.toNexusCodec p.old

end TimeSeriesEngine

/-! ## What recompression keeps -/

section Kept

variable {nexus : NexusCompress} {engine : TimeSeriesEngine}

theorem isNexusBlock_of_compressPointsNexus {points : List DataPoint} {block : CompressedBlock}
    (h : compressPointsNexus nexus points = some block) : isNexusBlock block = true := by
  unfold compressPointsNexus at h
  split_ifs at h
  obtain ⟨frame, -, hframe⟩ := Option.bind_eq_some_iff.mp h
  dsimp only at hframe
  split_ifs at hframe with hmagic
  obtain rfl := Option.some.inj hframe
  exact hmagic

/-- A block that has been compressed again is a block of the other codec with the same points and
the same interval. -/
theorem recompress_spec {old new : CompressedBlock} (h : recompress nexus old = .ready new) :
    isNexusBlock new = true ∧ new.layer nexus.toNexusCodec = old.layer nexus.toNexusCodec := by
  unfold recompress at h
  dsimp only at h
  split_ifs at h
  cases hblock : compressPointsNexus nexus (decodeBlock nexus.toNexusCodec old) with
  | none =>
    rw [hblock] at h
    cases h
  | some block =>
    rw [hblock] at h
    dsimp only at h
    split_ifs at h with hmatches
    obtain rfl := Recompression.ready.inj h
    have hnexus := isNexusBlock_of_compressPointsNexus hblock
    refine ⟨hnexus, ?_⟩
    have hdecode := decodeBlock_of_matches hmatches fun p hp => isWhole_of_mem_decodeBlock hp
    exact congrArg (Layer.mk old.firstTimestamp.toInt old.lastTimestamp.toInt) hdecode

theorem layer_eq_of_standsFor {old b : CompressedBlock} (h : old.standsFor b = true)
    (hdecode : decodeBlock nexus.toNexusCodec b = decodeBlock nexus.toNexusCodec old) :
    b.layer nexus.toNexusCodec = old.layer nexus.toNexusCodec := by
  unfold CompressedBlock.standsFor at h
  simp only [Bool.and_eq_true, decide_eq_true_eq] at h
  obtain ⟨⟨⟨-, hfirst⟩, hlast⟩, -⟩ := h
  rw [CompressedBlock.layer, CompressedBlock.layer, hfirst, hlast, hdecode]

theorem map_layer_swapBlock {old new : CompressedBlock} {blocks : List CompressedBlock}
    (h : ∀ b ∈ blocks, old.standsFor b = true →
      new.layer nexus.toNexusCodec = b.layer nexus.toNexusCodec) :
    (swapBlock old new blocks).map (CompressedBlock.layer nexus.toNexusCodec) =
      blocks.map (CompressedBlock.layer nexus.toNexusCodec) := by
  induction blocks with
  | nil => rfl
  | cons b blocks ih =>
    rw [List.forall_mem_cons] at h
    rw [swapBlock]
    split_ifs with hstands
    · rw [List.map_cons, List.map_cons, h.1 hstands]
    · rw [List.map_cons, List.map_cons, ih h.2]

theorem mem_of_mem_swapBlock {old new b : CompressedBlock} {blocks : List CompressedBlock}
    (h : b ∈ swapBlock old new blocks) : b = new ∨ b ∈ blocks := by
  induction blocks with
  | nil => cases h
  | cons c blocks ih =>
    rw [swapBlock] at h
    split_ifs at h
    · rcases List.mem_cons.mp h with rfl | h
      · exact Or.inl rfl
      · exact Or.inr (List.mem_cons_of_mem c h)
    · rcases List.mem_cons.mp h with rfl | h
      · exact Or.inr List.mem_cons_self
      · exact (ih h).imp_right (List.mem_cons_of_mem c)

/-- A buffer in which blocks have been swapped: the same layers, and no blocks that are not of the
other codec but those that there were. -/
structure Swapped (nexus : NexusCompress) (buffer buffer' : SeriesBuffer) : Prop where
  metric : buffer'.metric = buffer.metric
  tags : buffer'.tags = buffer.tags
  points : buffer'.points = buffer.points
  layers : buffer'.layers nexus.toNexusCodec = buffer.layers nexus.toNexusCodec
  mem : ∀ b ∈ buffer'.compressedBlocks, isNexusBlock b = false → b ∈ buffer.compressedBlocks

theorem Swapped.refl (buffer : SeriesBuffer) : Swapped nexus buffer buffer :=
  ⟨rfl, rfl, rfl, rfl, fun _ hb _ => hb⟩

theorem Swapped.swapBlock {buffer buffer' : SeriesBuffer} {p : PreparedBlock}
    (h : Swapped nexus buffer buffer') (hnew : recompress nexus p.old = .ready p.new)
    (hold : ∀ b ∈ buffer.compressedBlocks, p.old.standsFor b = true →
      decodeBlock nexus.toNexusCodec b = decodeBlock nexus.toNexusCodec p.old) :
    Swapped nexus buffer { buffer' with
      compressedBlocks := TimeSeries.swapBlock p.old p.new buffer'.compressedBlocks } := by
  obtain ⟨hnexus, hlayer⟩ := recompress_spec hnew
  refine ⟨h.metric, h.tags, h.points, ?_, fun b hb hbnexus => ?_⟩
  · refine (map_layer_swapBlock fun b hb hstands => ?_).trans h.layers
    have hbnexus : isNexusBlock b = false := by
      unfold CompressedBlock.standsFor at hstands
      simp only [Bool.and_eq_true, Bool.not_eq_true'] at hstands
      exact hstands.1.1.1.1
    rw [hlayer, layer_eq_of_standsFor hstands (hold b (h.mem b hb hbnexus) hstands)]
  · rcases mem_of_mem_swapBlock hb with rfl | hb
    · rw [hnexus] at hbnexus
      cases hbnexus
    · exact h.mem b hb hbnexus

namespace TimeSeriesEngine

/-- An engine in which blocks have been swapped. -/
structure Recompressed (nexus : NexusCompress) (engine engine' : TimeSeriesEngine) : Prop where
  config : engine'.config = engine.config
  index : engine'.index = engine.index
  metrics : engine'.metrics = engine.metrics
  buffers : ∀ id, Option.Rel (Swapped nexus) (engine.seriesData.lookup id)
    (engine'.seriesData.lookup id)

theorem Recompressed.refl (engine : TimeSeriesEngine) : Recompressed nexus engine engine := by
  refine ⟨rfl, rfl, rfl, fun id => ?_⟩
  cases engine.seriesData.lookup id with
  | none => exact Option.Rel.none
  | some buffer => exact Option.Rel.some (Swapped.refl buffer)

theorem recompress_of_mem_preparedBlocks {metric : String} {startMs endMs : Int64}
    {p : PreparedBlock} (h : p ∈ engine.preparedBlocks nexus metric startMs endMs) :
    recompress nexus p.old = .ready p.new := by
  obtain ⟨e, -, he⟩ := List.mem_filterMap.mp h
  unfold prepare at he
  cases hready : recompress nexus e.2 with
  | damaged =>
    rw [hready] at he
    cases he
  | refused =>
    rw [hready] at he
    cases he
  | ready block =>
    rw [hready] at he
    obtain rfl := Option.some.inj he
    exact hready

/-- A block is swapped in an engine in which blocks have been swapped. -/
theorem Recompressed.swap {state : TimeSeriesEngine × CompressionReport} {p : PreparedBlock}
    (h : Recompressed nexus engine state.1) (hnew : recompress nexus p.old = .ready p.new)
    (hold : ∀ buffer, engine.seriesData.lookup p.seriesId = some buffer →
      ∀ b ∈ buffer.compressedBlocks, p.old.standsFor b = true →
        decodeBlock nexus.toNexusCodec b = decodeBlock nexus.toNexusCodec p.old) :
    Recompressed nexus engine (TimeSeriesEngine.swap state p).1 := by
  unfold TimeSeriesEngine.swap
  split
  · exact h
  · refine ⟨h.config, h.index, h.metrics, fun id => ?_⟩
    dsimp only
    rw [Table.lookup_modify]
    have hid := h.buffers id
    split_ifs with heq
    · rw [heq] at hid ⊢
      cases hbuffer : engine.seriesData.lookup p.seriesId with
      | none =>
        rw [hbuffer] at hid
        cases hafter : state.1.seriesData.lookup p.seriesId with
        | none => exact Option.Rel.none
        | some buffer' =>
          rw [hafter] at hid
          cases hid
      | some buffer =>
        rw [hbuffer] at hid
        cases hafter : state.1.seriesData.lookup p.seriesId with
        | none =>
          rw [hafter] at hid
          cases hid
        | some buffer' =>
          rw [hafter] at hid
          cases hid with
          | some hswapped => exact Option.Rel.some (hswapped.swapBlock hnew (hold buffer hbuffer))
    · exact hid

/-- Recompression changes neither the points nor the intervals of blocks. -/
theorem recompressed_compressSection {metric : String} {startMs endMs : Int64}
    (h : engine.Distinguishable nexus metric startMs endMs) :
    Recompressed nexus engine (engine.compressSection nexus metric startMs endMs).1 := by
  unfold compressSection
  dsimp only
  generalize ({ blocksScanned := _, blocksAlready := _, blocksSkippedDamaged := _ } :
    CompressionReport) = report
  have hfold : ∀ (prepared : List PreparedBlock) (state : TimeSeriesEngine × CompressionReport),
      prepared ⊆ engine.preparedBlocks nexus metric startMs endMs →
      Recompressed nexus engine state.1 →
        Recompressed nexus engine (prepared.foldl TimeSeriesEngine.swap state).1 := by
    intro prepared
    induction prepared with
    | nil => exact fun _ _ hstate => hstate
    | cons p prepared ih =>
      intro state hsubset hstate
      obtain ⟨hp, hsubset⟩ := List.cons_subset.mp hsubset
      exact ih _ hsubset (hstate.swap (recompress_of_mem_preparedBlocks hp) (h p hp))
  exact hfold _ (engine, report) (List.Subset.refl _) (Recompressed.refl engine)

end TimeSeriesEngine

end Kept

end TimeSeries

end AegisDB
