import AegisDB.TimeSeries.Recompress

/-!
# Runs of an engine

An engine is written to, compacted, recompressed, and saved and loaded again, in any order.  As long
as no series shares its id with another, of each time the buffered points agree, blocks are sealed
in the order of their times and recompression does not mistake one block for another, the engine has
every point that was written, and of each time the last is met first.
-/

namespace AegisDB

namespace TimeSeries

open Layers

namespace TimeSeriesEngine

def registerMetric (engine : TimeSeriesEngine) (metric : Metric) :
    TimeSeriesEngine × Except EngineError Unit :=
  if metric.name ∈ engine.metrics then (engine, .error (.metricAlreadyExists metric.name))
  else ({ engine with metrics := engine.metrics.insert metric.name metric }, .ok ())

theorem named_registerMetric {engine : TimeSeriesEngine} (h : engine.Named) (metric : Metric) :
    (engine.registerMetric metric).1.Named := by
  unfold registerMetric
  split_ifs
  · exact h
  · intro name metric' hlookup
    rw [Table.lookup_insert] at hlookup
    split_ifs at hlookup with hname
    · obtain rfl := Option.some.inj hlookup
      exact hname.symm
    · exact h name metric' hlookup

end TimeSeriesEngine

/-! ## Calls -/

/-- A call to an engine.  An engine that has been saved is loaded with a configuration of its
own. -/
inductive EngineCall where
  | registerMetric (metric : Metric)
  | writeBatch (metricName : String) (tags : Tags) (points : List DataPoint)
  | compact
  | compressSection (metric : String) (startMs endMs : Int64)
  | flushAndReload (config : EngineConfig)

/-- An engine, and the points that it has accepted. -/
structure EngineRun where
  engine : TimeSeriesEngine
  written : List (SeriesName × DataPoint) := []

namespace EngineRun

/-- The run after a call. -/
def call (nexus : NexusCompress) (run : EngineRun) : EngineCall → EngineRun
  | .registerMetric metric => { run with engine := (run.engine.registerMetric metric).1 }
  | .writeBatch metricName tags points =>
      match run.engine.writeBatch nexus.toNexusCodec metricName tags points with
      | (engine, .ok _) =>
          { engine, written := run.written ++ points.map fun p => (⟨metricName, tags⟩, p) }
      | (engine, .error _) => { run with engine }
  | .compact => { run with engine := run.engine.compact nexus }
  | .compressSection metric startMs endMs =>
      { run with engine := (run.engine.compressSection nexus metric startMs endMs).1 }
  | .flushAndReload config =>
      { run with engine := TimeSeriesEngine.loadFromDisk config (some run.engine.capture) }

def system (nexus : NexusCompress) (config : EngineConfig) : System EngineRun EngineCall where
  init := { engine := { config } }
  step run call := some (run.call nexus call)

/-- A batch of points may be written: another series with the same id is the same one, of each time
the first point in the buffer is the last, and a buffer that is full can be sealed. -/
structure CleanBatch (nexus : NexusCompress) (run : EngineRun) (metricName : String) (tags : Tags)
    (points : List DataPoint) : Prop where
  identified : ∀ e ∈ run.written, e.1.id = (⟨metricName, tags⟩ : SeriesName).id →
    e.1.Same ⟨metricName, tags⟩
  firstIsLast : FirstIsLast DataPoint.timestamp
    (run.engine.buffered (run.engine.metricFor metricName) tags points).points
  sealable : run.engine.isFull
      (run.engine.buffered (run.engine.metricFor metricName) tags points) = true →
    (run.engine.buffered (run.engine.metricFor metricName) tags points).Sealable
      nexus.toNexusCodec

/-- A call that keeps what was written: a batch that is accepted is clean, all buffers that are
compacted can be sealed, and blocks that are compressed again are not mistaken for others. -/
def Clean (nexus : NexusCompress) (run : EngineRun) : EngineCall → Prop
  | .registerMetric _ => True
  | .writeBatch metricName tags points =>
      points ≠ [] → run.engine.exceedsLimit metricName tags = false →
        CleanBatch nexus run metricName tags points
  | .compact => ∀ id buffer, run.engine.seriesData.lookup id = some buffer →
      buffer.Sealable nexus.toNexusCodec
  | .compressSection metric startMs endMs =>
      run.engine.Distinguishable nexus metric startMs endMs
  | .flushAndReload _ => True

/-- The points that were written under an id, in order. -/
def writtenTo (run : EngineRun) (id : String) : List DataPoint :=
  run.written.filterMap fun e => if e.1.id = id then some e.2 else none

/-- The engine has what was written. -/
structure Sound (nexus : NexusCodec) (run : EngineRun) : Prop where
  named : run.engine.Named
  identified : IndexRun.Identified (run.written.map Prod.fst)
  described : IndexRun.Described ⟨run.engine.index, run.written.map Prod.fst⟩
  /-- A buffer has the points that were written under its id. -/
  holds : ∀ id buffer, run.engine.seriesData.lookup id = some buffer →
    buffer.Holds nexus (run.writtenTo id)
  known : ∀ id buffer, run.engine.seriesData.lookup id = some buffer →
    ∃ e ∈ run.written, e.1.id = id ∧ e.1.Same ⟨buffer.metric.name, buffer.tags⟩
  present : ∀ e ∈ run.written, ∃ buffer, run.engine.seriesData.lookup e.1.id = some buffer

end EngineRun

/-! ## Series under other names -/

theorem SeriesName.Same.id_eq {s t : SeriesName} (h : s.Same t) : s.id = t.id :=
  SeriesName.id_eq_iff.mpr h.letters_eq

theorem IndexRun.described_empty : (IndexRun.after []).Described :=
  described_after fun s hs => by cases hs

/-- An index describes the same series under names that are the same. -/
theorem IndexRun.Described.congr {index : TimeSeriesIndex} {live live' : List SeriesName}
    (h : IndexRun.Described ⟨index, live⟩) (hto : ∀ s ∈ live, ∃ t ∈ live', s.Same t)
    (hfrom : ∀ t ∈ live', ∃ s ∈ live, t.Same s) : IndexRun.Described ⟨index, live'⟩ where
  registered_of_get id metadata hget := by
    obtain ⟨hmetadata, s, hs, hid, hsame⟩ := h.registered_of_get id metadata hget
    obtain ⟨t, ht, hst⟩ := hto s hs
    exact ⟨hmetadata, t, ht, hst.id_eq.symm.trans hid, hst.symm.trans hsame⟩
  get_of_registered t ht := by
    obtain ⟨s, hs, hts⟩ := hfrom t ht
    obtain ⟨metadata, hget, hsame⟩ := h.get_of_registered s hs
    exact ⟨metadata, hts.id_eq ▸ hget, hts.trans hsame⟩
  mem_findByMetric name id := by
    rw [h.mem_findByMetric]
    constructor
    · rintro ⟨s, hs, hname, hid⟩
      obtain ⟨t, ht, hst⟩ := hto s hs
      exact ⟨t, ht, hst.1.symm.trans hname, hst.id_eq.symm.trans hid⟩
    · rintro ⟨t, ht, hname, hid⟩
      obtain ⟨s, hs, hts⟩ := hfrom t ht
      exact ⟨s, hs, hts.1.symm.trans hname, hts.id_eq.symm.trans hid⟩
  mem_findByTag key value id := by
    rw [h.mem_findByTag]
    constructor
    · rintro ⟨s, hs, hvalue, hid⟩
      obtain ⟨t, ht, hst⟩ := hto s hs
      exact ⟨t, ht, (hst.2 key).symm.trans hvalue, hst.id_eq.symm.trans hid⟩
    · rintro ⟨t, ht, hvalue, hid⟩
      obtain ⟨s, hs, hts⟩ := hfrom t ht
      exact ⟨s, hs, (hts.2 key).symm.trans hvalue, hts.id_eq.symm.trans hid⟩

def PersistedSeries.name (saved : PersistedSeries) : SeriesName :=
  ⟨saved.metric.name, saved.tags⟩

/-- The calls that register the series that are loaded. -/
def registerSaved (series : List PersistedSeries) : List IndexCall :=
  series.map fun saved => .register saved.metric saved.tags

theorem TimeSeriesEngine.index_foldl_loadSeries (series : List PersistedSeries)
    (run : IndexRun) (engine : TimeSeriesEngine) (h : engine.index = run.index) :
    (series.foldl loadSeries engine).index =
      ((registerSaved series).foldl IndexRun.step run).index := by
  induction series generalizing run engine with
  | nil => exact h
  | cons saved series ih =>
    refine ih _ _ ?_
    change engine.index.register saved.metric saved.tags = run.index.register _ _
    rw [h]

theorem mem_live_registerSaved (series : List PersistedSeries) (run : IndexRun)
    {s : SeriesName} :
    s ∈ ((registerSaved series).foldl IndexRun.step run).live ↔
      s ∈ series.map PersistedSeries.name ∨ s ∈ run.live := by
  induction series generalizing run with
  | nil => exact (or_iff_right List.not_mem_nil).symm
  | cons saved series ih =>
    refine (ih _).trans ?_
    change _ ∨ s ∈ saved.name :: run.live ↔ _
    rw [List.map_cons, List.mem_cons, List.mem_cons, or_left_comm, or_assoc]

theorem registered_registerSaved (series : List PersistedSeries) :
    IndexRun.registered (registerSaved series) = series.map PersistedSeries.name := by
  rw [IndexRun.registered, registerSaved, List.filterMap_map, ← List.filterMap_eq_map]
  rfl

namespace SeriesBuffer

variable {nexus : NexusCodec} {buffer : SeriesBuffer}

theorem metric_compress : (buffer.compress nexus).metric = buffer.metric := by
  unfold compress
  split_ifs <;> rfl

theorem tags_compress : (buffer.compress nexus).tags = buffer.tags := by
  unfold compress
  split_ifs <;> rfl

end SeriesBuffer

/-! ## What calls keep -/

namespace EngineRun

variable {nexus : NexusCompress} {run : EngineRun}

theorem sound_init (config : EngineConfig) :
    Sound nexus.toNexusCodec ((system nexus config).init) where
  named _ _ h := by cases h
  identified s hs := by cases hs
  described := IndexRun.described_empty
  holds _ _ h := by cases h
  known _ _ h := by cases h
  present _ h := by cases h

/-- The buffers have become others that have the same points, and nothing else has changed. -/
theorem Sound.of_buffers {engine : TimeSeriesEngine} (h : Sound nexus.toNexusCodec run)
    (hindex : engine.index = run.engine.index) (hmetrics : engine.metrics = run.engine.metrics)
    (hbuffers : ∀ id, Option.Rel (fun buffer buffer' : SeriesBuffer =>
        buffer'.metric = buffer.metric ∧ buffer'.tags = buffer.tags ∧
          ∀ written, buffer.Holds nexus.toNexusCodec written →
            buffer'.Holds nexus.toNexusCodec written)
      (run.engine.seriesData.lookup id) (engine.seriesData.lookup id)) :
    Sound nexus.toNexusCodec { run with engine } := by
  have hback : ∀ id buffer', engine.seriesData.lookup id = some buffer' →
      ∃ buffer, run.engine.seriesData.lookup id = some buffer ∧
        buffer'.metric = buffer.metric ∧ buffer'.tags = buffer.tags ∧
          ∀ written, buffer.Holds nexus.toNexusCodec written →
            buffer'.Holds nexus.toNexusCodec written := by
    intro id buffer' hbuffer'
    have hrel := hbuffers id
    rw [hbuffer'] at hrel
    cases hbuffer : run.engine.seriesData.lookup id with
    | none =>
      rw [hbuffer] at hrel
      cases hrel
    | some buffer =>
      rw [hbuffer] at hrel
      cases hrel with
      | some hrel => exact ⟨buffer, rfl, hrel⟩
  refine ⟨?_, h.identified, ?_, fun id buffer' hbuffer' => ?_, fun id buffer' hbuffer' => ?_,
    fun e he => ?_⟩
  · intro name metric hmetric
    exact h.named name metric (hmetrics ▸ hmetric)
  · change IndexRun.Described ⟨engine.index, _⟩
    rw [hindex]
    exact h.described
  · obtain ⟨buffer, hbuffer, -, -, hholds⟩ := hback id buffer' hbuffer'
    exact hholds _ (h.holds id buffer hbuffer)
  · obtain ⟨buffer, hbuffer, hmetric, htags, -⟩ := hback id buffer' hbuffer'
    rw [hmetric, htags]
    exact h.known id buffer hbuffer
  · obtain ⟨buffer, hbuffer⟩ := h.present e he
    have hrel := hbuffers e.1.id
    rw [hbuffer] at hrel
    change ∃ buffer, engine.seriesData.lookup e.1.id = some buffer
    cases hafter : engine.seriesData.lookup e.1.id with
    | none =>
      rw [hafter] at hrel
      cases hrel
    | some buffer' => exact ⟨buffer', rfl⟩

theorem Sound.registerMetric (h : Sound nexus.toNexusCodec run) (metric : Metric) :
    Sound nexus.toNexusCodec (run.call nexus (.registerMetric metric)) := by
  have hnamed := TimeSeriesEngine.named_registerMetric h.named metric
  revert hnamed
  unfold call TimeSeriesEngine.registerMetric
  dsimp only
  split_ifs
  · exact fun _ => h
  · exact fun hnamed => ⟨hnamed, h.identified, h.described, h.holds, h.known, h.present⟩

theorem Sound.compact (h : Sound nexus.toNexusCodec run) (hclean : Clean nexus run .compact) :
    Sound nexus.toNexusCodec (run.call nexus .compact) := by
  refine h.of_buffers rfl rfl fun id => ?_
  rw [TimeSeriesEngine.compact, Table.lookup_mapValues]
  cases hbuffer : run.engine.seriesData.lookup id with
  | none => exact Option.Rel.none
  | some buffer =>
    refine Option.Rel.some ⟨SeriesBuffer.metric_compress, SeriesBuffer.tags_compress, ?_⟩
    exact fun written hholds => hholds.compress (hclean id buffer hbuffer)

theorem Sound.compressSection (h : Sound nexus.toNexusCodec run) {metric : String}
    {startMs endMs : Int64} (hclean : Clean nexus run (.compressSection metric startMs endMs)) :
    Sound nexus.toNexusCodec (run.call nexus (.compressSection metric startMs endMs)) := by
  have hrecompressed := TimeSeriesEngine.recompressed_compressSection hclean
  refine h.of_buffers hrecompressed.index hrecompressed.metrics fun id => ?_
  have hrel := hrecompressed.buffers id
  revert hrel
  generalize run.engine.seriesData.lookup id = before
  generalize (run.engine.compressSection nexus metric startMs endMs).1.seriesData.lookup id = after
  intro hrel
  cases hrel with
  | none => exact Option.Rel.none
  | some hswapped =>
    refine Option.Rel.some ⟨hswapped.metric, hswapped.tags, fun written hholds => ?_⟩
    exact hholds.congr hswapped.layers hswapped.points

theorem Sound.mem_capture (h : Sound nexus.toNexusCodec run) {saved : PersistedSeries}
    (hsaved : saved ∈ run.engine.capture.series) :
    ∃ e ∈ run.written, e.1.Same saved.name := by
  obtain ⟨⟨id, buffer⟩, hentry, rfl⟩ := List.mem_map.mp hsaved
  obtain ⟨e, he, -, hsame⟩ := h.known id buffer (AList.mem_lookup_iff.mpr hentry)
  exact ⟨e, he, hsame⟩

theorem Sound.exists_mem_capture (h : Sound nexus.toNexusCodec run) {e : SeriesName × DataPoint}
    (he : e ∈ run.written) :
    ∃ saved ∈ run.engine.capture.series, e.1.Same saved.name := by
  obtain ⟨buffer, hbuffer⟩ := h.present e he
  obtain ⟨e', he', hid, hsame⟩ := h.known _ buffer hbuffer
  refine ⟨_, List.mem_map.mpr ⟨⟨e.1.id, buffer⟩, AList.mem_lookup_iff.mp hbuffer, rfl⟩, ?_⟩
  exact (h.identified _ (List.mem_map_of_mem he) _ (List.mem_map_of_mem he') hid.symm).trans hsame

/-- The index of what is loaded has the series that were written. -/
theorem Sound.described_reload (h : Sound nexus.toNexusCodec run) (config : EngineConfig) :
    IndexRun.Described ⟨(TimeSeriesEngine.loadFromDisk config (some run.engine.capture)).index,
      run.written.map Prod.fst⟩ := by
  have hindex : (TimeSeriesEngine.loadFromDisk config (some run.engine.capture)).index =
      (IndexRun.after (registerSaved run.engine.capture.series)).index :=
    TimeSeriesEngine.index_foldl_loadSeries _ {} _ rfl
  have hidentified : IndexRun.Identified
      (IndexRun.registered (registerSaved run.engine.capture.series)) := by
    rw [registered_registerSaved]
    intro s hs t ht hid
    obtain ⟨saved, hsaved, rfl⟩ := List.mem_map.mp hs
    obtain ⟨saved', hsaved', rfl⟩ := List.mem_map.mp ht
    obtain ⟨e, he, hsame⟩ := h.mem_capture hsaved
    obtain ⟨e', he', hsame'⟩ := h.mem_capture hsaved'
    have hwritten : e.1.id = e'.1.id := hsame.id_eq.trans (hid.trans hsame'.id_eq.symm)
    exact hsame.symm.trans ((h.identified _ (List.mem_map_of_mem he) _ (List.mem_map_of_mem he')
      hwritten).trans hsame')
  have hdescribed : IndexRun.Described ⟨(IndexRun.after _).index, (IndexRun.after _).live⟩ :=
    IndexRun.described_after hidentified
  have hlive : ∀ s, s ∈ (IndexRun.after (registerSaved run.engine.capture.series)).live ↔
      s ∈ run.engine.capture.series.map PersistedSeries.name := fun s =>
    (mem_live_registerSaved _ _).trans (or_iff_left List.not_mem_nil)
  rw [hindex]
  refine hdescribed.congr (fun s hs => ?_) fun t ht => ?_
  · obtain ⟨saved, hsaved, rfl⟩ := List.mem_map.mp ((hlive s).mp hs)
    obtain ⟨e, he, hsame⟩ := h.mem_capture hsaved
    exact ⟨e.1, List.mem_map_of_mem he, hsame.symm⟩
  · obtain ⟨e, he, rfl⟩ := List.mem_map.mp ht
    obtain ⟨saved, hsaved, hsame⟩ := h.exists_mem_capture he
    exact ⟨saved.name, (hlive _).mpr (List.mem_map_of_mem hsaved), hsame⟩

theorem Sound.flushAndReload (h : Sound nexus.toNexusCodec run) (config : EngineConfig) :
    Sound nexus.toNexusCodec (run.call nexus (.flushAndReload config)) := by
  have hlookup : ∀ id, (TimeSeriesEngine.loadFromDisk config
      (some run.engine.capture)).seriesData.lookup id = run.engine.seriesData.lookup id := by
    intro id
    refine (TimeSeriesEngine.lookup_foldl_loadSeries _ run.engine.seriesData.nodupKeys _ id).trans ?_
    exact Option.or_none
  refine ⟨TimeSeriesEngine.named_loadFromDisk _ _, h.identified, h.described_reload config,
    fun id buffer hbuffer => ?_, fun id buffer hbuffer => ?_, fun e he => ?_⟩
  · exact h.holds id buffer ((hlookup id).symm.trans hbuffer)
  · exact h.known id buffer ((hlookup id).symm.trans hbuffer)
  · obtain ⟨buffer, hbuffer⟩ := h.present e he
    exact ⟨buffer, (hlookup _).trans hbuffer⟩

theorem writtenTo_append (engine : TimeSeriesEngine) (name : SeriesName)
    (points : List DataPoint) (id : String) :
    ({ engine, written := run.written ++ points.map fun p => (name, p) } : EngineRun).writtenTo
        id =
      run.writtenTo id ++ if name.id = id then points else [] := by
  rw [writtenTo, List.filterMap_append, List.filterMap_map]
  refine congrArg (run.writtenTo id ++ ·) ?_
  split_ifs with hid
  · refine (List.filterMap_congr fun p _ => ?_).trans List.filterMap_some
    exact if_pos hid
  · refine List.filterMap_eq_nil_iff.mpr fun p _ => ?_
    exact if_neg hid

theorem Sound.writtenTo_of_none (h : Sound nexus.toNexusCodec run) {id : String}
    (hnone : run.engine.seriesData.lookup id = none) : run.writtenTo id = [] := by
  refine List.filterMap_eq_nil_iff.mpr fun e he => if_neg ?_
  rintro rfl
  obtain ⟨buffer, hbuffer⟩ := h.present e he
  rw [hnone] at hbuffer
  cases hbuffer

/-- The buffer that a batch is added to has the batch as well. -/
theorem Sound.buffered (h : Sound nexus.toNexusCodec run) {metricName : String} {tags : Tags}
    {points : List DataPoint} (hclean : CleanBatch nexus run metricName tags points) :
    (run.engine.buffered (run.engine.metricFor metricName) tags points).Holds nexus.toNexusCodec
      (run.writtenTo (SeriesName.id ⟨metricName, tags⟩) ++ points) := by
  have hfirst := hclean.firstIsLast
  have hname : TimeSeriesIndex.seriesIdFor (run.engine.metricFor metricName).name tags =
      SeriesName.id ⟨metricName, tags⟩ :=
    congrArg (TimeSeriesIndex.seriesIdFor · tags) (h.named.metricFor metricName)
  unfold TimeSeriesEngine.buffered at hfirst ⊢
  dsimp only at hfirst ⊢
  rw [hname] at hfirst ⊢
  cases hbuffer : run.engine.seriesData.lookup (SeriesName.id ⟨metricName, tags⟩) with
  | none =>
    rw [hbuffer] at hfirst
    rw [h.writtenTo_of_none hbuffer]
    exact SeriesBuffer.holds_of_points hfirst _ _
  | some buffer =>
    rw [hbuffer] at hfirst
    exact (h.holds _ buffer hbuffer).append hfirst

theorem Sound.same_buffered (h : Sound nexus.toNexusCodec run) {metricName : String} {tags : Tags}
    {points : List DataPoint} (hclean : CleanBatch nexus run metricName tags points) :
    (⟨metricName, tags⟩ : SeriesName).Same
      ⟨(run.engine.buffered (run.engine.metricFor metricName) tags points).metric.name,
        (run.engine.buffered (run.engine.metricFor metricName) tags points).tags⟩ := by
  have hmetric := h.named.metricFor metricName
  unfold TimeSeriesEngine.buffered
  dsimp only
  cases hbuffer : run.engine.seriesData.lookup
      (TimeSeriesIndex.seriesIdFor (run.engine.metricFor metricName).name tags) with
  | none => exact ⟨hmetric.symm, fun _ => rfl⟩
  | some buffer =>
    rw [hmetric] at hbuffer
    obtain ⟨e, he, hid, hsame⟩ := h.known _ buffer hbuffer
    exact (hclean.identified e he hid).symm.trans hsame

theorem Sound.addBatch (h : Sound nexus.toNexusCodec run) {metricName : String} {tags : Tags}
    {points : List DataPoint} (hne : points ≠ [])
    (hclean : CleanBatch nexus run metricName tags points) :
    Sound nexus.toNexusCodec
      { engine := run.engine.addBatch nexus.toNexusCodec (run.engine.metricFor metricName) tags
          points
        written := run.written ++ points.map fun p => (⟨metricName, tags⟩, p) } := by
  have hmetric := h.named.metricFor metricName
  have hbuffered := h.buffered hclean
  have hsame := h.same_buffered hclean
  have hsealable := hclean.sealable
  have hlookup (id : String) : (run.engine.addBatch nexus.toNexusCodec
      (run.engine.metricFor metricName) tags points).seriesData.lookup id =
        if id = SeriesName.id ⟨metricName, tags⟩ then
          some (if run.engine.isFull
              (run.engine.buffered (run.engine.metricFor metricName) tags points) then
            (run.engine.buffered (run.engine.metricFor metricName) tags points).compress
              nexus.toNexusCodec
          else run.engine.buffered (run.engine.metricFor metricName) tags points)
        else run.engine.seriesData.lookup id := by
    unfold TimeSeriesEngine.addBatch SeriesName.id
    dsimp only
    rw [Table.lookup_insert, hmetric]
  revert hbuffered hsame hsealable hlookup
  generalize run.engine.buffered (run.engine.metricFor metricName) tags points = buffer
  intro hbuffered hsame hsealable hlookup
  have hlive : ∀ s, s ∈ (run.written ++ points.map fun p =>
      ((⟨metricName, tags⟩ : SeriesName), p)).map Prod.fst ↔
        s ∈ (⟨metricName, tags⟩ : SeriesName) :: run.written.map Prod.fst := by
    intro s
    rw [List.map_append, List.map_map, List.mem_append, List.mem_cons, or_comm]
    refine or_congr_left ?_
    obtain ⟨p, hp⟩ := List.exists_mem_of_ne_nil _ hne
    constructor
    · intro hs
      obtain ⟨q, -, rfl⟩ := List.mem_map.mp hs
      rfl
    · exact fun hs => List.mem_map.mpr ⟨p, hp, hs.symm⟩
  have hidentified : IndexRun.Identified
      ((⟨metricName, tags⟩ : SeriesName) :: run.written.map Prod.fst) := by
    intro s hs t ht hid
    rcases List.mem_cons.mp hs with rfl | hs <;> rcases List.mem_cons.mp ht with rfl | ht
    · exact .refl _
    · obtain ⟨e, he, rfl⟩ := List.mem_map.mp ht
      exact (hclean.identified e he hid.symm).symm
    · obtain ⟨e, he, rfl⟩ := List.mem_map.mp hs
      exact hclean.identified e he hid
    · exact h.identified s hs t ht hid
  refine ⟨h.named, hidentified.mono fun s hs => (hlive s).mp hs, ?_, fun id buffer' hbuffer' => ?_,
    fun id buffer' hbuffer' => ?_, fun e he => ?_⟩
  · have hregistered : IndexRun.Described
        ⟨run.engine.index.register (run.engine.metricFor metricName) tags,
          ⟨(run.engine.metricFor metricName).name, tags⟩ :: run.written.map Prod.fst⟩ :=
      h.described.register (hmetric.symm ▸ hidentified)
    rw [hmetric] at hregistered
    exact hregistered.congr (fun s hs => ⟨s, (hlive s).mpr hs, .refl s⟩)
      fun s hs => ⟨s, (hlive s).mp hs, .refl s⟩
  · rw [writtenTo_append]
    rw [hlookup] at hbuffer'
    split_ifs at hbuffer' with hid hfull
    · obtain rfl := Option.some.inj hbuffer'
      rw [if_pos hid.symm, hid]
      exact hbuffered.compress (hsealable hfull)
    · obtain rfl := Option.some.inj hbuffer'
      rw [if_pos hid.symm, hid]
      exact hbuffered
    · rw [if_neg (Ne.symm hid), List.append_nil]
      exact h.holds id buffer' hbuffer'
  · rw [hlookup] at hbuffer'
    obtain ⟨p, hp⟩ := List.exists_mem_of_ne_nil _ hne
    have hnew : (⟨metricName, tags⟩, p) ∈ run.written ++ points.map fun p =>
        ((⟨metricName, tags⟩ : SeriesName), p) :=
      List.mem_append_right _ (List.mem_map_of_mem hp)
    split_ifs at hbuffer' with hid hfull
    · obtain rfl := Option.some.inj hbuffer'
      rw [SeriesBuffer.metric_compress, SeriesBuffer.tags_compress]
      exact ⟨_, hnew, hid.symm, hsame⟩
    · obtain rfl := Option.some.inj hbuffer'
      exact ⟨_, hnew, hid.symm, hsame⟩
    · obtain ⟨e, he, hsame⟩ := h.known id buffer' hbuffer'
      exact ⟨e, List.mem_append_left _ he, hsame⟩
  · change ∃ buffer, (run.engine.addBatch _ _ _ _).seriesData.lookup _ = some buffer
    rw [hlookup]
    split_ifs with hid
    · exact ⟨_, rfl⟩
    · exact ⟨_, rfl⟩
    · rcases List.mem_append.mp he with he | he
      · exact h.present e he
      · obtain ⟨p, -, rfl⟩ := List.mem_map.mp he
        exact absurd rfl hid

theorem Sound.writeBatch (h : Sound nexus.toNexusCodec run) {metricName : String} {tags : Tags}
    {points : List DataPoint}
    (hclean : Clean nexus run (.writeBatch metricName tags points)) :
    Sound nexus.toNexusCodec (run.call nexus (.writeBatch metricName tags points)) := by
  unfold call TimeSeriesEngine.writeBatch
  dsimp only
  by_cases hne : points = []
  · subst hne
    rw [List.isEmpty_nil, if_pos rfl, List.map_nil, List.append_nil]
    exact h
  · have hnonempty : points.isEmpty = false := by simpa using hne
    rw [hnonempty, if_neg Bool.false_ne_true]
    cases hexceeds : run.engine.exceedsLimit metricName tags with
    | true => exact h
    | false => exact h.addBatch hne (hclean hne hexceeds)

theorem Sound.of_reach {config : EngineConfig}
    (h : (system nexus config).Reach (Clean nexus) run) : Sound nexus.toNexusCodec run := by
  refine h.invariant (sound_init config) fun run call run' _ hsound hclean hcall => ?_
  obtain rfl := Option.some.inj hcall
  cases call with
  | registerMetric metric => exact hsound.registerMetric metric
  | writeBatch metricName tags points => exact hsound.writeBatch hclean
  | compact => exact hsound.compact hclean
  | compressSection metric startMs endMs => exact hsound.compressSection hclean
  | flushAndReload config => exact hsound.flushAndReload config

end EngineRun

end TimeSeries

end AegisDB
