import AegisDB.TimeSeries.EngineRuns
import Mathlib.Data.String.Basic

/-!
# What queries return

A query that asks for all points as they are is answered if it returns every series that it wants
and that has points in its range, each once, with exactly its points in the range: one for each
time, in order, and of each time the one that was written last.  After clean calls it is, if its
points are not too many for one result and it does not look for series by no tags at all.
-/

namespace AegisDB

namespace TimeSeries

open Layers

/-! ## Answers -/

deriving instance DecidableEq for SeriesName

instance (s t : SeriesName) : Decidable (s.Same t) :=
  decidable_of_iff (s.metricName = t.metricName ∧ s.pairs = t.pairs)
    ⟨fun h => ⟨h.1, SeriesName.lookup_congr h.2⟩, fun h => ⟨h.1, h.pairs_eq⟩⟩

def SeriesName.WantedBy (query : TimeSeriesQuery) (s : SeriesName) : Bool :=
  match query.tags with
  | some filter => s.tags.matches filter && (query.metric.isEmpty || s.metricName = query.metric)
  | none => s.metricName = query.metric

def Series.name (s : Series) : SeriesName :=
  ⟨s.metric.name, s.tags⟩

/-- Of the points that were written those in the range of a query, in order, and of each time the
last. -/
structure IsLatest (query : TimeSeriesQuery) (written points : List DataPoint) : Prop where
  sorted : points.Pairwise fun p q => p.timestamp < q.timestamp
  mem_iff : ∀ p, p ∈ points ↔
    query.inRange p = true ∧ lastAt DataPoint.timestamp p.timestamp written = some p

namespace EngineRun

variable (run : EngineRun) (query : TimeSeriesQuery)

def pointsOf (name : SeriesName) : List DataPoint :=
  run.written.filterMap fun e => if e.1.Same name then some e.2 else none

/-- The series are what a query asks for. -/
structure Lists (series : List Series) : Prop where
  found : ∀ e ∈ run.written, e.1.WantedBy query = true → query.inRange e.2 = true →
    ∃ s ∈ series, e.1.Same s.name
  wanted : ∀ s ∈ series, s.name.WantedBy query = true
  points : ∀ s ∈ series, s.points ≠ [] ∧ IsLatest query (run.pointsOf s.name) s.points
  once : series.Pairwise fun s t => ¬ s.name.Same t.name

/-- A result is what a query asks for. -/
structure Answers (result : QueryResult) : Prop where
  complete : result.overLimit = false
  lists : run.Lists query result.series

/-- The series, by their ids, and the times of the points that a query asks for. -/
def wantedTimes : Finset (String × DateTime) :=
  ((run.written.filter fun e => e.1.WantedBy query && query.inRange e.2).map
    fun e => (e.1.id, e.2.timestamp)).toFinset

/-- A query that asks for some tag, if there is anything to be found, and for no more points than
one result may have. -/
structure Answerable : Prop where
  asks : (∀ filter, query.tags = some filter → filter.entries ≠ []) ∨ run.wantedTimes query = ∅
  fits : (run.wantedTimes query).card ≤ run.engine.config.maxQueryPoints

end EngineRun

/-! ## Reading one series after the other -/

namespace QueryResult

def size (result : QueryResult) : ℕ :=
  (result.series.map fun s => s.points.length).sum

end QueryResult

namespace TieredEngine

/-- A result is cut short exactly if it has too many points, and has all series otherwise. -/
theorem readAll_spec (nexus : NexusCodec) (t : TieredEngine) (hotCutoff : DateTime)
    (query : TimeSeriesQuery) {result : QueryResult} (hcomplete : result.overLimit = false)
    (hfits : result.pointsReturned ≤ t.engine.config.maxQueryPoints)
    (snaps : List (String × Option RangeSnapshot)) :
    ((t.readAll nexus hotCutoff query result snaps).overLimit = false ↔
      result.pointsReturned +
          ((snaps.filterMap (t.readSeries nexus hotCutoff query)).map QueryResult.size).sum ≤
        t.engine.config.maxQueryPoints) ∧
      ((t.readAll nexus hotCutoff query result snaps).overLimit = false →
        (t.readAll nexus hotCutoff query result snaps).series = result.series ++
          (snaps.filterMap (t.readSeries nexus hotCutoff query)).flatMap QueryResult.series) := by
  induction snaps generalizing result with
  | nil =>
    exact ⟨iff_of_true hcomplete hfits, fun _ => (List.append_nil result.series).symm⟩
  | cons snap snaps ih =>
    rw [readAll]
    cases hread : t.readSeries nexus hotCutoff query snap with
    | none =>
      rw [List.filterMap_cons_none hread]
      exact ih hcomplete hfits
    | some r =>
      rw [List.filterMap_cons_some hread, List.map_cons, List.sum_cons, List.flatMap_cons,
        ← Nat.add_assoc]
      dsimp only
      split_ifs with hover
      · have hmore : ¬ result.pointsReturned + r.size + ((snaps.filterMap
            (t.readSeries nexus hotCutoff query)).map QueryResult.size).sum ≤
              t.engine.config.maxQueryPoints :=
          fun hle => absurd ((Nat.le_add_right _ _).trans hle) (Nat.not_le.mpr hover)
        refine ⟨iff_of_false ?_ hmore, fun h => ?_⟩
        · exact not_false
        · cases h
      · rw [← List.append_assoc]
        exact ih rfl (Nat.not_lt.mp hover)

/-- The cold tier of a new engine, if it has one. -/
def newTier (enabled : Bool) : Option ColdStore :=
  if enabled then some (ColdStore.openDir {}) else none

theorem readRange_newTier {enabled : Bool} {engine : TimeSeriesEngine} {hotCutoff : DateTime}
    {query : TimeSeriesQuery} (id : String)
    (startMs endMs : Int64) :
    ((TieredEngine.reachCold ⟨engine, newTier enabled⟩ hotCutoff query).map fun store =>
      store.readRange id startMs endMs).getD [] = [] := by
  have hempty : (ColdStore.openDir {}).readRange id startMs endMs = [] := by
    rw [ColdStore.readRange_eq]
    exact if_neg (AList.notMem_empty id)
  unfold reachCold newTier
  dsimp only
  cases enabled with
  | false => rfl
  | true =>
    rw [if_pos rfl, Option.filter_some]
    split_ifs
    · exact hempty
    · rfl

end TieredEngine

/-! ## What is read of one series -/

namespace TimeSeriesQuery

variable (nexus : NexusCodec) (query : TimeSeriesQuery)

def pointsIn (buffer : SeriesBuffer) : List DataPoint :=
  query.readPoints nexus
    (buffer.snapshotRange query.start.timestampMillis query.endTime.timestampMillis).blocks
    (buffer.snapshotRange query.start.timestampMillis query.endTime.timestampMillis).points

/-- The series of a buffer, if it has points in the range. -/
def seriesIn (buffer : SeriesBuffer) : List Series :=
  if query.pointsIn nexus buffer = [] then []
  else [⟨buffer.metric, buffer.tags, query.pointsIn nexus buffer⟩]

variable {nexus} {query}

/-- A series with points in the range only is returned as it is. -/
theorem series_execute (h : query.Plain) {s : Series}
    (htags : ∀ filter, query.tags = some filter → s.tags.matches filter = true)
    (hrange : ∀ p ∈ s.points, query.inRange p = true) :
    (query.execute [s]).series = if s.points = [] then [] else [s] := by
  have hanswer : query.answer s = s := by
    rw [answer, h.unaggregated, h.unlimited]
    dsimp only
    rw [List.filter_eq_self.mpr hrange]
  have hmatches : (query.tags.all fun filter => s.tags.matches filter) = true := by
    cases hfilter : query.tags with
    | none => rfl
    | some filter => exact htags filter hfilter
  rw [execute]
  dsimp only
  rw [List.filter_singleton, hmatches, cond_true, List.map_singleton, hanswer,
    List.filter_singleton]
  by_cases hpoints : s.points = []
  · rw [if_pos hpoints, hpoints]
    rfl
  · have hnonempty : s.points.isEmpty = false := by simpa using hpoints
    rw [if_neg hpoints, hnonempty]
    rfl

end TimeSeriesQuery

namespace TieredEngine

variable {nexus : NexusCodec} {engine : TimeSeriesEngine} {enabled : Bool} {hotCutoff : DateTime}
  {query : TimeSeriesQuery} {id : String}

def snapOf (engine : TimeSeriesEngine) (query : TimeSeriesQuery) (id : String) :
    String × Option RangeSnapshot :=
  (id, (engine.seriesData.lookup id).map
    (SeriesBuffer.snapshotRange query.start.timestampMillis query.endTime.timestampMillis))

/-- What is added to a result for a series that is in memory. -/
theorem readSeries_of_some (h : query.Plain) {buffer : SeriesBuffer}
    (hbuffer : engine.seriesData.lookup id = some buffer)
    (htags : ∀ filter, query.tags = some filter → buffer.tags.matches filter = true) :
    ((TieredEngine.readSeries nexus ⟨engine, newTier enabled⟩ hotCutoff query
        (snapOf engine query id)).map QueryResult.series).getD [] =
      query.seriesIn nexus buffer := by
  unfold readSeries snapOf
  dsimp only
  rw [readRange_newTier, hbuffer, Option.map_some, Option.map_some, Option.map_some,
    Option.getD_some, Option.getD_some, List.append_nil]
  unfold TimeSeriesQuery.seriesIn TimeSeriesQuery.pointsIn
  split_ifs with hempty hpoints hpoints
  · rfl
  · rw [Bool.and_eq_true, List.isEmpty_iff, List.isEmpty_iff] at hempty
    rw [hempty.1, hempty.2] at hpoints
    exact absurd rfl hpoints
  all_goals
    refine (TimeSeriesQuery.series_execute h htags fun p hp => ?_).trans ?_
  · exact ((TimeSeriesQuery.mem_readPoints h).mp hp).1
  · exact if_pos hpoints
  · exact ((TimeSeriesQuery.mem_readPoints h).mp hp).1
  · exact if_neg hpoints

end TieredEngine

/-! ## Series that were written -/

theorem SeriesName.wantedBy_congr {query : TimeSeriesQuery} {s t : SeriesName} (h : s.Same t) :
    s.WantedBy query = t.WantedBy query := by
  have hmatches (filter : Tags) : s.tags.matches filter = t.tags.matches filter := by
    unfold Tags.matches
    exact congrArg filter.entries.all (funext fun e => by rw [h.2])
  unfold WantedBy
  rw [h.1]
  simp only [hmatches]

namespace EngineRun

variable {nexus : NexusCompress} {run : EngineRun} {query : TimeSeriesQuery} {id : String}
  {name : SeriesName}

theorem mem_pointsOf {p : DataPoint} :
    p ∈ run.pointsOf name ↔ ∃ e ∈ run.written, e.1.Same name ∧ e.2 = p := by
  unfold pointsOf
  rw [List.mem_filterMap]
  refine exists_congr fun e => and_congr_right fun _ => ?_
  split_ifs with hsame
  · rw [Option.some.injEq, and_iff_right hsame]
  · exact iff_of_false (fun h => by cases h) fun h => hsame h.1

theorem pointsOf_congr {name' : SeriesName} (h : name.Same name') :
    run.pointsOf name = run.pointsOf name' := by
  refine List.filterMap_congr fun e _ => ?_
  have hiff : e.1.Same name ↔ e.1.Same name' := ⟨fun hs => hs.trans h, fun hs => hs.trans h.symm⟩
  simp only [hiff]

theorem Sound.pointsOf_eq (h : Sound nexus.toNexusCodec run) {e : SeriesName × DataPoint}
    (he : e ∈ run.written) (hsame : e.1.Same name) :
    run.pointsOf name = run.writtenTo e.1.id := by
  refine List.filterMap_congr fun e' he' => ?_
  have hiff : e'.1.Same name ↔ e'.1.id = e.1.id := by
    constructor
    · exact fun hs => (hs.trans hsame.symm).id_eq
    · intro hid
      exact (h.identified _ (List.mem_map_of_mem he') _ (List.mem_map_of_mem he) hid).trans hsame
  simp only [hiff]

theorem exists_lastAt {p : DataPoint} {written : List DataPoint} (h : p ∈ written) :
    ∃ q, lastAt DataPoint.timestamp p.timestamp written = some q ∧ q.timestamp = p.timestamp := by
  cases hlast : lastAt DataPoint.timestamp p.timestamp written with
  | none => exact absurd rfl (lastAt_eq_none.mp hlast p h)
  | some q => exact ⟨q, rfl, key_of_lastAt hlast⟩

/-! ## Answers and their sizes -/

theorem mem_wantedTimes {id : String} {time : DateTime} :
    (id, time) ∈ run.wantedTimes query ↔ ∃ e ∈ run.written, e.1.WantedBy query = true ∧
      query.inRange e.2 = true ∧ e.1.id = id ∧ e.2.timestamp = time := by
  unfold wantedTimes
  rw [List.mem_toFinset, List.mem_map]
  constructor
  · rintro ⟨e, he, heq⟩
    obtain ⟨he, hwanted⟩ := List.mem_filter.mp he
    obtain ⟨hwanted, hrange⟩ := Bool.and_eq_true_iff.mp hwanted
    obtain ⟨hid, htime⟩ := Prod.mk.inj heq
    exact ⟨e, he, hwanted, hrange, hid, htime⟩
  · rintro ⟨e, he, hwanted, hrange, rfl, rfl⟩
    exact ⟨e, List.mem_filter.mpr ⟨he, Bool.and_eq_true_iff.mpr ⟨hwanted, hrange⟩⟩, rfl⟩

/-- The ids and the times of the points of some series. -/
def timesOf (series : List Series) : List (String × DateTime) :=
  series.flatMap fun s => s.points.map fun p => (s.name.id, p.timestamp)

theorem Lists.exists_written {series : List Series} (h : run.Lists query series) {s : Series}
    (hs : s ∈ series) {p : DataPoint} (hp : p ∈ s.points) :
    query.inRange p = true ∧ ∃ e ∈ run.written, e.1.Same s.name ∧ e.2 = p := by
  obtain ⟨hrange, hlast⟩ := ((h.points s hs).2.mem_iff p).mp hp
  exact ⟨hrange, mem_pointsOf.mp (mem_of_lastAt hlast)⟩

theorem Lists.mem_timesOf {series : List Series} (h : run.Lists query series)
    (x : String × DateTime) : x ∈ timesOf series ↔ x ∈ run.wantedTimes query := by
  obtain ⟨id, time⟩ := x
  unfold timesOf
  rw [mem_wantedTimes, List.mem_flatMap]
  constructor
  · rintro ⟨s, hs, hx⟩
    obtain ⟨p, hp, heq⟩ := List.mem_map.mp hx
    obtain ⟨rfl, rfl⟩ := Prod.mk.inj heq
    obtain ⟨hrange, e, he, hsame, rfl⟩ := h.exists_written hs hp
    refine ⟨e, he, ?_, hrange, hsame.id_eq, rfl⟩
    rw [SeriesName.wantedBy_congr hsame]
    exact h.wanted s hs
  · rintro ⟨e, he, hwanted, hrange, rfl, rfl⟩
    obtain ⟨s, hs, hsame⟩ := h.found e he hwanted hrange
    obtain ⟨q, hlast, htime⟩ := exists_lastAt (mem_pointsOf.mpr ⟨e, he, hsame, rfl⟩)
    refine ⟨s, hs, List.mem_map.mpr ⟨q, ?_, by rw [hsame.id_eq, htime]⟩⟩
    rw [(h.points s hs).2.mem_iff, htime]
    exact ⟨(TimeSeriesQuery.inRange_congr htime).trans hrange, hlast⟩

theorem Lists.nodup_timesOf {series : List Series} (h : run.Lists query series)
    (hidentified : IndexRun.Identified (run.written.map Prod.fst)) :
    (timesOf series).Nodup := by
  unfold timesOf
  refine List.nodup_flatMap.mpr ⟨fun s hs => ?_, ?_⟩
  · refine List.pairwise_map.mpr ((h.points s hs).2.sorted.imp fun hlt heq => ?_)
    exact hlt.ne (Prod.mk.inj heq).2
  · refine h.once.imp_of_mem fun {s t} hs ht hsame x hx hx' => hsame ?_
    obtain ⟨p, hp, rfl⟩ := List.mem_map.mp hx
    obtain ⟨q, hq, heq⟩ := List.mem_map.mp hx'
    obtain ⟨-, e, he, hes, -⟩ := h.exists_written hs hp
    obtain ⟨-, e', he', het, -⟩ := h.exists_written ht hq
    have hid : e.1.id = e'.1.id :=
      hes.id_eq.trans ((Prod.mk.inj heq).1.symm.trans het.id_eq.symm)
    exact hes.symm.trans ((hidentified _ (List.mem_map_of_mem he) _ (List.mem_map_of_mem he')
      hid).trans het)

theorem Lists.size_eq {series : List Series} (h : run.Lists query series)
    (hidentified : IndexRun.Identified (run.written.map Prod.fst)) :
    (series.map fun s => s.points.length).sum = (run.wantedTimes query).card := by
  have htimes : (timesOf series).toFinset = run.wantedTimes query := by
    ext x
    rw [List.mem_toFinset, h.mem_timesOf]
  rw [← htimes, List.toFinset_card_of_nodup (h.nodup_timesOf hidentified), timesOf,
    List.length_flatMap]
  simp only [List.length_map]

theorem lists_nil_iff : run.Lists query [] ↔ run.wantedTimes query = ∅ := by
  constructor
  · intro h
    refine Finset.eq_empty_of_forall_notMem fun x hx => ?_
    rw [← h.mem_timesOf] at hx
    cases hx
  · intro hnone
    refine ⟨fun e he hwanted hrange => ?_, fun s hs => (by cases hs), fun s hs => (by cases hs),
      List.Pairwise.nil⟩
    have hmem : (e.1.id, e.2.timestamp) ∈ run.wantedTimes query :=
      mem_wantedTimes.mpr ⟨e, he, hwanted, hrange, rfl, rfl⟩
    rw [hnone] at hmem
    exact absurd hmem (Finset.notMem_empty _)

/-! ## The series that are read -/

/-- The series that are found are those that a query asks for, if it asks for some tag. -/
theorem Sound.mem_seriesIds (h : Sound nexus.toNexusCodec run)
    (hasks : ∀ filter, query.tags = some filter → filter.entries ≠ []) :
    id ∈ run.engine.seriesIds query ↔
      ∃ s ∈ run.written.map Prod.fst, s.WantedBy query = true ∧ s.id = id := by
  unfold TimeSeriesEngine.seriesIds SeriesName.WantedBy
  cases hfilter : query.tags with
  | none =>
    dsimp only
    rw [h.described.mem_findByMetric]
    simp only [decide_eq_true_eq]
  | some filter =>
    dsimp only
    have hfinds : IndexRun.Finds ⟨run.engine.index, run.written.map Prod.fst⟩ filter :=
      h.described.finds_iff.mpr (Or.inl (hasks filter hfilter))
    split_ifs with hmetric
    · rw [hfinds id]
      simp only [hmetric, Bool.true_or, Bool.and_true]
    · rw [Finset.mem_filter, hfinds id]
      have hget : ∀ s ∈ run.written.map Prod.fst, s.id = id →
          ((run.engine.index.get id).any fun metadata => metadata.metricName = query.metric) =
            decide (s.metricName = query.metric) := by
        rintro s hs rfl
        obtain ⟨metadata, hget, hsame⟩ := h.described.get_of_registered s hs
        rw [hget, Option.any_some, hsame.1]
      constructor
      · rintro ⟨⟨s, hs, hmatches, hid⟩, hany⟩
        rw [hget s hs hid] at hany
        refine ⟨s, hs, ?_, hid⟩
        rw [hmatches, hany, Bool.or_true, Bool.and_true]
      · rintro ⟨s, hs, hwanted, hid⟩
        rw [Bool.eq_false_of_not_eq_true hmetric, Bool.false_or, Bool.and_eq_true] at hwanted
        refine ⟨⟨s, hs, hwanted.1, hid⟩, ?_⟩
        rw [hget s hs hid]
        exact hwanted.2

def seriesAt (nexus : NexusCodec) (run : EngineRun) (query : TimeSeriesQuery) (id : String) :
    List Series :=
  ((run.engine.seriesData.lookup id).map (query.seriesIn nexus)).getD []

theorem mem_seriesAt {nexus : NexusCodec} {s : Series} :
    s ∈ seriesAt nexus run query id ↔
      ∃ buffer, run.engine.seriesData.lookup id = some buffer ∧
        query.pointsIn nexus buffer ≠ [] ∧
          s = ⟨buffer.metric, buffer.tags, query.pointsIn nexus buffer⟩ := by
  unfold seriesAt TimeSeriesQuery.seriesIn
  cases hbuffer : run.engine.seriesData.lookup id with
  | none => exact iff_of_false List.not_mem_nil fun ⟨_, h, _⟩ => by cases h
  | some buffer =>
    rw [Option.map_some, Option.getD_some]
    split_ifs with hpoints
    · refine iff_of_false List.not_mem_nil ?_
      rintro ⟨_, ⟨⟩, hne, _⟩
      exact hne hpoints
    · rw [List.mem_singleton]
      constructor
      · exact fun hs => ⟨buffer, rfl, hpoints, hs⟩
      · rintro ⟨_, ⟨⟩, _, hs⟩
        exact hs

theorem Sound.of_mem_seriesAt (h : Sound nexus.toNexusCodec run) (hplain : query.Plain)
    {s : Series} (hs : s ∈ seriesAt nexus.toNexusCodec run query id) :
    s.points ≠ [] ∧ IsLatest query (run.writtenTo id) s.points ∧
      ∃ e ∈ run.written, e.1.id = id ∧ e.1.Same s.name := by
  obtain ⟨buffer, hbuffer, hpoints, rfl⟩ := mem_seriesAt.mp hs
  refine ⟨hpoints, ⟨TimeSeriesQuery.pairwise_readPoints _ _, fun p => ?_⟩, h.known id buffer hbuffer⟩
  exact TimeSeriesQuery.mem_readPoints_snapshotRange hplain (h.holds id buffer hbuffer)

theorem Sound.lists (h : Sound nexus.toNexusCodec run) (hplain : query.Plain)
    (hasks : ∀ filter, query.tags = some filter → filter.entries ≠ []) {ids : List String}
    (hnodup : ids.Nodup) (hids : ∀ id, id ∈ ids ↔ id ∈ run.engine.seriesIds query) :
    run.Lists query (ids.flatMap (seriesAt nexus.toNexusCodec run query)) := by
  have hread {s : Series} (hs : s ∈ ids.flatMap (seriesAt nexus.toNexusCodec run query)) :
      ∃ id ∈ ids, s ∈ seriesAt nexus.toNexusCodec run query id := List.mem_flatMap.mp hs
  refine ⟨fun e he hwanted hrange => ?_, fun s hs => ?_, fun s hs => ?_, ?_⟩
  · obtain ⟨buffer, hbuffer⟩ := h.present e he
    have hid : e.1.id ∈ ids := by
      rw [hids, h.mem_seriesIds hasks]
      exact ⟨e.1, List.mem_map_of_mem he, hwanted, rfl⟩
    have hwritten : e.2 ∈ run.writtenTo e.1.id := List.mem_filterMap.mpr ⟨e, he, if_pos rfl⟩
    obtain ⟨q, hlast, htime⟩ := exists_lastAt hwritten
    have hq : q ∈ query.pointsIn nexus.toNexusCodec buffer := by
      refine (TimeSeriesQuery.mem_readPoints_snapshotRange hplain (h.holds _ buffer hbuffer)).mpr ?_
      rw [htime]
      exact ⟨(TimeSeriesQuery.inRange_congr htime).trans hrange, hlast⟩
    obtain ⟨e', he', hid', hsame⟩ := h.known _ buffer hbuffer
    refine ⟨_, List.mem_flatMap.mpr ⟨_, hid, mem_seriesAt.mpr
      ⟨buffer, hbuffer, List.ne_nil_of_mem hq, rfl⟩⟩, ?_⟩
    exact (h.identified _ (List.mem_map_of_mem he) _ (List.mem_map_of_mem he') hid'.symm).trans
      hsame
  · obtain ⟨id, hid, hs⟩ := hread hs
    obtain ⟨-, -, e, he, heid, hsame⟩ := h.of_mem_seriesAt hplain hs
    rw [hids, h.mem_seriesIds hasks] at hid
    obtain ⟨t, ht, hwanted, htid⟩ := hid
    have hts : t.Same s.name :=
      (h.identified t ht _ (List.mem_map_of_mem he) (htid.trans heid.symm)).trans hsame
    rw [← SeriesName.wantedBy_congr hts]
    exact hwanted
  · obtain ⟨id, -, hs⟩ := hread hs
    obtain ⟨hpoints, hlatest, e, he, rfl, hsame⟩ := h.of_mem_seriesAt hplain hs
    rw [h.pointsOf_eq he hsame]
    exact ⟨hpoints, hlatest⟩
  · rw [List.pairwise_flatMap]
    refine ⟨fun id _ => ?_, hnodup.imp_of_mem fun {id id'} _ _ hne s hs t ht hsame => hne ?_⟩
    · unfold seriesAt TimeSeriesQuery.seriesIn
      cases run.engine.seriesData.lookup id with
      | none => exact List.Pairwise.nil
      | some buffer =>
        rw [Option.map_some, Option.getD_some]
        split_ifs
        · exact List.Pairwise.nil
        · exact List.pairwise_singleton _ _
    · obtain ⟨-, -, e, -, rfl, hes⟩ := h.of_mem_seriesAt hplain hs
      obtain ⟨-, -, e', -, rfl, het⟩ := h.of_mem_seriesAt hplain ht
      exact (hes.trans (hsame.trans het.symm)).id_eq

/-- Results that are joined have the series of all and the points of all. -/
theorem flatMap_results {α : Type*} (f : α → Option QueryResult) (l : List α) :
    (l.filterMap f).flatMap QueryResult.series =
        l.flatMap (fun a => ((f a).map QueryResult.series).getD []) ∧
      ((l.filterMap f).map QueryResult.size).sum =
        ((l.flatMap fun a => ((f a).map QueryResult.series).getD []).map
          fun s => s.points.length).sum := by
  induction l with
  | nil => exact ⟨rfl, rfl⟩
  | cons a l ih =>
    cases hf : f a with
    | none =>
      rw [List.filterMap_cons_none hf, List.flatMap_cons, hf]
      exact ih
    | some r =>
      rw [List.filterMap_cons_some hf, List.flatMap_cons, List.flatMap_cons, hf, ih.1,
        List.map_cons, List.sum_cons, ih.2, List.map_append, List.sum_append]
      exact ⟨rfl, rfl⟩

/-- A query that asks for some tag has all series, or too many points. -/
theorem Sound.query_spec (h : Sound nexus.toNexusCodec run) (hplain : query.Plain)
    (hasks : ∀ filter, query.tags = some filter → filter.entries ≠ []) (enabled : Bool)
    (hotCutoff : DateTime) (visits : Visits) :
    let result := TieredEngine.query nexus.toNexusCodec ⟨run.engine, TieredEngine.newTier enabled⟩
      hotCutoff visits query
    (result.overLimit = false ↔
        (run.wantedTimes query).card ≤ run.engine.config.maxQueryPoints) ∧
      (result.overLimit = false → run.Lists query result.series) := by
  intro result
  have hids : ∀ id, id ∈ visits.order (run.engine.seriesIds query) ↔
      id ∈ run.engine.seriesIds query := visits.mem_order _
  have hlists := h.lists hplain hasks (visits.nodup _) hids
  have hread : ∀ id ∈ visits.order (run.engine.seriesIds query),
      ((TieredEngine.readSeries nexus.toNexusCodec ⟨run.engine, TieredEngine.newTier enabled⟩
          hotCutoff query (TieredEngine.snapOf run.engine query id)).map
            QueryResult.series).getD [] = seriesAt nexus.toNexusCodec run query id := by
    intro id hid
    rw [hids, h.mem_seriesIds hasks] at hid
    obtain ⟨s, hs, hwanted, rfl⟩ := hid
    obtain ⟨e, he, rfl⟩ := List.mem_map.mp hs
    obtain ⟨buffer, hbuffer⟩ := h.present e he
    obtain ⟨e', he', hid', hsame⟩ := h.known _ buffer hbuffer
    have hes : e.1.Same ⟨buffer.metric.name, buffer.tags⟩ :=
      (h.identified _ hs _ (List.mem_map_of_mem he') hid'.symm).trans hsame
    rw [SeriesName.wantedBy_congr hes] at hwanted
    rw [TieredEngine.readSeries_of_some hplain hbuffer, seriesAt, hbuffer]
    · rfl
    · intro filter hfilter
      unfold SeriesName.WantedBy at hwanted
      rw [hfilter] at hwanted
      exact (Bool.and_eq_true_iff.mp hwanted).1
  have hempty : ({} : QueryResult).pointsReturned ≤ run.engine.config.maxQueryPoints :=
    Nat.zero_le _
  obtain ⟨hcomplete, hseries⟩ := TieredEngine.readAll_spec nexus.toNexusCodec
    ⟨run.engine, TieredEngine.newTier enabled⟩ hotCutoff query rfl hempty
    ((visits.order (run.engine.seriesIds query)).map (TieredEngine.snapOf run.engine query))
  obtain ⟨hjoined, hsize⟩ := flatMap_results
    (TieredEngine.readSeries nexus.toNexusCodec ⟨run.engine, TieredEngine.newTier enabled⟩
      hotCutoff query)
    ((visits.order (run.engine.seriesIds query)).map (TieredEngine.snapOf run.engine query))
  rw [List.flatMap_map, List.flatMap_congr hread] at hjoined hsize
  rw [hsize, hlists.size_eq h.identified, Nat.zero_add] at hcomplete
  refine ⟨hcomplete, fun hnot => ?_⟩
  have hall := hseries hnot
  rw [hjoined] at hall
  exact hall ▸ hlists

/-- After clean calls a query that asks for all points as they are is answered exactly if it can
be. -/
theorem query_answers_iff {config : EngineConfig}
    (hreach : (system nexus config).Reach (Clean nexus) run) (hplain : query.Plain)
    (enabled : Bool) (hotCutoff : DateTime) (visits : Visits) :
    run.Answers query (TieredEngine.query nexus.toNexusCodec
        ⟨run.engine, TieredEngine.newTier enabled⟩ hotCutoff visits query) ↔
      run.Answerable query := by
  have hsound := Sound.of_reach hreach
  by_cases hasks : ∀ filter, query.tags = some filter → filter.entries ≠ []
  · obtain ⟨hcomplete, hlists⟩ := hsound.query_spec hplain hasks enabled hotCutoff visits
    constructor
    · exact fun h => ⟨Or.inl hasks, hcomplete.mp h.complete⟩
    · intro h
      have hnot := hcomplete.mpr h.fits
      exact ⟨hnot, hlists hnot⟩
  · obtain ⟨filter, hfilter, hnone⟩ : ∃ filter, query.tags = some filter ∧ filter.entries = [] := by
      push Not at hasks
      exact hasks
    -- a lookup by no tags finds nothing
    have hids : run.engine.seriesIds query = ∅ := by
      have hfound : run.engine.index.findByTags filter = ∅ := by
        refine Finset.eq_empty_of_forall_notMem fun id hid => ?_
        exact (TimeSeriesIndex.mem_findByTags.mp hid).1 hnone
      unfold TimeSeriesEngine.seriesIds
      rw [hfilter]
      dsimp only
      rw [hfound, Finset.filter_empty, ite_self]
    have hresult : TieredEngine.query nexus.toNexusCodec
        ⟨run.engine, TieredEngine.newTier enabled⟩ hotCutoff visits query = {} := by
      have horder : visits.order ∅ = [] := List.eq_nil_iff_forall_not_mem.mpr fun id hid =>
        absurd ((visits.mem_order ∅ id).mp hid) (Finset.notMem_empty id)
      unfold TieredEngine.query
      dsimp only
      rw [hids, horder]
      rfl
    rw [hresult]
    constructor
    · intro h
      have htimes := lists_nil_iff.mp h.lists
      refine ⟨Or.inr htimes, ?_⟩
      rw [htimes]
      exact Nat.zero_le _
    · rintro ⟨hasks' | htimes, -⟩
      · exact absurd hasks' hasks
      · exact ⟨rfl, lists_nil_iff.mpr htimes⟩

def noNexus : NexusCompress where
  decompressBatch _ := none
  compressBatch _ _ := none

def alphabetical : Visits where
  order ids := ids.sort (· ≤ ·)
  nodup ids := ids.sort_nodup (· ≤ ·)
  mem_order ids _ := ids.mem_sort (· ≤ ·)

def pointAt (millis : ℕ) (bits : UInt64) (h : millis < 1000 := by decide) : DataPoint :=
  ⟨⟨millis * 1000000, by omega⟩, ⟨bits⟩⟩

/-- All points of a metric in the first second. -/
def firstSecond (metric : String) : TimeSeriesQuery where
  metric
  start := (pointAt 0 0).timestamp
  endTime := (pointAt 999 0).timestamp

/-- Two points are written in the order of their times. -/
def bufferedRun : EngineRun :=
  ({ engine := { config := {} } } : EngineRun).call noNexus
    (.writeBatch "cpu" ∅ [pointAt 1 1, pointAt 2 2])

def sealedRun : EngineRun :=
  bufferedRun.call noNexus .compact

theorem seriesData_bufferedRun : bufferedRun.engine.seriesData =
    AList.insert (TimeSeriesIndex.seriesIdFor "cpu" ∅)
      (⟨Metric.gauge "cpu", ∅, [pointAt 1 1, pointAt 2 2], []⟩ : SeriesBuffer) ∅ := by
  rfl

theorem reach_sealedRun : (system noNexus {}).Reach (Clean noNexus) sealedRun := by
  have hbatch : Clean noNexus (system noNexus {}).init
      (.writeBatch "cpu" ∅ [pointAt 1 1, pointAt 2 2]) := by
    refine fun _ _ => ⟨fun e he => (by cases he), by decide +kernel, fun hfull => ?_⟩
    exact absurd hfull (by decide +kernel)
  have hcompact : Clean noNexus bufferedRun .compact := by
    intro id buffer hbuffer
    rw [seriesData_bufferedRun, Table.lookup_insert] at hbuffer
    split_ifs at hbuffer
    · obtain rfl := Option.some.inj hbuffer
      exact ⟨by decide +kernel, by decide +kernel⟩
    · cases hbuffer
  exact .step (.step .init hbatch rfl) hcompact rfl

/-- Both points are returned. -/
theorem query_answers_sealedRun :
    sealedRun.Answers (firstSecond "cpu") (TieredEngine.query noNexus.toNexusCodec
      ⟨sealedRun.engine, TieredEngine.newTier true⟩ (pointAt 0 0).timestamp alphabetical
        (firstSecond "cpu")) :=
  (query_answers_iff reach_sealedRun ⟨rfl, rfl⟩ true (pointAt 0 0).timestamp alphabetical).mpr
    ⟨Or.inl fun filter hfilter => (by cases hfilter), by decide +kernel⟩

def corrected : EngineRun :=
  (({ engine := { config := {} } } : EngineRun).call noNexus
    (.writeBatch "cpu" ∅ [pointAt 1 1])).call noNexus (.writeBatch "cpu" ∅ [pointAt 1 2])

theorem reachable_corrected : (system noNexus {}).Reachable corrected :=
  .step (.step .init trivial rfl) trivial rfl

/-- The value that was written first is returned. -/
theorem corrected_not_returned :
    ¬ ∀ (nexus : NexusCompress) (config : EngineConfig) (run : EngineRun)
      (query : TimeSeriesQuery) (enabled : Bool) (hotCutoff : DateTime) (visits : Visits),
      (system nexus config).Reachable run → query.Plain →
        run.Answers query (TieredEngine.query nexus.toNexusCodec
          ⟨run.engine, TieredEngine.newTier enabled⟩ hotCutoff visits query) := by
  intro h
  have hanswers := h noNexus {} corrected (firstSecond "cpu") false (pointAt 0 0).timestamp
    alphabetical reachable_corrected ⟨rfl, rfl⟩
  have hwritten : ((⟨"cpu", ∅⟩ : SeriesName), pointAt 1 2) ∈ corrected.written := by decide +kernel
  obtain ⟨s, hs, hsame⟩ := hanswers.lists.found _ hwritten (by decide +kernel) (by decide +kernel)
  have hlast : lastAt DataPoint.timestamp (pointAt 1 2).timestamp
      (corrected.pointsOf ⟨"cpu", ∅⟩) = some (pointAt 1 2) := by decide +kernel
  have hmem : pointAt 1 2 ∈ s.points := by
    refine ((hanswers.lists.points s hs).2.mem_iff _).mpr ⟨by decide +kernel, ?_⟩
    rwa [← pointsOf_congr hsame]
  have hreturned : ((TieredEngine.query noNexus.toNexusCodec
      ⟨corrected.engine, TieredEngine.newTier false⟩ (pointAt 0 0).timestamp alphabetical
        (firstSecond "cpu")).series.flatMap Series.points) = [pointAt 1 1] := by decide +kernel
  have hfound := List.mem_flatMap.mpr ⟨s, hs, hmem⟩
  rw [hreturned] at hfound
  revert hfound
  decide

end EngineRun

end TimeSeries

end AegisDB
