import AegisDB.Library.Newest
import AegisDB.TimeSeries.QueryRuns

/-!
# Limited queries

A query with a limit reads the buffered points and then the blocks, those with the latest end first,
until there are as many points as the limit.  It returns the last points of what the query without a
limit returns exactly if of each series that is read no unread block has a later point, or one that
is not under a time that was read; and if the series at which the query without a limit is cut short
are not those at which the limited query still goes on.
-/

namespace AegisDB

namespace TimeSeries

open Layers

namespace TimeSeriesQuery

variable (query : TimeSeriesQuery)

/-- The query without a limit, for the points as they are. -/
def plain : TimeSeriesQuery :=
  { query with aggregation := none, limit := none }

def limited (limit : ℕ) : TimeSeriesQuery :=
  { query with aggregation := none, limit := some limit }

/-- The points of the range among buffered ones and those of blocks. -/
def pointsAmong (nexus : NexusCodec) (tail : List DataPoint) (blocks : List CompressedBlock) :
    List DataPoint :=
  (tail ++ blocks.flatMap (decodeBlock nexus)).filter query.inRange

def latestFirst (blocks : List CompressedBlock) : List CompressedBlock :=
  sortByKey (fun b => OrderDual.toDual b.lastTimestamp.toInt) blocks

/-- Wherever the blocks are cut so that the buffered points and the front have as many points of the
range as the limit, each point of the range in the rest has a time that is among those of the front,
or that is before as many times of the front as the limit. -/
def LimitSafe (nexus : NexusCodec) (limit : ℕ) (blocks : List CompressedBlock)
    (tail : List DataPoint) : Prop :=
  ∀ front rest, latestFirst blocks = front ++ rest →
    limit ≤ (query.pointsAmong nexus tail front).length →
      ∀ p ∈ query.pointsAmong nexus [] rest,
        p.timestamp ∈ (query.pointsAmong nexus tail front).map DataPoint.timestamp ∨
          limit ≤ (laterKeys DataPoint.timestamp p.timestamp
            (query.pointsAmong nexus tail front)).card

variable {query} {nexus : NexusCodec} {limit : ℕ} {tail : List DataPoint}

theorem pointsAmong_append (front rest : List CompressedBlock) :
    query.pointsAmong nexus tail (front ++ rest) =
      query.pointsAmong nexus tail front ++ query.pointsAmong nexus [] rest := by
  unfold pointsAmong
  rw [List.nil_append, List.flatMap_append, ← List.append_assoc, List.filter_append]

/-- What a limited query decodes is a front of the blocks: all blocks, or the shortest front with
enough points. -/
theorem decodeBlocks_limited (limit : ℕ) (tail : List DataPoint)
    (blocks : List CompressedBlock) :
    ∃ front rest, blocks = front ++ rest ∧
      (query.limited limit).decodeBlocks nexus (tail.filter query.inRange) blocks =
        query.pointsAmong nexus tail front ∧
      (rest = [] ∨ limit ≤ (query.pointsAmong nexus tail front).length) ∧
      ∀ front' rest', blocks = front' ++ rest' →
        limit ≤ (query.pointsAmong nexus tail front').length → front <+: front' := by
  induction blocks generalizing tail with
  | nil =>
    refine ⟨[], [], rfl, ?_, .inl rfl, fun _ _ _ _ => List.nil_prefix⟩
    rw [decodeBlocks, pointsAmong, List.flatMap_nil, List.append_nil]
  | cons block blocks ih =>
    have hlimit : (query.limited limit).earlyLimit = some limit := rfl
    have hnil : query.pointsAmong nexus tail [] = tail.filter query.inRange := by
      rw [pointsAmong, List.flatMap_nil, List.append_nil]
    rw [decodeBlocks, hlimit, Option.any_some]
    by_cases henough : limit ≤ (tail.filter query.inRange).length
    · rw [if_pos (decide_eq_true henough)]
      refine ⟨[], block :: blocks, rfl, hnil.symm, .inr (by rwa [hnil]),
        fun _ _ _ _ => List.nil_prefix⟩
    · rw [if_neg (by rwa [decide_eq_true_eq])]
      obtain ⟨front, rest, rfl, hread, hstop, hleast⟩ := ih (tail ++ decodeBlock nexus block)
      have hcons : ∀ blocks, query.pointsAmong nexus (tail ++ decodeBlock nexus block) blocks =
          query.pointsAmong nexus tail (block :: blocks) := by
        intro blocks
        rw [pointsAmong, pointsAmong, List.flatMap_cons, List.append_assoc]
      rw [List.filter_append] at hread
      refine ⟨block :: front, rest, rfl, ?_, ?_, ?_⟩
      · rw [← hcons]
        exact hread
      · rwa [← hcons]
      · intro front' rest' hcut hlen
        cases front' with
        | nil =>
          rw [hnil] at hlen
          exact absurd hlen henough
        | cons block' front' =>
          rw [List.cons_append, List.cons.injEq] at hcut
          obtain ⟨rfl, hcut⟩ := hcut
          rw [← hcons] at hlen
          exact List.cons_prefix_cons.mpr ⟨rfl, hleast front' rest' hcut hlen⟩

theorem readPoints_plain (blocks : List CompressedBlock) (tail : List DataPoint) :
    query.plain.readPoints nexus blocks tail =
      byKey DataPoint.timestamp (query.pointsAmong nexus tail (latestFirst blocks)) := by
  unfold readPoints
  dsimp only
  rw [decodeBlocks_of_plain ⟨rfl, rfl⟩, ← List.filter_append]
  rfl

/-- **One series**: what a limited query reads ends as what the query without a limit reads, if and
only if the limit is safe. -/
theorem readPoints_limited_iff (blocks : List CompressedBlock) (tail : List DataPoint) :
    lastEntries limit ((query.limited limit).readPoints nexus blocks tail) =
        lastEntries limit (query.plain.readPoints nexus blocks tail) ↔
      query.LimitSafe nexus limit blocks tail := by
  obtain ⟨front, rest, hcut, hread, hstop, hleast⟩ :=
    @decodeBlocks_limited query nexus limit tail (latestFirst blocks)
  have hlimited : (query.limited limit).readPoints nexus blocks tail =
      byKey DataPoint.timestamp (query.pointsAmong nexus tail front) :=
    congrArg (byKey DataPoint.timestamp) hread
  rw [hlimited, readPoints_plain, hcut, pointsAmong_append, lastEntries_byKey_iff]
  constructor
  · intro h front' rest' hcut' hlen p hp
    obtain ⟨more, rfl⟩ := hleast front' rest' hcut' hlen
    have hrest : rest = more ++ rest' := by
      rw [hcut, List.append_assoc] at hcut'
      exact List.append_cancel_left hcut'
    have hsub : query.pointsAmong nexus tail front ⊆
        query.pointsAmong nexus tail (front ++ more) := by
      rw [pointsAmong_append]
      exact List.subset_append_left _ _
    have hp' : p ∈ query.pointsAmong nexus [] rest := by
      rw [hrest, pointsAmong_append]
      exact List.mem_append_right _ hp
    rcases h p hp' with hread | hlater
    · exact .inl (List.map_subset _ hsub hread)
    · exact .inr (hlater.trans (Finset.card_le_card (laterKeys_mono hsub)))
  · intro h p hp
    rcases hstop with rfl | henough
    · cases hp
    · exact h front rest hcut henough p hp

/-- A limited query finds something if the query without a limit does. -/
theorem lastEntries_limited_eq_nil (blocks : List CompressedBlock) (tail : List DataPoint) :
    lastEntries limit ((query.limited limit).readPoints nexus blocks tail) = [] ↔
      lastEntries limit (query.plain.readPoints nexus blocks tail) = [] := by
  obtain ⟨front, rest, hcut, hread, hstop, _⟩ :=
    @decodeBlocks_limited query nexus limit tail (latestFirst blocks)
  have hlimited : (query.limited limit).readPoints nexus blocks tail =
      byKey DataPoint.timestamp (query.pointsAmong nexus tail front) :=
    congrArg (byKey DataPoint.timestamp) hread
  have hnil : ∀ l : List DataPoint, (byKey DataPoint.timestamp l).length = 0 ↔ l = [] := by
    intro l
    rw [length_byKey, Finset.card_eq_zero, List.toFinset_eq_empty_iff, List.map_eq_nil_iff]
  have hzero : ∀ l : List DataPoint, lastEntries limit (byKey DataPoint.timestamp l) = [] ↔
      limit = 0 ∨ l = [] := by
    intro l
    rw [← List.length_eq_zero_iff, length_lastEntries, Nat.min_eq_zero_iff, hnil]
  rw [hlimited, readPoints_plain, hcut, pointsAmong_append, hzero, hzero, List.append_eq_nil_iff]
  refine or_congr_right' fun hlimit => ⟨fun h => ⟨h, ?_⟩, fun h => h.1⟩
  rcases hstop with rfl | henough
  · rfl
  · rw [h, List.length_nil] at henough
    exact absurd (Nat.le_zero.mp henough) hlimit

theorem inRange_of_mem_byKey {front : List CompressedBlock} {p : DataPoint}
    (h : p ∈ byKey DataPoint.timestamp (query.pointsAmong nexus tail front)) :
    query.inRange p = true :=
  (List.mem_filter.mp (mem_of_firstAt (mem_dedupByKey_sortByKey.mp h))).2

end TimeSeriesQuery

def withPoints (series : List Series) : List Series :=
  series.filter fun s => !s.points.isEmpty

/-- Of each series the last points, if there are any. -/
def lastOfEach (limit : ℕ) (series : List Series) : List Series :=
  withPoints (series.map fun s => { s with points := lastEntries limit s.points })

theorem withPoints_singleton (s : Series) :
    withPoints [s] = if s.points = [] then [] else [s] := by
  rw [withPoints, List.filter_singleton]
  cases hpoints : s.points with
  | nil => rfl
  | cons p points => rfl

theorem withPoints_inj {metric : Metric} {tags : Tags} {points points' : List DataPoint} :
    withPoints [⟨metric, tags, points⟩] = withPoints [⟨metric, tags, points'⟩] ↔
      points = points' := by
  refine ⟨fun h => ?_, fun h => by rw [h]⟩
  rw [withPoints_singleton, withPoints_singleton] at h
  dsimp only at h
  split_ifs at h with hnil hnil' hnil'
  · rw [hnil, hnil']
  · exact congrArg Series.points (List.singleton_inj.mp h)

theorem withPoints_eq_nil {metric : Metric} {tags : Tags} {points : List DataPoint} :
    withPoints [⟨metric, tags, points⟩] = [] ↔ points = [] := by
  rw [withPoints_singleton]
  split_ifs with hnil
  · exact iff_of_true rfl hnil
  · exact ⟨False.elim, fun h => absurd h hnil⟩

theorem lastOfEach_withPoints (limit : ℕ) (metric : Metric) (tags : Tags)
    (points : List DataPoint) :
    lastOfEach limit (withPoints [⟨metric, tags, points⟩]) =
      withPoints [⟨metric, tags, lastEntries limit points⟩] := by
  rw [withPoints_singleton]
  dsimp only
  split_ifs with hnil
  · rw [hnil, lastEntries, List.drop_nil]
    rfl
  · rfl

namespace TimeSeriesQuery

variable {query : TimeSeriesQuery}

/-- A query that makes something of the points of a series. -/
structure Finishes (query : TimeSeriesQuery) (finish : List DataPoint → List DataPoint) :
    Prop where
  answer_eq : ∀ s, query.answer s = { s with points := finish (s.points.filter query.inRange) }
  finish_nil : finish [] = []

theorem finishes_plain : query.plain.Finishes id where
  answer_eq _ := rfl
  finish_nil := rfl

theorem finishes_limited (limit : ℕ) : (query.limited limit).Finishes (lastEntries limit) where
  answer_eq _ := rfl
  finish_nil := List.drop_nil

theorem series_execute_of_finishes {finish : List DataPoint → List DataPoint}
    (h : query.Finishes finish) {s : Series} (hrange : ∀ p ∈ s.points, query.inRange p = true) :
    (query.execute [s]).series =
      if (query.tags.all fun filter => s.tags.matches filter) = true then
        withPoints [{ s with points := finish s.points }]
      else [] := by
  unfold execute
  dsimp only
  rw [List.filter_singleton]
  split_ifs with htags
  · rw [htags, cond_true, List.map_singleton, h.answer_eq, List.filter_eq_self.mpr hrange]
    rfl
  · rw [Bool.not_eq_true] at htags
    rw [htags, cond_false]
    rfl

end TimeSeriesQuery

/-! ## All series of a query -/

def pointCount (series : List Series) : ℕ :=
  (series.map fun s => s.points.length).sum

theorem pointCount_nil : pointCount [] = 0 :=
  rfl

theorem pointCount_withPoints (metric : Metric) (tags : Tags) (points : List DataPoint) :
    pointCount (withPoints [⟨metric, tags, points⟩]) = points.length := by
  rw [withPoints_singleton]
  dsimp only
  split_ifs with hnil
  · rw [hnil]
    rfl
  · exact Nat.add_zero _

/-- Collect what is read of one after the other, until there are too many points. -/
def collect {σ : Type*} (read : σ → List Series) (cap : ℕ) : ℕ → List σ → List Series
  | _, [] => []
  | returned, s :: rest =>
      read s ++ if cap < returned + pointCount (read s) then []
        else collect read cap (returned + pointCount (read s)) rest

/-- The limit is exact for what is read where the reading without a limit goes on, with `returned`
points there; and where only the limited reading goes on, with `cut` points there, nothing is
read. -/
def Exact {σ : Type*} (count : σ → ℕ) (Safe : σ → Prop) (cap limit : ℕ) :
    ℕ → ℕ → List σ → Prop
  | _, _, [] => True
  | returned, cut, s :: rest =>
      (returned ≤ cap → Safe s) ∧ (cap < returned → cut ≤ cap → min limit (count s) = 0) ∧
        Exact count Safe cap limit (returned + count s) (cut + min limit (count s)) rest

/-- Two ways to read, one without a limit and one with, and how many points there are. -/
structure Reads {σ : Type*} (whole last : σ → List Series) (count : σ → ℕ) (Safe : σ → Prop)
    (limit : ℕ) : Prop where
  count_whole : ∀ s, pointCount (whole s) = count s
  count_last : ∀ s, pointCount (lastOfEach limit (whole s)) = min limit (count s)
  length_eq : ∀ s, (last s).length = (lastOfEach limit (whole s)).length
  nil_iff : ∀ s, last s = [] ↔ min limit (count s) = 0
  eq_iff : ∀ s, last s = lastOfEach limit (whole s) ↔ Safe s

section Reads

variable {σ : Type*} {whole last : σ → List Series} {count : σ → ℕ} {Safe : σ → Prop}
  {cap limit : ℕ}

theorem lastOfEach_append (limit : ℕ) (series series' : List Series) :
    lastOfEach limit (series ++ series') = lastOfEach limit series ++ lastOfEach limit series' := by
  unfold lastOfEach withPoints
  rw [List.map_append, List.filter_append]

theorem exact_of_lt {returned cut : ℕ} (h : cap < returned) (h' : cap < cut) (rest : List σ) :
    Exact count Safe cap limit returned cut rest := by
  induction rest generalizing returned cut with
  | nil => trivial
  | cons s rest ih =>
    exact ⟨fun hle => absurd h hle.not_gt, fun _ hle => absurd h' hle.not_gt,
      ih (h.trans_le (Nat.le_add_right _ _)) (h'.trans_le (Nat.le_add_right _ _))⟩

/-- Where only the limited reading goes on, it finds nothing. -/
theorem Reads.collect_eq_nil (h : Reads whole last count Safe limit) {returned cut : ℕ}
    (hover : cap < returned) (hcut : cut ≤ cap) (rest : List σ) :
    collect last cap cut rest = [] ↔ Exact count Safe cap limit returned cut rest := by
  induction rest generalizing returned with
  | nil => exact iff_of_true rfl trivial
  | cons s rest ih =>
    rw [collect, Exact, List.append_eq_nil_iff, h.nil_iff]
    constructor
    · rintro ⟨hzero, hrest⟩
      have hnil := (h.nil_iff s).mpr hzero
      rw [hnil, pointCount_nil, Nat.add_zero, if_neg (Nat.not_lt.mpr hcut)] at hrest
      refine ⟨fun hle => absurd hover hle.not_gt, fun _ _ => hzero, ?_⟩
      rw [hzero, Nat.add_zero]
      exact (ih (hover.trans_le (Nat.le_add_right _ _))).mp hrest
    · rintro ⟨_, hzero, hrest⟩
      have hzero := hzero hover hcut
      have hnil := (h.nil_iff s).mpr hzero
      rw [hzero, Nat.add_zero] at hrest
      refine ⟨hzero, ?_⟩
      rw [hnil, pointCount_nil, Nat.add_zero, if_neg (Nat.not_lt.mpr hcut)]
      exact (ih (hover.trans_le (Nat.le_add_right _ _))).mpr hrest

/-- **All that is read**: the limited reading collects the last points of what the reading without a
limit does, if and only if the limit is exact. -/
theorem Reads.collect_iff (h : Reads whole last count Safe limit) {returned cut : ℕ}
    (hreturned : returned ≤ cap) (hcut : cut ≤ returned) (rest : List σ) :
    collect last cap cut rest = lastOfEach limit (collect whole cap returned rest) ↔
      Exact count Safe cap limit returned cut rest := by
  induction rest generalizing returned cut with
  | nil => exact iff_of_true rfl trivial
  | cons s rest ih =>
    rw [collect, collect, Exact, lastOfEach_append, h.count_whole]
    have hhead : last s ++ (if cap < cut + pointCount (last s) then []
          else collect last cap (cut + pointCount (last s)) rest) =
        lastOfEach limit (whole s) ++ lastOfEach limit (if cap < returned + count s then []
          else collect whole cap (returned + count s) rest) ↔
        Safe s ∧ (if cap < cut + min limit (count s) then []
            else collect last cap (cut + min limit (count s)) rest) =
          lastOfEach limit (if cap < returned + count s then []
            else collect whole cap (returned + count s) rest) := by
      constructor
      · intro heq
        obtain ⟨hlast, hrest⟩ := List.append_inj heq (h.length_eq s)
        rw [hlast, h.count_last] at hrest
        exact ⟨(h.eq_iff s).mp hlast, hrest⟩
      · rintro ⟨hsafe, hrest⟩
        rw [(h.eq_iff s).mpr hsafe, h.count_last, hrest]
    have hmin := min_le_right limit (count s)
    rw [hhead]
    refine and_congr ⟨fun hsafe _ => hsafe, fun hsafe => hsafe hreturned⟩ ?_
    rw [and_iff_right fun hover => absurd hover hreturned.not_gt]
    by_cases hover : cap < returned + count s
    · rw [if_pos hover]
      by_cases hover' : cap < cut + min limit (count s)
      · rw [if_pos hover']
        exact iff_of_true rfl (exact_of_lt hover hover' rest)
      · rw [if_neg hover']
        exact h.collect_eq_nil hover (not_lt.mp hover') rest
    · rw [if_neg hover, if_neg (by omega)]
      exact ih (not_lt.mp hover) (by omega)

end Reads

namespace TieredEngine

variable (nexus : NexusCodec) (t : TieredEngine) (hotCutoff : DateTime) (query : TimeSeriesQuery)
  (snap : String × Option RangeSnapshot)

def blocksOf : List CompressedBlock :=
  (snap.2.map RangeSnapshot.blocks).getD [] ++
    ((t.reachCold hotCutoff query).map fun store =>
      store.readRange snap.1 query.start.timestampMillis query.endTime.timestampMillis).getD []

def tailOf : List DataPoint :=
  (snap.2.map RangeSnapshot.points).getD []

/-- The metric and the tags of a series, if the query asks for it. -/
def askedIdent : Option (Metric × Tags) :=
  (t.engine.identOf snap.1 snap.2).filter fun ident =>
    query.tags.all fun filter => ident.2.matches filter

/-- The number of different times that a series has in the range. -/
def timeCount : ℕ :=
  if (t.askedIdent query snap).isSome then
    ((query.pointsAmong nexus (tailOf snap) (t.blocksOf hotCutoff query snap)).map
      DataPoint.timestamp).toFinset.card
  else 0

def seriesRead : List Series :=
  ((t.readSeries nexus hotCutoff query snap).map QueryResult.series).getD []

variable {nexus t hotCutoff query snap}

theorem series_readAll {result : QueryResult}
    (hfits : result.pointsReturned ≤ t.engine.config.maxQueryPoints)
    (snaps : List (String × Option RangeSnapshot)) :
    (t.readAll nexus hotCutoff query result snaps).series = result.series ++
      collect (t.seriesRead nexus hotCutoff query) t.engine.config.maxQueryPoints
        result.pointsReturned snaps := by
  induction snaps generalizing result with
  | nil => exact (List.append_nil result.series).symm
  | cons snap snaps ih =>
    rw [readAll, collect]
    dsimp only
    cases hread : t.readSeries nexus hotCutoff query snap with
    | none =>
      have hseries : t.seriesRead nexus hotCutoff query snap = [] := by
        rw [seriesRead, hread]
        rfl
      rw [hseries, pointCount_nil, Nat.add_zero, List.nil_append, if_neg (Nat.not_lt.mpr hfits)]
      exact ih hfits
    | some r =>
      have hseries : t.seriesRead nexus hotCutoff query snap = r.series := by
        rw [seriesRead, hread]
        rfl
      rw [hseries]
      unfold pointCount
      dsimp only
      split_ifs with hover
      · rw [List.append_nil]
      · rw [← List.append_assoc]
        exact ih (Nat.not_lt.mp hover)

theorem seriesRead_eq {finish : List DataPoint → List DataPoint} (h : query.Finishes finish)
    (hrange : ∀ blocks tail, ∀ p ∈ query.readPoints nexus blocks tail, query.inRange p = true) :
    t.seriesRead nexus hotCutoff query snap =
      match t.askedIdent query snap with
      | none => []
      | some ident => withPoints [⟨ident.1, ident.2,
          finish (query.readPoints nexus (t.blocksOf hotCutoff query snap) (tailOf snap))⟩] := by
  unfold seriesRead readSeries askedIdent
  change Option.getD (Option.map _ (if (t.blocksOf hotCutoff query snap).isEmpty &&
    (tailOf snap).isEmpty then _ else _)) [] = _
  split_ifs with hempty
  · rw [Bool.and_eq_true, List.isEmpty_iff, List.isEmpty_iff] at hempty
    have hnil : query.readPoints nexus [] [] = [] := rfl
    rw [hempty.1, hempty.2, hnil, h.finish_nil]
    cases (t.engine.identOf snap.1 snap.2).filter _ <;> rfl
  · cases t.engine.identOf snap.1 snap.2 with
    | none => rfl
    | some ident =>
      rw [Option.map_some, Option.map_some, Option.getD_some, Option.filter_some]
      refine (TimeSeriesQuery.series_execute_of_finishes h (hrange _ _)).trans ?_
      dsimp only
      split_ifs <;> rfl

theorem seriesRead_plain :
    t.seriesRead nexus hotCutoff query.plain snap =
      match t.askedIdent query snap with
      | none => []
      | some ident => withPoints [⟨ident.1, ident.2,
          query.plain.readPoints nexus (t.blocksOf hotCutoff query snap) (tailOf snap)⟩] :=
  seriesRead_eq TimeSeriesQuery.finishes_plain fun blocks tail p hp => by
    rw [TimeSeriesQuery.readPoints_plain] at hp
    exact TimeSeriesQuery.inRange_of_mem_byKey hp

theorem seriesRead_limited (limit : ℕ) :
    t.seriesRead nexus hotCutoff (query.limited limit) snap =
      match t.askedIdent query snap with
      | none => []
      | some ident => withPoints [⟨ident.1, ident.2, lastEntries limit
          ((query.limited limit).readPoints nexus (t.blocksOf hotCutoff query snap)
            (tailOf snap))⟩] :=
  seriesRead_eq (TimeSeriesQuery.finishes_limited limit) fun blocks tail p hp => by
    obtain ⟨front, rest, _, hread, _⟩ := @TimeSeriesQuery.decodeBlocks_limited query nexus limit
      tail (TimeSeriesQuery.latestFirst blocks)
    have hlimited : (query.limited limit).readPoints nexus blocks tail =
        byKey DataPoint.timestamp (query.pointsAmong nexus tail front) :=
      congrArg (byKey DataPoint.timestamp) hread
    rw [hlimited] at hp
    exact TimeSeriesQuery.inRange_of_mem_byKey hp

theorem timeCount_eq :
    t.timeCount nexus hotCutoff query snap =
      if (t.askedIdent query snap).isSome then
        (query.plain.readPoints nexus (t.blocksOf hotCutoff query snap) (tailOf snap)).length
      else 0 := by
  have hperm : (query.pointsAmong nexus (tailOf snap) (t.blocksOf hotCutoff query snap)).Perm
      (query.pointsAmong nexus (tailOf snap)
        (TimeSeriesQuery.latestFirst (t.blocksOf hotCutoff query snap))) :=
    (((sortByKey_perm _).symm.flatMap_right _).append_left _).filter _
  rw [timeCount, TimeSeriesQuery.readPoints_plain, length_byKey,
    List.toFinset_eq_of_perm _ _ (hperm.map DataPoint.timestamp)]

theorem reads (limit : ℕ) :
    Reads (t.seriesRead nexus hotCutoff query.plain)
      (t.seriesRead nexus hotCutoff (query.limited limit)) (t.timeCount nexus hotCutoff query)
      (fun snap => (t.askedIdent query snap).isSome = true →
        query.LimitSafe nexus limit (t.blocksOf hotCutoff query snap) (tailOf snap)) limit where
  count_whole snap := by
    rw [seriesRead_plain, timeCount_eq]
    cases t.askedIdent query snap with
    | none => rfl
    | some ident => exact pointCount_withPoints ..
  count_last snap := by
    rw [seriesRead_plain, timeCount_eq]
    cases t.askedIdent query snap with
    | none => exact (Nat.min_zero limit).symm
    | some ident =>
      dsimp only
      rw [lastOfEach_withPoints, pointCount_withPoints, length_lastEntries]
      rfl
  length_eq snap := by
    rw [seriesRead_plain, seriesRead_limited]
    cases t.askedIdent query snap with
    | none => rfl
    | some ident =>
      dsimp only
      rw [lastOfEach_withPoints, withPoints_singleton, withPoints_singleton]
      simp only [TimeSeriesQuery.lastEntries_limited_eq_nil]
      split_ifs <;> rfl
  nil_iff snap := by
    rw [seriesRead_limited, timeCount_eq]
    cases t.askedIdent query snap with
    | none => exact iff_of_true rfl (Nat.min_zero limit)
    | some ident =>
      dsimp only
      rw [withPoints_eq_nil, TimeSeriesQuery.lastEntries_limited_eq_nil,
        ← List.length_eq_zero_iff, length_lastEntries]
      rfl
  eq_iff snap := by
    rw [seriesRead_plain, seriesRead_limited]
    cases t.askedIdent query snap with
    | none => exact iff_of_true rfl fun h => absurd h Bool.false_ne_true
    | some ident =>
      dsimp only
      rw [lastOfEach_withPoints, withPoints_inj, TimeSeriesQuery.readPoints_limited_iff]
      exact ⟨fun h _ => h, fun h => h rfl⟩

/-- **Limited queries.**  A query with a limit returns of each series the last points of what the
same query without a limit returns, if and only if the limit is exact: it is safe for every series
that the query without a limit reaches before it has too many points, and the series that only the
limited query reaches have no points in the range. -/
theorem query_limited_iff (nexus : NexusCodec) (t : TieredEngine) (hotCutoff : DateTime)
    (visits : Visits) (query : TimeSeriesQuery) (limit : ℕ) :
    (t.query nexus hotCutoff visits (query.limited limit)).series =
        lastOfEach limit (t.query nexus hotCutoff visits query.plain).series ↔
      Exact (t.timeCount nexus hotCutoff query)
        (fun snap => (t.askedIdent query snap).isSome = true →
          query.LimitSafe nexus limit (t.blocksOf hotCutoff query snap) (tailOf snap))
        t.engine.config.maxQueryPoints limit 0 0
        ((visits.order (t.engine.seriesIds query)).map (snapOf t.engine query)) := by
  rw [← (reads limit).collect_iff (Nat.zero_le _) le_rfl]
  unfold TieredEngine.query
  dsimp only
  rw [series_readAll (Nat.zero_le _), series_readAll (Nat.zero_le _)]
  rfl

end TieredEngine

/-! ## A time that is written twice -/

namespace EngineRun

theorem one_inSecond : 1 < 1000 := by
  decide

theorem two_inSecond : 2 < 1000 := by
  decide

/-- A point is written and sealed, and a later one is written twice. -/
def duplicated : EngineRun :=
  ((({ engine := { config := {} } } : EngineRun).call noNexus
    (.writeBatch "cpu" ∅ [pointAt 1 1 one_inSecond])).call noNexus .compact).call noNexus
      (.writeBatch "cpu" ∅ [pointAt 2 2 two_inSecond, pointAt 2 2 two_inSecond])

theorem reachable_duplicated : (system noNexus {}).Reachable duplicated :=
  .step (.step (.step .init trivial rfl) trivial rfl) trivial rfl

/-- The two points of one time fill the limit, and the point of the block is not read. -/
theorem duplicated_cut_short :
    ¬ ∀ (nexus : NexusCompress) (config : EngineConfig) (run : EngineRun)
      (query : TimeSeriesQuery) (enabled : Bool) (hotCutoff : DateTime) (visits : Visits)
      (limit : ℕ), (system nexus config).Reachable run →
        (TieredEngine.query nexus.toNexusCodec ⟨run.engine, TieredEngine.newTier enabled⟩
          hotCutoff visits (query.limited limit)).series =
        lastOfEach limit (TieredEngine.query nexus.toNexusCodec
          ⟨run.engine, TieredEngine.newTier enabled⟩ hotCutoff visits query.plain).series := by
  intro h
  have hseries := h noNexus {} duplicated (firstSecond "cpu") false (pointAt 0 0).timestamp
    alphabetical 2 reachable_duplicated
  have hpoints := congrArg (List.flatMap Series.points) hseries
  exact absurd hpoints (by decide +kernel)

end EngineRun

end TimeSeries

end AegisDB
