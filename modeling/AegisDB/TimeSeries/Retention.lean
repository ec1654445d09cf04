import AegisDB.TimeSeries.ColdRefinement
import AegisDB.TimeSeries.RoundTrip

/-!
# Retention

Points that are too old leave memory: whole blocks by the last of their points, and buffered points
one by one, which are put into a block of their own.  With a cold tier these blocks are appended to
it.  The last point of a block is the one that arrived last, which need not be the newest, and a
block that could not be written is gone.
-/

namespace AegisDB

namespace TimeSeries

/-! ## Out of memory -/

/-- The blocks and the buffered points that are not too old, and the blocks that are: those whose
last point is, and one for the buffered points that are. -/
def SeriesBuffer.pruneBefore (cutoff : DateTime) (buffer : SeriesBuffer) :
    SeriesBuffer × List CompressedBlock :=
  let old := buffer.compressedBlocks.filter fun b => b.lastTimestamp < cutoff.timestampMillis
  let keep := buffer.compressedBlocks.filter fun b => ¬ b.lastTimestamp < cutoff.timestampMillis
  let oldPoints := buffer.points.filter fun p => p.timestamp < cutoff
  let keepPoints := buffer.points.filter fun p => ¬ p.timestamp < cutoff
  ({ buffer with compressedBlocks := keep, points := keepPoints },
    old ++ if oldPoints.isEmpty then [] else [Compressor.compressAll oldPoints])

/-- The blocks of a series that are to be written to the cold tier. -/
structure Eviction where
  seriesId : String
  series : ColdSeriesMeta
  blocks : List CompressedBlock

def evictions (cutoff : DateTime) (seriesData : Table String SeriesBuffer) : List Eviction :=
  (seriesData.entries.map fun e =>
    (⟨e.1, ⟨e.2.metric, e.2.tags⟩, (e.2.pruneBefore cutoff).2⟩ : Eviction)).filter
      fun e => !e.blocks.isEmpty

/-! ## Into the cold tier -/

/-- How an append to the cold tier ends. -/
inductive ColdWrite where
  | complete
  | refused
  | brokenOff (written : ℕ)
  /-- The blocks were written, but the index could not be saved. -/
  | indexNotSaved

namespace ColdStore

variable (store : ColdStore)

/-- Append blocks to the file of a series, and whether that was reported as done. -/
def append (outcome : ColdWrite) (seriesId : String) (series : ColdSeriesMeta)
    (blocks : List CompressedBlock) : ColdStore × Bool :=
  if blocks.isEmpty then (store, true)
  else
    let withBytes (bytes : Bytes) :=
      store.setFile seriesId (some (store.content seriesId ++ bytes))
    match outcome with
    | .complete => ((withBytes (frames blocks)).enter seriesId series, true)
    | .refused => (store, false)
    | .brokenOff written => (withBytes ((frames blocks).take written), false)
    | .indexNotSaved =>
        let stored := withBytes (frames blocks)
        ({ stored with index := stored.index.insert seriesId series }, seriesId ∈ store.index)

/-- Append what has become too old, whatever comes of it. -/
def appendAll (writes : String → ColdWrite) (evicted : List Eviction) : ColdStore :=
  evicted.foldl (fun store e => (store.append (writes e.seriesId) e.seriesId e.series e.blocks).1)
    store

def blocksOf (seriesId : String) : List CompressedBlock :=
  store.readRange seriesId Int64.minValue Int64.maxValue

/-- The points of a series, as often as they are there. -/
def pointsOf (nexus : NexusCodec) (seriesId : String) : Multiset DataPoint :=
  ((store.blocksOf seriesId).flatMap (decodeBlock nexus) : List DataPoint)

end ColdStore

/-- An engine with a cold tier, or without one. -/
structure TieredEngine where
  engine : TimeSeriesEngine
  cold : Option ColdStore

/-- Drop what is too old, writing it to the cold tier if there is one; how many blocks were dropped,
and how many series have become empty. -/
def TieredEngine.enforceRetention (writes : String → ColdWrite) (cutoff : DateTime)
    (t : TieredEngine) : TieredEngine × ℕ × ℕ :=
  let pruned := t.engine.seriesData.mapValues fun _ buffer => (buffer.pruneBefore cutoff).1
  let kept := pruned.filterValues fun _ buffer =>
    !(buffer.points.isEmpty && buffer.compressedBlocks.isEmpty)
  let evicted := evictions cutoff t.engine.seriesData
  ({ engine := { t.engine with seriesData := kept }
     cold := t.cold.map fun store => store.appendAll writes evicted },
    (evicted.map fun e => e.blocks.length).sum, pruned.entries.length - kept.entries.length)

/-! ## What leaves memory -/

section Memory

variable {nexus : NexusCodec} {cutoff : DateTime}

/-- The points of the blocks that are too old by the last of them. -/
def oldBlockPoints (nexus : NexusCodec) (cutoff : DateTime) (buffer : SeriesBuffer) :
    Multiset DataPoint :=
  ((buffer.compressedBlocks.filter fun b => b.lastTimestamp < cutoff.timestampMillis).flatMap
    (decodeBlock nexus) : List DataPoint)

def oldPoints (cutoff : DateTime) (buffer : SeriesBuffer) : Multiset DataPoint :=
  ((buffer.points.filter fun p => p.timestamp < cutoff) : List DataPoint)

theorem flatMap_filter_add {α β : Type*} (f : α → List β) (p : α → Prop) [DecidablePred p]
    (l : List α) :
    (((l.filter fun a => ¬ p a).flatMap f : List β) : Multiset β) +
      ((l.filter fun a => p a).flatMap f : List β) = (l.flatMap f : List β) := by
  rw [Multiset.coe_add, Multiset.coe_eq_coe, ← List.flatMap_append]
  refine List.Perm.flatMap_right f ?_
  have hperm := List.filter_append_perm (fun a => decide (p a)) l
  have hnot : (l.filter fun a => decide (¬ p a)) = l.filter fun a => !decide (p a) :=
    List.filter_congr fun a _ => decide_not
  rw [hnot]
  exact List.perm_append_comm.trans hperm

theorem allPoints_pruneBefore (cutoff : DateTime) (buffer : SeriesBuffer) :
    (buffer.allPoints nexus : Multiset DataPoint) =
      ((buffer.pruneBefore cutoff).1.allPoints nexus : Multiset DataPoint) +
        (oldBlockPoints nexus cutoff buffer + oldPoints cutoff buffer) := by
  have hblocks := flatMap_filter_add (decodeBlock nexus)
    (fun b => b.lastTimestamp < cutoff.timestampMillis) buffer.compressedBlocks
  have hpoints := flatMap_filter_add (fun p : DataPoint => [p]) (fun p => p.timestamp < cutoff)
    buffer.points
  simp only [List.flatMap_singleton'] at hpoints
  unfold SeriesBuffer.allPoints SeriesBuffer.pruneBefore oldBlockPoints oldPoints
  dsimp only
  rw [← Multiset.coe_add, ← Multiset.coe_add, ← hblocks, ← hpoints]
  exact add_add_add_comm _ _ _ _

/-- The blocks that leave memory have the points that do, as blocks have them. -/
theorem points_of_evicted (buffer : SeriesBuffer) :
    (((buffer.pruneBefore cutoff).2.flatMap (decodeBlock nexus) : List DataPoint) :
        Multiset DataPoint) =
      (oldBlockPoints nexus cutoff buffer + oldPoints cutoff buffer).map DataPoint.stored := by
  have hstored : (oldBlockPoints nexus cutoff buffer).map DataPoint.stored =
      oldBlockPoints nexus cutoff buffer := by
    rw [oldBlockPoints, Multiset.map_coe, List.map_flatMap]
    simp only [map_stored_decodeBlock]
  rw [Multiset.map_add, hstored]
  unfold SeriesBuffer.pruneBefore oldBlockPoints oldPoints
  dsimp only
  rw [List.flatMap_append, ← Multiset.coe_add]
  congr 1
  split_ifs with hnone
  · rw [List.isEmpty_iff.mp hnone]
    rfl
  · rw [List.flatMap_singleton, decodeBlock_compressAll, Multiset.map_coe]

theorem pointsOf_enforceRetention (t : TieredEngine) (writes : String → ColdWrite)
    (seriesId : String) :
    (t.enforceRetention writes cutoff).1.engine.pointsOf nexus seriesId =
      ((t.engine.seriesData.lookup seriesId).map fun buffer =>
        ((buffer.pruneBefore cutoff).1.allPoints nexus : Multiset DataPoint)).getD 0 := by
  unfold TimeSeriesEngine.pointsOf TieredEngine.enforceRetention
  dsimp only
  rw [Table.lookup_filterValues, Table.lookup_mapValues]
  cases t.engine.seriesData.lookup seriesId with
  | none => rfl
  | some buffer =>
    rw [Option.map_some, Option.map_some, Option.filter_some]
    split_ifs with hkept
    · rfl
    · rw [Bool.not_eq_true, Bool.not_eq_false', Bool.and_eq_true, List.isEmpty_iff,
        List.isEmpty_iff] at hkept
      unfold SeriesBuffer.allPoints
      rw [hkept.1, hkept.2]
      rfl

/-- Only points that are too old have left memory. -/
def KeepsRecent (nexus : NexusCodec) (cutoff : DateTime) (before after : TimeSeriesEngine) : Prop :=
  ∀ seriesId, ∃ removed : Multiset DataPoint,
    before.pointsOf nexus seriesId = after.pointsOf nexus seriesId + removed ∧
      ∀ p ∈ removed, p.timestamp < cutoff

/-- A block whose last point is too old has only points that are. -/
def EndsWithNewest (nexus : NexusCodec) (cutoff : DateTime) (engine : TimeSeriesEngine) : Prop :=
  ∀ seriesId buffer, engine.seriesData.lookup seriesId = some buffer →
    ∀ b ∈ buffer.compressedBlocks, b.lastTimestamp < cutoff.timestampMillis →
      ∀ p ∈ decodeBlock nexus b, p.timestamp < cutoff

theorem keepsRecent_iff (t : TieredEngine) (writes : String → ColdWrite) :
    KeepsRecent nexus cutoff t.engine (t.enforceRetention writes cutoff).1.engine ↔
      EndsWithNewest nexus cutoff t.engine := by
  have hold (buffer : SeriesBuffer) :
      (∀ p ∈ oldBlockPoints nexus cutoff buffer + oldPoints cutoff buffer, p.timestamp < cutoff) ↔
        ∀ b ∈ buffer.compressedBlocks, b.lastTimestamp < cutoff.timestampMillis →
          ∀ p ∈ decodeBlock nexus b, p.timestamp < cutoff := by
    have hpoints : ∀ p ∈ oldPoints cutoff buffer, p.timestamp < cutoff := fun p hp =>
      of_decide_eq_true (List.mem_filter.mp (Multiset.mem_coe.mp hp)).2
    constructor
    · intro h b hb hlast p hp
      refine h p (Multiset.mem_add.mpr (Or.inl (Multiset.mem_coe.mpr ?_)))
      exact List.mem_flatMap.mpr ⟨b, List.mem_filter.mpr ⟨hb, decide_eq_true hlast⟩, hp⟩
    · intro h p hp
      rcases Multiset.mem_add.mp hp with hp | hp
      · obtain ⟨b, hb, hp⟩ := List.mem_flatMap.mp (Multiset.mem_coe.mp hp)
        obtain ⟨hb, hlast⟩ := List.mem_filter.mp hb
        exact h b hb (of_decide_eq_true hlast) p hp
      · exact hpoints p hp
  constructor
  · intro h seriesId buffer hbuffer
    obtain ⟨removed, hremoved, htimes⟩ := h seriesId
    rw [pointsOf_enforceRetention, TimeSeriesEngine.pointsOf, hbuffer, Option.map_some,
      Option.map_some, Option.getD_some, Option.getD_some, allPoints_pruneBefore cutoff,
      add_right_inj] at hremoved
    rw [← hold, hremoved]
    exact htimes
  · intro h seriesId
    rw [pointsOf_enforceRetention, TimeSeriesEngine.pointsOf]
    cases hbuffer : t.engine.seriesData.lookup seriesId with
    | none => exact ⟨0, rfl, fun p hp => absurd hp (Multiset.notMem_zero p)⟩
    | some buffer =>
      refine ⟨_, allPoints_pruneBefore cutoff buffer, ?_⟩
      exact (hold buffer).mpr (h seriesId buffer hbuffer)

end Memory

/-! ## What reaches the cold tier -/

namespace ColdStore

variable {store : ColdStore} {e : Eviction}

theorem blocksOf_eq (seriesId : String) :
    store.blocksOf seriesId =
      if seriesId ∈ store.index then coldFormat.read (store.content seriesId) else [] := by
  rw [blocksOf, readRange_eq]
  split_ifs
  · refine List.filter_eq_self.mpr fun b _ => ?_
    rw [Bool.and_eq_true, decide_eq_true_iff, decide_eq_true_iff]
    exact ⟨Int64.minValue_le _, Int64.le_maxValue _⟩
  · rfl

/-- A file that blocks can be appended to: whole frames that are in use. -/
structure Ready (store : ColdStore) (e : Eviction) : Prop where
  whole : coldFormat.Whole (store.content e.seriesId)
  inUse : e.seriesId ∈ store.index ∨ store.content e.seriesId = []
  storable : ∀ b ∈ e.blocks, b.Storable

/-- The blocks that can be read after an append. -/
def reached (store : ColdStore) (outcome : ColdWrite) (e : Eviction) : List CompressedBlock :=
  match outcome with
  | .complete => e.blocks
  | .refused => []
  | .brokenOff written =>
      if e.seriesId ∈ store.index then coldFormat.fitting written e.blocks else []
  | .indexNotSaved => e.blocks

theorem reached_isPrefix (outcome : ColdWrite) : store.reached outcome e <+: e.blocks := by
  cases outcome with
  | complete => exact List.prefix_refl _
  | refused => exact List.nil_prefix
  | brokenOff written =>
    unfold reached
    dsimp only
    split_ifs
    · exact coldFormat.fitting_isPrefix _ _
    · exact List.nil_prefix
  | indexNotSaved => exact List.prefix_refl _

theorem read_content_of_ready (h : store.Ready e) :
    coldFormat.read (store.content e.seriesId) = store.blocksOf e.seriesId := by
  rw [blocksOf_eq]
  split_ifs with hknown
  · rfl
  · rw [h.inUse.resolve_left hknown]
    rfl

theorem blocksOf_append (h : store.Ready e) (hne : e.blocks ≠ []) (outcome : ColdWrite) :
    (store.append outcome e.seriesId e.series e.blocks).1.blocksOf e.seriesId =
      store.blocksOf e.seriesId ++ store.reached outcome e := by
  have hnonempty : e.blocks.isEmpty = false := by simpa using hne
  have hwritten (n : ℕ) : coldFormat.read (store.content e.seriesId ++ (frames e.blocks).take n) =
      store.blocksOf e.seriesId ++ coldFormat.fitting n e.blocks := by
    rw [coldFormat.read_append h.whole, read_content_of_ready h]
    exact congrArg (_ ++ ·) (coldFormat.read_take h.storable n)
  have hall : coldFormat.read (store.content e.seriesId ++ frames e.blocks) =
      store.blocksOf e.seriesId ++ e.blocks := by
    have hfit : coldFormat.fitting (frames e.blocks).length e.blocks = e.blocks :=
      coldFormat.fitting_of_length_le (Nat.le_refl _)
    have hfull := hwritten (frames e.blocks).length
    rwa [List.take_length, hfit] at hfull
  have hset (bytes : Bytes) : (store.setFile e.seriesId
      (some (store.content e.seriesId ++ bytes))).content e.seriesId =
        store.content e.seriesId ++ bytes := by
    rw [content_setFile, if_pos rfl, Option.getD_some]
  unfold append
  rw [hnonempty, if_neg Bool.false_ne_true]
  cases outcome with
  | complete =>
    dsimp only
    rw [blocksOf_eq, index_enter, if_pos ((AList.mem_insert _).mpr (Or.inl rfl)), content_enter,
      hset, hall]
    rfl
  | refused => exact (List.append_nil _).symm
  | brokenOff written =>
    dsimp only
    rw [blocksOf_eq, hset, hwritten, reached]
    by_cases hknown : e.seriesId ∈ store.index
    · rw [if_pos (show e.seriesId ∈ (store.setFile _ _).index from hknown), if_pos hknown]
    · rw [if_neg (show e.seriesId ∉ (store.setFile _ _).index from hknown), if_neg hknown,
        List.append_nil, blocksOf_eq, if_neg hknown]
  | indexNotSaved =>
    dsimp only
    rw [blocksOf_eq, if_pos ((AList.mem_insert _).mpr (Or.inl rfl))]
    exact (congrArg coldFormat.read (hset _)).trans hall

/-- An append does nothing to what the index has of other series. -/
theorem mem_index_append (store : ColdStore) (e : Eviction) {seriesId : String}
    (hne : seriesId ≠ e.seriesId) (outcome : ColdWrite) :
    seriesId ∈ (store.append outcome e.seriesId e.series e.blocks).1.index ↔
      seriesId ∈ store.index := by
  have hinsert (index : Table String ColdSeriesMeta) :
      seriesId ∈ index.insert e.seriesId e.series ↔ seriesId ∈ index := by
    rw [AList.mem_insert, or_iff_right hne]
  unfold append
  split_ifs
  · exact Iff.rfl
  · cases outcome with
    | complete =>
      dsimp only
      rw [index_enter]
      exact hinsert _
    | refused => exact Iff.rfl
    | brokenOff written => exact Iff.rfl
    | indexNotSaved => exact hinsert store.index

theorem content_append (store : ColdStore) (e : Eviction) {seriesId : String}
    (hne : fnv1a64 seriesId ≠ fnv1a64 e.seriesId) (outcome : ColdWrite) :
    (store.append outcome e.seriesId e.series e.blocks).1.content seriesId =
      store.content seriesId := by
  have hset (bytes : Option Bytes) :
      (store.setFile e.seriesId bytes).content seriesId = store.content seriesId := by
    rw [content_setFile, if_neg hne]
  unfold append
  split_ifs
  · rfl
  · cases outcome with
    | complete =>
      dsimp only
      rw [content_enter]
      exact hset _
    | refused => rfl
    | brokenOff written => exact hset _
    | indexNotSaved => exact hset (some (store.content e.seriesId ++ frames e.blocks))

theorem blocksOf_appendAll_other (writes : String → ColdWrite) {evicted : List Eviction}
    {seriesId : String} (hne : ∀ e ∈ evicted, seriesId ≠ e.seriesId)
    (hfile : seriesId ∈ store.index → ∀ e ∈ evicted, fnv1a64 seriesId ≠ fnv1a64 e.seriesId) :
    (store.appendAll writes evicted).blocksOf seriesId = store.blocksOf seriesId := by
  induction evicted generalizing store with
  | nil => rfl
  | cons e evicted ih =>
    rw [List.forall_mem_cons] at hne
    have hindex := mem_index_append store e hne.1 (writes e.seriesId)
    refine (ih hne.2 fun hknown e' he' =>
      hfile (hindex.mp hknown) e' (List.mem_cons_of_mem _ he')).trans ?_
    rw [blocksOf_eq, blocksOf_eq]
    by_cases hknown : seriesId ∈ store.index
    · rw [if_pos (hindex.mpr hknown), if_pos hknown,
        content_append store e (hfile hknown e List.mem_cons_self)]
    · rw [if_neg (mt hindex.mp hknown), if_neg hknown]

/-- Appends to a series come behind the blocks that it had. -/
theorem blocksOf_appendAll (writes : String → ColdWrite) {evicted : List Eviction}
    (hnodup : (evicted.map Eviction.seriesId).Nodup)
    (hdistinct : ∀ e ∈ evicted, ∀ e' ∈ evicted, fnv1a64 e.seriesId = fnv1a64 e'.seriesId →
      e.seriesId = e'.seriesId)
    (hready : ∀ e ∈ evicted, store.Ready e) (hne : ∀ e ∈ evicted, e.blocks ≠ [])
    (e : Eviction) (he : e ∈ evicted) :
    (store.appendAll writes evicted).blocksOf e.seriesId =
      store.blocksOf e.seriesId ++ store.reached (writes e.seriesId) e := by
  induction evicted generalizing store with
  | nil => cases he
  | cons e' evicted ih =>
    rw [List.map_cons, List.nodup_cons] at hnodup
    rw [List.forall_mem_cons] at hready hne
    have hid : ∀ e'' ∈ evicted, e''.seriesId ≠ e'.seriesId := fun e'' he'' heq =>
      hnodup.1 (List.mem_map.mpr ⟨e'', he'', heq⟩)
    -- the files of the others are other files
    have hother : ∀ e'' ∈ evicted, fnv1a64 e''.seriesId ≠ fnv1a64 e'.seriesId :=
      fun e'' he'' hfile => hid e'' he''
        (hdistinct e'' (List.mem_cons_of_mem _ he'') e' List.mem_cons_self hfile)
    rcases List.mem_cons.mp he with rfl | he
    · refine (blocksOf_appendAll_other writes (fun e'' he'' => (hid e'' he'').symm)
        fun _ e'' he'' => (hother e'' he'').symm).trans ?_
      exact blocksOf_append hready.1 hne.1 _
    · have hstill : ∀ e'' ∈ evicted,
          (store.append (writes e'.seriesId) e'.seriesId e'.series e'.blocks).1.Ready e'' := by
        intro e'' he''
        obtain ⟨hwhole, hinUse, hstorable⟩ := hready.2 e'' he''
        refine ⟨?_, ?_, hstorable⟩
        · rw [content_append store e' (hother e'' he'')]
          exact hwhole
        · rw [content_append store e' (hother e'' he''), mem_index_append store e' (hid e'' he'')]
          exact hinUse
      have hrest := ih hnodup.2
        (fun e₁ he₁ e₂ he₂ => hdistinct e₁ (List.mem_cons_of_mem _ he₁) e₂
          (List.mem_cons_of_mem _ he₂)) hstill hne.2 he
      have hindex := mem_index_append store e' (hid e he) (writes e'.seriesId)
      have hblocks : (store.appendAll writes [e']).blocksOf e.seriesId =
          store.blocksOf e.seriesId :=
        blocksOf_appendAll_other writes (List.forall_mem_singleton.mpr (hid e he))
          fun _ => List.forall_mem_singleton.mpr (hother e he)
      have hreached : (store.append (writes e'.seriesId) e'.seriesId e'.series e'.blocks).1.reached
          (writes e.seriesId) e = store.reached (writes e.seriesId) e := by
        unfold reached
        simp only [hindex]
      rw [hreached] at hrest
      exact hrest.trans (congrArg (· ++ _) hblocks)

end ColdStore

/-! ## What retention keeps -/

/-- The points of a series in memory and in the cold tier, as blocks have them. -/
def TieredEngine.pointsOf (nexus : NexusCodec) (t : TieredEngine) (seriesId : String) :
    Multiset DataPoint :=
  (t.engine.pointsOf nexus seriesId).map DataPoint.stored +
    (t.cold.map fun store => store.pointsOf nexus seriesId).getD 0

/-- No point is lost between memory and the cold tier. -/
def KeepsAll (nexus : NexusCodec) (before after : TieredEngine) : Prop :=
  ∀ seriesId, after.pointsOf nexus seriesId = before.pointsOf nexus seriesId

/-- A cold tier that can take what becomes too old: no two series share a file, and every file that
is appended to has whole frames that are in use. -/
structure ColdStore.ReadyFor (store : ColdStore) (cutoff : DateTime) (engine : TimeSeriesEngine) :
    Prop where
  distinct : Set.InjOn fnv1a64 {id | id ∈ engine.seriesData ∨ id ∈ store.index}
  ready : ∀ e ∈ evictions cutoff engine.seriesData, store.Ready e

def ColdStore.Written (nexus : NexusCodec) (store : ColdStore) (writes : String → ColdWrite)
    (cutoff : DateTime) (engine : TimeSeriesEngine) : Prop :=
  ∀ e ∈ evictions cutoff engine.seriesData,
    ∀ b ∈ e.blocks.drop (store.reached (writes e.seriesId) e).length, decodeBlock nexus b = []

section Tiers

variable {nexus : NexusCodec} {cutoff : DateTime} {t : TieredEngine} {store : ColdStore}

theorem mem_evictions {seriesData : Table String SeriesBuffer} {e : Eviction} :
    e ∈ evictions cutoff seriesData ↔ ∃ buffer, seriesData.lookup e.seriesId = some buffer ∧
      e.series = ⟨buffer.metric, buffer.tags⟩ ∧ e.blocks = (buffer.pruneBefore cutoff).2 ∧
        e.blocks ≠ [] := by
  unfold evictions
  rw [List.mem_filter, List.mem_map]
  constructor
  · rintro ⟨⟨⟨id, buffer⟩, hmem, rfl⟩, hne⟩
    exact ⟨buffer, AList.mem_lookup_iff.mpr hmem, rfl, rfl, by simpa using hne⟩
  · rintro ⟨buffer, hbuffer, hseries, hblocks, hne⟩
    refine ⟨⟨⟨e.seriesId, buffer⟩, AList.mem_lookup_iff.mp hbuffer, ?_⟩, by simpa using hne⟩
    rw [← hseries, ← hblocks]

theorem nodup_evictions (seriesData : Table String SeriesBuffer) :
    ((evictions cutoff seriesData).map Eviction.seriesId).Nodup := by
  refine List.Sublist.nodup (List.filter_sublist.map _) ?_
  rw [List.map_map]
  exact seriesData.nodupKeys

theorem coldPointsOf_enforceRetention (hcold : t.cold = some store)
    (writes : String → ColdWrite) (seriesId : String) :
    (t.enforceRetention writes cutoff).1.pointsOf nexus seriesId =
      ((t.enforceRetention writes cutoff).1.engine.pointsOf nexus seriesId).map DataPoint.stored +
        (store.appendAll writes (evictions cutoff t.engine.seriesData)).pointsOf nexus seriesId := by
  have hafter : (t.enforceRetention writes cutoff).1.cold =
      some (store.appendAll writes (evictions cutoff t.engine.seriesData)) := by
    unfold TieredEngine.enforceRetention
    rw [hcold]
    rfl
  rw [TieredEngine.pointsOf, hafter, Option.map_some, Option.getD_some]

theorem flatMap_prefix_eq_iff {α β : Type*} (f : α → List β) {l l' : List α} (h : l <+: l') :
    ((l.flatMap f : List β) : Multiset β) = (l'.flatMap f : List β) ↔
      ∀ a ∈ l'.drop l.length, f a = [] := by
  obtain ⟨rest, rfl⟩ := h
  rw [List.flatMap_append, ← Multiset.coe_add, left_eq_add, Multiset.coe_eq_zero,
    List.flatMap_eq_nil_iff, List.drop_left' rfl]

theorem pointsOf_of_not_evicted (hcold : t.cold = some store)
    (hready : store.ReadyFor cutoff t.engine) (writes : String → ColdWrite) {seriesId : String}
    (hnone : ∀ e ∈ evictions cutoff t.engine.seriesData, seriesId ≠ e.seriesId) :
    (t.enforceRetention writes cutoff).1.pointsOf nexus seriesId =
      t.pointsOf nexus seriesId := by
  have hmemory : ((t.enforceRetention writes cutoff).1.engine.pointsOf nexus seriesId).map
      DataPoint.stored = (t.engine.pointsOf nexus seriesId).map DataPoint.stored := by
    rw [pointsOf_enforceRetention, TimeSeriesEngine.pointsOf]
    cases hbuffer : t.engine.seriesData.lookup seriesId with
    | none => rfl
    | some buffer =>
      have hblocks : (buffer.pruneBefore cutoff).2 = [] := by
        by_contra hne
        exact hnone ⟨seriesId, ⟨buffer.metric, buffer.tags⟩, (buffer.pruneBefore cutoff).2⟩
          (mem_evictions.mpr ⟨buffer, hbuffer, rfl, rfl, hne⟩) rfl
      have hpoints : (oldBlockPoints nexus cutoff buffer + oldPoints cutoff buffer).map
          DataPoint.stored = 0 := by
        rw [← points_of_evicted, hblocks]
        rfl
      rw [Option.map_some, Option.map_some, Option.getD_some, Option.getD_some,
        allPoints_pruneBefore cutoff buffer, Multiset.map_add, hpoints, add_zero]
  have hfile : seriesId ∈ store.index → ∀ e ∈ evictions cutoff t.engine.seriesData,
      fnv1a64 seriesId ≠ fnv1a64 e.seriesId := by
    intro hknown e he heq
    obtain ⟨buffer, hbuffer, -⟩ := mem_evictions.mp he
    have hresident : e.seriesId ∈ t.engine.seriesData := by
      rw [← AList.lookup_isSome, hbuffer]
      rfl
    exact hnone e he (hready.distinct (Or.inr hknown) (Or.inl hresident) heq)
  rw [coldPointsOf_enforceRetention hcold, TieredEngine.pointsOf, hcold, Option.map_some,
    Option.getD_some, hmemory, ColdStore.pointsOf, ColdStore.pointsOf,
    ColdStore.blocksOf_appendAll_other writes hnone hfile]

/-- A series that has something too old keeps all points if what was not written had none. -/
theorem pointsOf_of_evicted_iff (hcold : t.cold = some store)
    (hready : store.ReadyFor cutoff t.engine) (writes : String → ColdWrite) {e : Eviction}
    (he : e ∈ evictions cutoff t.engine.seriesData) :
    (t.enforceRetention writes cutoff).1.pointsOf nexus e.seriesId =
        t.pointsOf nexus e.seriesId ↔
      ∀ b ∈ e.blocks.drop (store.reached (writes e.seriesId) e).length,
        decodeBlock nexus b = [] := by
  obtain ⟨buffer, hbuffer, -, hblocks, -⟩ := mem_evictions.mp he
  have hresident (e' : Eviction) (he' : e' ∈ evictions cutoff t.engine.seriesData) :
      e'.seriesId ∈ t.engine.seriesData := by
    obtain ⟨buffer', hbuffer', -⟩ := mem_evictions.mp he'
    rw [← AList.lookup_isSome, hbuffer']
    rfl
  have hcoldBlocks := ColdStore.blocksOf_appendAll writes (nodup_evictions t.engine.seriesData)
    (fun e₁ he₁ e₂ he₂ => hready.distinct (Or.inl (hresident e₁ he₁)) (Or.inl (hresident e₂ he₂)))
    hready.ready (fun e' he' => (mem_evictions.mp he').choose_spec.2.2.2) e he
  have hmemory : (t.engine.pointsOf nexus e.seriesId).map DataPoint.stored =
      ((t.enforceRetention writes cutoff).1.engine.pointsOf nexus e.seriesId).map
        DataPoint.stored + ((e.blocks.flatMap (decodeBlock nexus) : List DataPoint) :
          Multiset DataPoint) := by
    rw [pointsOf_enforceRetention, TimeSeriesEngine.pointsOf, hbuffer, hblocks, points_of_evicted,
      Option.map_some, Option.map_some, Option.getD_some, Option.getD_some, ← Multiset.map_add,
      ← allPoints_pruneBefore]
  rw [← flatMap_prefix_eq_iff (decodeBlock nexus) (ColdStore.reached_isPrefix _),
    coldPointsOf_enforceRetention hcold, TieredEngine.pointsOf, hcold, Option.map_some,
    Option.getD_some, hmemory, ColdStore.pointsOf, ColdStore.pointsOf, hcoldBlocks,
    List.flatMap_append, ← Multiset.coe_add, add_assoc, add_right_inj,
    add_comm (Multiset.ofList (store.blocksOf _ |>.flatMap _)), add_left_inj]

theorem keepsAll_iff (hcold : t.cold = some store) (hready : store.ReadyFor cutoff t.engine)
    (writes : String → ColdWrite) :
    KeepsAll nexus t (t.enforceRetention writes cutoff).1 ↔
      store.Written nexus writes cutoff t.engine := by
  constructor
  · exact fun h e he => (pointsOf_of_evicted_iff hcold hready writes he).mp (h e.seriesId)
  · intro h seriesId
    by_cases hevicted : ∀ e ∈ evictions cutoff t.engine.seriesData, seriesId ≠ e.seriesId
    · exact pointsOf_of_not_evicted hcold hready writes hevicted
    · push Not at hevicted
      obtain ⟨e, he, rfl⟩ := hevicted
      exact (pointsOf_of_evicted_iff hcold hready writes he).mpr (h e he)

/-- Whatever is in memory and in the cold tier, and however the appends end: only points that are too
old leave memory exactly if every block whose last point is too old has only such points, and as
long as the files can be appended to, no point is lost exactly if no block is that was not written
and had points. -/
theorem retention_iff (nexus : NexusCodec) (t : TieredEngine) (cutoff : DateTime)
    (writes : String → ColdWrite) :
    (KeepsRecent nexus cutoff t.engine (t.enforceRetention writes cutoff).1.engine ↔
        EndsWithNewest nexus cutoff t.engine) ∧
      ∀ store, t.cold = some store → store.ReadyFor cutoff t.engine →
        (KeepsAll nexus t (t.enforceRetention writes cutoff).1 ↔
          store.Written nexus writes cutoff t.engine) :=
  ⟨keepsRecent_iff t writes, fun _ hcold hready => keepsAll_iff hcold hready writes⟩

def pointAt (seconds : ℕ) (h : seconds < 1000) : DataPoint :=
  ⟨⟨seconds * 1000000000, by omega⟩, ⟨0⟩⟩

/-- A block whose last point is not its newest, in memory, with an empty cold tier. -/
def lateArrival : TieredEngine where
  engine :=
    { config := {}
      seriesData := AList.insert "m:"
        { metric := .gauge "m"
          tags := ∅
          compressedBlocks :=
            [Compressor.compressAll [pointAt 10 (by decide), pointAt 5 (by decide)]] } ∅ }
  cold := some (.openDir {})

def lateBlock : CompressedBlock :=
  Compressor.compressAll [pointAt 10 (by decide), pointAt 5 (by decide)]

theorem evictions_lateArrival :
    evictions ⟨7000000000, by omega⟩ lateArrival.engine.seriesData =
      [⟨"m:", ⟨.gauge "m", ∅⟩, [lateBlock]⟩] := by
  have hlast : lateBlock.lastTimestamp <
      DateTime.timestampMillis ⟨7000000000, by omega⟩ := by decide +kernel
  have hentries : lateArrival.engine.seriesData.entries =
      [⟨"m:", { metric := .gauge "m", tags := ∅, compressedBlocks := [lateBlock] }⟩] := rfl
  have hold : [lateBlock].filter (fun b =>
      b.lastTimestamp < DateTime.timestampMillis ⟨7000000000, by omega⟩) = [lateBlock] :=
    List.filter_eq_self.mpr (List.forall_mem_singleton.mpr (decide_eq_true hlast))
  rw [evictions, hentries, List.map_singleton, SeriesBuffer.pruneBefore]
  dsimp only
  rw [hold]
  rfl

/-- A point leaves memory that is not too old, and it is lost if its block is not written. -/
theorem lateArrival_lost : ¬ ∃ nexus : NexusCodec,
    KeepsRecent nexus ⟨7000000000, by omega⟩ lateArrival.engine
        (lateArrival.enforceRetention (fun _ => .refused) ⟨7000000000, by omega⟩).1.engine ∨
      KeepsAll nexus lateArrival
        (lateArrival.enforceRetention (fun _ => .refused) ⟨7000000000, by omega⟩).1 := by
  rintro ⟨nexus, hkeeps⟩
  have hdecode : decodeBlock nexus lateBlock =
      [(pointAt 10 (by decide)).stored, (pointAt 5 (by decide)).stored] :=
    decodeBlock_compressAll nexus _
  rcases hkeeps with h | h
  · rw [keepsRecent_iff] at h
    have htime := h "m:" _ rfl lateBlock List.mem_cons_self (by decide +kernel)
      (pointAt 10 (by decide)).stored (by rw [hdecode]; exact List.mem_cons_self)
    revert htime
    decide
  · have hready : (ColdStore.openDir {}).ReadyFor ⟨7000000000, by omega⟩ lateArrival.engine := by
      refine ⟨?_, ?_⟩
      · intro id hid id' hid' _
        have honly : ∀ id ∈ {id | id ∈ lateArrival.engine.seriesData ∨
            id ∈ (ColdStore.openDir {}).index}, id = "m:" := by
          rintro id (hid | hid)
          · exact (AList.mem_insert _).mp hid |>.resolve_right (AList.notMem_empty id)
          · exact absurd hid (AList.notMem_empty id)
        rw [honly id hid, honly id' hid']
      · rw [evictions_lateArrival]
        refine List.forall_mem_singleton.mpr ⟨rfl, Or.inr rfl, ?_⟩
        exact List.forall_mem_singleton.mpr (by decide +kernel)
    rw [keepsAll_iff rfl hready] at h
    rw [ColdStore.Written, evictions_lateArrival] at h
    have hnone := h _ List.mem_cons_self lateBlock List.mem_cons_self
    rw [hdecode] at hnone
    cases hnone

end Tiers

end TimeSeries

end AegisDB
