import AegisDB.TimeSeries.SeriesName

/-!
# The index of the series

The index has the series by their ids, by their metrics and by their tags.  As long as no two series
are registered that are confused, each of the three has the series that were registered and not
removed.  Sets that have become empty stay, and a lookup by no tags finds nothing.
-/

namespace AegisDB

namespace TimeSeries

/-- Whether tags are among those that a filter asks for. -/
def Tags.matches (tags filter : Tags) : Bool :=
  filter.entries.all fun e => tags.lookup e.1 = some e.2

namespace TimeSeriesIndex

variable (index : TimeSeriesIndex)

def get (seriesId : String) : Option SeriesMetadata :=
  index.seriesById.lookup seriesId

def findByMetric (metricName : String) : Finset String :=
  (index.seriesByMetric.lookup metricName).getD ∅

def findByTag (key value : String) : Finset String :=
  ((index.seriesByTag.lookup key).bind fun values => values.lookup value).getD ∅

/-- The ids that also have one more tag. -/
def narrow (result : Option (Finset String)) (tag : Sigma fun _ : String => String) :
    Option (Finset String) :=
  let matching := index.findByTag tag.1 tag.2
  match result with
  | some current => some (current ∩ matching)
  | none => some matching

/-- The ids of the series with all of some tags. -/
def findByTags (tags : Tags) : Finset String :=
  (tags.entries.foldl index.narrow none).getD ∅

/-- A series with one tag less that it can be found by. -/
def unregisterTag (seriesId : String) (byTag : Table String (Table String (Finset String)))
    (tag : Sigma fun _ : String => String) : Table String (Table String (Finset String)) :=
  byTag.modify tag.1 fun values => values.modify tag.2 fun ids => ids.erase seriesId

/-- Remove a series. -/
def remove (seriesId : String) : TimeSeriesIndex × Bool :=
  match index.seriesById.lookup seriesId with
  | none => (index, false)
  | some metadata =>
      ({ seriesById := index.seriesById.erase seriesId
         seriesByMetric :=
           index.seriesByMetric.modify metadata.metricName fun ids => ids.erase seriesId
         seriesByTag := metadata.tags.entries.foldl (unregisterTag seriesId) index.seriesByTag },
        true)

end TimeSeriesIndex

/-! ## The index after a call -/

namespace TimeSeriesIndex

variable {index : TimeSeriesIndex} {seriesId : String}

/-- What the index has by a tag, of which its table has a part. -/
def tagged (byTag : Table String (Table String (Finset String))) (key value : String) :
    Finset String :=
  ((byTag.lookup key).bind fun values => values.lookup value).getD ∅

theorem mem_tagged_registerTag {byTag : Table String (Table String (Finset String))}
    {tag : Sigma fun _ : String => String} {key value id : String} :
    id ∈ tagged (registerTag seriesId byTag tag) key value ↔
      (tag = ⟨key, value⟩ ∧ id = seriesId) ∨ id ∈ tagged byTag key value := by
  obtain ⟨key', value'⟩ := tag
  unfold tagged registerTag
  dsimp only
  rw [Table.lookup_insert]
  by_cases hkey : key = key'
  · subst hkey
    rw [if_pos rfl, Option.bind_some, Table.lookup_insert]
    by_cases hvalue : value = value'
    · subst hvalue
      rw [if_pos rfl, Option.getD_some, Finset.mem_insert]
      cases byTag.lookup key <;> simp
    · rw [if_neg hvalue]
      have hne : (⟨key, value'⟩ : Sigma fun _ : String => String) ≠ ⟨key, value⟩ := by
        simpa using Ne.symm hvalue
      cases byTag.lookup key <;> simp [hne]
  · rw [if_neg hkey]
    have hne : (⟨key', value'⟩ : Sigma fun _ : String => String) ≠ ⟨key, value⟩ := by
      simp [Ne.symm hkey]
    simp [hne]

theorem mem_tagged_unregisterTag {byTag : Table String (Table String (Finset String))}
    {tag : Sigma fun _ : String => String} {key value id : String} :
    id ∈ tagged (unregisterTag seriesId byTag tag) key value ↔
      ¬ (tag = ⟨key, value⟩ ∧ id = seriesId) ∧ id ∈ tagged byTag key value := by
  obtain ⟨key', value'⟩ := tag
  unfold tagged unregisterTag
  rw [Table.lookup_modify]
  by_cases hkey : key = key'
  · subst hkey
    rw [if_pos rfl]
    cases hvalues : byTag.lookup key with
    | none => simp
    | some values =>
      rw [Option.map_some, Option.bind_some, Option.bind_some, Table.lookup_modify]
      by_cases hvalue : value = value'
      · subst hvalue
        rw [if_pos rfl]
        cases values.lookup value <;> simp
      · rw [if_neg hvalue]
        have hne : (⟨key, value'⟩ : Sigma fun _ : String => String) ≠ ⟨key, value⟩ := by
          simpa using Ne.symm hvalue
        simp [hne]
  · rw [if_neg hkey]
    have hne : (⟨key', value'⟩ : Sigma fun _ : String => String) ≠ ⟨key, value⟩ := by
      simp [Ne.symm hkey]
    simp [hne]

theorem mem_tagged_foldl_registerTag {tags : List (Sigma fun _ : String => String)}
    {byTag : Table String (Table String (Finset String))} {key value id : String} :
    id ∈ tagged (tags.foldl (registerTag seriesId) byTag) key value ↔
      (⟨key, value⟩ ∈ tags ∧ id = seriesId) ∨ id ∈ tagged byTag key value := by
  induction tags generalizing byTag with
  | nil => simp
  | cons tag tags ih =>
    rw [List.foldl_cons, ih, mem_tagged_registerTag, List.mem_cons]
    constructor
    · rintro (⟨h, hid⟩ | ⟨h, hid⟩ | h)
      · exact Or.inl ⟨Or.inr h, hid⟩
      · exact Or.inl ⟨Or.inl h.symm, hid⟩
      · exact Or.inr h
    · rintro (⟨h | h, hid⟩ | h)
      · exact Or.inr (Or.inl ⟨h.symm, hid⟩)
      · exact Or.inl ⟨h, hid⟩
      · exact Or.inr (Or.inr h)

theorem mem_tagged_foldl_unregisterTag {tags : List (Sigma fun _ : String => String)}
    {byTag : Table String (Table String (Finset String))} {key value id : String} :
    id ∈ tagged (tags.foldl (unregisterTag seriesId) byTag) key value ↔
      ¬ (⟨key, value⟩ ∈ tags ∧ id = seriesId) ∧ id ∈ tagged byTag key value := by
  induction tags generalizing byTag with
  | nil => simp
  | cons tag tags ih =>
    rw [List.foldl_cons, ih, mem_tagged_unregisterTag, List.mem_cons]
    constructor
    · rintro ⟨htail, hhead, h⟩
      refine ⟨?_, h⟩
      rintro ⟨rfl | hmem, hid⟩
      · exact hhead ⟨rfl, hid⟩
      · exact htail ⟨hmem, hid⟩
    · rintro ⟨hall, h⟩
      exact ⟨fun hmem => hall ⟨Or.inr hmem.1, hmem.2⟩,
        fun hmem => hall ⟨Or.inl hmem.1.symm, hmem.2⟩, h⟩

theorem get_register {metric : Metric} {tags : Tags} {id : String} :
    (index.register metric tags).get id =
      if id = seriesIdFor metric.name tags then
        some ⟨seriesIdFor metric.name tags, metric.name, tags⟩
      else index.get id :=
  Table.lookup_insert _ _ _ _

theorem mem_findByMetric_register {metric : Metric} {tags : Tags} {name id : String} :
    id ∈ (index.register metric tags).findByMetric name ↔
      (metric.name = name ∧ id = seriesIdFor metric.name tags) ∨ id ∈ index.findByMetric name := by
  unfold findByMetric register
  dsimp only
  rw [Table.lookup_insert]
  by_cases hname : name = metric.name
  · rw [if_pos hname, Option.getD_some, Finset.mem_insert, hname]
    simp
  · rw [if_neg hname]
    simp [Ne.symm hname]

theorem mem_findByTag_register {metric : Metric} {tags : Tags} {key value id : String} :
    id ∈ (index.register metric tags).findByTag key value ↔
      (tags.lookup key = some value ∧ id = seriesIdFor metric.name tags) ∨
        id ∈ index.findByTag key value := by
  rw [← Option.mem_def, AList.mem_lookup_iff]
  exact mem_tagged_foldl_registerTag

theorem remove_of_none (h : index.get seriesId = none) : index.remove seriesId = (index, false) := by
  unfold remove
  rw [show index.seriesById.lookup seriesId = none from h]

section Remove

variable {metadata : SeriesMetadata} (h : index.get seriesId = some metadata)
include h

theorem remove_of_some :
    index.remove seriesId =
      ({ seriesById := index.seriesById.erase seriesId
         seriesByMetric :=
           index.seriesByMetric.modify metadata.metricName fun ids => ids.erase seriesId
         seriesByTag := metadata.tags.entries.foldl (unregisterTag seriesId) index.seriesByTag },
        true) := by
  unfold remove
  rw [show index.seriesById.lookup seriesId = some metadata from h]

theorem get_remove {id : String} :
    (index.remove seriesId).1.get id = if id = seriesId then none else index.get id := by
  rw [remove_of_some h]
  exact Table.lookup_erase _ _ _

theorem mem_findByMetric_remove {name id : String} :
    id ∈ (index.remove seriesId).1.findByMetric name ↔
      ¬ (metadata.metricName = name ∧ id = seriesId) ∧ id ∈ index.findByMetric name := by
  rw [remove_of_some h]
  unfold findByMetric
  dsimp only
  rw [Table.lookup_modify]
  by_cases hname : name = metadata.metricName
  · subst hname
    rw [if_pos rfl]
    cases index.seriesByMetric.lookup metadata.metricName <;> simp
  · rw [if_neg hname]
    simp [Ne.symm hname]

theorem mem_findByTag_remove {key value id : String} :
    id ∈ (index.remove seriesId).1.findByTag key value ↔
      ¬ (metadata.tags.lookup key = some value ∧ id = seriesId) ∧
        id ∈ index.findByTag key value := by
  rw [remove_of_some h, ← Option.mem_def, AList.mem_lookup_iff]
  exact mem_tagged_foldl_unregisterTag

end Remove

theorem mem_foldl_narrow {tags : List (Sigma fun _ : String => String)}
    {current : Finset String} {id : String} :
    id ∈ (tags.foldl index.narrow (some current)).getD ∅ ↔
      id ∈ current ∧ ∀ tag ∈ tags, id ∈ index.findByTag tag.1 tag.2 := by
  induction tags generalizing current with
  | nil => simp
  | cons tag tags ih =>
    rw [List.foldl_cons, List.forall_mem_cons]
    change id ∈ (tags.foldl index.narrow (some (current ∩ index.findByTag tag.1 tag.2))).getD ∅ ↔ _
    rw [ih, Finset.mem_inter, and_assoc]

theorem mem_findByTags {tags : Tags} {id : String} :
    id ∈ index.findByTags tags ↔
      tags.entries ≠ [] ∧ ∀ tag ∈ tags.entries, id ∈ index.findByTag tag.1 tag.2 := by
  unfold findByTags
  cases tags.entries with
  | nil => simp
  | cons tag entries =>
    rw [List.foldl_cons, List.forall_mem_cons]
    change id ∈ (entries.foldl index.narrow (some (index.findByTag tag.1 tag.2))).getD ∅ ↔ _
    rw [mem_foldl_narrow]
    simp

end TimeSeriesIndex

/-! ## Sequences of calls -/

/-- A call that changes the index. -/
inductive IndexCall where
  | register (metric : Metric) (tags : Tags)
  | remove (seriesId : String)

/-- An index together with the series that were registered and not removed. -/
structure IndexRun where
  index : TimeSeriesIndex := {}
  live : List SeriesName := []

namespace IndexRun

variable {run : IndexRun}

def step (run : IndexRun) : IndexCall → IndexRun
  | .register metric tags =>
      { index := run.index.register metric tags
        live := ⟨metric.name, tags⟩ :: run.live }
  | .remove seriesId =>
      { index := (run.index.remove seriesId).1
        live := run.live.filter fun s => s.id ≠ seriesId }

def after (calls : List IndexCall) : IndexRun :=
  calls.foldl step {}

def registered (calls : List IndexCall) : List SeriesName :=
  calls.filterMap fun call => match call with
    | .register metric tags => some ⟨metric.name, tags⟩
    | .remove _ => none

def Identified (names : List SeriesName) : Prop :=
  ∀ s ∈ names, ∀ t ∈ names, s.id = t.id → s.Same t

def Unconfused (names : List SeriesName) : Prop :=
  ∀ s ∈ names, ∀ t ∈ names, ¬ s.Confused t

/-- The index has the series that were registered and not removed. -/
structure Described (run : IndexRun) : Prop where
  registered_of_get : ∀ id metadata, run.index.get id = some metadata →
    metadata.seriesId = id ∧
      ∃ s ∈ run.live, s.id = id ∧ s.Same ⟨metadata.metricName, metadata.tags⟩
  get_of_registered : ∀ s ∈ run.live, ∃ metadata, run.index.get s.id = some metadata ∧
    s.Same ⟨metadata.metricName, metadata.tags⟩
  mem_findByMetric : ∀ name id, id ∈ run.index.findByMetric name ↔
    ∃ s ∈ run.live, s.metricName = name ∧ s.id = id
  mem_findByTag : ∀ key value id, id ∈ run.index.findByTag key value ↔
    ∃ s ∈ run.live, s.tags.lookup key = some value ∧ s.id = id

/-- A lookup by tags finds the series that have them. -/
def Finds (run : IndexRun) (wanted : Tags) : Prop :=
  ∀ id, id ∈ run.index.findByTags wanted ↔
    ∃ s ∈ run.live, s.tags.matches wanted = true ∧ s.id = id

theorem identified_iff_unconfused {names : List SeriesName} :
    Identified names ↔ Unconfused names := by
  constructor
  · intro h s hs t ht hconfused
    have hid : s.id = t.id := SeriesName.id_eq_iff.mpr hconfused.1
    exact (SeriesName.not_same_iff_confused hid).mpr hconfused (h s hs t ht hid)
  · intro h s hs t ht hid
    by_contra hsame
    exact h s hs t ht ((SeriesName.not_same_iff_confused hid).mp hsame)

theorem Identified.mono {names names' : List SeriesName} (h : Identified names')
    (hsubset : names ⊆ names') : Identified names :=
  fun s hs t ht => h s (hsubset hs) t (hsubset ht)

/-- A series is registered whose id is that of no other series. -/
theorem Described.register {metric : Metric} {tags : Tags} (h : run.Described)
    (hid : Identified (⟨metric.name, tags⟩ :: run.live)) :
    (run.step (.register metric tags)).Described where
  registered_of_get id metadata hget := by
    change (run.index.register metric tags).get id = _ at hget
    rw [TimeSeriesIndex.get_register] at hget
    split_ifs at hget with hnew
    · obtain rfl := Option.some.inj hget
      exact ⟨hnew.symm, ⟨metric.name, tags⟩, List.mem_cons_self, hnew.symm, .refl _⟩
    · obtain ⟨hmetadata, s, hs, hsid, hsame⟩ := h.registered_of_get id metadata hget
      exact ⟨hmetadata, s, List.mem_cons_of_mem _ hs, hsid, hsame⟩
  get_of_registered s hs := by
    change ∃ metadata, (run.index.register metric tags).get s.id = _ ∧ _
    rw [TimeSeriesIndex.get_register]
    split_ifs with hnew
    · exact ⟨_, rfl, hid s hs _ List.mem_cons_self hnew⟩
    · rcases List.mem_cons.mp hs with rfl | hs
      · exact absurd rfl hnew
      · exact h.get_of_registered s hs
  mem_findByMetric name id := by
    change id ∈ (run.index.register metric tags).findByMetric name ↔
      ∃ s ∈ (⟨metric.name, tags⟩ : SeriesName) :: run.live, _
    rw [TimeSeriesIndex.mem_findByMetric_register, h.mem_findByMetric, List.exists_mem_cons_iff]
    exact or_congr_left (and_congr_right fun _ => eq_comm)
  mem_findByTag key value id := by
    change id ∈ (run.index.register metric tags).findByTag key value ↔
      ∃ s ∈ (⟨metric.name, tags⟩ : SeriesName) :: run.live, _
    rw [TimeSeriesIndex.mem_findByTag_register, h.mem_findByTag, List.exists_mem_cons_iff]
    exact or_congr_left (and_congr_right fun _ => eq_comm)

theorem exists_live_remove {seriesId id : String} {p : SeriesName → Prop} :
    (∃ s ∈ (run.step (.remove seriesId)).live, p s ∧ s.id = id) ↔
      id ≠ seriesId ∧ ∃ s ∈ run.live, p s ∧ s.id = id := by
  constructor
  · rintro ⟨s, hs, hp, rfl⟩
    obtain ⟨hs, hne⟩ := List.mem_filter.mp hs
    exact ⟨of_decide_eq_true hne, s, hs, hp, rfl⟩
  · rintro ⟨hne, s, hs, hp, rfl⟩
    exact ⟨s, List.mem_filter.mpr ⟨hs, decide_eq_true hne⟩, hp, rfl⟩

/-- What no series has the id of is removed without a trace. -/
theorem Described.remove_of_none {seriesId : String} (h : run.Described)
    (hnone : run.index.get seriesId = none) : (run.step (.remove seriesId)).Described := by
  have hlive : (run.step (.remove seriesId)).live = run.live := by
    refine List.filter_eq_self.mpr fun s hs => decide_eq_true ?_
    rintro rfl
    obtain ⟨metadata, hget, -⟩ := h.get_of_registered s hs
    rw [hnone] at hget
    cases hget
  have hindex : (run.step (.remove seriesId)).index = run.index :=
    congrArg Prod.fst (TimeSeriesIndex.remove_of_none hnone)
  have hrun : run.step (.remove seriesId) = run := by
    cases hstep : run.step (.remove seriesId)
    rw [hstep] at hlive hindex
    cases hlive
    cases hindex
    rfl
  rw [hrun]
  exact h

theorem Described.remove_of_some {seriesId : String} {metadata : SeriesMetadata}
    (h : run.Described) (hsome : run.index.get seriesId = some metadata) :
    (run.step (.remove seriesId)).Described := by
  -- the sets of its metric and tags are the only ones that have its id
  have hsame : ∀ s ∈ run.live, s.id = seriesId →
      s.Same ⟨metadata.metricName, metadata.tags⟩ := by
    intro s hs hsid
    obtain ⟨metadata', hget, hsame⟩ := h.get_of_registered s hs
    rw [hsid, hsome] at hget
    obtain rfl := Option.some.inj hget
    exact hsame
  refine ⟨fun id metadata' hget => ?_, fun s hs => ?_, fun name id => ?_,
    fun key value id => ?_⟩
  · change (run.index.remove seriesId).1.get id = _ at hget
    rw [TimeSeriesIndex.get_remove hsome] at hget
    split_ifs at hget with hne
    obtain ⟨hmetadata, s, hs, hsid, hsame'⟩ := h.registered_of_get id metadata' hget
    refine ⟨hmetadata, s, List.mem_filter.mpr ⟨hs, decide_eq_true ?_⟩, hsid, hsame'⟩
    rwa [hsid]
  · obtain ⟨hs, hne⟩ := List.mem_filter.mp hs
    change ∃ metadata', (run.index.remove seriesId).1.get s.id = _ ∧ _
    rw [TimeSeriesIndex.get_remove hsome, if_neg (of_decide_eq_true hne)]
    exact h.get_of_registered s hs
  · rw [exists_live_remove]
    change id ∈ (run.index.remove seriesId).1.findByMetric name ↔ _
    rw [TimeSeriesIndex.mem_findByMetric_remove hsome, h.mem_findByMetric]
    refine and_congr_left ?_
    rintro ⟨s, hs, rfl, rfl⟩
    exact ⟨fun hnot heq => hnot ⟨(hsame s hs heq).1.symm, heq⟩, fun hne heq => hne heq.2⟩
  · rw [exists_live_remove]
    change id ∈ (run.index.remove seriesId).1.findByTag key value ↔ _
    rw [TimeSeriesIndex.mem_findByTag_remove hsome, h.mem_findByTag]
    refine and_congr_left ?_
    rintro ⟨s, hs, hlookup, rfl⟩
    exact ⟨fun hnot heq => hnot ⟨((hsame s hs heq).2 key).symm.trans hlookup, heq⟩,
      fun hne heq => hne heq.2⟩

theorem Described.remove {seriesId : String} (h : run.Described) :
    (run.step (.remove seriesId)).Described := by
  cases hget : run.index.get seriesId with
  | none => exact h.remove_of_none hget
  | some metadata => exact h.remove_of_some hget

theorem after_concat (calls : List IndexCall) (call : IndexCall) :
    after (calls ++ [call]) = (after calls).step call := by
  rw [after, List.foldl_append]
  rfl

theorem live_subset_registered (calls : List IndexCall) :
    (after calls).live ⊆ registered calls := by
  induction calls using List.reverseRecOn with
  | nil => exact List.Subset.refl _
  | append_singleton calls call ih =>
    rw [after_concat, registered, List.filterMap_append]
    cases call with
    | register metric tags =>
      intro s hs
      rcases List.mem_cons.mp hs with rfl | hs
      · exact List.mem_append_right _ List.mem_cons_self
      · exact List.mem_append_left _ (ih hs)
    | remove seriesId =>
      exact fun s hs => List.mem_append_left _ (ih (List.mem_of_mem_filter hs))

/-- An index in which no ids were shared has what was registered and not removed. -/
theorem described_after {calls : List IndexCall} (h : Identified (registered calls)) :
    (after calls).Described := by
  induction calls using List.reverseRecOn with
  | nil =>
    refine ⟨fun id metadata hget => ?_, fun s hs => ?_, fun name id => ?_, fun key value id => ?_⟩
    · cases hget
    · cases hs
    · exact ⟨fun hmem => absurd hmem (Finset.notMem_empty id), fun ⟨s, hs, _⟩ => by cases hs⟩
    · exact ⟨fun hmem => absurd hmem (Finset.notMem_empty id), fun ⟨s, hs, _⟩ => by cases hs⟩
  | append_singleton calls call ih =>
    have hregistered : registered calls ⊆ registered (calls ++ [call]) := by
      rw [registered, registered, List.filterMap_append]
      exact List.subset_append_left _ _
    have hlive := live_subset_registered (calls ++ [call])
    rw [after_concat] at hlive ⊢
    have hbefore := ih (h.mono hregistered)
    cases call with
    | register metric tags => exact hbefore.register (h.mono hlive)
    | remove seriesId => exact hbefore.remove

theorem Described.identified (h : run.Described) : Identified run.live := by
  intro s hs t ht hid
  obtain ⟨metadata, hget, hsame⟩ := h.get_of_registered s hs
  obtain ⟨metadata', hget', hsame'⟩ := h.get_of_registered t ht
  rw [hid, hget'] at hget
  obtain rfl := Option.some.inj hget
  exact hsame.trans hsame'.symm

/-- A lookup by tags finds the series that have them, if it asks for a tag at all. -/
theorem Described.finds_iff {wanted : Tags} (h : run.Described) :
    run.Finds wanted ↔ wanted.entries ≠ [] ∨ run.live = [] := by
  by_cases hnone : wanted.entries = []
  · have hnothing : ∀ id, id ∉ run.index.findByTags wanted := fun id hmem =>
      (TimeSeriesIndex.mem_findByTags.mp hmem).1 hnone
    have hmatches : ∀ s : SeriesName, s.tags.matches wanted = true := fun s => by
      rw [Tags.matches, hnone]
      rfl
    rw [or_iff_right (fun hne => hne hnone)]
    constructor
    · intro hfinds
      refine List.eq_nil_iff_forall_not_mem.mpr fun s hs => hnothing s.id ?_
      exact (hfinds s.id).mpr ⟨s, hs, hmatches s, rfl⟩
    · intro hlive id
      rw [hlive]
      exact ⟨fun hmem => absurd hmem (hnothing id), fun ⟨s, hs, _⟩ => by cases hs⟩
  · rw [iff_true_right (Or.inl hnone)]
    intro id
    rw [TimeSeriesIndex.mem_findByTags, and_iff_right hnone]
    have hmatches : ∀ s : SeriesName, s.tags.matches wanted = true ↔
        ∀ tag ∈ wanted.entries, s.tags.lookup tag.1 = some tag.2 := fun s => by
      rw [Tags.matches, List.all_eq_true]
      exact forall₂_congr fun tag _ => decide_eq_true_iff
    constructor
    · intro hall
      obtain ⟨tag, htag⟩ := List.exists_mem_of_ne_nil _ hnone
      obtain ⟨s, hs, -, hsid⟩ := (h.mem_findByTag tag.1 tag.2 id).mp (hall tag htag)
      refine ⟨s, hs, (hmatches s).mpr fun tag' htag' => ?_, hsid⟩
      obtain ⟨t, ht, hlookup, htid⟩ := (h.mem_findByTag tag'.1 tag'.2 id).mp (hall tag' htag')
      rw [← hlookup]
      exact (h.identified s hs t ht (hsid.trans htid.symm)).2 tag'.1
    · rintro ⟨s, hs, hcarries, hsid⟩ tag htag
      exact (h.mem_findByTag tag.1 tag.2 id).mpr ⟨s, hs, (hmatches s).mp hcarries tag htag, hsid⟩

/-- Whatever is registered and removed, ids tell series apart and the index has those that are
registered, exactly if no two series are registered that are confused; lookups by tags then find
what they ask for, unless they ask for nothing. -/
theorem seriesIdentity_iff (calls : List IndexCall) (wanted : Tags) :
    (Identified (registered calls) ∧ (after calls).Described ∧ (after calls).Finds wanted) ↔
      Unconfused (registered calls) ∧ (wanted.entries ≠ [] ∨ (after calls).live = []) := by
  rw [← identified_iff_unconfused]
  refine and_congr_right fun hid => ?_
  have hdescribed := described_after hid
  rw [and_iff_right hdescribed, hdescribed.finds_iff]

/-- Two series with one id: the value of a tag has a comma and an equals sign. -/
def sharedId : List IndexCall :=
  let a : Tags := AList.insert "a" "1,b=2" ∅
  let ab : Tags := AList.insert "a" "1" (AList.insert "b" "2" ∅)
  [.register (.gauge "cpu") a, .register (.gauge "cpu") ab]

/-- Both are registered, and have the same id. -/
theorem series_share_id :
    ¬ ∀ (calls : List IndexCall) (wanted : Tags),
      Identified (registered calls) ∧ (after calls).Described ∧ (after calls).Finds wanted := by
  intro h
  have hsame := (h sharedId ∅).1 ⟨"cpu", AList.insert "a" "1,b=2" ∅⟩ List.mem_cons_self
    ⟨"cpu", AList.insert "a" "1" (AList.insert "b" "2" ∅)⟩
    (List.mem_cons_of_mem _ List.mem_cons_self) (by decide +kernel)
  have hlookup := hsame.2 "b"
  revert hlookup
  decide +kernel

end IndexRun

end TimeSeries

end AegisDB
