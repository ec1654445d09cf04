import AegisDB.Library.Separators
import AegisDB.TimeSeries.Engine

/-!
# What series are called

What a series is called is its metric and its tags.  Its id is written from them, with a colon after
the metric, equals signs between the keys and the values of the tags, and commas between the tags.
Nothing is escaped, so two series have the same id when they read the same and only their separators
are cut otherwise.
-/

namespace AegisDB

namespace TimeSeries

/-- What a series is called. -/
structure SeriesName where
  metricName : String
  tags : Tags

namespace SeriesName

variable {s t u : SeriesName}

def id (s : SeriesName) : String :=
  TimeSeriesIndex.seriesIdFor s.metricName s.tags

def Same (s t : SeriesName) : Prop :=
  s.metricName = t.metricName ∧ ∀ key, s.tags.lookup key = t.tags.lookup key

theorem Same.refl (s : SeriesName) : s.Same s :=
  ⟨rfl, fun _ => rfl⟩

theorem Same.symm (h : s.Same t) : t.Same s :=
  ⟨h.1.symm, fun key => (h.2 key).symm⟩

theorem Same.trans (h : s.Same t) (h' : t.Same u) : s.Same u :=
  ⟨h.1.trans h'.1, fun key => (h.2 key).trans (h'.2 key)⟩

/-- The tags of a series, in the order of their keys. -/
def pairs (s : SeriesName) : List (Sigma fun _ : String => String) :=
  s.tags.entries.insertionSort fun a b => a.1 ≤ b.1

def pairText (pair : Sigma fun _ : String => String) : List Char :=
  pair.1.toList ++ '=' :: pair.2.toList

def letters (s : SeriesName) : List Char :=
  s.metricName.toList ++ ':' :: [','].intercalate (s.pairs.map pairText)

/-- The separators that are part of what a series is called: the colons of its metric, and for each
tag the commas and the equals signs of its key. -/
def separators (s : SeriesName) : ℕ × List (ℕ × ℕ) :=
  (s.metricName.toList.count ':',
    s.pairs.map fun pair => ((pairText pair).count ',', pair.1.toList.count '='))

/-- Series that read the same and have their separators elsewhere. -/
def Confused (s t : SeriesName) : Prop :=
  s.letters = t.letters ∧ s.separators ≠ t.separators

instance (s t : SeriesName) : Decidable (s.Confused t) :=
  inferInstanceAs (Decidable (_ ∧ _))

theorem toList_id (s : SeriesName) : s.id.toList = s.letters := by
  have hpairs : (s.pairs.map fun e => e.1 ++ "=" ++ e.2).map String.toList =
      s.pairs.map pairText := by
    rw [List.map_map]
    refine List.map_congr_left fun pair _ => ?_
    simp [pairText]
  unfold id TimeSeriesIndex.seriesIdFor Tags.seriesKey
  rw [String.toList_append, String.toList_append, String.toList_intercalate]
  change _ ++ [':'] ++ [','].intercalate ((s.pairs.map fun e => e.1 ++ "=" ++ e.2).map
    String.toList) = _
  rw [hpairs, List.append_assoc]
  rfl

theorem id_eq_iff : s.id = t.id ↔ s.letters = t.letters := by
  rw [← toList_id, ← toList_id, String.toList_inj]

theorem Same.pairs_eq (h : s.Same t) : s.pairs = t.pairs := by
  have htotal : Std.Total fun a b : Sigma fun _ : String => String => a.1 ≤ b.1 :=
    ⟨fun a b => String.le_total a.1 b.1⟩
  have htrans : IsTrans (Sigma fun _ : String => String) fun a b => a.1 ≤ b.1 :=
    ⟨fun _ _ _ hab hbc => String.le_trans hab hbc⟩
  have hperm : s.tags.entries.Perm t.tags.entries :=
    List.lookup_ext s.tags.nodupKeys t.tags.nodupKeys fun key value => by
      have hlookup := h.2 key
      unfold AList.lookup at hlookup
      rw [hlookup]
  have hsorted : s.pairs.Perm t.pairs :=
    (List.perm_insertionSort _ _).trans (hperm.trans (List.perm_insertionSort _ _).symm)
  have hordered (u : SeriesName) : u.pairs.Pairwise fun a b => a.1 ≤ b.1 :=
    List.pairwise_insertionSort _ _
  refine List.Perm.eq_of_pairwise (fun a b ha hb hab hba => ?_) (hordered s) (hordered t) hsorted
  have ha' : a ∈ s.tags.entries := (List.mem_insertionSort _).mp ha
  have hb' : b ∈ s.tags.entries := hperm.mem_iff.mpr ((List.mem_insertionSort _).mp hb)
  exact s.tags.nodupKeys.eq_of_fst_eq ha' hb' (String.le_antisymm hab hba)

theorem Same.letters_eq (h : s.Same t) : s.letters = t.letters := by
  rw [letters, letters, h.1, h.pairs_eq]

theorem Same.separators_eq (h : s.Same t) : s.separators = t.separators := by
  rw [separators, separators, h.1, h.pairs_eq]

theorem lookup_eq_some_iff {key value : String} :
    s.tags.lookup key = some value ↔ ⟨key, value⟩ ∈ s.pairs := by
  rw [pairs, List.mem_insertionSort, ← AList.mem_lookup_iff, Option.mem_def]

theorem lookup_congr (h : s.pairs = t.pairs) (key : String) :
    s.tags.lookup key = t.tags.lookup key := by
  ext value
  rw [lookup_eq_some_iff, lookup_eq_some_iff, h]

/-- Series that read the same and have their separators at the same places are the same. -/
theorem same_of_separators (hletters : s.letters = t.letters)
    (hseparators : s.separators = t.separators) : s.Same t := by
  have hcolons := congrArg Prod.fst hseparators
  obtain ⟨hmetric, htags⟩ := append_cons_inj_of_count hcolons hletters
  have hshape : s.pairs.map (fun pair => ((pairText pair).count ',', pair.1.toList.count '=')) =
      t.pairs.map fun pair => ((pairText pair).count ',', pair.1.toList.count '=') :=
    congrArg Prod.snd hseparators
  have hcommas : (s.pairs.map pairText).map (List.count ',') =
      (t.pairs.map pairText).map (List.count ',') := by
    have hfst := congrArg (List.map Prod.fst) hshape
    rw [List.map_map, List.map_map] at hfst ⊢
    exact hfst
  have htexts := intercalate_inj_of_count hcommas htags
  have hpairs : s.pairs = t.pairs := by
    have hboth : s.pairs.map (fun pair => (pairText pair, pair.1.toList.count '=')) =
        t.pairs.map fun pair => (pairText pair, pair.1.toList.count '=') := by
      have hequals := congrArg (List.map Prod.snd) hshape
      rw [List.map_map, List.map_map] at hequals
      have hzip := congrArg₂ List.zip htexts hequals
      rw [List.zip_map', List.zip_map'] at hzip
      exact hzip
    refine List.map_injective_iff.mpr (fun a b hab => ?_) hboth
    obtain ⟨htext, hcount⟩ := Prod.mk.inj hab
    obtain ⟨hkey, hvalue⟩ := append_cons_inj_of_count hcount htext
    exact Sigma.ext (String.toList_inj.mp hkey) (heq_of_eq (String.toList_inj.mp hvalue))
  exact ⟨String.toList_inj.mp hmetric, lookup_congr hpairs⟩

theorem not_same_iff_confused (h : s.id = t.id) : ¬ s.Same t ↔ s.Confused t := by
  rw [id_eq_iff] at h
  constructor
  · exact fun hsame => ⟨h, fun hseparators => hsame (same_of_separators h hseparators)⟩
  · exact fun hconfused hsame => hconfused.2 hsame.separators_eq

end SeriesName

end TimeSeries

end AegisDB
