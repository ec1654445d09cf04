import AegisDB.Documents.FindAgreement
import AegisDB.Library.Kinds

/-!
# Sorted queries

The documents that match a query are sorted by a field, and a window is cut from them.  Missing
values come last and nulls first, but among the others values of different kinds, and anything next
to what is not a number, count as equal.  So the comparison is a total preorder on the values of the
field only if those that are there and not null are of one kind or all tie, and no two integers tie
with one number.  For other values the sort may put the documents in any order, and may even end in
a panic.
-/

namespace AegisDB

namespace Documents

/-! ## What is found -/

/-- The orders in which a hash set of ids and the hash map of documents are visited. -/
structure Visits where
  ids : Finset DocumentId → List DocumentId
  documents : Table DocumentId Document → List Document
  enumerates : Collection.Enumerates ids
  perm : ∀ t, (documents t).Perm t.values

/-- Sort the matching documents; `none` is a panic of the sort. -/
def Query.sortBy (sort : StableSort Document) (query : Query) (matching : List Document) :
    Option (List Document) :=
  match query.sort with
  | some spec => sort.sortBy spec.cmp matching
  | none => some matching

namespace Collection

variable (rt : Runtime)

/-- The documents that match before they are sorted, and how many have been looked at. -/
def candidates (visits : Visits) (c : Collection) (query : Query) : List Document × ℕ :=
  match findIndexedCandidates query.filters c.indexes with
  | some ids => (found rt c query (visits.ids ids), ids.card)
  | none => ((visits.documents c.documents).filter (query.matches rt),
      c.documents.values.length)

/-- Find documents matching a query with a sort that may panic. -/
def findBy (sort : StableSort Document) (visits : Visits) (c : Collection) (query : Query) :
    Option QueryResult := do
  let (matching, totalScanned) := c.candidates rt visits query
  let matching ← query.sortBy sort matching
  return { documents := query.project (query.window matching), totalScanned }

/-- With a sort that ends well and documents that are visited as they are stored, this is what a
query finds. -/
theorem findBy_merge (order : Finset DocumentId → List DocumentId) (horder : Enumerates order)
    (c : Collection) (query : Query) :
    c.findBy rt StableSort.merge ⟨order, Table.values, horder, fun _ => List.Perm.refl _⟩ query =
      some (c.find rt order query) := by
  have hsort : ∀ docs, query.sortBy StableSort.merge docs = some (query.sorted docs) := by
    intro docs
    rw [Query.sortBy, Query.sorted]
    cases query.sort with
    | none => rfl
    | some spec =>
      have hle : (fun a b => (spec.cmp a b).isLE) = fun a b => spec.cmp a b != .gt := by
        funext a b
        cases spec.cmp a b <;> rfl
      exact congrArg (fun le => some (docs.mergeSort le)) hle
  rw [findBy, candidates, find]
  cases findIndexedCandidates query.filters c.indexes with
  | none =>
    dsimp only
    rw [hsort]
    rfl
  | some ids =>
    dsimp only
    rw [hsort]
    rfl

end Collection

/-! ## What is asked for -/

/-- The documents from number `skip` on, `limit` of them. -/
def Query.slice (query : Query) (docs : List Document) : List Document :=
  match query.limit with
  | some limit => (docs.drop (query.skip.getD 0)).take limit
  | none => docs.drop (query.skip.getD 0)

/-- The query with another window and projection. -/
def Query.withWindow (query : Query) (skip limit : Option ℕ)
    (projection : Option (List String)) : Query :=
  { query with skip, limit, projection }

/-- The documents are ordered by the field of the sort, in its direction. -/
def SortSpec.Ordered (spec : SortSpec) (docs : List Document) : Prop :=
  docs.Pairwise fun a b =>
    if spec.ascending then
      (compareOptionalValues (a.get spec.field) (b.get spec.field)).isLE = true
    else (compareOptionalValues (b.get spec.field) (a.get spec.field)).isLE = true

def SortSpec.values (spec : SortSpec) (docs : List Document) : List (Option Value) :=
  docs.map fun doc => doc.get spec.field

/-- The comparison is a total preorder on the values of the sort field, and whatever sort is used
and however hash tables are visited, each window of the query is the slice of one ordered
permutation of the documents that match. -/
def SortsAsAsked (rt : Runtime) (c : Collection) (query : Query) : Prop :=
  (∀ spec, query.sort = some spec →
      Preorders compareOptionalValues (spec.values (c.matching rt query))) ∧
    ∀ (sort : StableSort Document) (visits : Visits), ∃ docs,
      docs.Perm (c.matching rt query) ∧
      (∀ spec, query.sort = some spec → spec.Ordered docs) ∧
      ∀ skip limit projection,
        ∃ result, c.findBy rt sort visits (query.withWindow skip limit projection) = some result ∧
          result.documents = (query.withWindow skip limit projection).project
            ((query.withWindow skip limit projection).slice docs)

/-! ## When it is returned -/

/-- The kinds of values that have an order among themselves. -/
inductive Kind where
  | number | string | boolean
deriving DecidableEq

/-- The kind of a value, if it has an order; what is not a number has none. -/
def kindOf : Value → Option Kind
  | .num n => if n.asF64.isNaN then none else some .number
  | .str _ => some .string
  | .bool _ => some .boolean
  | _ => none

def presentValue : Option Value → Option Value
  | none | some .null => none
  | some v => some v

def present (values : List (Option Value)) : List Value :=
  values.filterMap presentValue

/-- If two values that are present are not alike, all of them are of one kind; and no number ties
with two integers. -/
structure Coherent (values : List (Option Value)) : Prop where
  kinds : ∀ a ∈ present values, ∀ b ∈ present values, compareValueInner a b = .gt →
    ∀ c ∈ present values, kindOf c = kindOf a
  rounding : ∀ i j f, some (.num (.int i)) ∈ values → some (.num (.int j)) ∈ values →
    some (.num (.float f)) ∈ values → i < j →
      ¬(compareValueInner (.num (.int i)) (.num (.float f)) = .eq ∧
        compareValueInner (.num (.int j)) (.num (.float f)) = .eq)

/-- Each index that the query uses has the documents that match under the value of the filter. -/
def IndexesHave (rt : Runtime) (c : Collection) (query : Query) : Prop :=
  ∀ id d, c.documents.lookup id = some d → query.matches rt d = true →
    ∀ field value idx, Filter.eq field value ∈ query.filters →
      Collection.indexOn c.indexes field = some idx → id ∈ idx.findEq value

/-! ## The comparison of values -/

namespace Number

def mixed : Number → MixedNumber
  | int n => .inl n
  | float f => .inr f

theorem asF64_mixed (n : Number) : n.mixed.asF64 = n.asF64 := by
  cases n <;> rfl

theorem compare_toInt (i j : Int64) : compare i.toInt j.toInt = compare i j := by
  rcases lt_trichotomy i.toInt j.toInt with h | h | h
  · rw [Std.compare_eq_lt.mpr h, Std.compare_eq_lt.mpr (Int64.lt_iff_toInt_lt.mpr h)]
  · rw [Std.compare_eq_iff_eq.mpr h, Std.compare_eq_iff_eq.mpr (Int64.toInt_inj.mp h)]
  · rw [Std.compare_eq_gt.mpr h, Std.compare_eq_gt.mpr (Int64.lt_iff_toInt_lt.mpr h)]

theorem getD_partialCmp (a b : Number) :
    (a.partialCmp b).getD .eq = MixedNumber.cmp a.mixed b.mixed := by
  cases a with
  | int i =>
    cases b with
    | int j => exact compare_toInt i j
    | float g => rfl
  | float f => cases b <;> rfl

end Number

/-- Two values that are turned round compare the other way. -/
theorem compareValueInner_swap (v w : Value) :
    compareValueInner v w = (compareValueInner w v).swap := by
  cases v with
  | null => cases w <;> rfl
  | bool a =>
    cases w with
    | bool b => exact compare_swap a b
    | _ => rfl
  | num a =>
    cases w with
    | num b =>
      rw [compareValueInner, compareValueInner, Number.getD_partialCmp, Number.getD_partialCmp]
      exact MixedNumber.cmp_swap _ _
    | _ => rfl
  | str a =>
    cases w with
    | str b => exact compare_swap a b
    | _ => rfl
  | arr a => cases w <;> rfl
  | obj a => cases w <;> rfl

theorem compareOptionalValues_swap (v w : Option Value) :
    compareOptionalValues v w = (compareOptionalValues w v).swap := by
  cases v with
  | none => cases w <;> rfl
  | some v =>
    cases w with
    | none => rfl
    | some w => exact compareValueInner_swap v w

theorem presentValue_eq_some_iff {o : Option Value} {v : Value} :
    presentValue o = some v ↔ o = some v ∧ v ≠ .null := by
  cases o with
  | none => exact ⟨nofun, nofun⟩
  | some w =>
    cases w with
    | null =>
      refine ⟨nofun, fun h => (h.2 ?_).elim⟩
      exact (Option.some.inj h.1).symm
    | _ =>
      refine ⟨fun h => ?_, fun h => h.1⟩
      obtain rfl := Option.some.inj h
      exact ⟨rfl, nofun⟩

theorem mem_present {values : List (Option Value)} {v : Value} :
    v ∈ present values ↔ some v ∈ values ∧ v ≠ .null := by
  rw [present, List.mem_filterMap]
  constructor
  · rintro ⟨o, ho, hv⟩
    obtain ⟨rfl, hnull⟩ := presentValue_eq_some_iff.mp hv
    exact ⟨ho, hnull⟩
  · exact fun h => ⟨some v, h.1, presentValue_eq_some_iff.mpr ⟨rfl, h.2⟩⟩

/-- Values that are not null and do not tie are of one kind. -/
theorem kindOf_of_compareValueInner {v w : Value} (hv : v ≠ .null) (hw : w ≠ .null)
    (h : compareValueInner v w ≠ .eq) : kindOf v = kindOf w ∧ kindOf v ≠ none := by
  cases v with
  | null => exact absurd rfl hv
  | bool a =>
    cases w with
    | bool b => exact ⟨rfl, nofun⟩
    | null => exact absurd rfl hw
    | _ => exact absurd rfl h
  | num a =>
    cases w with
    | num b =>
      rw [compareValueInner, Number.getD_partialCmp] at h
      obtain ⟨ha, hb⟩ := MixedNumber.isNaN_of_cmp h
      rw [Number.asF64_mixed] at ha hb
      rw [kindOf, kindOf, ha, hb]
      exact ⟨rfl, nofun⟩
    | null => exact absurd rfl hw
    | _ => exact absurd rfl h
  | str a =>
    cases w with
    | str b => exact ⟨rfl, nofun⟩
    | null => exact absurd rfl hw
    | _ => exact absurd rfl h
  | arr a =>
    cases w with
    | null => exact absurd rfl hw
    | _ => exact absurd rfl h
  | obj a =>
    cases w with
    | null => exact absurd rfl hw
    | _ => exact absurd rfl h

theorem comparesWithin_present (values : List (Option Value)) :
    ComparesWithin compareValueInner kindOf (present values) where
  swap a _ b _ := compareValueInner_swap a b
  alike _ ha _ hb := kindOf_of_compareValueInner (mem_present.mp ha).2 (mem_present.mp hb).2

theorem kindOf_eq_string {v : Value} (h : kindOf v = some .string) : ∃ s, v = .str s := by
  cases v with
  | str s => exact ⟨s, rfl⟩
  | num n =>
    rw [kindOf] at h
    split_ifs at h
    cases h
  | _ => cases h

theorem kindOf_eq_boolean {v : Value} (h : kindOf v = some .boolean) : ∃ b, v = .bool b := by
  cases v with
  | bool b => exact ⟨b, rfl⟩
  | num n =>
    rw [kindOf] at h
    split_ifs at h
    cases h
  | _ => cases h

theorem kindOf_eq_number {v : Value} (h : kindOf v = some .number) :
    ∃ n, v = .num n ∧ n.mixed.asF64.isNaN = false := by
  cases v with
  | num n =>
    rw [kindOf] at h
    split_ifs at h with hnan
    refine ⟨n, rfl, ?_⟩
    rw [Number.asF64_mixed]
    exact Bool.eq_false_iff.mpr hnan
  | _ => cases h

/-- The comparison of coherent values of one kind is transitive. -/
theorem Coherent.trans {values : List (Option Value)} (h : Coherent values) (kind : Kind)
    {a b c : Value} (ha : some a ∈ values) (hb : some b ∈ values) (hc : some c ∈ values)
    (hka : kindOf a = some kind) (hkb : kindOf b = some kind) (hkc : kindOf c = some kind)
    (hab : (compareValueInner a b).isLE = true) (hbc : (compareValueInner b c).isLE = true) :
    (compareValueInner a c).isLE = true := by
  cases kind with
  | string =>
    obtain ⟨s, rfl⟩ := kindOf_eq_string hka
    obtain ⟨t, rfl⟩ := kindOf_eq_string hkb
    obtain ⟨u, rfl⟩ := kindOf_eq_string hkc
    exact @Std.TransCmp.isLE_trans String compare _ s t u hab hbc
  | boolean =>
    obtain ⟨s, rfl⟩ := kindOf_eq_boolean hka
    obtain ⟨t, rfl⟩ := kindOf_eq_boolean hkb
    obtain ⟨u, rfl⟩ := kindOf_eq_boolean hkc
    exact @Std.TransCmp.isLE_trans Bool compare _ s t u hab hbc
  | number =>
    obtain ⟨x, rfl, hx⟩ := kindOf_eq_number hka
    obtain ⟨y, rfl, hy⟩ := kindOf_eq_number hkb
    obtain ⟨z, rfl, hz⟩ := kindOf_eq_number hkc
    rw [compareValueInner, Number.getD_partialCmp] at hab hbc ⊢
    refine MixedNumber.isLE_trans hx hy hz (fun i j f hzi hxj hyf hlt => ?_) hab hbc
    cases z with
    | float g => cases hzi
    | int k =>
      cases x with
      | float g => cases hxj
      | int l =>
        cases y with
        | int m => cases hyf
        | float g =>
          cases hzi
          cases hxj
          cases hyf
          exact h.rounding i j f hc ha hb hlt

/-- Of values that may be missing or null, only the others can be out of order. -/
theorem preorders_present_iff (values : List (Option Value)) :
    Preorders compareOptionalValues values ↔ Preorders compareValueInner (present values) := by
  constructor
  · intro h
    refine Preorders.of_swap_trans (fun a _ b _ => compareValueInner_swap a b) ?_
    intro a ha b hb c hc
    exact h.trans (mem_present.mp ha).1 (mem_present.mp hb).1 (mem_present.mp hc).1
  · intro h
    refine Preorders.of_swap_trans (fun a _ b _ => compareOptionalValues_swap a b) ?_
    intro a ha b hb c hc hab hbc
    cases c with
    | none => cases a <;> rfl
    | some c =>
      cases b with
      | none => cases hbc
      | some b =>
        cases a with
        | none => cases hab
        | some a =>
          by_cases hnull : a = .null
          · rw [hnull]
            cases c <;> rfl
          · -- nothing in front of a value that is not null is null
            have hbnull : b ≠ .null := by
              rintro rfl
              cases a <;> first | exact hnull rfl | cases hab
            have hcnull : c ≠ .null := by
              rintro rfl
              cases b <;> first | exact hbnull rfl | cases hbc
            exact h.trans (mem_present.mpr ⟨ha, hnull⟩) (mem_present.mpr ⟨hb, hbnull⟩)
              (mem_present.mpr ⟨hc, hcnull⟩) hab hbc

theorem preorders_iff (values : List (Option Value)) :
    Preorders compareOptionalValues values ↔ Coherent values := by
  rw [preorders_present_iff]
  constructor
  · intro h
    refine ⟨(comparesWithin_present values).oneKind h, fun i j f hi hj hf hlt => ?_⟩
    have hmem : ∀ n, some (Json.num n) ∈ values → Json.num n ∈ present values :=
      fun n hn => mem_present.mpr ⟨hn, nofun⟩
    exact MixedNumber.not_tieAt h (hmem _ hi) (hmem _ hj) (hmem _ hf) rfl rfl
      (Number.compare_toInt j i) hlt
  · intro h
    refine (comparesWithin_present values).preorders_of_oneKind h.kinds ?_
    intro kind a ha b hb c hc
    exact h.trans kind (mem_present.mp ha).1 (mem_present.mp hb).1 (mem_present.mp hc).1

/-! ## Candidates and matching documents -/

namespace Collection

variable {rt : Runtime} {c : Collection} {query : Query}

/-- The entries of the table whose documents match. -/
def matchingEntries (rt : Runtime) (c : Collection) (query : Query) :
    List (Sigma fun _ : DocumentId => Document) :=
  c.documents.entries.filter fun e => query.matches rt e.2

theorem matching_eq : c.matching rt query = (matchingEntries rt c query).map Sigma.snd := by
  rw [matching, Table.values, matchingEntries, List.filter_map]
  rfl

/-- The documents that candidates lead to are those that match and have a candidate as key. -/
theorem found_perm {ids : List DocumentId} (hids : ids.Nodup) :
    (found rt c query ids).Perm
      (((matchingEntries rt c query).filter fun e => decide (e.1 ∈ ids)).map Sigma.snd) := by
  -- the candidates with their documents
  let entry (id : DocumentId) : Option (Sigma fun _ : DocumentId => Document) :=
    (c.documents.lookup id).map (Sigma.mk id)
  have hmem : ∀ e : Sigma fun _ : DocumentId => Document,
      e ∈ ids.filterMap entry ↔ e.1 ∈ ids ∧ e ∈ c.documents.entries := by
    intro e
    rw [List.mem_filterMap, ← AList.mem_lookup_iff]
    constructor
    · rintro ⟨id, hid, he⟩
      obtain ⟨d, hd, rfl⟩ := Option.map_eq_some_iff.mp he
      exact ⟨hid, hd⟩
    · rintro ⟨hid, he⟩
      exact ⟨e.1, hid, Option.map_eq_some_iff.mpr ⟨e.2, he, rfl⟩⟩
  have hnodup : (ids.filterMap entry).Nodup := by
    refine List.Nodup.filterMap (fun id id' e he he' => ?_) hids
    obtain ⟨d, -, rfl⟩ := Option.map_eq_some_iff.mp he
    obtain ⟨d', -, heq⟩ := Option.map_eq_some_iff.mp he'
    exact (congrArg Sigma.fst heq).symm
  have hperm : (ids.filterMap entry).Perm
      (c.documents.entries.filter fun e => decide (e.1 ∈ ids)) := by
    refine (List.perm_ext_iff_of_nodup hnodup (c.documents.nodupKeys.nodup.filter _)).mpr ?_
    intro e
    rw [hmem, List.mem_filter, decide_eq_true_eq, and_comm]
  have hdocs : ids.filterMap (fun id => c.documents.lookup id) =
      (ids.filterMap entry).map Sigma.snd := by
    rw [List.map_filterMap]
    refine congrArg (fun f => List.filterMap f ids) (funext fun id => ?_)
    rw [Option.map_map]
    exact Option.map_id'.symm
  rw [found, hdocs, List.filter_map, matchingEntries, List.filter_comm]
  exact (hperm.filter _).map _

/-- The candidates are the matching documents just if no index misses one. -/
theorem candidates_perm_iff (visits : Visits) :
    (c.candidates rt visits query).1.Perm (c.matching rt query) ↔ IndexesHave rt c query := by
  rw [candidates]
  cases hids : findIndexedCandidates query.filters c.indexes with
  | none =>
    refine iff_of_true ((visits.perm c.documents).filter _) ?_
    intro id d _ _ field value idx hfilter hidx
    have hnone := (foldl_narrow_eq_none_iff.mp hids).2 field value hfilter
    rw [hidx] at hnone
    cases hnone
  | some ids =>
    have hfound := @found_perm rt c query _ (visits.enumerates ids).1
    have hmem : ∀ id, id ∈ visits.ids ids ↔ ∀ field value idx,
        Filter.eq field value ∈ query.filters → indexOn c.indexes field = some idx →
          id ∈ idx.findEq value := by
      intro id
      rw [(visits.enumerates ids).2 id, mem_foldl_narrow_iff hids id]
      exact and_iff_right fun _ h => nomatch h
    have hall : IndexesHave rt c query ↔
        ∀ e ∈ matchingEntries rt c query, decide (e.1 ∈ visits.ids ids) = true := by
      constructor
      · intro h e he
        obtain ⟨hentry, hmatches⟩ := List.mem_filter.mp he
        exact decide_eq_true ((hmem e.1).mpr
          (h e.1 e.2 (AList.mem_lookup_iff.mpr hentry) hmatches))
      · intro h id d hd hmatches
        have he : ⟨id, d⟩ ∈ matchingEntries rt c query :=
          List.mem_filter.mpr ⟨AList.mem_lookup_iff.mp hd, hmatches⟩
        exact (hmem id).mp (of_decide_eq_true (h ⟨id, d⟩ he))
    rw [hall, ← List.length_filter_eq_length_iff, matching_eq]
    constructor
    · intro hperm
      have hlen := (hfound.symm.trans hperm).length_eq
      rwa [List.length_map, List.length_map] at hlen
    · intro hlen
      have hkept : ((matchingEntries rt c query).filter fun e => decide (e.1 ∈ visits.ids ids)) =
          matchingEntries rt c query := List.filter_sublist.eq_of_length hlen
      rwa [hkept] at hfound

end Collection

/-! ## Sorted windows -/

theorem SortSpec.preorders_cmp {spec : SortSpec} {docs : List Document}
    (h : Preorders compareOptionalValues (spec.values docs)) : Preorders spec.cmp docs := by
  have hcmp : spec.cmp = fun a b =>
      if spec.ascending then compareOptionalValues (a.get spec.field) (b.get spec.field)
      else (compareOptionalValues (a.get spec.field) (b.get spec.field)).swap := rfl
  rw [hcmp]
  cases spec.ascending with
  | true => exact h.on
  | false => exact h.on.reverse

theorem SortSpec.ordered_iff (spec : SortSpec) (docs : List Document) :
    spec.Ordered docs ↔ docs.Pairwise fun a b => (spec.cmp a b).isLE = true := by
  rw [SortSpec.Ordered]
  refine iff_of_eq (congrArg (fun R => docs.Pairwise R) (funext₂ fun a b => propext ?_))
  rw [SortSpec.cmp]
  cases spec.ascending with
  | true => rfl
  | false => rw [compareOptionalValues_swap (b.get spec.field)]; rfl

theorem exists_sortBy {query : Query} {spec : SortSpec} {docs : List Document}
    (hsort : query.sort = some spec)
    (h : Preorders compareOptionalValues (spec.values docs)) (sort : StableSort Document) :
    ∃ sorted, query.sortBy sort docs = some sorted ∧ sorted.Perm docs ∧ spec.Ordered sorted := by
  have hcmp := SortSpec.preorders_cmp h
  refine ⟨docs.mergeSort fun a b => (spec.cmp a b).isLE, ?_, List.mergeSort_perm _ _,
    (spec.ordered_iff _).mpr hcmp.orders.pairwise_mergeSort⟩
  rw [Query.sortBy, hsort]
  exact sort.stable _ _ hcmp

theorem findBy_of_sortBy {rt : Runtime} {c : Collection} {query : Query}
    {sort : StableSort Document} {visits : Visits} {docs : List Document}
    (h : query.sortBy sort (c.candidates rt visits query).1 = some docs) :
    c.findBy rt sort visits query = some
      { documents := query.project (query.slice docs)
        totalScanned := (c.candidates rt visits query).2 } := by
  rw [Collection.findBy]
  dsimp only
  rw [h]
  change some (QueryResult.mk (query.project (query.window docs)) _) = _
  rw [Collection.window_eq query docs]
  rfl

theorem findBy_eq_some_iff {rt : Runtime} {c : Collection} {query : Query}
    {sort : StableSort Document} {visits : Visits} {result : QueryResult}
    (h : c.findBy rt sort visits query = some result) :
    ∃ docs, query.sortBy sort (c.candidates rt visits query).1 = some docs ∧
      result.documents = query.project (query.slice docs) := by
  cases hdocs : query.sortBy sort (c.candidates rt visits query).1 with
  | some docs =>
    rw [findBy_of_sortBy hdocs] at h
    exact ⟨docs, rfl, (congrArg QueryResult.documents (Option.some.inj h)).symm⟩
  | none =>
    rw [Collection.findBy] at h
    dsimp only at h
    rw [hdocs] at h
    cases h

theorem perm_of_sortBy {query : Query} {sort : StableSort Document} {matching docs : List Document}
    (h : query.sortBy sort matching = some docs) : docs.Perm matching := by
  rw [Query.sortBy] at h
  cases hsort : query.sort with
  | none =>
    rw [hsort] at h
    rw [Option.some.inj h]
  | some spec =>
    rw [hsort] at h
    exact sort.perm _ _ _ h

/-- Hash tables may be visited in the order in which they are stored. -/
noncomputable def storedOrder : Visits where
  ids := Finset.toList
  documents := Table.values
  enumerates ids := ⟨ids.nodup_toList, fun _ => Finset.mem_toList⟩
  perm _ := List.Perm.refl _

/-- A query returns the windows of the sorted documents exactly if the values of the sort field are
coherent and no index misses a document that matches. -/
theorem sortsAsAsked_iff_coherent (rt : Runtime) (c : Collection) (query : Query) :
    SortsAsAsked rt c query ↔
      (∀ spec, query.sort = some spec → Coherent (spec.values (c.matching rt query))) ∧
        IndexesHave rt c query := by
  have hvalues : (∀ spec, query.sort = some spec →
      Preorders compareOptionalValues (spec.values (c.matching rt query))) ↔
        ∀ spec, query.sort = some spec → Coherent (spec.values (c.matching rt query)) :=
    forall₂_congr fun spec _ => preorders_iff _
  rw [SortsAsAsked, hvalues]
  refine and_congr_right fun hcoherent => ?_
  constructor
  · intro h
    obtain ⟨docs, hperm, -, hwindow⟩ := h StableSort.merge storedOrder
    obtain ⟨result, hresult, hdocuments⟩ := hwindow none none none
    obtain ⟨docs', hsorted, hdocuments'⟩ := findBy_eq_some_iff hresult
    -- without a window and a projection everything is returned
    have hsame : docs' = docs := hdocuments'.symm.trans hdocuments
    rw [hsame] at hsorted
    exact (Collection.candidates_perm_iff storedOrder).mp ((perm_of_sortBy hsorted).symm.trans hperm)
  · intro hindexes sort visits
    have hcandidates := (Collection.candidates_perm_iff visits).mpr hindexes
    cases hsort : query.sort with
    | none =>
      refine ⟨_, hcandidates, nofun, fun skip limit projection => ⟨_, findBy_of_sortBy ?_, rfl⟩⟩
      change query.sortBy sort (c.candidates rt visits query).1 = _
      rw [Query.sortBy, hsort]
    | some spec =>
      have hpreorders : Preorders compareOptionalValues
          (spec.values (c.candidates rt visits query).1) :=
        ((preorders_iff _).mpr (hcoherent spec hsort)).of_subset
          (hcandidates.map _).subset
      obtain ⟨docs, hdocs, hperm, hordered⟩ := exists_sortBy hsort hpreorders sort
      refine ⟨docs, hperm.trans hcandidates, fun spec' hspec => ?_,
        fun skip limit projection => ⟨_, findBy_of_sortBy hdocs, rfl⟩⟩
      rw [← Option.some.inj hspec]
      exact hordered

/-! ## Documents out of order -/

def documentWith (id : DocumentId) (value : Value) : Document :=
  ⟨id, [("n", value)]⟩

def mixedDocuments : List Document :=
  [documentWith "a" (.num (.int 0)), documentWith "b" (.str "x"), documentWith "c" (.str "x"),
    documentWith "d" (.num (.int 1))]

/-- The collection in which they are stored, the last in front. -/
def mixedCollection : Collection :=
  (Collection.new.insertMany Collection.asciiRuntime mixedDocuments).2

/-- A query for all documents in the order of the field. -/
def byNumber : Query :=
  ⟨[], some ⟨"n", true⟩, none, none, none⟩

theorem mergeSort_four {le : Document → Document → Bool} {a b c d : Document}
    (hab : le a b = true) (hcd : le c d = true) (hac : le a c = true) (hbc : le b c = true) :
    [a, b, c, d].mergeSort le = [a, b, c, d] := by
  simp [List.mergeSort, hab, hcd, hac, hbc]

/-- A text ties with two numbers that do not tie, and a sort leaves the greater number in front. -/
theorem mixedKinds_not_sorted :
    ¬ Preorders compareOptionalValues
        [some (.num (.int 1)), some (.str "x"), some (.num (.int 0))] ∧
      ¬ ∀ (c : Collection) (query : Query) (sort : StableSort Document) (visits : Visits),
        (Collection.calls Collection.asciiRuntime none).Reachable c →
        ∃ result docs, c.findBy Collection.asciiRuntime sort visits query = some result ∧
          docs.Perm (c.matching Collection.asciiRuntime query) ∧
          (∀ spec, query.sort = some spec → spec.Ordered docs) ∧
          result.documents = query.project (query.slice docs) := by
  constructor
  · intro h
    have hle := @Preorders.trans _ _ _ h (some (.num (.int 1))) (some (.str "x"))
      (some (.num (.int 0))) (.head _) (.tail _ (.head _)) (.tail _ (.tail _ (.head _))) rfl rfl
    exact absurd hle (by decide)
  · intro h
    have hreach : (Collection.calls Collection.asciiRuntime none).Reachable mixedCollection :=
      .step (a := .insertMany mixedDocuments) .init trivial rfl
    obtain ⟨result, docs, hresult, -, hordered, hdocs⟩ :=
      h mixedCollection byNumber StableSort.merge storedOrder hreach
    obtain ⟨docs', hsorted, hdocs'⟩ := findBy_eq_some_iff hresult
    obtain rfl : docs' = docs := hdocs'.symm.trans hdocs
    have hstored : (mixedCollection.candidates Collection.asciiRuntime storedOrder byNumber).1 =
        [documentWith "d" (.num (.int 1)), documentWith "c" (.str "x"),
          documentWith "b" (.str "x"), documentWith "a" (.num (.int 0))] := rfl
    have hkept : docs' = _ := (Option.some.inj hsorted).symm
    rw [hstored, mergeSort_four (by decide +kernel) (by decide +kernel) (by decide +kernel)
      (by decide +kernel)] at hkept
    have hbyField := hordered ⟨"n", true⟩ rfl
    rw [hkept, SortSpec.Ordered] at hbyField
    revert hbyField
    decide +kernel

end Documents

end AegisDB
