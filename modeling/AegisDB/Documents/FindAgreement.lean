import AegisDB.Documents.Collection
import AegisDB.Library.SortedPrefix

/-!
# Queries with and without indexes

A query may use indexes to find candidates, which are then filtered as in a scan of all documents.
So nothing is found that a scan would not find, and a document is missed if an index does not have
it under the key of the filter: when an update has put it under an id that is not its own, and when
it has a zero of the other sign.  Which documents are left by `skip` and `limit` depends on the
order in which they are visited, unless the sort decides (`find_agrees`).
-/

namespace AegisDB

namespace Documents

namespace Collection

variable {rt : Runtime} {c : Collection} {query : Query}

/-! ## Indexes in step with the documents -/

/-- An index has under each key the documents with that key. -/
def Files (documents : Table DocumentId Document) (idx : DocumentIndex) : Prop :=
  ∀ id key, id ∈ under idx.hashIndex key ↔
    ∃ d, documents.lookup id = some d ∧
      ∃ v, d.get idx.field = some v ∧ IndexKey.fromValue v = key

/-- Every document is stored under its own id, and every index for equality has it. -/
structure Indexed (c : Collection) : Prop where
  ownId : ∀ id d, c.documents.lookup id = some d → d.id = id
  files : ∀ idx ∈ c.indexes, idx.isKeyed = true → Files c.documents idx

@[simp] theorem isKeyed_indexDocument (idx : DocumentIndex) (doc : Document) :
    (idx.indexDocument rt doc).isKeyed = idx.isKeyed := by
  rw [DocumentIndex.isKeyed, DocumentIndex.isKeyed, DocumentIndex.indexType_indexDocument]

@[simp] theorem isKeyed_unindexDocument (idx : DocumentIndex) (doc : Document) :
    (idx.unindexDocument rt doc).isKeyed = idx.isKeyed := by
  rw [DocumentIndex.isKeyed, DocumentIndex.isKeyed, DocumentIndex.indexType_unindexDocument]

theorem Files.insert {documents : Table DocumentId Document} {idx : DocumentIndex}
    (h : Files documents idx) (hkeyed : idx.isKeyed = true) {doc : Document}
    (hfresh : documents.lookup doc.id = none) :
    Files (documents.insert doc.id doc) (idx.indexDocument rt doc) := by
  intro id key
  rw [DocumentIndex.mem_under_indexDocument hkeyed, h id key,
    DocumentIndex.field_indexDocument, Table.lookup_insert]
  split_ifs with hid
  · rw [hid, hfresh]
    simp
  · simp [hid]

theorem Files.erase {documents : Table DocumentId Document} {idx : DocumentIndex}
    (h : Files documents idx) (hkeyed : idx.isKeyed = true) {doc : Document}
    (hstored : documents.lookup doc.id = some doc) :
    Files (documents.erase doc.id) (idx.unindexDocument rt doc) := by
  intro id key
  rw [DocumentIndex.mem_under_unindexDocument hkeyed, h id key,
    DocumentIndex.field_unindexDocument, Table.lookup_erase]
  split_ifs with hid
  · rw [hid, hstored]
    simp
  · simp [hid]

theorem Files.congr {documents documents' : Table DocumentId Document} {idx : DocumentIndex}
    (h : Files documents idx) (hsame : ∀ id, documents'.lookup id = documents.lookup id) :
    Files documents' idx := by
  intro id key
  rw [hsame id]
  exact h id key

theorem files_createIndex (hown : ∀ id d, c.documents.lookup id = some d → d.id = id)
    {field : String} {indexType : IndexType} {idx : DocumentIndex}
    (hidx : idx = c.documents.values.foldl (fun index doc => index.indexDocument rt doc)
      (DocumentIndex.new field indexType)) (hkeyed : idx.isKeyed = true) :
    Files c.documents idx := by
  -- what the index has after some documents
  have hfold (l : List Document) (init : DocumentIndex) (hinit : init.isKeyed = true)
      (id : DocumentId) (key : IndexKey) :
      id ∈ under (l.foldl (fun index doc => index.indexDocument rt doc) init).hashIndex key ↔
        id ∈ under init.hashIndex key ∨ ∃ d ∈ l, d.id = id ∧
          ∃ v, d.get init.field = some v ∧ IndexKey.fromValue v = key := by
    induction l generalizing init with
    | nil => simp
    | cons doc l ih =>
      rw [List.foldl_cons, ih _ ((isKeyed_indexDocument init doc).trans hinit),
        DocumentIndex.mem_under_indexDocument hinit, DocumentIndex.field_indexDocument, or_assoc,
        List.exists_mem_cons_iff, eq_comm (a := id)]
  obtain ⟨hfield, htype⟩ := @foldl_indexDocument rt c.documents.values
    (DocumentIndex.new field indexType)
  rw [← hidx] at hfield htype
  have hnew : (DocumentIndex.new field indexType).isKeyed = true := by
    rw [DocumentIndex.isKeyed, htype] at hkeyed
    exact hkeyed
  have hnone (id : DocumentId) (key : IndexKey) :
      id ∉ under (DocumentIndex.new field indexType).hashIndex key :=
    Finset.notMem_empty id
  intro id key
  rw [hidx, hfold _ _ hnew id key, or_iff_right (hnone id key), ← hidx, hfield]
  constructor
  · rintro ⟨d, hd, rfl, hv⟩
    obtain ⟨id, hid⟩ := Table.mem_values.mp hd
    exact ⟨d, (hown id d hid).symm ▸ hid, hv⟩
  · rintro ⟨d, hd, hv⟩
    exact ⟨d, Table.mem_values.mpr ⟨id, hd⟩, hown id d hd, hv⟩

/-! ## Runs that keep ids -/

/-- An update that succeeds has a document with the id that it is for. -/
def KeepsIds (rt : Runtime) (c : Collection) : Call → Prop
  | .update id doc => c.Accepts rt doc → id ∈ c.documents → doc.id = id
  | _ => True

theorem Indexed.insert (h : Indexed c) (doc : Document) : Indexed (c.insert rt doc).2 := by
  by_cases hrejects : c.Rejects rt doc
  · obtain ⟨e, he⟩ := insert_of_rejects hrejects
    rw [he]
    exact h
  · rw [insert_of_not_rejects hrejects]
    have hfresh : c.documents.lookup doc.id = none :=
      AList.lookup_eq_none.mpr (not_or.mp hrejects).2
    constructor
    · intro id d hd
      change (c.documents.insert doc.id doc).lookup id = some d at hd
      rw [Table.lookup_insert] at hd
      split_ifs at hd with hid
      · rw [hid, Option.some.inj hd]
      · exact h.ownId id d hd
    · intro idx hidx hkeyed
      obtain ⟨old, hold, rfl⟩ := List.mem_map.mp hidx
      rw [isKeyed_indexDocument] at hkeyed
      exact (h.files old hold hkeyed).insert hkeyed hfresh

theorem Indexed.update (h : Indexed c) {id : DocumentId} {doc : Document}
    (hkeeps : c.Accepts rt doc → id ∈ c.documents → doc.id = id) :
    Indexed (c.update rt id doc).2 := by
  by_cases haccepts : c.Accepts rt doc
  · cases hold : c.documents.lookup id with
    | none =>
      obtain ⟨e, he⟩ := @update_of_fails rt c doc id (Or.inr hold)
      rw [he]
      exact h
    | some oldDoc =>
      have hmem : id ∈ c.documents := AList.lookup_isSome.mp (hold ▸ rfl)
      obtain rfl := hkeeps haccepts hmem
      have holdId : oldDoc.id = doc.id := h.ownId _ _ hold
      rw [update_of_accepts haccepts hold]
      constructor
      · intro id d hd
        change (c.documents.insert doc.id doc).lookup id = some d at hd
        rw [Table.lookup_insert] at hd
        split_ifs at hd with hid
        · rw [hid, Option.some.inj hd]
        · exact h.ownId id d hd
      · intro idx hidx hkeyed
        obtain ⟨removed, hremoved, rfl⟩ := List.mem_map.mp hidx
        obtain ⟨old, hmemOld, rfl⟩ := List.mem_map.mp hremoved
        rw [isKeyed_indexDocument] at hkeyed
        have hkeyedOld := hkeyed
        rw [isKeyed_unindexDocument] at hkeyedOld
        have herased : Files (c.documents.erase oldDoc.id) (old.unindexDocument rt oldDoc) :=
          (h.files old hmemOld hkeyedOld).erase hkeyedOld (holdId.symm ▸ hold)
        rw [holdId] at herased
        refine (herased.insert hkeyed (AList.lookup_erase doc.id c.documents)).congr fun id => ?_
        change (c.documents.insert doc.id doc).lookup id = _
        rw [Table.lookup_insert, Table.lookup_insert, Table.lookup_erase]
        split_ifs <;> rfl
  · obtain ⟨e, he⟩ := @update_of_fails rt c doc id (Or.inl haccepts)
    rw [he]
    exact h

theorem Indexed.delete (h : Indexed c) (id : DocumentId) : Indexed (c.delete rt id).2 := by
  rw [Collection.delete]
  cases hold : c.documents.lookup id with
  | none => exact h
  | some doc =>
    obtain rfl := h.ownId id doc hold
    constructor
    · intro id d hd
      exact h.ownId id d (Table.lookup_of_lookup_erase hd)
    · intro idx hidx hkeyed
      obtain ⟨old, hmem, rfl⟩ := List.mem_map.mp hidx
      rw [isKeyed_unindexDocument] at hkeyed
      exact (h.files old hmem hkeyed).erase hkeyed hold

/-- In a run that keeps ids every index is in step with the documents. -/
theorem indexed_of_reach {schema : Option Schema} (h : (calls rt schema).Reach (KeepsIds rt) c) :
    Indexed c := by
  refine h.invariant ⟨fun _ _ hd => (nomatch hd), fun _ hidx => (nomatch hidx)⟩ ?_
  intro c a c' _ hc hkeeps hstep
  obtain rfl := Option.some.inj hstep
  cases a with
  | insert doc => exact hc.insert doc
  | insertMany docs => exact insertMany_induction (fun _ doc hc => hc.insert doc) docs hc
  | update id doc => exact hc.update hkeeps
  | delete id => exact hc.delete id
  | createIndex field indexType =>
    refine ⟨hc.ownId, fun idx hidx hkeyed => ?_⟩
    rcases List.mem_append.mp hidx with hidx | hidx
    · exact hc.files idx hidx hkeyed
    · exact files_createIndex hc.ownId (List.mem_singleton.mp hidx) hkeyed
  | dropIndex field =>
    exact ⟨hc.ownId, fun idx hidx => hc.files idx (List.mem_filter.mp hidx).1⟩
  | setSchema schema => exact ⟨hc.ownId, hc.files⟩

/-! ## Candidates -/

/-- The query has an equality on an indexed field. -/
def UsesIndex (c : Collection) (query : Query) : Prop :=
  ∃ field value, Filter.eq field value ∈ query.filters ∧ (indexOn c.indexes field).isSome = true

/-- A document that matches the query has, in an indexed field, the zero of the other sign than an
equality asks for. -/
def MissesZero (rt : Runtime) (c : Collection) (query : Query) : Prop :=
  ∃ id d, c.documents.lookup id = some d ∧ query.matches rt d = true ∧
    ∃ field value, Filter.eq field value ∈ query.filters ∧
      (indexOn c.indexes field).isSome = true ∧
      ∃ v, d.get field = some v ∧ OtherZero v value

theorem narrow_eq_none_iff {indexes : List DocumentIndex} {r : Option (Finset DocumentId)}
    {f : Filter} : narrow indexes r f = none ↔
      r = none ∧ ∀ field value, f = .eq field value → (indexOn indexes field).isSome = false := by
  cases f with
  | eq field value =>
    rw [narrow]
    cases hidx : indexOn indexes field with
    | none => simp [hidx]
    | some idx => cases r <;> simp [hidx]
  | _ => simp [narrow]

theorem mem_narrow_iff {indexes : List DocumentIndex} {r : Option (Finset DocumentId)} {f : Filter}
    {ids : Finset DocumentId} (h : narrow indexes r f = some ids) (id : DocumentId) :
    id ∈ ids ↔ (∀ current, r = some current → id ∈ current) ∧
      ∀ field value idx, f = .eq field value → indexOn indexes field = some idx →
        id ∈ idx.findEq value := by
  cases f with
  | eq field value =>
    have hfilter : (∀ field' value' idx, Filter.eq field value = .eq field' value' →
        indexOn indexes field' = some idx → id ∈ idx.findEq value') ↔
          ∀ idx, indexOn indexes field = some idx → id ∈ idx.findEq value := by
      refine ⟨fun h idx => h field value idx rfl, fun h field' value' idx heq => ?_⟩
      cases heq
      exact h idx
    rw [hfilter]
    rw [narrow] at h
    cases hidx : indexOn indexes field with
    | none =>
      rw [hidx] at h
      change r = some ids at h
      simp [h]
    | some idx =>
      rw [hidx] at h
      cases r with
      | none =>
        obtain rfl := Option.some.inj h
        simp
      | some current =>
        obtain rfl := Option.some.inj h
        simp
  | _ =>
    change r = some ids at h
    simp [h]

/-- All documents are scanned just if no filter has an index. -/
theorem foldl_narrow_eq_none_iff {indexes : List DocumentIndex} {r : Option (Finset DocumentId)}
    {filters : List Filter} : filters.foldl (narrow indexes) r = none ↔
      r = none ∧ ∀ field value, Filter.eq field value ∈ filters →
        (indexOn indexes field).isSome = false := by
  induction filters generalizing r with
  | nil => simp
  | cons f filters ih =>
    rw [List.foldl_cons, ih, narrow_eq_none_iff, and_assoc]
    refine and_congr_right fun _ => ?_
    constructor
    · rintro ⟨hf, hrest⟩ field value hmem
      rcases List.mem_cons.mp hmem with heq | hmem
      · exact hf field value heq.symm
      · exact hrest field value hmem
    · intro h
      exact ⟨fun field value heq => h field value (List.mem_cons.mpr (Or.inl heq.symm)),
        fun field value hmem => h field value (List.mem_cons_of_mem f hmem)⟩

/-- The candidates are what the indexes of all filters have. -/
theorem mem_foldl_narrow_iff {indexes : List DocumentIndex} {r : Option (Finset DocumentId)}
    {filters : List Filter} {ids : Finset DocumentId}
    (h : filters.foldl (narrow indexes) r = some ids) (id : DocumentId) :
    id ∈ ids ↔ (∀ current, r = some current → id ∈ current) ∧
      ∀ field value idx, Filter.eq field value ∈ filters → indexOn indexes field = some idx →
        id ∈ idx.findEq value := by
  induction filters generalizing r with
  | nil =>
    change r = some ids at h
    simp [h]
  | cons f filters ih =>
    rw [List.foldl_cons] at h
    rw [ih h]
    -- the candidates after the first filter
    have hfirst : (∀ current, narrow indexes r f = some current → id ∈ current) ↔
        (∀ current, r = some current → id ∈ current) ∧
          ∀ field value idx, f = .eq field value → indexOn indexes field = some idx →
            id ∈ idx.findEq value := by
      cases hnarrow : narrow indexes r f with
      | none =>
        obtain ⟨hr, hno⟩ := narrow_eq_none_iff.mp hnarrow
        refine iff_of_true (fun _ heq => nomatch heq) ⟨fun _ heq => ?_, ?_⟩
        · rw [hr] at heq
          cases heq
        · intro field value idx heq hidx
          have hnone := hno field value heq
          rw [hidx] at hnone
          cases hnone
      | some current =>
        rw [← mem_narrow_iff hnarrow id]
        exact ⟨fun h => h current rfl, fun h _ heq => Option.some.inj heq ▸ h⟩
    rw [hfirst, and_assoc]
    refine and_congr_right fun _ => ?_
    constructor
    · rintro ⟨hf, hrest⟩ field value idx hmem hidx
      rcases List.mem_cons.mp hmem with heq | hmem
      · exact hf field value idx heq.symm hidx
      · exact hrest field value idx hmem hidx
    · intro h
      exact ⟨fun field value idx heq => h field value idx (List.mem_cons.mpr (Or.inl heq.symm)),
        fun field value idx hmem => h field value idx (List.mem_cons_of_mem f hmem)⟩

theorem indexOn_spec {indexes : List DocumentIndex} {field : String} {idx : DocumentIndex}
    (h : indexOn indexes field = some idx) :
    idx ∈ indexes ∧ idx.field = field ∧ idx.isKeyed = true := by
  have hfound : (decide (idx.field = field) && idx.isKeyed) = true :=
    List.find?_some (p := fun idx : DocumentIndex => decide (idx.field = field) && idx.isKeyed) h
  obtain ⟨hfield, hkeyed⟩ := Bool.and_eq_true_iff.mp hfound
  exact ⟨List.mem_of_find?_eq_some h, of_decide_eq_true hfield, hkeyed⟩

/-- A document that matches the query is a candidate if no index misses it. -/
theorem mem_candidates_iff (hc : Indexed c) {ids : Finset DocumentId}
    (hids : findIndexedCandidates query.filters c.indexes = some ids) :
    (∀ id d, c.documents.lookup id = some d → query.matches rt d = true → id ∈ ids) ↔
      ¬ MissesZero rt c query := by
  -- one filter that the document matches
  have hone (id : DocumentId) (d : Document) (hd : c.documents.lookup id = some d)
      (hmatches : query.matches rt d = true) (field : String) (value : Value)
      (hmem : Filter.eq field value ∈ query.filters) (idx : DocumentIndex)
      (hidx : indexOn c.indexes field = some idx) :
      ∃ v, d.get field = some v ∧ (id ∈ idx.findEq value ↔ ¬ OtherZero v value) := by
    have hfilter : (Filter.eq field value).matches rt d = true :=
      List.all_eq_true.mp hmatches _ hmem
    rw [Filter.matches] at hfilter
    cases hv : d.get field with
    | none =>
      rw [hv] at hfilter
      cases hfilter
    | some v =>
      rw [hv] at hfilter
      obtain ⟨hin, rfl, hkeyed⟩ := indexOn_spec hidx
      refine ⟨v, rfl, ?_⟩
      rw [← fromValue_eq_iff hfilter, DocumentIndex.findEq, hc.files idx hin hkeyed]
      constructor
      · rintro ⟨d', hd', v', hv', hkey⟩
        rw [hd] at hd'
        obtain rfl := Option.some.inj hd'
        rw [hv] at hv'
        obtain rfl := Option.some.inj hv'
        exact hkey
      · exact fun hkey => ⟨d, hd, v, hv, hkey⟩
  constructor
  · rintro hall ⟨id, d, hd, hmatches, field, value, hmem, hsome, v, hv, hother⟩
    obtain ⟨idx, hidx⟩ := Option.isSome_iff_exists.mp hsome
    obtain ⟨v', hv', hiff⟩ := hone id d hd hmatches field value hmem idx hidx
    rw [hv] at hv'
    obtain rfl := Option.some.inj hv'
    have hin := (mem_foldl_narrow_iff hids id).mp (hall id d hd hmatches)
    exact hiff.mp (hin.2 field value idx hmem hidx) hother
  · intro hno id d hd hmatches
    rw [mem_foldl_narrow_iff hids id]
    refine ⟨fun _ h => (nomatch h), fun field value idx hmem hidx => ?_⟩
    obtain ⟨v, hv, hiff⟩ := hone id d hd hmatches field value hmem idx hidx
    refine hiff.mpr fun hother => hno ?_
    exact ⟨id, d, hd, hmatches, field, value, hmem, hidx ▸ rfl, v, hv, hother⟩

/-! ## Windows -/

/-- The documents that match a query, in the order of the scan. -/
def matching (rt : Runtime) (c : Collection) (query : Query) : List Document :=
  c.documents.values.filter (query.matches rt)

def fullScan (rt : Runtime) (c : Collection) (query : Query) : List Document :=
  query.finish (matching rt c query)

/-- The sort decides which `k` documents come first: none, all, or some that the sort puts before
all others. -/
def FirstDecided (query : Query) (docs : List Document) (k : ℕ) : Prop :=
  ∃ front rest, docs.Perm (front ++ rest) ∧ front.length = min k docs.length ∧
    (front = [] ∨ rest = [] ∨ ∃ sort, query.sort = some sort ∧
      SortedPrefix.Orders (fun a b => sort.cmp a b != .gt) docs ∧
      ∀ a ∈ front, ∀ b ∈ rest, sort.cmp b a = .gt)

/-- The sort decides where the window of the query begins and ends. -/
def WindowDecided (query : Query) (docs : List Document) : Prop :=
  FirstDecided query docs (query.skip.getD 0) ∧
    ∀ limit, query.limit = some limit →
      FirstDecided query docs (query.skip.getD 0 + limit)

theorem sorted_perm (query : Query) (docs : List Document) : (query.sorted docs).Perm docs := by
  rw [Query.sorted]
  cases query.sort with
  | none => exact List.Perm.refl _
  | some sort => exact List.mergeSort_perm _ _

/-- The documents in front are the same for any order of the documents before the sort. -/
theorem FirstDecided.take_perm {docs docs' : List Document} {k : ℕ}
    (h : FirstDecided query docs k) (hp : docs'.Perm docs) :
    ((query.sorted docs').take k).Perm ((query.sorted docs).take k) := by
  obtain ⟨front, rest, hsplit, hlen, hcases⟩ := h
  have hsorted : (query.sorted docs').Perm (query.sorted docs) :=
    (sorted_perm query docs').trans (hp.trans (sorted_perm query docs).symm)
  have hlength : (query.sorted docs).length = docs.length := (sorted_perm query docs).length_eq
  rcases hcases with rfl | rfl | ⟨sort, hsort, horders, hbefore⟩
  · -- nothing is in front
    rcases Nat.min_eq_zero_iff.mp hlen.symm with rfl | hzero
    · rw [List.take_zero, List.take_zero]
    · rw [List.length_eq_zero_iff.mp (hlength.trans hzero)] at hsorted ⊢
      rw [List.perm_nil.mp hsorted]
  · -- everything is
    have hle : docs.length ≤ k := by
      have hfull := hsplit.length_eq
      rw [List.append_nil] at hfull
      omega
    rw [List.take_of_length_le (hlength.le.trans hle),
      List.take_of_length_le ((hsorted.length_eq.trans hlength).le.trans hle)]
    exact hsorted
  · have hfront (l : List Document) (hl : l.Perm docs) : ((query.sorted l).take k).Perm front := by
      have hlen' : (query.sorted l).length = docs.length :=
        ((sorted_perm query l).trans hl).length_eq
      have htake : (query.sorted l).take k = (query.sorted l).take front.length := by
        rw [hlen, ← hlen', List.take_eq_take_min]
      rw [htake, Query.sorted, hsort]
      refine SortedPrefix.take_mergeSort_perm (horders.of_perm hl) (hl.trans hsplit) ?_
      intro a ha b hb
      rw [hbefore a ha b hb]
      rfl
    exact (hfront docs' hp).trans (hfront docs (List.Perm.refl _)).symm

theorem window_eq (query : Query) (docs : List Document) :
    query.window docs = match query.limit with
      | some limit => (docs.drop (query.skip.getD 0)).take limit
      | none => docs.drop (query.skip.getD 0) := by
  have hdrop (skip : ℕ) : (if skip < docs.length then docs.drop skip else []) = docs.drop skip := by
    split_ifs with hlt
    · rfl
    · rw [List.drop_eq_nil_of_le (Nat.not_lt.mp hlt)]
  rw [Query.window]
  cases query.skip with
  | none => rfl
  | some skip =>
    simp only [hdrop]
    rfl

theorem WindowDecided.finish_perm {docs docs' : List Document} (h : WindowDecided query docs)
    (hp : docs'.Perm docs) : (query.finish docs').Perm (query.finish docs) := by
  have hsorted : (query.sorted docs').Perm (query.sorted docs) :=
    (sorted_perm query docs').trans (hp.trans (sorted_perm query docs).symm)
  have hwindow : (query.window (query.sorted docs')).Perm (query.window (query.sorted docs)) := by
    rw [window_eq, window_eq]
    have hbegin := h.1.take_perm hp
    cases hlimit : query.limit with
    | none => exact SortedPrefix.drop_perm hsorted hbegin
    | some limit => exact SortedPrefix.window_perm hbegin ((h.2 limit hlimit).take_perm hp)
  rw [Query.finish, Query.finish, Query.project, Query.project]
  cases query.projection with
  | none => exact hwindow
  | some fields => exact hwindow.map _

theorem length_finish {docs : List Document} (hskip : query.skip = none)
    (hlimit : query.limit = none) : (query.finish docs).length = docs.length := by
  have hlen : (query.project (query.sorted docs)).length = docs.length := by
    rw [Query.project]
    cases query.projection with
    | none => exact (sorted_perm query docs).length_eq
    | some fields => rw [List.length_map, (sorted_perm query docs).length_eq]
  rw [Query.finish, Query.window, hskip, hlimit]
  exact hlen

theorem windowDecided_of_none {docs : List Document} (hskip : query.skip = none)
    (hlimit : query.limit = none) : WindowDecided query docs := by
  constructor
  · rw [hskip]
    exact ⟨[], docs, List.Perm.refl _, by simp, Or.inl rfl⟩
  · intro limit h
    rw [hlimit] at h
    cases h

/-! ## Agreement -/

def found (rt : Runtime) (c : Collection) (query : Query) (ids : List DocumentId) :
    List Document :=
  (ids.filterMap fun id => c.documents.lookup id).filter (query.matches rt)

theorem nodup_values (hc : Indexed c) : c.documents.values.Nodup := by
  rw [Table.values]
  refine List.Nodup.map_on (fun e he e' he' hsame => ?_) c.documents.nodupKeys.nodup
  obtain ⟨id, d⟩ := e
  obtain ⟨id', d'⟩ := e'
  obtain rfl : d = d' := hsame
  have hid : d.id = id := hc.ownId id d (AList.mem_lookup_iff.mpr he)
  have hid' : d.id = id' := hc.ownId id' d (AList.mem_lookup_iff.mpr he')
  rw [← hid, ← hid']

theorem nodup_found (hc : Indexed c) {ids : List DocumentId} (hids : ids.Nodup) :
    (found rt c query ids).Nodup := by
  refine List.Nodup.filter _ (List.Nodup.filterMap (fun id id' d hd hd' => ?_) hids)
  rw [← hc.ownId id d hd, ← hc.ownId id' d hd']

theorem mem_found {ids : List DocumentId} {d : Document} :
    d ∈ found rt c query ids ↔
      (∃ id ∈ ids, c.documents.lookup id = some d) ∧ query.matches rt d = true := by
  rw [found, List.mem_filter, List.mem_filterMap]

theorem mem_matching {d : Document} :
    d ∈ matching rt c query ↔
      (∃ id, c.documents.lookup id = some d) ∧ query.matches rt d = true := by
  rw [matching, List.mem_filter, Table.mem_values]

theorem found_perm_iff (hc : Indexed c) {ids : List DocumentId} (hids : ids.Nodup) :
    (found rt c query ids).Perm (matching rt c query) ↔
      ∀ id d, c.documents.lookup id = some d → query.matches rt d = true → id ∈ ids := by
  have hmatching : (matching rt c query).Nodup := (nodup_values hc).filter _
  rw [List.perm_ext_iff_of_nodup (nodup_found hc hids) hmatching]
  constructor
  · intro h id d hd hmatches
    obtain ⟨⟨id', hid', hd'⟩, _⟩ := mem_found.mp ((h d).mpr (mem_matching.mpr ⟨⟨id, hd⟩, hmatches⟩))
    rw [← hc.ownId id d hd, hc.ownId id' d hd']
    exact hid'
  · intro h d
    rw [mem_found]
    refine (and_congr_left fun hmatches => ?_).trans mem_matching.symm
    exact ⟨fun ⟨id, _, hd⟩ => ⟨id, hd⟩, fun ⟨id, hd⟩ => ⟨id, h id d hd hmatches, hd⟩⟩

/-- In a run in which updates keep ids, a query without a window finds what a scan finds if and only
if no index misses a zero.  Any other query does where it uses no index, and where no index misses
a zero and the sort decides the window. -/
theorem find_agrees {schema : Option Schema} (h : (calls rt schema).Reach (KeepsIds rt) c)
    (query : Query) :
    (query.skip = none → query.limit = none →
      ((∀ order, Enumerates order → (c.find rt order query).documents.Perm (c.fullScan rt query)) ↔
        ¬ MissesZero rt c query)) ∧
    (¬ UsesIndex c query ∨
        (¬ MissesZero rt c query ∧ WindowDecided query (matching rt c query)) →
      ∀ order, Enumerates order →
        (c.find rt order query).documents.Perm (c.fullScan rt query)) := by
  have hc : Indexed c := indexed_of_reach h
  cases hids : findIndexedCandidates query.filters c.indexes with
  | none =>
    -- all documents are scanned
    have hfind (order : Finset DocumentId → List DocumentId) :
        (c.find rt order query).documents = c.fullScan rt query := by
      rw [find, hids]
      rfl
    refine ⟨fun _ _ => iff_of_true (fun order _ => (hfind order) ▸ List.Perm.refl _) ?_,
      fun _ order _ => (hfind order) ▸ List.Perm.refl _⟩
    rintro ⟨_, _, _, _, field, value, hmem, hsome, _⟩
    rw [(foldl_narrow_eq_none_iff.mp hids).2 field value hmem] at hsome
    cases hsome
  | some ids =>
    have hfind (order : Finset DocumentId → List DocumentId) :
        (c.find rt order query).documents = query.finish (found rt c query (order ids)) := by
      rw [find, hids]
      rfl
    have huses : UsesIndex c query := by
      by_contra hno
      have hnone : findIndexedCandidates query.filters c.indexes = none :=
        foldl_narrow_eq_none_iff.mpr ⟨rfl, fun field value hmem =>
          Bool.eq_false_iff.mpr fun hsome => hno ⟨field, value, hmem, hsome⟩⟩
      rw [hids] at hnone
      cases hnone
    have hperm (order : Finset DocumentId → List DocumentId) (horder : Enumerates order) :
        (found rt c query (order ids)).Perm (matching rt c query) ↔ ¬ MissesZero rt c query := by
      rw [found_perm_iff hc (horder ids).1, ← mem_candidates_iff hc hids]
      simp only [(horder ids).2]
    constructor
    · intro hskip hlimit
      constructor
      · intro hall
        have horder : Enumerates Finset.toList :=
          fun s => ⟨s.nodup_toList, fun id => Finset.mem_toList⟩
        have hlen := (hall _ horder).length_eq
        rw [hfind, fullScan, length_finish hskip hlimit, length_finish hskip hlimit] at hlen
        have hsub : found rt c query (Finset.toList ids) ⊆ matching rt c query := by
          intro d hd
          obtain ⟨⟨id, _, hid⟩, hmatches⟩ := mem_found.mp hd
          exact mem_matching.mpr ⟨⟨id, hid⟩, hmatches⟩
        have hsubperm : (found rt c query (Finset.toList ids)).Subperm (matching rt c query) :=
          (nodup_found hc (horder ids).1).subperm hsub
        exact (hperm _ horder).mp (hsubperm.perm_of_length_le hlen.ge)
      · intro hno order horder
        rw [hfind]
        exact (windowDecided_of_none hskip hlimit).finish_perm ((hperm order horder).mpr hno)
    · rintro (hno | ⟨hno, hwindow⟩) order horder
      · exact absurd huses hno
      · rw [hfind]
        exact hwindow.finish_perm ((hperm order horder).mpr hno)

/-! ## A zero that is missed -/

def zeroDocument : Document :=
  ⟨"a", [("n", .num (.float ⟨0x8000000000000000⟩))]⟩

/-- A collection with an index on the field of the zero. -/
def zeroCollection : Collection :=
  ((Collection.createIndex asciiRuntime new "n" .hash).insert asciiRuntime zeroDocument).2

def zeroQuery : Query :=
  ⟨[.eq "n" (.num (.float ⟨0⟩))], none, none, none, none⟩

theorem zeroCollection_reach {Φ : Collection → Call → Prop}
    (hindex : ∀ c, Φ c (.createIndex "n" .hash)) (hinsert : ∀ c, Φ c (.insert zeroDocument)) :
    (calls asciiRuntime none).Reach Φ zeroCollection :=
  .step (.step .init (hindex _) rfl) (hinsert _) rfl

theorem find_agrees_zero :
    (zeroQuery.skip = none → zeroQuery.limit = none →
      ((∀ order, Enumerates order → (zeroCollection.find asciiRuntime order
        zeroQuery).documents.Perm (zeroCollection.fullScan asciiRuntime zeroQuery)) ↔
        ¬ MissesZero asciiRuntime zeroCollection zeroQuery)) ∧
    (¬ UsesIndex zeroCollection zeroQuery ∨
        (¬ MissesZero asciiRuntime zeroCollection zeroQuery ∧
          WindowDecided zeroQuery (matching asciiRuntime zeroCollection zeroQuery)) →
      ∀ order, Enumerates order → (zeroCollection.find asciiRuntime order
        zeroQuery).documents.Perm (zeroCollection.fullScan asciiRuntime zeroQuery)) :=
  find_agrees (zeroCollection_reach (fun _ => trivial) fun _ => trivial) zeroQuery

/-- A scan finds the negative zero, which equals the positive one; the index does not have it. -/
theorem find_misses_zero : (calls asciiRuntime none).Reachable zeroCollection ∧
    ∀ order, Enumerates order → (zeroCollection.find asciiRuntime order zeroQuery).documents = [] ∧
      (zeroCollection.fullScan asciiRuntime zeroQuery).length = 1 := by
  refine ⟨zeroCollection_reach (fun _ => trivial) fun _ => trivial, fun order horder => ⟨?_, ?_⟩⟩
  · have hids : findIndexedCandidates zeroQuery.filters zeroCollection.indexes = some ∅ := by
      decide +kernel
    have hnone : order ∅ = [] :=
      List.eq_nil_iff_forall_not_mem.mpr fun id hid =>
        Finset.notMem_empty id (((horder ∅).2 id).mp hid)
    rw [find, hids]
    dsimp only
    rw [hnone]
    rfl
  · decide +kernel

end Collection

end Documents

end AegisDB
