import AegisDB.FullText.Consistency
import AegisDB.FullText.Engine
import AegisDB.Library.Transition

/-!
# Runs of a full-text index

Documents are inserted under names, replaced and deleted.  After each operation the inverted index
agrees with one that is built afresh from the current documents, and a search finds just those that
share a token with the query, as long as numbers of documents and of tokens fit into 32 bits.
-/

namespace AegisDB.FullText

variable {ν : Type}

/-- An operation. -/
inductive IndexOp (ν : Type) where
  | upsert (id text : String) (metadata : Json ν)
  | delete (id : String)

/-- An index, and the documents that were inserted and not deleted since, by their names. -/
structure IndexRun (ν : Type) where
  index : Index ν := {}
  documents : Table String (String × Json ν) := ∅

def place (docs : List (Option (StoredDoc ν))) (doc : ℕ) : Option (StoredDoc ν) :=
  docs[doc]?.join

/-- The inverted index that is built afresh from the documents at their places. -/
def rebuilt (letters : Letters) (docs : List (Option (StoredDoc ν))) : InvertedIndex :=
  docs.zipIdx.foldl (fun index e =>
    match e.1 with
    | some d => index.add e.2 (tokenize letters d.text)
    | none => index) {}

namespace IndexRun

variable (letters : Letters)

/-- An operation, unless it looks for a place that is not there. -/
def op (run : IndexRun ν) : IndexOp ν → Option (IndexRun ν)
  | .upsert id text metadata =>
    (run.index.upsert letters id text metadata).map fun index =>
      { index, documents := run.documents.insert id (text, metadata) }
  | .delete id =>
    (run.index.delete id).map fun r => { index := r.2, documents := run.documents.erase id }

/-- The runs of an index that is empty at first. -/
def system : System (IndexRun ν) (IndexOp ν) where
  init := {}
  step := op letters

/-- The number of a new document, and the number of its tokens, fit into 32 bits. -/
def Fits (run : IndexRun ν) : IndexOp ν → Prop
  | .upsert _ text _ => run.index.docs.length < 2 ^ 32 ∧ (tokenize letters text).length < 2 ^ 32
  | .delete _ => True

instance (run : IndexRun ν) (e : IndexOp ν) : Decidable (run.Fits letters e) :=
  match e with
  | .upsert _ _ _ => inferInstanceAs (Decidable (_ < _ ∧ _ < _))
  | .delete _ => inferInstanceAs (Decidable True)

end IndexRun

/-! ## Places -/

theorem place_clear (docs : List (Option (StoredDoc ν))) (i doc : ℕ) :
    place (docs.set i none) doc = if doc = i then none else place docs doc := by
  rw [place, place, List.getElem?_set]
  by_cases hsame : doc = i
  · rw [if_pos hsame, if_pos hsame.symm]
    split_ifs
    · rfl
    · rfl
  · rw [if_neg hsame, if_neg (Ne.symm hsame)]

theorem place_append (docs : List (Option (StoredDoc ν))) (d : Option (StoredDoc ν)) (doc : ℕ) :
    place (docs ++ [d]) doc = if doc = docs.length then d else place docs doc := by
  rw [place, place]
  rcases lt_trichotomy doc docs.length with hlt | rfl | hgt
  · rw [List.getElem?_append_left hlt, if_neg hlt.ne]
  · rw [List.getElem?_concat_length, if_pos rfl]
    rfl
  · rw [if_neg hgt.ne', List.getElem?_eq_none hgt.le,
      List.getElem?_eq_none (by rw [List.length_append, List.length_singleton]; omega)]

theorem lt_of_place {docs : List (Option (StoredDoc ν))} {doc : ℕ} {d : StoredDoc ν}
    (h : place docs doc = some d) : doc < docs.length := by
  by_contra hge
  rw [place, List.getElem?_eq_none (not_lt.mp hge)] at h
  cases h

variable {letters : Letters}

/-- The tokens of the documents at their places. -/
def TokensOf (letters : Letters) (docs : List (Option (StoredDoc ν)))
    (tokens : Table ℕ (List String)) : Prop :=
  ∀ doc, tokens.lookup doc = (place docs doc).map fun d => tokenize letters d.text

theorem holds_rebuilt {docs : List (Option (StoredDoc ν))} (hsmall : docs.length ≤ 2 ^ 32)
    (hshort : ∀ doc d, place docs doc = some d → (tokenize letters d.text).length < 2 ^ 32) :
    ∃ tokens, TokensOf letters docs tokens ∧ InvertedIndex.Fits tokens ∧
      (rebuilt letters docs).Holds tokens := by
  induction docs using List.reverseRecOn with
  | nil =>
    exact ⟨∅, fun _ => rfl, fun _ _ h => (nomatch h), InvertedIndex.holds_empty⟩
  | append_singleton docs d ih =>
    rw [List.length_append, List.length_singleton] at hsmall
    have hshort' : ∀ doc d, place docs doc = some d → (tokenize letters d.text).length < 2 ^ 32 := by
      intro doc d' hd'
      refine hshort doc d' ?_
      rw [place_append, if_neg (lt_of_place hd').ne]
      exact hd'
    obtain ⟨tokens, htokens, hfits, hholds⟩ := ih (Nat.le_of_succ_le hsmall) hshort'
    have hfree : tokens.lookup docs.length = none := by
      rw [htokens, place, List.getElem?_eq_none le_rfl]
      rfl
    rw [rebuilt, List.zipIdx_append, List.foldl_append]
    cases d with
    | none =>
      refine ⟨tokens, fun doc => ?_, hfits, hholds⟩
      rw [htokens, place_append]
      split_ifs with hlast
      · rw [hlast, ← htokens, hfree]
        rfl
      · rfl
    | some d =>
      have hd : (tokenize letters d.text).length < 2 ^ 32 :=
        hshort docs.length d (by rw [place_append, if_pos rfl])
      have hfits' := hfits.insert (Nat.lt_of_succ_le hsmall) hd
      refine ⟨_, fun doc => ?_, hfits', ?_⟩
      · rw [Table.lookup_insert, htokens, place_append]
        split_ifs
        · rfl
        · rfl
      · rw [Nat.zero_add]
        exact hholds.add hfits' hfree

namespace IndexRun

/-- Names, places and the inverted index agree. -/
structure Agrees (letters : Letters) (run : IndexRun ν) : Prop where
  small : run.index.docs.length ≤ 2 ^ 32
  holds : ∃ tokens, TokensOf letters run.index.docs tokens ∧ InvertedIndex.Fits tokens ∧
    run.index.inverted.Holds tokens
  tokens : ∀ doc d, place run.index.docs doc = some d → d.tokens = tokenize letters d.text
  /-- Under a name stands the place of the document with this name. -/
  named : ∀ (id : String) (doc : ℕ), run.index.idToDoc.lookup id = some doc ↔
    ∃ d, place run.index.docs doc = some d ∧ d.id = id
  documents : ∀ id, run.documents.lookup id =
    ((run.index.idToDoc.lookup id).bind (place run.index.docs)).map fun d => (d.text, d.metadata)

theorem agrees_init : Agrees letters ({} : IndexRun ν) where
  small := Nat.zero_le _
  holds := ⟨∅, fun _ => rfl, fun _ _ h => (nomatch h), InvertedIndex.holds_empty⟩
  tokens := fun _ _ h => (nomatch h)
  named := fun _ _ => ⟨fun h => (nomatch h), fun ⟨_, h, _⟩ => (nomatch h)⟩
  documents := fun _ => rfl

variable {run : IndexRun ν}

theorem Agrees.clear (h : Agrees letters run) {id : String} {doc : ℕ}
    (hid : run.index.idToDoc.lookup id = some doc) (idToDoc : Table String ℕ) :
    ∃ index, Index.clear { run.index with idToDoc } doc = some { index with idToDoc } ∧
      index.docs.length = run.index.docs.length ∧
      index.idToDoc = run.index.idToDoc.erase id ∧
      Agrees letters { index, documents := run.documents.erase id } := by
  obtain ⟨d, hd, hname⟩ := (h.named id doc).mp hid
  obtain ⟨tokens, htokens, hfits, hholds⟩ := h.holds
  have hdoc : tokens.lookup doc = some d.tokens := by
    rw [htokens, hd, h.tokens doc d hd]
    rfl
  refine ⟨{ inverted := run.index.inverted.remove doc d.tokens
            idToDoc := run.index.idToDoc.erase id
            docs := run.index.docs.set doc none }, ?_, List.length_set, rfl, ?_⟩
  · rw [Index.clear, if_pos (lt_of_place hd)]
    dsimp only
    rw [show run.index.docs[doc]?.join = some d from hd]
  · refine ⟨List.length_set.trans_le h.small, ⟨tokens.erase doc, fun doc' => ?_, hfits.erase doc,
      hholds.remove hfits hdoc⟩, fun doc' d' hd' => ?_, fun id' doc' => ?_, fun id' => ?_⟩
    · dsimp only
      rw [Table.lookup_erase, place_clear, htokens]
      split_ifs
      · rfl
      · rfl
    · dsimp only at hd'
      rw [place_clear] at hd'
      split_ifs at hd'
      exact h.tokens doc' d' hd'
    · dsimp only
      rw [Table.lookup_erase, place_clear]
      by_cases hplace : doc' = doc
      · subst hplace
        rw [if_pos rfl]
        refine ⟨fun hsome => ?_, fun ⟨_, hnone, _⟩ => (nomatch hnone)⟩
        split_ifs at hsome with hsame
        obtain ⟨d', hd', hname'⟩ := (h.named id' doc').mp hsome
        obtain rfl := Option.some.inj (hd.symm.trans hd')
        exact absurd (hname'.symm.trans hname) hsame
      · rw [if_neg hplace, ← h.named]
        split_ifs with hsame
        · refine ⟨fun hnone => (nomatch hnone), fun hsome => ?_⟩
          rw [hsame, hid] at hsome
          exact absurd (Option.some.inj hsome).symm hplace
        · rfl
    · dsimp only
      rw [Table.lookup_erase, Table.lookup_erase, h.documents]
      split_ifs with hsame
      · rfl
      · cases hid' : run.index.idToDoc.lookup id' with
        | none => rfl
        | some doc' =>
          have hne : doc' ≠ doc := by
            rintro rfl
            obtain ⟨d', hd', hname'⟩ := (h.named id' doc').mp hid'
            obtain rfl := Option.some.inj (hd.symm.trans hd')
            exact hsame (hname'.symm.trans hname)
          rw [Option.bind_some, Option.bind_some, place_clear, if_neg hne]

theorem Agrees.insert (h : Agrees letters run) {id : String}
    (hid : run.index.idToDoc.lookup id = none) {text : String}
    (hroom : run.index.docs.length < 2 ^ 32) (hshort : (tokenize letters text).length < 2 ^ 32)
    (metadata : Json ν) :
    Agrees letters
      { index :=
          { inverted := run.index.inverted.add (run.index.docs.length % 2 ^ 32)
              (tokenize letters text)
            docs := run.index.docs ++ [some
              { id, text, metadata, tokens := tokenize letters text }]
            idToDoc := run.index.idToDoc.insert id (run.index.docs.length % 2 ^ 32) }
        documents := run.documents.insert id (text, metadata) } := by
  obtain ⟨tokens, htokens, hfits, hholds⟩ := h.holds
  have hnew : place run.index.docs run.index.docs.length = none := by
    rw [place, List.getElem?_eq_none le_rfl]
    rfl
  have hfree : tokens.lookup run.index.docs.length = none := by
    rw [htokens, hnew]
    rfl
  have hfits' := hfits.insert hroom hshort
  rw [Nat.mod_eq_of_lt hroom]
  refine ⟨?_, ⟨_, fun doc => ?_, hfits', hholds.add hfits' hfree⟩, fun doc d hd => ?_,
    fun id' doc => ?_, fun id' => ?_⟩
  · rw [List.length_append, List.length_singleton]
    exact hroom
  · rw [Table.lookup_insert, place_append, htokens]
    split_ifs
    · rfl
    · rfl
  · rw [place_append] at hd
    split_ifs at hd
    · rw [← Option.some.inj hd]
    · exact h.tokens doc d hd
  · dsimp only
    rw [Table.lookup_insert, place_append]
    by_cases hplace : doc = run.index.docs.length
    · rw [if_pos hplace]
      split_ifs with hsame
      · exact iff_of_true (by rw [hplace]) ⟨_, rfl, hsame.symm⟩
      · refine iff_of_false (fun hsome => ?_) ?_
        · obtain ⟨d, hd, -⟩ := (h.named id' doc).mp hsome
          exact absurd (lt_of_place hd) (hplace ▸ lt_irrefl _)
        · rintro ⟨d, hd, hname⟩
          rw [← Option.some.inj hd] at hname
          exact hsame hname.symm
    · rw [if_neg hplace, ← h.named]
      split_ifs with hsame
      · refine iff_of_false (fun hsome => hplace (Option.some.inj hsome).symm) fun hsome => ?_
        rw [hsame, hid] at hsome
        cases hsome
      · rfl
  · dsimp only
    rw [Table.lookup_insert, Table.lookup_insert, h.documents]
    split_ifs with hsame
    · rw [Option.bind_some, place_append, if_pos rfl]
      rfl
    · cases hid' : run.index.idToDoc.lookup id' with
      | none => rfl
      | some doc =>
        obtain ⟨d, hd, -⟩ := (h.named id' doc).mp hid'
        rw [Option.bind_some, Option.bind_some, place_append, if_neg (lt_of_place hd).ne]

/-- An operation whose numbers fit finds all places that it looks for, and keeps names, places and
the inverted index in agreement. -/
theorem Agrees.op (h : Agrees letters run) {e : IndexOp ν} (hfits : run.Fits letters e) :
    ∃ run', run.op letters e = some run' ∧ Agrees letters run' := by
  cases e with
  | upsert id text metadata =>
    obtain ⟨hroom, hshort⟩ := hfits
    rw [IndexRun.op, Index.upsert]
    cases hid : run.index.idToDoc.lookup id with
    | none => exact ⟨_, rfl, h.insert hid hroom hshort metadata⟩
    | some old =>
      obtain ⟨index, hclear, hlength, hnames, hagrees⟩ := h.clear hid run.index.idToDoc
      have hfree : index.idToDoc.lookup id = none := by
        rw [hnames]
        exact AList.lookup_erase id _
      have hagrees' := hagrees.insert hfree (hlength ▸ hroom) hshort metadata
      rw [hnames, Table.insert_erase, Table.insert_erase] at hagrees'
      refine ⟨_, ?_, hagrees'⟩
      dsimp only
      rw [hclear]
      rfl
  | delete id =>
    rw [IndexRun.op, Index.delete]
    cases hid : run.index.idToDoc.lookup id with
    | none =>
      have hnone : id ∉ run.documents := by
        rw [← AList.lookup_eq_none, h.documents, hid]
        rfl
      refine ⟨_, rfl, ?_⟩
      rw [Table.erase_of_notMem hnone]
      exact h
    | some doc =>
      obtain ⟨index, hclear, -, hnames, hagrees⟩ := h.clear hid (run.index.idToDoc.erase id)
      refine ⟨_, ?_, hagrees⟩
      dsimp only
      rw [hclear, ← hnames]
      rfl

theorem index_agrees (h : (system letters).Reach (Fits letters) run) : Agrees letters run := by
  refine h.invariant agrees_init ?_
  rintro run e run' - hagrees hfits hstep
  obtain ⟨run'', hop, hagrees'⟩ := hagrees.op hfits
  obtain rfl := Option.some.inj (hop.symm.trans hstep)
  exact hagrees'

theorem Agrees.lookup_documents (h : Agrees letters run) (id text : String) (metadata : Json ν) :
    run.documents.lookup id = some (text, metadata) ↔ ∃ doc d, place run.index.docs doc = some d ∧
      d.id = id ∧ d.text = text ∧ d.metadata = metadata := by
  rw [h.documents]
  constructor
  · intro hsome
    obtain ⟨d, hd, heq⟩ := Option.map_eq_some_iff.mp hsome
    obtain ⟨doc, hdoc, hplace⟩ := Option.bind_eq_some_iff.mp hd
    obtain ⟨d', hd', hname⟩ := (h.named id doc).mp hdoc
    obtain rfl := Option.some.inj (hplace.symm.trans hd')
    obtain ⟨rfl, rfl⟩ := Prod.mk.inj heq
    exact ⟨doc, d, hplace, hname, rfl, rfl⟩
  · rintro ⟨doc, d, hd, hname, rfl, rfl⟩
    rw [(h.named id doc).mpr ⟨d, hd, hname⟩, Option.bind_some, hd]
    rfl

/-! ## Searches -/

section Search

variable {F : Type} [LinearOrder F] [DecidableEq ν]

omit [LinearOrder F] in
theorem hit_eq_some_iff {index : Index ν} {filter : Json ν} {doc : ℕ} {score : F}
    {hit : SearchHit F ν} : index.hit filter doc score = some hit ↔
      ∃ d, place index.docs doc = some d ∧ matchesFilter d.metadata filter = true ∧
        hit = { id := d.id, score, metadata := d.metadata } := by
  have hfilter (d : StoredDoc ν) : (filter.isFilter && !matchesFilter d.metadata filter) = false ↔
      matchesFilter d.metadata filter = true := by
    cases hsome : filter.isFilter with
    | false => exact iff_of_true rfl (Json.passes_of_isFilter hsome d.metadata)
    | true => simp
  rw [Index.hit]
  change (place index.docs doc >>= _) = _ ↔ _
  cases place index.docs doc with
  | none => simp
  | some d =>
    rw [Option.bind_eq_bind, Option.bind_some]
    split_ifs with hrefused
    · refine iff_of_false (fun hnone => (nomatch hnone)) ?_
      rintro ⟨d', hd', hmatches, -⟩
      rw [← Option.some.inj hd', ← hfilter, hrefused] at hmatches
      cases hmatches
    · have hmatches := (hfilter d).mp (Bool.not_eq_true _ ▸ hrefused)
      rw [Option.some.injEq]
      constructor
      · rintro rfl
        exact ⟨d, rfl, hmatches, rfl⟩
      · rintro ⟨d', hd', -, rfl⟩
        rw [Option.some.inj hd']

/-- A search that may have as many hits as there are documents finds those that share a token with
the query and pass the filter, each once. -/
theorem Agrees.mem_search (h : Agrees letters run) {bm25 : Bm25 F}
    (hzero : ∀ totalLen n, totalLen ≠ 0 → totalLen < 2 ^ 64 → n ≠ 0 → n ≤ 2 ^ 32 →
      bm25.isZero (bm25.avgdl totalLen n) = false) (query : String) {k : ℕ}
    (hk : run.documents.keys.length ≤ k) (filter : Json ν) :
    ((run.index.search letters bm25 query k filter).map SearchHit.id).Nodup ∧ ∀ id,
      id ∈ (run.index.search letters bm25 query k filter).map SearchHit.id ↔
        ∃ text metadata, run.documents.lookup id = some (text, metadata) ∧
          (∃ t ∈ tokenize letters query, t ∈ tokenize letters text) ∧
          matchesFilter metadata filter = true := by
  obtain ⟨tokens, htokens, hfits, hholds⟩ := h.holds
  have hscore (doc : ℕ) := hholds.mem_score bm25 hfits hzero (tokenize letters query) doc
  let scores := run.index.inverted.score bm25 (tokenize letters query)
  let hits := scores.entries.filterMap fun e => run.index.hit filter e.1 e.2
  have hmem (id : String) : id ∈ hits.map SearchHit.id ↔
      ∃ text metadata, run.documents.lookup id = some (text, metadata) ∧
        (∃ t ∈ tokenize letters query, t ∈ tokenize letters text) ∧
        matchesFilter metadata filter = true := by
    constructor
    · intro hid
      obtain ⟨hit, hhit, rfl⟩ := List.mem_map.mp hid
      obtain ⟨e, he, hsome⟩ := List.mem_filterMap.mp hhit
      obtain ⟨d, hd, hmatches, rfl⟩ := hit_eq_some_iff.mp hsome
      have hkey : e.1 ∈ scores := AList.mem_keys.mpr (List.mem_map_of_mem he)
      obtain ⟨found, hfound, t, hquery, ht⟩ := (hscore e.1).mp hkey
      rw [htokens, hd] at hfound
      rw [← Option.some.inj hfound] at ht
      exact ⟨d.text, d.metadata, (h.lookup_documents _ _ _).mpr ⟨e.1, d, hd, rfl, rfl, rfl⟩,
        ⟨t, hquery, ht⟩, hmatches⟩
    · rintro ⟨text, metadata, hlookup, ⟨t, hquery, ht⟩, hmatches⟩
      obtain ⟨doc, d, hd, rfl, rfl, rfl⟩ := (h.lookup_documents _ _ _).mp hlookup
      have hkey : doc ∈ scores :=
        (hscore doc).mpr ⟨_, by rw [htokens, hd]; rfl, t, hquery, ht⟩
      obtain ⟨score, hlookup⟩ := Option.isSome_iff_exists.mp (AList.lookup_isSome.mpr hkey)
      have hentry : (⟨doc, score⟩ : Sigma fun _ => F) ∈ scores.entries :=
        AList.mem_lookup_iff.mp hlookup
      have hhit : (⟨d.id, score, d.metadata⟩ : SearchHit F ν) ∈ hits :=
        List.mem_filterMap.mpr ⟨_, hentry, hit_eq_some_iff.mpr ⟨d, hd, hmatches, rfl⟩⟩
      exact List.mem_map.mpr ⟨_, hhit, rfl⟩
  have hnodup : (hits.map SearchHit.id).Nodup := by
    have hkeys : scores.entries.Pairwise fun e e' => e.1 ≠ e'.1 :=
      List.pairwise_map.mp scores.keys_nodup
    refine List.pairwise_map.mpr (List.pairwise_filterMap.mpr (hkeys.imp ?_))
    intro e e' hne hit hhit hit' hhit' hsame
    obtain ⟨d, hd, -, rfl⟩ := hit_eq_some_iff.mp hhit
    obtain ⟨d', hd', -, rfl⟩ := hit_eq_some_iff.mp hhit'
    have hplace := (h.named d.id e.1).mpr ⟨d, hd, rfl⟩
    have hplace' := (h.named d.id e'.1).mpr ⟨d', hd', hsame.symm⟩
    exact hne (Option.some.inj (hplace.symm.trans hplace'))
  have hlength : hits.length ≤ k := by
    have hsub : hits.map SearchHit.id ⊆ run.documents.keys := by
      intro id hid
      obtain ⟨text, metadata, hlookup, -⟩ := (hmem id).mp hid
      exact AList.mem_keys.mp (AList.lookup_isSome.mp (hlookup ▸ rfl))
    have hle := (hnodup.subperm hsub).length_le
    rw [List.length_map] at hle
    exact hle.trans hk
  have hperm : (run.index.search letters bm25 query k filter).Perm hits := by
    have hsorted := List.perm_insertionSort (Index.before (F := F) (ν := ν)) hits
    rw [Index.search, List.take_of_length_le (hsorted.length_eq.trans_le hlength)]
    exact hsorted
  have hids := hperm.map SearchHit.id
  exact ⟨hids.nodup_iff.mpr hnodup, fun id => hids.mem_iff.trans (hmem id)⟩

/-- The index is consistent: it agrees with one that is built afresh from the documents at their
places, these are the current ones, no length is more than the total from which it is taken, and a
search that may have as many hits as there are documents finds just those that share a token with
the query and pass the filter. -/
structure Consistent (letters : Letters) (bm25 : Bm25 F) (run : IndexRun ν) : Prop where
  rebuilt : InvertedIndex.Agree run.index.inverted (rebuilt letters run.index.docs)
  current : ∀ id text metadata, run.documents.lookup id = some (text, metadata) ↔
    ∃ doc d, place run.index.docs doc = some d ∧ d.id = id ∧ d.text = text ∧ d.metadata = metadata
  noUnderflow : ∀ (doc len : ℕ), run.index.inverted.docLen.lookup doc = some len →
    len ≤ run.index.inverted.totalLen
  search : ∀ query k filter, run.documents.keys.length ≤ k →
    ((run.index.search letters bm25 query k filter).map SearchHit.id).Nodup ∧ ∀ id,
      id ∈ (run.index.search letters bm25 query k filter).map SearchHit.id ↔
        ∃ text metadata, run.documents.lookup id = some (text, metadata) ∧
          (∃ t ∈ tokenize letters query, t ∈ tokenize letters text) ∧
          matchesFilter metadata filter = true

/-- While numbers of documents and of tokens fit, the index is consistent after each operation. -/
theorem consistent_of_reach {bm25 : Bm25 F}
    (hzero : ∀ totalLen n, totalLen ≠ 0 → totalLen < 2 ^ 64 → n ≠ 0 → n ≤ 2 ^ 32 →
      bm25.isZero (bm25.avgdl totalLen n) = false)
    (h : (system letters).Reach (Fits letters) run) : Consistent letters bm25 run := by
  have hagrees := index_agrees h
  obtain ⟨tokens, htokens, hfits, hholds⟩ := hagrees.holds
  have hshort : ∀ doc d, place run.index.docs doc = some d →
      (tokenize letters d.text).length < 2 ^ 32 :=
    fun doc d hd => (hfits doc _ (by rw [htokens, hd]; rfl)).2
  obtain ⟨tokens', htokens', -, hholds'⟩ := holds_rebuilt hagrees.small hshort
  exact {
    rebuilt := hholds.agree hholds' fun doc => (htokens doc).trans (htokens' doc).symm
    current := hagrees.lookup_documents
    noUnderflow := fun doc len => hholds.docLen_le
    search := fun query k filter hk => hagrees.mem_search hzero query hk filter }

end Search

/-! ## Examples -/

def ascii : Letters where
  isAlphanumeric ch := ch.isAlphanum
  toLowercase ch := [ch.toLower]

/-- Scores that are numbers of times. -/
def times : Bm25 ℕ where
  zero := 0
  avgdl totalLen n := if totalLen = 0 then 0 else totalLen / n + 1
  isZero avgdl := decide (avgdl = 0)
  contribution _ _ tf _ _ := tf
  add a b := a + b

theorem isZero_times (totalLen n : ℕ) (h : totalLen ≠ 0) :
    times.isZero (times.avgdl totalLen n) = false := by
  change decide ((if totalLen = 0 then 0 else totalLen / n + 1) = 0) = false
  rw [if_neg h]
  exact decide_eq_false (Nat.succ_ne_zero _)

/-- A document is replaced by a shorter one, and another is deleted. -/
theorem consistent_of_reach_replaced :
    ∃ run : IndexRun ℕ, (system ascii).Reach (Fits ascii) run ∧
      (run.documents.keys = ["a", "c"] ∧ run.index.inverted.totalLen = 3 ∧
        (run.index.search ascii times "stores, KEYS!" 5 .null).map SearchHit.id = ["a"]) ∧
      Consistent ascii times run := by
  have hrun : ((system ascii).run (Fits ascii)
      [.upsert "a" "Aegis stores keys and keys" .null, .upsert "b" "a fast store" .null,
        .upsert "c" "slow disks" .null, .upsert "a" "keys" .null, .delete "b"]).any
        (fun run : IndexRun ℕ => decide (run.documents.keys = ["a", "c"] ∧
          run.index.inverted.totalLen = 3 ∧
          (run.index.search ascii times "stores, KEYS!" 5 .null).map SearchHit.id = ["a"])) =
      true := by
    decide +kernel
  obtain ⟨run, -, hreach, hp⟩ := System.exists_reach_of_any hrun
  exact ⟨run, hreach, of_decide_eq_true hp,
    consistent_of_reach (fun totalLen n h _ _ _ => isZero_times totalLen n h) hreach⟩

def words (n : ℕ) : String :=
  String.ofList (List.replicate n ['b', 'b', ' ']).flatten

theorem tokenize_words (n : ℕ) : tokenize ascii (words n) = List.replicate n "bb" := by
  have hloop (n : ℕ) (out : List String) :
      tokenizeFrom ascii (List.replicate n ['b', 'b', ' ']).flatten [] out =
        out ++ List.replicate n "bb" := by
    induction n generalizing out with
    | zero => exact (List.append_nil out).symm
    | succ n ih =>
      have hpush : pushToken out "bb" = out ++ ["bb"] := if_pos (by decide +kernel)
      have hword (text : List Char) : tokenizeFrom ascii ('b' :: 'b' :: ' ' :: text) [] out =
          tokenizeFrom ascii text [] (pushToken out "bb") := rfl
      have hsplit : (List.replicate (n + 1) ['b', 'b', ' ']).flatten =
          'b' :: 'b' :: ' ' :: (List.replicate n ['b', 'b', ' ']).flatten := rfl
      rw [hsplit, hword, hpush, ih, List.replicate_succ]
      exact (List.append_cons ..).symm
  rw [tokenize, words, String.toList_ofList, hloop, List.nil_append]

/-- A document of `2 ^ 32` words is inserted and deleted: its length is kept as zero, so its words
stay in the total length. -/
theorem not_consistent :
    ¬∀ run : IndexRun ℕ, (system ascii).Reachable run → Consistent ascii times run := by
  intro h
  obtain ⟨n, hn⟩ : ∃ n, n = 2 ^ 32 := ⟨_, rfl⟩
  let full : IndexRun ℕ :=
    { index :=
        { inverted := ({} : InvertedIndex).add 0 (List.replicate n "bb")
          idToDoc := (∅ : Table String ℕ).insert "d" 0
          docs := [some { id := "d", text := words n, metadata := .null
                          tokens := List.replicate n "bb" }] }
      documents := (∅ : Table String (String × Json ℕ)).insert "d" (words n, .null) }
  have hupsert : (system ascii).step {} (.upsert "d" (words n) .null) = some full := by
    simp only [system, op, Index.upsert, tokenize_words]
    rfl
  let emptied : IndexRun ℕ :=
    { index :=
        { inverted := full.index.inverted.remove 0 (List.replicate n "bb")
          idToDoc := full.index.idToDoc.erase "d"
          docs := [none] }
      documents := full.documents.erase "d" }
  have hdelete : (system ascii).step full (.delete "d") = some emptied := rfl
  have htotal := (h emptied (.step (.step .init trivial hupsert) trivial hdelete)).rebuilt.totalLen
  have hleft : emptied.index.inverted.totalLen =
      ((0 + (List.replicate n "bb").length) % 2 ^ 64 + 2 ^ 64 -
        (List.replicate n "bb").length % 2 ^ 32) % 2 ^ 64 := rfl
  have hright : (rebuilt ascii emptied.index.docs).totalLen = 0 := rfl
  rw [hleft, hright, List.length_replicate, hn] at htotal
  exact absurd htotal (by decide)

end IndexRun

end AegisDB.FullText
