import AegisDB.Documents.Collection

/-!
# What holds of a collection

Every document should be stored under its own id, satisfy the schema, and have no value of a unique
index in common with another, and a call that returns an error should change nothing.  The calls
check the schema and the ids of new documents only: an update may put a document under an id that is
not its own, a new schema is not held against the documents that are there, unique indexes are never
consulted, and a batch stays half inserted.  `collection_sound_iff` says that the calls that avoid
these four are the ones that keep what should hold.
-/

namespace AegisDB

namespace Documents

namespace Collection

variable {rt : Runtime} {c : Collection}

/-- Two documents have equal values in a field. -/
def SameIn (field : String) (d d' : Document) : Prop :=
  ∃ v w, d.get field = some v ∧ d'.get field = some w ∧ valueEq v w = true

def uniqueFields (c : Collection) : List String :=
  (c.indexes.filter fun idx => idx.indexType = .unique).map DocumentIndex.field

/-- Every document is stored under its own id, satisfies the schema, and has the values of unique
indexes for itself. -/
structure Sound (rt : Runtime) (c : Collection) : Prop where
  ownId : ∀ id d, c.documents.lookup id = some d → d.id = id
  valid : ∀ id d, c.documents.lookup id = some d → c.Accepts rt d
  distinct : ∀ field ∈ c.uniqueFields, ∀ id id' d d', id ≠ id' →
    c.documents.lookup id = some d → c.documents.lookup id' = some d' → ¬ SameIn field d d'

/-- No value of a unique index is shared by two documents. -/
def Apart (c : Collection) (d d' : Document) : Prop :=
  ∀ field ∈ c.uniqueFields, ¬ SameIn field d d' ∧ ¬ SameIn field d' d

/-- All documents of a batch are inserted. -/
structure Acceptable (rt : Runtime) (c : Collection) (docs : List Document) : Prop where
  accepts : ∀ doc ∈ docs, ¬ c.Rejects rt doc
  nodup : (docs.map Document.id).Nodup

/-- The calls that keep what should hold. -/
def Keeps (rt : Runtime) (c : Collection) : Call → Prop
  | .insert doc => ¬ c.Rejects rt doc →
      ∀ id d, c.documents.lookup id = some d → c.Apart d doc
  | .insertMany docs => (∃ first ∈ docs.head?, c.Rejects rt first) ∨
      (c.Acceptable rt docs ∧ docs.Pairwise c.Apart ∧
        ∀ doc ∈ docs, ∀ id d, c.documents.lookup id = some d → c.Apart d doc)
  | .update id doc => c.Accepts rt doc → id ∈ c.documents →
      doc.id = id ∧ ∀ id' d, id' ≠ id → c.documents.lookup id' = some d → c.Apart d doc
  | .delete _ => True
  | .createIndex field indexType => indexType = .unique → ∀ id id' d d', id ≠ id' →
      c.documents.lookup id = some d → c.documents.lookup id' = some d' → ¬ SameIn field d d'
  | .dropIndex _ => True
  | .setSchema schema => ∀ id d, c.documents.lookup id = some d →
      (schema.validate rt d).isValid = true

/-- After a call everything holds, and if the call returned an error then nothing has changed. -/
def SoundAfter (rt : Runtime) (c : Collection) (a : Call) : Prop :=
  Sound rt (c.call rt a).2 ∧ ((c.call rt a).1.isSome = true → (c.call rt a).2 = c)

/-! ## Unique fields -/

theorem uniqueFields_map (f : DocumentIndex → DocumentIndex)
    (hfield : ∀ idx, (f idx).field = idx.field)
    (htype : ∀ idx, (f idx).indexType = idx.indexType) (indexes : List DocumentIndex) :
    (((indexes.map f).filter fun idx => idx.indexType = .unique).map DocumentIndex.field) =
      (indexes.filter fun idx => idx.indexType = .unique).map DocumentIndex.field := by
  induction indexes with
  | nil => rfl
  | cons idx indexes ih =>
    rw [List.map_cons, List.filter_cons, List.filter_cons, htype]
    split_ifs
    · rw [List.map_cons, List.map_cons, hfield, ih]
    · exact ih

@[simp] theorem uniqueFields_indexDocument (c : Collection) (doc : Document) :
    (c.indexDocument rt doc).uniqueFields = c.uniqueFields :=
  uniqueFields_map _ (fun _ => DocumentIndex.field_indexDocument)
    (fun _ => DocumentIndex.indexType_indexDocument) c.indexes

@[simp] theorem uniqueFields_unindexDocument (c : Collection) (doc : Document) :
    (c.unindexDocument rt doc).uniqueFields = c.uniqueFields :=
  uniqueFields_map _ (fun _ => DocumentIndex.field_unindexDocument)
    (fun _ => DocumentIndex.indexType_unindexDocument) c.indexes

/-! ## Collections by their documents -/

/-- A document that the schema accepts may be stored under an id, in place of what was there, if and
only if the id is its own and it shares no unique value with the other documents. -/
theorem sound_insert_iff (hc : Sound rt c) (id : DocumentId) (doc : Document)
    (haccepts : c.Accepts rt doc) {c' : Collection}
    (hdocs : ∀ id', c'.documents.lookup id' = if id' = id then some doc else
      c.documents.lookup id')
    (hschema : c'.schema = c.schema) (hunique : c'.uniqueFields = c.uniqueFields) :
    Sound rt c' ↔ doc.id = id ∧
      ∀ id' d, id' ≠ id → c.documents.lookup id' = some d → c.Apart d doc := by
  have hhere : c'.documents.lookup id = some doc := by
    rw [hdocs, if_pos rfl]
  have hthere (id' : DocumentId) (hne : id' ≠ id) :
      c'.documents.lookup id' = c.documents.lookup id' := by
    rw [hdocs, if_neg hne]
  constructor
  · intro h
    refine ⟨h.ownId id doc hhere, fun id' d hne hd field hfield => ?_⟩
    rw [← hunique] at hfield
    rw [← hthere id' hne] at hd
    exact ⟨h.distinct field hfield id' id d doc hne hd hhere,
      h.distinct field hfield id id' doc d hne.symm hhere hd⟩
  · rintro ⟨hid, hapart⟩
    constructor
    · intro id' d hd
      rw [hdocs] at hd
      split_ifs at hd with heq
      · rw [heq, ← Option.some.inj hd, hid]
      · exact hc.ownId id' d hd
    · intro id' d hd
      have hold : c.Accepts rt d := by
        rw [hdocs] at hd
        split_ifs at hd with heq
        · exact Option.some.inj hd ▸ haccepts
        · exact hc.valid id' d hd
      rwa [Accepts, hschema]
    · intro field hfield id₁ id₂ d₁ d₂ hne h₁ h₂
      rw [hunique] at hfield
      rw [hdocs] at h₁ h₂
      split_ifs at h₁ h₂ with heq₁ heq₂ heq₂
      · exact absurd (heq₁.trans heq₂.symm) hne
      · rw [← Option.some.inj h₁]
        exact (hapart id₂ d₂ heq₂ h₂ field hfield).2
      · rw [← Option.some.inj h₂]
        exact (hapart id₁ d₁ heq₁ h₁ field hfield).1
      · exact hc.distinct field hfield id₁ id₂ d₁ d₂ hne h₁ h₂

/-! ## Batches -/

theorem lookup_insert_of_not_rejects {doc : Document} (h : ¬ c.Rejects rt doc) (id : DocumentId) :
    (c.insert rt doc).2.documents.lookup id =
      if id = doc.id then some doc else c.documents.lookup id := by
  rw [insert_of_not_rejects h]
  exact Table.lookup_insert c.documents doc.id id doc

theorem schema_insert (doc : Document) : (c.insert rt doc).2.schema = c.schema := by
  by_cases h : c.Rejects rt doc
  · obtain ⟨e, he⟩ := insert_of_rejects h
    rw [he]
  · rw [insert_of_not_rejects h]
    rfl

theorem uniqueFields_insert (doc : Document) :
    (c.insert rt doc).2.uniqueFields = c.uniqueFields := by
  by_cases h : c.Rejects rt doc
  · obtain ⟨e, he⟩ := insert_of_rejects h
    rw [he]
  · rw [insert_of_not_rejects h, uniqueFields_indexDocument]
    rfl

theorem rejects_insert_iff {doc : Document} (h : ¬ c.Rejects rt doc) (d : Document) :
    (c.insert rt doc).2.Rejects rt d ↔ c.Rejects rt d ∨ d.id = doc.id := by
  have hmem : d.id ∈ (c.insert rt doc).2.documents ↔ d.id ∈ c.documents ∨ d.id = doc.id := by
    rw [← AList.lookup_isSome, ← AList.lookup_isSome, lookup_insert_of_not_rejects h]
    split_ifs with heq
    · simp [heq]
    · simp [heq]
  rw [Rejects, Rejects, hmem, Accepts, Accepts, schema_insert, or_assoc]

/-- A batch is acceptable if its first document is and the others are after it. -/
theorem acceptable_cons_iff {doc : Document} {docs : List Document} (h : ¬ c.Rejects rt doc) :
    c.Acceptable rt (doc :: docs) ↔ (c.insert rt doc).2.Acceptable rt docs := by
  constructor
  · rintro ⟨haccepts, hnodup⟩
    rw [List.map_cons, List.nodup_cons] at hnodup
    refine ⟨fun d hd => ?_, hnodup.2⟩
    rw [rejects_insert_iff h, not_or]
    exact ⟨haccepts d (List.mem_cons_of_mem doc hd),
      fun heq => hnodup.1 (heq ▸ List.mem_map_of_mem hd)⟩
  · rintro ⟨haccepts, hnodup⟩
    have hrest (d : Document) (hd : d ∈ docs) : ¬ c.Rejects rt d ∧ d.id ≠ doc.id := by
      have hd := haccepts d hd
      rw [rejects_insert_iff h, not_or] at hd
      exact hd
    refine ⟨fun d hd => ?_, ?_⟩
    · rcases List.mem_cons.mp hd with rfl | hd
      · exact h
      · exact (hrest d hd).1
    · rw [List.map_cons, List.nodup_cons]
      refine ⟨fun hmem => ?_, hnodup⟩
      obtain ⟨d, hd, heq⟩ := List.mem_map.mp hmem
      exact (hrest d hd).2 heq

theorem insertMany_of_rejects {doc : Document} (h : c.Rejects rt doc) (docs : List Document) :
    ∃ e, c.insertMany rt (doc :: docs) = (.error e, c) := by
  obtain ⟨e, he⟩ := insert_of_rejects h
  refine ⟨e, ?_⟩
  rw [insertMany, he]

theorem insertMany_of_not_rejects {doc : Document} {docs : List Document}
    (h : ¬ c.Rejects rt doc) :
    (c.insertMany rt (doc :: docs)).2 = ((c.insert rt doc).2.insertMany rt docs).2 ∧
      (errorOf (c.insertMany rt (doc :: docs)).1).isSome =
        (errorOf ((c.insert rt doc).2.insertMany rt docs).1).isSome := by
  obtain ⟨c', hc'⟩ : ∃ c', c.insert rt doc = (.ok doc.id, c') := ⟨_, insert_of_not_rejects h⟩
  rw [insertMany, hc']
  dsimp only
  cases hrest : c'.insertMany rt docs with
  | mk result c'' => cases result <;> exact ⟨rfl, rfl⟩

theorem insertMany_error_iff (docs : List Document) :
    (errorOf (c.insertMany rt docs).1).isSome = true ↔ ¬ c.Acceptable rt docs := by
  induction docs generalizing c with
  | nil =>
    refine iff_of_false (fun h => ?_) (not_not.mpr ⟨fun _ hd => ?_, List.nodup_nil⟩)
    · cases h
    · cases hd
  | cons doc docs ih =>
    by_cases h : c.Rejects rt doc
    · obtain ⟨e, he⟩ := insertMany_of_rejects h docs
      rw [he]
      exact iff_of_true rfl fun hall => hall.accepts doc List.mem_cons_self h
    · rw [(insertMany_of_not_rejects h).2, ih, acceptable_cons_iff h]

theorem lookup_insertMany {docs : List Document} (h : c.Acceptable rt docs) (id : DocumentId)
    (d : Document) : (c.insertMany rt docs).2.documents.lookup id = some d ↔
      c.documents.lookup id = some d ∨ (d ∈ docs ∧ d.id = id) := by
  induction docs generalizing c with
  | nil => exact (or_iff_left fun hd => (nomatch hd.1)).symm
  | cons doc docs ih =>
    have hdoc : ¬ c.Rejects rt doc := h.accepts doc List.mem_cons_self
    have hfresh : c.documents.lookup doc.id = none :=
      AList.lookup_eq_none.mpr (not_or.mp hdoc).2
    rw [(insertMany_of_not_rejects hdoc).1, ih ((acceptable_cons_iff hdoc).mp h),
      lookup_insert_of_not_rejects hdoc, List.mem_cons, or_and_right, ← or_assoc]
    refine or_congr_left ?_
    split_ifs with hid
    · rw [hid, hfresh, Option.some.injEq]
      constructor
      · rintro rfl
        exact Or.inr ⟨rfl, rfl⟩
      · rintro (hnone | ⟨rfl, _⟩)
        · cases hnone
        · rfl
    · refine (or_iff_left ?_).symm
      rintro ⟨rfl, heq⟩
      exact hid heq.symm

theorem schema_insertMany (docs : List Document) :
    (c.insertMany rt docs).2.schema = c.schema :=
  insertMany_induction (P := fun c' => c'.schema = c.schema)
    (fun _ doc h => (schema_insert doc).trans h) docs rfl

theorem uniqueFields_insertMany (docs : List Document) :
    (c.insertMany rt docs).2.uniqueFields = c.uniqueFields :=
  insertMany_induction (P := fun c' => c'.uniqueFields = c.uniqueFields)
    (fun _ doc h => (uniqueFields_insert doc).trans h) docs rfl

theorem Apart.symm {d d' : Document} (h : c.Apart d d') : c.Apart d' d :=
  fun field hfield => (h field hfield).symm

/-- A batch that is stored keeps what should hold if and only if its documents share no unique value
with each other or with the documents that are there. -/
theorem sound_insertMany_iff (hc : Sound rt c) {docs : List Document}
    (h : c.Acceptable rt docs) : Sound rt (c.insertMany rt docs).2 ↔
      docs.Pairwise c.Apart ∧
        ∀ doc ∈ docs, ∀ id d, c.documents.lookup id = some d → c.Apart d doc := by
  have hstored (id : DocumentId) (d : Document) := lookup_insertMany h id d
  have hnew (d : Document) (hd : d ∈ docs) :
      (c.insertMany rt docs).2.documents.lookup d.id = some d :=
    (hstored d.id d).mpr (Or.inr ⟨hd, rfl⟩)
  have hfresh (d : Document) (hd : d ∈ docs) (id : DocumentId) (d' : Document)
      (hd' : c.documents.lookup id = some d') : id ≠ d.id := by
    rintro rfl
    exact (not_or.mp (h.accepts d hd)).2 (AList.lookup_isSome.mp (hd' ▸ rfl))
  have hids : docs.Pairwise fun a b => a.id ≠ b.id := List.pairwise_map.mp h.nodup
  constructor
  · intro hsound
    have hapart (d d' : Document) {id id' : DocumentId} (hne : id ≠ id')
        (hd : (c.insertMany rt docs).2.documents.lookup id = some d)
        (hd' : (c.insertMany rt docs).2.documents.lookup id' = some d') : c.Apart d d' := by
      intro field hfield
      rw [← @uniqueFields_insertMany rt c docs] at hfield
      exact ⟨hsound.distinct field hfield id id' d d' hne hd hd',
        hsound.distinct field hfield id' id d' d hne.symm hd' hd⟩
    refine ⟨hids.imp_of_mem fun ha hb hne => hapart _ _ hne (hnew _ ha) (hnew _ hb), ?_⟩
    intro doc hdoc id d hd
    exact hapart d doc (hfresh doc hdoc id d hd) ((hstored id d).mpr (Or.inl hd)) (hnew doc hdoc)
  · rintro ⟨hpairwise, hothers⟩
    constructor
    · intro id d hd
      rcases (hstored id d).mp hd with hd | ⟨_, hd⟩
      · exact hc.ownId id d hd
      · exact hd
    · intro id d hd
      have hold : c.Accepts rt d := by
        rcases (hstored id d).mp hd with hd | ⟨hd, _⟩
        · exact hc.valid id d hd
        · exact not_not.mp (not_or.mp (h.accepts d hd)).1
      rwa [Accepts, schema_insertMany]
    · intro field hfield id id' d d' hne hd hd'
      rw [uniqueFields_insertMany] at hfield
      rcases (hstored id d).mp hd with hold | ⟨hmem, rfl⟩
      · rcases (hstored id' d').mp hd' with hold' | ⟨hmem', rfl⟩
        · exact hc.distinct field hfield id id' d d' hne hold hold'
        · exact (hothers d' hmem' id d hold field hfield).1
      · rcases (hstored id' d').mp hd' with hold' | ⟨hmem', rfl⟩
        · exact (hothers d hmem id' d' hold' field hfield).2
        · have : Std.Symm c.Apart := ⟨fun _ _ => Apart.symm⟩
          have hapart : c.Apart d d' :=
            hpairwise.forall hmem hmem' fun heq => hne (congrArg Document.id heq)
          exact (hapart field hfield).1

/-! ## Calls -/

theorem soundAfter_iff_of_ok {a : Call} (h : (c.call rt a).1.isSome = false) :
    SoundAfter rt c a ↔ Sound rt (c.call rt a).2 := by
  refine and_iff_left fun herror => ?_
  rw [h] at herror
  cases herror

theorem soundAfter_of_unchanged (hc : Sound rt c) {a : Call} (h : (c.call rt a).2 = c) :
    SoundAfter rt c a :=
  ⟨h.symm ▸ hc, fun _ => h⟩

theorem soundAfter_insert_iff (hc : Sound rt c) (doc : Document) :
    SoundAfter rt c (.insert doc) ↔ Keeps rt c (.insert doc) := by
  by_cases h : c.Rejects rt doc
  · refine iff_of_true (soundAfter_of_unchanged hc ?_) fun hno => absurd h hno
    obtain ⟨e, he⟩ := insert_of_rejects h
    change (c.insert rt doc).2 = c
    rw [he]
  · obtain ⟨haccepts, hmem⟩ := not_or.mp h
    have hok : (c.call rt (.insert doc)).1.isSome = false := by
      change (errorOf (c.insert rt doc).1).isSome = false
      rw [insert_of_not_rejects h]
      rfl
    rw [soundAfter_iff_of_ok hok]
    refine (sound_insert_iff hc doc.id doc (not_not.mp haccepts)
      (fun id => lookup_insert_of_not_rejects h id) (schema_insert doc)
      (uniqueFields_insert doc)).trans ?_
    rw [and_iff_right rfl]
    constructor
    · intro hall _ id d hd
      refine hall id d ?_ hd
      rintro rfl
      exact hmem (AList.lookup_isSome.mp (hd ▸ rfl))
    · exact fun hall id d _ hd => hall h id d hd

theorem soundAfter_insertMany_iff (hc : Sound rt c) (docs : List Document) :
    SoundAfter rt c (.insertMany docs) ↔ Keeps rt c (.insertMany docs) := by
  by_cases hall : c.Acceptable rt docs
  · have hok : (c.call rt (.insertMany docs)).1.isSome = false := by
      refine Bool.eq_false_iff.mpr fun herror => ?_
      exact (insertMany_error_iff docs).mp herror hall
    rw [soundAfter_iff_of_ok hok]
    refine (sound_insertMany_iff hc hall).trans ⟨fun h => Or.inr ⟨hall, h⟩, ?_⟩
    rintro (⟨first, hfirst, hrejects⟩ | ⟨_, h⟩)
    · exact absurd hrejects (hall.accepts first (List.mem_of_mem_head? hfirst))
    · exact h
  · have herror : (c.call rt (.insertMany docs)).1.isSome = true :=
      (insertMany_error_iff docs).mpr hall
    cases docs with
    | nil => exact absurd ⟨fun _ hd => (nomatch hd), List.nodup_nil⟩ hall
    | cons doc docs =>
      by_cases h : c.Rejects rt doc
      · refine iff_of_true (soundAfter_of_unchanged hc ?_) (Or.inl ⟨doc, rfl, h⟩)
        obtain ⟨e, he⟩ := insertMany_of_rejects h docs
        change (c.insertMany rt (doc :: docs)).2 = c
        rw [he]
      · -- the first document is stored, and the batch fails later
        refine iff_of_false (fun hafter => ?_) ?_
        · have hsame : (c.insertMany rt (doc :: docs)).2 = c := hafter.2 herror
          have hstored : doc.id ∈ (c.insertMany rt (doc :: docs)).2.documents := by
            rw [(insertMany_of_not_rejects h).1]
            refine insertMany_induction (P := fun c' => doc.id ∈ c'.documents) ?_ docs ?_
            · intro c' d hmem
              by_cases hd : c'.Rejects rt d
              · obtain ⟨e, he⟩ := insert_of_rejects hd
                rw [he]
                exact hmem
              · rw [← AList.lookup_isSome, lookup_insert_of_not_rejects hd]
                split_ifs
                · rfl
                · exact AList.lookup_isSome.mpr hmem
            · rw [← AList.lookup_isSome, lookup_insert_of_not_rejects h, if_pos rfl]
              rfl
          rw [hsame] at hstored
          exact h (Or.inr hstored)
        · rintro (⟨first, hfirst, hrejects⟩ | ⟨hacceptable, _⟩)
          · obtain rfl : doc = first := Option.some.inj hfirst
            exact h hrejects
          · exact hall hacceptable

theorem soundAfter_update_iff (hc : Sound rt c) (id : DocumentId) (doc : Document) :
    SoundAfter rt c (.update id doc) ↔ Keeps rt c (.update id doc) := by
  by_cases hfails : ¬ c.Accepts rt doc ∨ c.documents.lookup id = none
  · refine iff_of_true (soundAfter_of_unchanged hc ?_) fun haccepts hmem => ?_
    · obtain ⟨e, he⟩ := update_of_fails hfails
      change (c.update rt id doc).2 = c
      rw [he]
    · rcases hfails with h | h
      · exact absurd haccepts h
      · exact absurd hmem (AList.lookup_eq_none.mp h)
  · obtain ⟨haccepts, hsome⟩ := not_or.mp hfails
    replace haccepts := not_not.mp haccepts
    obtain ⟨oldDoc, hold⟩ := Option.ne_none_iff_exists'.mp hsome
    have hupdate := update_of_accepts haccepts hold
    have hmem : id ∈ c.documents := AList.lookup_isSome.mp (hold ▸ rfl)
    have hok : (c.call rt (.update id doc)).1.isSome = false := by
      change (errorOf (c.update rt id doc).1).isSome = false
      rw [hupdate]
      rfl
    rw [soundAfter_iff_of_ok hok]
    refine (sound_insert_iff hc id doc haccepts ?_ ?_ ?_).trans
      ⟨fun h _ _ => h, fun h => h haccepts hmem⟩
    · intro id'
      change (c.update rt id doc).2.documents.lookup id' = _
      rw [hupdate]
      exact Table.lookup_insert c.documents id id' doc
    · change (c.update rt id doc).2.schema = _
      rw [hupdate]
    · change (c.update rt id doc).2.uniqueFields = _
      rw [hupdate]
      exact (uniqueFields_indexDocument (c.unindexDocument rt oldDoc) doc).trans
        (uniqueFields_unindexDocument c oldDoc)

theorem soundAfter_delete (hc : Sound rt c) (id : DocumentId) :
    SoundAfter rt c (.delete id) := by
  cases hold : c.documents.lookup id with
  | none =>
    refine soundAfter_of_unchanged hc ?_
    change (c.delete rt id).2 = c
    rw [delete, hold]
  | some doc =>
    have hdelete : c.delete rt id =
        (.ok doc, unindexDocument rt { c with documents := c.documents.erase id } doc) := by
      rw [delete, hold]
    have hok : (c.call rt (.delete id)).1.isSome = false := by
      change (errorOf (c.delete rt id).1).isSome = false
      rw [hdelete]
      rfl
    rw [soundAfter_iff_of_ok hok]
    change Sound rt (c.delete rt id).2
    rw [hdelete]
    have hstored {id' : DocumentId} {d : Document}
        (hd : (c.documents.erase id).lookup id' = some d) : c.documents.lookup id' = some d :=
      Table.lookup_of_lookup_erase hd
    refine ⟨fun id' d hd => hc.ownId id' d (hstored hd),
      fun id' d hd => hc.valid id' d (hstored hd),
      fun field hfield id₁ id₂ d₁ d₂ hne h₁ h₂ => ?_⟩
    rw [uniqueFields_unindexDocument] at hfield
    exact hc.distinct field hfield id₁ id₂ d₁ d₂ hne (hstored h₁) (hstored h₂)

theorem uniqueFields_createIndex (field : String) (indexType : IndexType) :
    (c.createIndex rt field indexType).uniqueFields =
      c.uniqueFields ++ if indexType = .unique then [field] else [] := by
  obtain ⟨hfield, htype⟩ := @foldl_indexDocument rt c.documents.values
    (DocumentIndex.new field indexType)
  change _ = indexType at htype
  rw [uniqueFields, createIndex, List.filter_append, List.map_append, List.filter_singleton,
    htype]
  by_cases hunique : indexType = .unique
  · rw [decide_eq_true hunique, if_pos hunique, cond_true, List.map_singleton, hfield]
    rfl
  · rw [decide_eq_false hunique, if_neg hunique, cond_false]
    rfl

theorem soundAfter_createIndex_iff (hc : Sound rt c) (field : String) (indexType : IndexType) :
    SoundAfter rt c (.createIndex field indexType) ↔ Keeps rt c (.createIndex field indexType) := by
  rw [soundAfter_iff_of_ok (by rfl)]
  change Sound rt (c.createIndex rt field indexType) ↔ _
  constructor
  · intro h hunique
    refine h.distinct field ?_
    rw [uniqueFields_createIndex, if_pos hunique]
    exact List.mem_append_right _ List.mem_cons_self
  · intro h
    refine ⟨hc.ownId, hc.valid, fun field' hfield => ?_⟩
    rw [uniqueFields_createIndex] at hfield
    rcases List.mem_append.mp hfield with hold | hnew
    · exact hc.distinct field' hold
    · split_ifs at hnew with hunique
      · rw [List.mem_singleton.mp hnew]
        exact h hunique
      · cases hnew

theorem soundAfter_dropIndex (hc : Sound rt c) (field : String) :
    SoundAfter rt c (.dropIndex field) := by
  rw [soundAfter_iff_of_ok (by rfl)]
  refine ⟨hc.ownId, hc.valid, fun field' hfield => hc.distinct field' ?_⟩
  obtain ⟨idx, hidx, rfl⟩ := List.mem_map.mp hfield
  obtain ⟨hmem, hunique⟩ := List.mem_filter.mp hidx
  exact List.mem_map_of_mem (List.mem_filter.mpr ⟨(List.mem_filter.mp hmem).1, hunique⟩)

theorem soundAfter_setSchema_iff (hc : Sound rt c) (schema : Schema) :
    SoundAfter rt c (.setSchema schema) ↔ Keeps rt c (.setSchema schema) := by
  rw [soundAfter_iff_of_ok (by rfl)]
  constructor
  · exact fun h id d hd => h.valid id d hd schema rfl
  · intro h
    refine ⟨hc.ownId, fun id d hd schema' heq => ?_, hc.distinct⟩
    obtain rfl := Option.some.inj heq
    exact h id d hd

theorem soundAfter_iff (hc : Sound rt c) (a : Call) : SoundAfter rt c a ↔ Keeps rt c a := by
  cases a with
  | insert doc => exact soundAfter_insert_iff hc doc
  | insertMany docs => exact soundAfter_insertMany_iff hc docs
  | update id doc => exact soundAfter_update_iff hc id doc
  | delete id => exact iff_of_true (soundAfter_delete hc id) trivial
  | createIndex field indexType => exact soundAfter_createIndex_iff hc field indexType
  | dropIndex field => exact iff_of_true (soundAfter_dropIndex hc field) trivial
  | setSchema schema => exact soundAfter_setSchema_iff hc schema

/-- In every run of calls that keep what should hold, it holds of the collection, and a further call
keeps it, and changes nothing where it returns an error, if and only if it is such a call. -/
theorem collection_sound_iff {schema : Option Schema}
    (h : (calls rt schema).Reach (Keeps rt) c) :
    Sound rt c ∧ ∀ a, SoundAfter rt c a ↔ Keeps rt c a := by
  suffices hc : Sound rt c from ⟨hc, soundAfter_iff hc⟩
  refine h.invariant ⟨fun _ _ hd => (nomatch hd), fun _ _ hd => (nomatch hd),
    fun _ _ _ _ _ _ _ hd => (nomatch hd)⟩ ?_
  intro c a c' _ hc hkeeps hstep
  obtain rfl := Option.some.inj hstep
  exact ((soundAfter_iff hc a).mpr hkeeps).1

/-! ## A unique index with two documents under one value -/

def emailDocument (id : DocumentId) (email : String) : Document :=
  ⟨id, [("email", .str email)]⟩

/-- A collection with a unique index on the address, and a document. -/
def emailCollection : Collection :=
  ((Collection.createIndex asciiRuntime new "email" .unique).insert asciiRuntime
    (emailDocument "1" "a@b.c")).2

/-- A second document with another address is inserted. -/
theorem collection_sound_email :
    let c := (emailCollection.insert asciiRuntime (emailDocument "2" "d@e.f")).2
    c.documents.keys.length = 2 ∧ Sound asciiRuntime c ∧
      ∀ a, SoundAfter asciiRuntime c a ↔ Keeps asciiRuntime c a := by
  have hreach : (calls asciiRuntime none).Reach (Keeps asciiRuntime)
      (emailCollection.insert asciiRuntime (emailDocument "2" "d@e.f")).2 := by
    refine .step (a := .insert (emailDocument "2" "d@e.f"))
      (.step (a := .insert (emailDocument "1" "a@b.c"))
        (.step (a := .createIndex "email" .unique) .init ?_ rfl) ?_ rfl) ?_ rfl
    · exact fun _ _ _ _ _ _ hd => nomatch hd
    · exact fun _ _ _ hd => nomatch hd
    · intro _ id d hd field hfield
      obtain rfl : field = "email" := List.mem_singleton.mp hfield
      obtain ⟨rfl, rfl⟩ := Sigma.mk.inj (List.mem_singleton.mp (AList.mem_lookup_iff.mp hd))
      constructor
      · rintro ⟨v, w, hv, hw, heq⟩
        obtain rfl := Option.some.inj hv
        obtain rfl := Option.some.inj hw
        exact absurd heq (by decide)
      · rintro ⟨v, w, hv, hw, heq⟩
        obtain rfl := Option.some.inj hv
        obtain rfl := Option.some.inj hw
        exact absurd heq (by decide)
  exact ⟨by decide +kernel, collection_sound_iff hreach⟩

/-- A second document with the same address is inserted without an error. -/
theorem unique_not_kept : ∃ c, (calls asciiRuntime none).Reachable c ∧
    "email" ∈ c.uniqueFields ∧ ¬ Sound asciiRuntime c := by
  have hreach : (calls asciiRuntime none).Reachable
      (emailCollection.insert asciiRuntime (emailDocument "2" "a@b.c")).2 :=
    .step (a := .insert (emailDocument "2" "a@b.c")) (.step (a := .insert (emailDocument "1" "a@b.c"))
      (.step (a := .createIndex "email" .unique) .init trivial rfl) trivial rfl) trivial rfl
  have hfield : "email" ∈
      (emailCollection.insert asciiRuntime (emailDocument "2" "a@b.c")).2.uniqueFields := by
    decide +kernel
  refine ⟨_, hreach, hfield, fun h => ?_⟩
  exact h.distinct "email" hfield "1" "2" (emailDocument "1" "a@b.c") (emailDocument "2" "a@b.c") (by decide) rfl rfl
    ⟨.str "a@b.c", .str "a@b.c", rfl, rfl, rfl⟩

end Collection

end Documents

end AegisDB
