import AegisDB.Documents.Validation
import AegisDB.Library.Transition

/-!
# Collections of documents

A collection has documents under their ids, indexes, and perhaps a schema.  A call that changes it
returns an error or succeeds, and leaves a collection behind in either case.  The order in which the
candidates from an index are visited is that of a hash set, so it is a parameter of `find`.
-/

namespace AegisDB

namespace Documents

/-- A collection of documents. -/
structure Collection where
  documents : Table DocumentId Document
  indexes : List DocumentIndex
  schema : Option Schema

/-- Errors that can occur in collection operations. -/
inductive CollectionError where
  | duplicateId (id : DocumentId)
  | notFound (id : DocumentId)
  | validationFailed (errors : List String)

namespace Collection

variable (rt : Runtime)

def new : Collection :=
  ⟨∅, [], none⟩

def indexDocument (c : Collection) (doc : Document) : Collection :=
  { c with indexes := c.indexes.map fun idx => idx.indexDocument rt doc }

def unindexDocument (c : Collection) (doc : Document) : Collection :=
  { c with indexes := c.indexes.map fun idx => idx.unindexDocument rt doc }

/-- The errors of the schema, if it does not accept a document. -/
def validationErrors (c : Collection) (doc : Document) : Option (List String) :=
  match c.schema with
  | some schema =>
    let result := schema.validate rt doc
    if !result.isValid then some result.errors else none
  | none => none

/-- Insert a document. -/
def insert (c : Collection) (doc : Document) : Except CollectionError DocumentId × Collection :=
  match c.validationErrors rt doc with
  | some errors => (.error (.validationFailed errors), c)
  | none =>
    if doc.id ∈ c.documents then (.error (.duplicateId doc.id), c)
    else
      (.ok doc.id,
        indexDocument rt { c with documents := c.documents.insert doc.id doc } doc)

/-- Insert multiple documents, up to the first that cannot be inserted. -/
def insertMany (c : Collection) :
    List Document → Except CollectionError (List DocumentId) × Collection
  | [] => (.ok [], c)
  | doc :: docs =>
    match c.insert rt doc with
    | (.error e, c) => (.error e, c)
    | (.ok id, c) =>
      match c.insertMany docs with
      | (.error e, c) => (.error e, c)
      | (.ok ids, c) => (.ok (id :: ids), c)

/-- Update a document. -/
def update (c : Collection) (id : DocumentId) (doc : Document) :
    Except CollectionError Unit × Collection :=
  match c.validationErrors rt doc with
  | some errors => (.error (.validationFailed errors), c)
  | none =>
    match c.documents.lookup id with
    | none => (.error (.notFound id), c)
    | some oldDoc =>
      let c := c.unindexDocument rt oldDoc
      (.ok (), indexDocument rt { c with documents := c.documents.insert id doc } doc)

def delete (c : Collection) (id : DocumentId) : Except CollectionError Document × Collection :=
  match c.documents.lookup id with
  | some doc => (.ok doc, unindexDocument rt { c with documents := c.documents.erase id } doc)
  | none => (.error (.notFound id), c)

def createIndex (c : Collection) (field : String) (indexType : IndexType) : Collection :=
  let index := c.documents.values.foldl (fun index doc => index.indexDocument rt doc)
    (DocumentIndex.new field indexType)
  { c with indexes := c.indexes ++ [index] }

def dropIndex (c : Collection) (field : String) : Collection :=
  { c with indexes := c.indexes.filter fun idx => idx.field ≠ field }

def setSchema (c : Collection) (schema : Schema) : Collection :=
  { c with schema := some schema }

/-! ## Queries -/

/-- The first index that can answer an equality on a field. -/
def indexOn (indexes : List DocumentIndex) (field : String) : Option DocumentIndex :=
  indexes.find? fun idx => idx.field = field && idx.isKeyed

/-- The candidates that the filter narrows the others to, if it is an equality on an indexed
field. -/
def narrow (indexes : List DocumentIndex) (result : Option (Finset DocumentId)) :
    Filter → Option (Finset DocumentId)
  | .eq field value =>
    match indexOn indexes field with
    | some index =>
      match result with
      | some current => some (current ∩ index.findEq value)
      | none => some (index.findEq value)
    | none => result
  | _ => result

/-- The documents that the indexes leave for the filters, `none` if all have to be scanned. -/
def findIndexedCandidates (filters : List Filter) (indexes : List DocumentIndex) :
    Option (Finset DocumentId) :=
  filters.foldl (narrow indexes) none

def Enumerates (order : Finset DocumentId → List DocumentId) : Prop :=
  ∀ ids, (order ids).Nodup ∧ ∀ id, id ∈ order ids ↔ id ∈ ids

/-- Find documents matching a query. -/
def find (order : Finset DocumentId → List DocumentId) (c : Collection) (query : Query) :
    QueryResult :=
  match findIndexedCandidates query.filters c.indexes with
  | some ids =>
    { documents := query.finish
        (((order ids).filterMap fun id => c.documents.lookup id).filter (query.matches rt))
      totalScanned := ids.card }
  | none =>
    { documents := query.finish (c.documents.values.filter (query.matches rt))
      totalScanned := c.documents.values.length }

/-! ## Runs -/

/-- The calls that change a collection. -/
inductive Call where
  | insert (doc : Document)
  | insertMany (docs : List Document)
  | update (id : DocumentId) (doc : Document)
  | delete (id : DocumentId)
  | createIndex (field : String) (indexType : IndexType)
  | dropIndex (field : String)
  | setSchema (schema : Schema)

def errorOf {α : Type} : Except CollectionError α → Option CollectionError
  | .error e => some e
  | .ok _ => none

/-- What a call returns, if an error, and what it leaves behind. -/
def call (c : Collection) : Call → Option CollectionError × Collection
  | .insert doc => (errorOf (c.insert rt doc).1, (c.insert rt doc).2)
  | .insertMany docs => (errorOf (c.insertMany rt docs).1, (c.insertMany rt docs).2)
  | .update id doc => (errorOf (c.update rt id doc).1, (c.update rt id doc).2)
  | .delete id => (errorOf (c.delete rt id).1, (c.delete rt id).2)
  | .createIndex field indexType => (none, c.createIndex rt field indexType)
  | .dropIndex field => (none, c.dropIndex field)
  | .setSchema schema => (none, c.setSchema schema)

/-- A collection that starts empty, with a schema or without. -/
def calls (schema : Option Schema) : System Collection Call where
  init := ⟨∅, [], schema⟩
  step c a := some (c.call rt a).2

/-- Lower case, letters and digits of ASCII texts, and no regular expressions. -/
def asciiRuntime : Runtime where
  toLowercase := String.toLower
  isAlphanumeric := Char.isAlphanum
  isMatch _ _ := none
  isMatchLimited _ _ := .ok false
  floatText _ := "0"

/-! ## What the calls do -/

def Accepts (c : Collection) (doc : Document) : Prop :=
  ∀ schema, c.schema = some schema → (schema.validate rt doc).isValid = true

def Rejects (c : Collection) (doc : Document) : Prop :=
  ¬ c.Accepts rt doc ∨ doc.id ∈ c.documents

variable {rt} {c : Collection} {doc : Document} {id : DocumentId}

theorem validationErrors_eq_none_iff : c.validationErrors rt doc = none ↔ c.Accepts rt doc := by
  rw [validationErrors, Accepts]
  cases c.schema with
  | none => simp
  | some schema => simp

theorem insert_of_rejects (h : c.Rejects rt doc) :
    ∃ e, c.insert rt doc = (.error e, c) := by
  rw [insert]
  cases herrors : c.validationErrors rt doc with
  | some errors => exact ⟨_, rfl⟩
  | none =>
    rcases h with h | h
    · exact absurd (validationErrors_eq_none_iff.mp herrors) h
    · exact ⟨_, if_pos h⟩

theorem insert_of_not_rejects (h : ¬ c.Rejects rt doc) :
    c.insert rt doc =
      (.ok doc.id, indexDocument rt { c with documents := c.documents.insert doc.id doc } doc) := by
  obtain ⟨haccepts, hfresh⟩ := not_or.mp h
  rw [insert, validationErrors_eq_none_iff.mpr (not_not.mp haccepts)]
  exact if_neg hfresh

theorem update_of_fails (h : ¬ c.Accepts rt doc ∨ c.documents.lookup id = none) :
    ∃ e, c.update rt id doc = (.error e, c) := by
  rw [update]
  cases herrors : c.validationErrors rt doc with
  | some errors => exact ⟨_, rfl⟩
  | none =>
    rcases h with h | h
    · exact absurd (validationErrors_eq_none_iff.mp herrors) h
    · rw [h]
      exact ⟨_, rfl⟩

theorem update_of_accepts (h : c.Accepts rt doc) {oldDoc : Document}
    (hold : c.documents.lookup id = some oldDoc) :
    c.update rt id doc = (.ok (), { c with
      documents := c.documents.insert id doc
      indexes := (c.indexes.map fun idx => idx.unindexDocument rt oldDoc).map
        fun idx => idx.indexDocument rt doc }) := by
  rw [update, validationErrors_eq_none_iff.mpr h, hold]
  rfl

theorem foldl_indexDocument (docs : List Document) (index : DocumentIndex) :
    (docs.foldl (fun index doc => index.indexDocument rt doc) index).field = index.field ∧
      (docs.foldl (fun index doc => index.indexDocument rt doc) index).indexType =
        index.indexType := by
  induction docs generalizing index with
  | nil => exact ⟨rfl, rfl⟩
  | cons doc docs ih =>
    rw [List.foldl_cons]
    obtain ⟨hfield, htype⟩ := ih (index.indexDocument rt doc)
    exact ⟨hfield.trans DocumentIndex.field_indexDocument,
      htype.trans DocumentIndex.indexType_indexDocument⟩

theorem insertMany_induction {P : Collection → Prop}
    (hinsert : ∀ c doc, P c → P (c.insert rt doc).2) (docs : List Document) (h : P c) :
    P (c.insertMany rt docs).2 := by
  induction docs generalizing c with
  | nil => exact h
  | cons doc docs ih =>
    have hnext := hinsert c doc h
    rw [insertMany]
    cases hresult : c.insert rt doc with
    | mk result c' =>
      rw [hresult] at hnext
      cases result with
      | error e => exact hnext
      | ok id =>
        have hrest := ih hnext
        dsimp only
        cases hmany : c'.insertMany rt docs with
        | mk many c'' =>
          rw [hmany] at hrest
          cases many with
          | error e => exact hrest
          | ok ids => exact hrest

end Collection

end Documents

end AegisDB
