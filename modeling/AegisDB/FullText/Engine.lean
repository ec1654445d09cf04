import Mathlib.Data.List.Sort
import AegisDB.FullText.InvertedIndex
import AegisDB.Library.JsonFilter

/-!
# The full-text index

Documents have names, and the number of a document is where it was put when it was inserted; a
document that is replaced or deleted leaves an empty place.  Searches may have a filter for the
metadata.
-/

namespace AegisDB.FullText

/-- A stored document, with its tokens. -/
structure StoredDoc (ν : Type) where
  id : String
  text : String
  metadata : Json ν
  tokens : List String

/-- A ranked search result. -/
structure SearchHit (F ν : Type) where
  id : String
  score : F
  metadata : Json ν

/-- A full-text index. -/
structure Index (ν : Type) where
  inverted : InvertedIndex := {}
  idToDoc : Table String ℕ := ∅
  docs : List (Option (StoredDoc ν)) := []

/-- Exact-match metadata filter (every key in the filter must equal the document's). -/
def matchesFilter {ν : Type} [DecidableEq ν] (metadata filter : Json ν) : Bool :=
  metadata.passes filter

namespace Index

variable {ν : Type} (letters : Letters)

/-- The document of a number is taken away, which must be the number of a place. -/
def clear (self : Index ν) (doc : ℕ) : Option (Index ν) :=
  if doc < self.docs.length then
    some
      { self with
        inverted :=
          match self.docs[doc]?.join with
          | some prev => self.inverted.remove doc prev.tokens
          | none => self.inverted
        docs := self.docs.set doc none }
  else none

/-- Insert a document, or replace that with its name. -/
def upsert (self : Index ν) (id text : String) (metadata : Json ν) : Option (Index ν) := do
  let tokens := tokenize letters text
  let self ← match self.idToDoc.lookup id with
    | some old => self.clear old
    | none => some self
  let doc := self.docs.length % 2 ^ 32
  some
    { inverted := self.inverted.add doc tokens
      docs := self.docs ++ [some { id, text, metadata, tokens }]
      idToDoc := self.idToDoc.insert id doc }

/-- Delete a document; the result is whether there was one. -/
def delete (self : Index ν) (id : String) : Option (Bool × Index ν) :=
  match self.idToDoc.lookup id with
  | some doc => do
    let self ← { self with idToDoc := self.idToDoc.erase id }.clear doc
    some (true, self)
  | none => some (false, self)

variable {F : Type} [LinearOrder F] [DecidableEq ν]

/-- The hits, by falling scores and then by names. -/
def before (a b : SearchHit F ν) : Prop :=
  b.score < a.score ∨ b.score = a.score ∧ a.id ≤ b.id

omit [DecidableEq ν] in
instance : DecidableRel (before (F := F) (ν := ν)) :=
  fun _ _ => inferInstanceAs (Decidable (_ ∨ _ ∧ _))

/-- The hit of a document with a score, if it passes the filter. -/
def hit (self : Index ν) (filter : Json ν) (doc : ℕ) (score : F) : Option (SearchHit F ν) := do
  let d ← self.docs[doc]?.join
  if filter.isFilter && !matchesFilter d.metadata filter then none
  else some { id := d.id, score, metadata := d.metadata }

/-- The best hits of a query. -/
def search (bm25 : Bm25 F) (self : Index ν) (query : String) (k : ℕ) (filter : Json ν) :
    List (SearchHit F ν) :=
  let scores := self.inverted.score bm25 (tokenize letters query)
  let hits := scores.entries.filterMap fun e => self.hit filter e.1 e.2
  (hits.insertionSort before).take k

end Index

end AegisDB.FullText
