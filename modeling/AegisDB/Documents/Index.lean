import AegisDB.Documents.Value
import Mathlib.Data.Finset.Insert

/-!
# Indexes on documents

An index has, for each key, the documents with that key in its field; lists, objects and nulls share
one key, and a double-precision number is filed under its bits.  So equal values have one key unless
they are zeros of different signs (`fromValue_eq_iff`).
-/

namespace AegisDB

namespace Documents

/-- Type of document index. -/
inductive IndexType where
  | hash
  | btree
  | fullText
  | unique
deriving DecidableEq

/-! ## Keys -/

/-- Key for hash-based indexing. -/
inductive IndexKey where
  | null
  | bool (b : Bool)
  | int (n : Int64)
  | string (s : String)
  | float (f : Binary64)
deriving DecidableEq

/-- The key of a value. -/
def IndexKey.fromValue : Value → IndexKey
  | .null => .null
  | .bool b => .bool b
  | .num (.int n) => .int n
  | .num (.float f) => .float f
  | .str s => .string s
  | .arr _ | .obj _ => .null

/-- Equal values have one key unless they are zeros of different signs. -/
theorem fromValue_eq_iff {v w : Value} (h : valueEq v w = true) :
    IndexKey.fromValue v = IndexKey.fromValue w ↔ ¬ OtherZero v w := by
  cases v with
  | null => cases w <;> simp_all [valueEq, IndexKey.fromValue, OtherZero]
  | bool a => cases w <;> simp_all [valueEq, IndexKey.fromValue, OtherZero]
  | str a => cases w <;> simp_all [valueEq, IndexKey.fromValue, OtherZero]
  | arr a => cases w <;> simp_all [valueEq, IndexKey.fromValue, OtherZero]
  | obj a => cases w <;> simp_all [valueEq, IndexKey.fromValue, OtherZero]
  | num a =>
    cases w with
    | num b =>
      rw [valueEq] at h
      cases a with
      | int n => cases b <;> simp_all [Number.eq, IndexKey.fromValue, OtherZero]
      | float f =>
        cases b with
        | int m => cases h
        | float g =>
          rw [Number.eq, beq_iff_eq] at h
          rw [IndexKey.fromValue, IndexKey.fromValue, IndexKey.float.injEq, OtherZero]
          constructor
          · exact fun heq hother => hother.1 heq
          · intro hother
            rcases eq_or_zero_of_partialCmp h with heq | hzero
            · exact heq
            · exact not_not.mp fun hne => hother ⟨hne, hzero⟩
    | _ => cases h

/-! ## Sets of documents under keys -/

section Sets

variable {κ : Type*} [DecidableEq κ]

def under (t : Table κ (Finset DocumentId)) (key : κ) : Finset DocumentId :=
  (t.lookup key).getD ∅

def addUnder (t : Table κ (Finset DocumentId)) (key : κ) (id : DocumentId) :
    Table κ (Finset DocumentId) :=
  t.insert key (insert id ((t.lookup key).getD ∅))

/-- Remove a document from a key, and the key with the last one. -/
def removeUnder (t : Table κ (Finset DocumentId)) (key : κ) (id : DocumentId) :
    Table κ (Finset DocumentId) :=
  match t.lookup key with
  | some ids => if ids.erase id = ∅ then t.erase key else t.insert key (ids.erase id)
  | none => t

theorem mem_under_addUnder {t : Table κ (Finset DocumentId)} {key key' : κ} {id x : DocumentId} :
    x ∈ under (addUnder t key id) key' ↔ x ∈ under t key' ∨ (x = id ∧ key' = key) := by
  rw [under, under, addUnder, Table.lookup_insert]
  split_ifs with hkey
  · rw [hkey, Option.getD_some, Finset.mem_insert, or_comm, and_iff_left rfl]
  · rw [or_iff_left fun h => hkey h.2]

theorem mem_under_removeUnder {t : Table κ (Finset DocumentId)} {key key' : κ}
    {id x : DocumentId} :
    x ∈ under (removeUnder t key id) key' ↔ x ∈ under t key' ∧ ¬ (x = id ∧ key' = key) := by
  rw [under, under, removeUnder]
  by_cases hkey : key' = key
  · subst hkey
    cases hids : t.lookup key' with
    | none => simp [hids]
    | some ids =>
      have hmem : x ∈ ids.erase id ↔ x ∈ ids ∧ ¬ (x = id ∧ key' = key') := by
        rw [Finset.mem_erase, and_comm, and_iff_left rfl]
      rw [Option.getD_some, ← hmem]
      dsimp only
      split_ifs with hempty
      · rw [hempty, AList.lookup_erase, Option.getD_none]
      · rw [AList.lookup_insert, Option.getD_some]
  · rw [and_iff_left fun h => hkey h.2]
    cases hids : t.lookup key with
    | none => rfl
    | some ids =>
      dsimp only
      split_ifs with hempty
      · rw [AList.lookup_erase_ne hkey]
      · rw [AList.lookup_insert_ne hkey]

end Sets

/-! ## Words -/

/-- What the store takes from elsewhere: lower case, letters and digits, regular expressions (`none`
or an error where a pattern is not one), and the texts of numbers. -/
structure Runtime where
  toLowercase : String → String
  isAlphanumeric : Char → Bool
  isMatch : String → String → Option Bool
  /-- The same with the limit on the size of the automaton. -/
  isMatchLimited : String → String → Except String Bool
  floatText : Binary64 → String

/-- Inverted index for full-text search. -/
structure InvertedIndex where
  terms : Table String (Finset DocumentId) := ∅
  docTerms : Table DocumentId (Finset String) := ∅

namespace InvertedIndex

variable (rt : Runtime)

/-- The words of a text, in lower case and of at least two bytes. -/
def tokenize (text : String) : List String :=
  (((rt.toLowercase text).toList.splitOnP fun c => !rt.isAlphanumeric c).map String.ofList).filter
    fun s => s.utf8ByteSize ≥ 2

def indexDocument (idx : InvertedIndex) (docId : DocumentId) (text : String) : InvertedIndex where
  terms := (tokenize rt text).foldl
    (fun terms token => addUnder terms token docId) idx.terms
  docTerms := idx.docTerms.insert docId (tokenize rt text).toFinset

def unindexDocument (idx : InvertedIndex) (docId : DocumentId) (text : String) : InvertedIndex where
  terms := (tokenize rt text).foldl
    (fun terms token => removeUnder terms token docId) idx.terms
  docTerms := idx.docTerms.erase docId

end InvertedIndex

/-! ## Indexes -/

/-- Index for efficient document queries. -/
structure DocumentIndex where
  field : String
  indexType : IndexType
  hashIndex : Table IndexKey (Finset DocumentId)
  textIndex : Option InvertedIndex

namespace DocumentIndex

variable (rt : Runtime)

/-- Create a new index. -/
def new (field : String) (indexType : IndexType) : DocumentIndex where
  field := field
  indexType := indexType
  hashIndex := ∅
  textIndex := if indexType = .fullText then some {} else none

/-- Index a document. -/
def indexDocument (idx : DocumentIndex) (doc : Document) : DocumentIndex :=
  match doc.get idx.field with
  | some value =>
    match idx.indexType with
    | .fullText =>
      match value.toStr with
      | some text =>
        { idx with textIndex := idx.textIndex.map fun t => t.indexDocument rt doc.id text }
      | none => idx
    | _ =>
      { idx with hashIndex := addUnder idx.hashIndex (IndexKey.fromValue value) doc.id }
  | none => idx

/-- Remove a document from the index. -/
def unindexDocument (idx : DocumentIndex) (doc : Document) : DocumentIndex :=
  match doc.get idx.field with
  | some value =>
    match idx.indexType with
    | .fullText =>
      match value.toStr with
      | some text =>
        { idx with textIndex := idx.textIndex.map fun t => t.unindexDocument rt doc.id text }
      | none => idx
    | _ =>
      { idx with hashIndex := removeUnder idx.hashIndex (IndexKey.fromValue value) doc.id }
  | none => idx

def findEq (idx : DocumentIndex) (value : Value) : Finset DocumentId :=
  under idx.hashIndex (IndexKey.fromValue value)

def isKeyed (idx : DocumentIndex) : Bool :=
  idx.indexType = .hash || idx.indexType = .unique || idx.indexType = .btree

variable {rt} {idx : DocumentIndex} {doc : Document}

@[simp] theorem field_indexDocument : (idx.indexDocument rt doc).field = idx.field := by
  rw [indexDocument]
  split
  · split
    · split <;> rfl
    · rfl
  · rfl

@[simp] theorem indexType_indexDocument :
    (idx.indexDocument rt doc).indexType = idx.indexType := by
  rw [indexDocument]
  split
  · split
    · split <;> rfl
    · rfl
  · rfl

@[simp] theorem field_unindexDocument : (idx.unindexDocument rt doc).field = idx.field := by
  rw [unindexDocument]
  split
  · split
    · split <;> rfl
    · rfl
  · rfl

@[simp] theorem indexType_unindexDocument :
    (idx.unindexDocument rt doc).indexType = idx.indexType := by
  rw [unindexDocument]
  split
  · split
    · split <;> rfl
    · rfl
  · rfl

theorem ne_fullText_of_isKeyed (h : idx.isKeyed = true) : idx.indexType ≠ .fullText := by
  intro htext
  rw [isKeyed, htext] at h
  cases h

theorem mem_under_indexDocument (hkeyed : idx.isKeyed = true) {key : IndexKey}
    {id : DocumentId} : id ∈ under (idx.indexDocument rt doc).hashIndex key ↔
      id ∈ under idx.hashIndex key ∨ (id = doc.id ∧
        ∃ v, doc.get idx.field = some v ∧ IndexKey.fromValue v = key) := by
  rw [indexDocument]
  cases hv : doc.get idx.field with
  | none => simp
  | some value =>
    cases htype : idx.indexType with
    | fullText => exact absurd htype (ne_fullText_of_isKeyed hkeyed)
    | _ => simp [mem_under_addUnder, eq_comm]

theorem mem_under_unindexDocument (hkeyed : idx.isKeyed = true) {key : IndexKey}
    {id : DocumentId} : id ∈ under (idx.unindexDocument rt doc).hashIndex key ↔
      id ∈ under idx.hashIndex key ∧ ¬ (id = doc.id ∧
        ∃ v, doc.get idx.field = some v ∧ IndexKey.fromValue v = key) := by
  rw [unindexDocument]
  cases hv : doc.get idx.field with
  | none => simp
  | some value =>
    cases htype : idx.indexType with
    | fullText => exact absurd htype (ne_fullText_of_isKeyed hkeyed)
    | _ => simp [mem_under_removeUnder, eq_comm]

end DocumentIndex

end Documents

end AegisDB
