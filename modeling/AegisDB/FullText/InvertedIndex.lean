import AegisDB.Library.NestedTable

/-!
# The inverted index

Under each term stand the documents that have it, with the number of times, and beside them the
length of each document and the total length.  Identifiers of documents, numbers of times and
lengths of documents have 32 bits, the total length has 64.  The arithmetic of scores is a
parameter.
-/

namespace AegisDB.FullText

/-- Text tokenization needs which characters belong to words, and their lowercase; the tables of
characters are a parameter. -/
structure Letters where
  isAlphanumeric : Char → Bool
  toLowercase : Char → List Char

/-- A small English stopword list. -/
def STOPWORDS : List String :=
  ["a", "an", "and", "are", "as", "at", "be", "been", "but", "by", "for", "from", "had", "has",
    "have", "he", "i", "if", "in", "into", "is", "it", "its", "no", "not", "of", "on", "or", "our",
    "she", "such", "that", "the", "their", "then", "there", "these", "they", "this", "to", "us",
    "was", "we", "were", "will", "with", "you", "your"]

def isStopword (token : String) : Bool :=
  decide (token ∈ STOPWORDS)

def pushToken (out : List String) (token : String) : List String :=
  if 1 < token.utf8ByteSize && !isStopword token then out ++ [token] else out

/-- The tokens of the characters that are left, after a word that has begun and the tokens so far. -/
def tokenizeFrom (letters : Letters) : List Char → List Char → List String → List String
  | [], cur, out => if cur.isEmpty then out else pushToken out (String.ofList cur)
  | ch :: text, cur, out =>
    if letters.isAlphanumeric ch then
      tokenizeFrom letters text (cur ++ letters.toLowercase ch) out
    else if cur.isEmpty then tokenizeFrom letters text cur out
    else tokenizeFrom letters text [] (pushToken out (String.ofList cur))

/-- Tokenize text into normalized terms; stopwords and very short tokens are left out. -/
def tokenize (letters : Letters) (text : String) : List String :=
  tokenizeFrom letters text.toList [] []

/-- The arithmetic of scores: the average length of so many documents of a total length, whether it
is zero, what a term contributes to the score of a document, and sums. -/
structure Bm25 (F : Type) where
  zero : F
  avgdl : (totalLen n : ℕ) → F
  isZero : F → Bool
  contribution : (n df tf dl : ℕ) → (avgdl : F) → F
  add : F → F → F

/-- The inverted index. -/
structure InvertedIndex where
  /-- The number of times that a term is in a document. -/
  postings : Table String (Table ℕ ℕ) := ∅
  docLen : Table ℕ ℕ := ∅
  totalLen : ℕ := 0

namespace InvertedIndex

/-- The documents with these tokens have one more of each. -/
def addTokens (doc : ℕ) : List String → Table String (Table ℕ ℕ) → Table String (Table ℕ ℕ)
  | [], postings => postings
  | t :: tokens, postings =>
    addTokens doc tokens
      (postings.insert₂ t doc (((postings.lookup₂ t doc).getD 0 + 1) % 2 ^ 32))

def add (self : InvertedIndex) (doc : ℕ) (tokens : List String) : InvertedIndex where
  postings := addTokens doc tokens self.postings
  totalLen := (self.totalLen + tokens.length) % 2 ^ 64
  docLen := self.docLen.insert doc (tokens.length % 2 ^ 32)

/-- The document is taken from each term once. -/
def removeTokens (doc : ℕ) : List String → List String → Table String (Table ℕ ℕ) →
    Table String (Table ℕ ℕ)
  | [], _, postings => postings
  | t :: tokens, seen, postings =>
    if t ∈ seen then removeTokens doc tokens seen postings
    else removeTokens doc tokens (t :: seen) (postings.erase₂ t doc)

/-- Remove a document by re-applying its token list.  No-op if absent. -/
def remove (self : InvertedIndex) (doc : ℕ) (tokens : List String) : InvertedIndex :=
  match self.docLen.lookup doc with
  | some len =>
    { docLen := self.docLen.erase doc
      totalLen := (self.totalLen + 2 ^ 64 - len) % 2 ^ 64
      postings := removeTokens doc tokens [] self.postings }
  | none => self

variable {F : Type} (bm25 : Bm25 F)

/-- The scores after one term more. -/
def scoreTerm (self : InvertedIndex) (avgdl : F) (plist : List (Σ _ : ℕ, ℕ)) (df : ℕ) :
    Table ℕ F → Table ℕ F :=
  match plist with
  | [] => id
  | ⟨doc, tf⟩ :: plist => fun scores =>
    scoreTerm self avgdl plist df
      (scores.insert doc (bm25.add ((scores.lookup doc).getD bm25.zero)
        (bm25.contribution self.docLen.entries.length df tf ((self.docLen.lookup doc).getD 0)
          avgdl)))

/-- The scores after these terms, each of which counts once. -/
def scoreTerms (self : InvertedIndex) (avgdl : F) :
    List String → List String → Table ℕ F → Table ℕ F
  | [], _, scores => scores
  | term :: queryTokens, seen, scores =>
    if term ∈ seen then scoreTerms self avgdl queryTokens seen scores
    else
      match self.postings.lookup term with
      | none => scoreTerms self avgdl queryTokens (term :: seen) scores
      | some plist =>
        scoreTerms self avgdl queryTokens (term :: seen)
          (self.scoreTerm bm25 avgdl plist.entries plist.entries.length scores)

/-- Score every document that matches at least one query term. -/
def score (self : InvertedIndex) (queryTokens : List String) : Table ℕ F :=
  let n := self.docLen.entries.length
  let avgdl := if n = 0 then bm25.zero else bm25.avgdl self.totalLen n
  if n = 0 || bm25.isZero avgdl then ∅ else self.scoreTerms bm25 avgdl queryTokens [] ∅

end InvertedIndex

end AegisDB.FullText
