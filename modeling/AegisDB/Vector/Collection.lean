import AegisDB.Library.JsonFilter
import AegisDB.Vector.GraphRun

/-!
# Collections of vectors

A collection gives its vectors names: under a name stands the node that was inserted last for it, and
a node that is replaced or deleted stays in the index without a name.  Searches may ask for hits
whose metadata match a filter; they then fetch more than are asked for.
-/

namespace AegisDB.Vector

/-- Errors of a collection. -/
inductive VectorError where
  | dimensionMismatch (expected got : ℕ)
  | invalidSearchParam (message : String)
deriving DecidableEq

def MAX_SEARCH_K : ℕ :=
  10000

/-- Largest size of the list of candidates that a search may ask for. -/
def MAX_SEARCH_EF : ℕ :=
  100000

/-- Per-collection configuration. -/
structure CollectionConfig where
  dim : ℕ
  metric : Metric

def Metric.prepare {F : Type} (self : Metric) (floats : Floats F) (vector : List F) : List F :=
  if self.normalizes then normalize floats vector else vector

/-- A single search hit. -/
structure SearchHit (F ν : Type) where
  id : String
  score : F
  distance : F
  metadata : Json ν

/-- A collection: its index, the node of a name, and the metadata and the name of a node. -/
structure Collection (F ν : Type) where
  config : CollectionConfig
  index : HnswIndex F
  idToNode : Table String ℕ := ∅
  nodeMeta : List (Json ν) := []
  nodeId : List (Option String) := []

/-! ## Filters -/

section Filters

variable {ν : Type}

/-- Exact-match metadata filter: every key in the filter must equal the same key in the metadata.
An empty filter matches everything. -/
def matchesFilter [DecidableEq ν] (metadata filter : Json ν) : Bool :=
  metadata.passes filter

def hasFilter (filter : Json ν) : Bool :=
  filter.isFilter

end Filters

namespace Collection

variable {F ν : Type}

def new (config : CollectionConfig) (hnsw : HnswConfig) : Collection F ν :=
  { config, index := HnswIndex.new F config.dim config.metric hnsw }

/-- What is stored of a vector, which must have the dimension of the collection. -/
def prepared (floats : Floats F) (self : Collection F ν) (vector : List F) :
    Except VectorError (List F) :=
  if vector.length = self.config.dim then .ok (self.config.metric.prepare floats vector)
  else .error (.dimensionMismatch self.config.dim vector.length)

/-- A node loses its name and its metadata. -/
def forget (self : Collection F ν) (node : ℕ) : Except Panic (Collection F ν) := do
  let index ← self.index.markDeleted node
  let _ ← lookup self.nodeId[node]?
  let _ ← lookup self.nodeMeta[node]?
  .ok
    { self with
      index
      nodeId := self.nodeId.set node none
      nodeMeta := self.nodeMeta.set node .null }

variable [LinearOrder F] (floats : Floats F)

/-- Insert a vector under a name, or replace that which is there. -/
def upsert (self : Collection F ν) (id : String) (vector : List F) (metadata : Json ν)
    (level : ℕ) : Except Panic (Except VectorError (Collection F ν)) :=
  match self.prepared floats vector with
  | .error e => .ok (.error e)
  | .ok prepared => do
    let self ← match self.idToNode.lookup id with
      | some old => self.forget old
      | none => .ok self
    let (node, index) ← self.index.insert floats prepared level
    .ok (.ok
      { self with
        index
        nodeMeta := self.nodeMeta ++ [metadata]
        nodeId := self.nodeId ++ [some id]
        idToNode := self.idToNode.insert id node })

omit [LinearOrder F] in
/-- Delete the vector under a name; the result is whether there was one. -/
def delete (self : Collection F ν) (id : String) : Except Panic (Bool × Collection F ν) :=
  match self.idToNode.lookup id with
  | some node => do
    let self ← { self with idToNode := self.idToNode.erase id }.forget node
    .ok (true, self)
  | none => .ok (false, self)

variable [DecidableEq ν]

omit [LinearOrder F] in
/-- Up to so many hits that match a filter, in the order in which their nodes were found. -/
def hits (self : Collection F ν) (k : ℕ) (filter : Json ν) :
    List (Cand F ℕ) → List (SearchHit F ν) → Except Panic (List (SearchHit F ν))
  | [], hits => .ok hits
  | c :: raw, hits => do
    let metadata ← lookup self.nodeMeta[c.node]?
    if hasFilter filter && !matchesFilter metadata filter then self.hits k filter raw hits
    else
      match ← lookup self.nodeId[c.node]? with
      | none => self.hits k filter raw hits
      | some id =>
        let hit :=
          { id
            score := floats.score self.config.metric c.dist
            distance := c.dist
            metadata }
        if k ≤ (hits ++ [hit]).length then .ok (hits ++ [hit])
        else self.hits k filter raw (hits ++ [hit])

/-- The nearest vectors to a query. -/
def search (self : Collection F ν) (query : List F) (k : ℕ) (ef : Option ℕ) (filter : Json ν) :
    Except Panic (Except VectorError (List (SearchHit F ν))) :=
  if MAX_SEARCH_K < k then .ok (.error (.invalidSearchParam "k must be at most 10000"))
  else if ef.any (MAX_SEARCH_EF < ·) then
    .ok (.error (.invalidSearchParam "ef must be at most 100000"))
  else if k = 0 then .ok (.ok [])
  else
    match self.prepared floats query with
    | .error e => .ok (.error e)
    | .ok prepared => do
      -- more is fetched when hits may be filtered out
      let fetch := if hasFilter filter then max (min (k * 10) self.index.live) k else k
      let raw ← self.index.search floats prepared fetch (ef.getD (max (k * 4) 64))
      let hits ← self.hits floats k filter raw []
      .ok (.ok hits)

end Collection

end AegisDB.Vector
