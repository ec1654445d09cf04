import AegisDB.Library.BeamSearch
import AegisDB.Library.Transition

/-!
# The navigable graph

A from-scratch HNSW index: nodes with their vectors, each with lists of neighbours on its layers.
A node is linked, layer by layer, with the nearest that a search finds, in both directions, and a
list of neighbours that gets too long is pruned.  A deleted node stays in the graph.  The arithmetic
of the components is a parameter; what is looked up outside of a list is an error.
-/

namespace AegisDB.Vector

/-- Distance metric for nearest-neighbor search. -/
inductive Metric where
  | cosine
  | l2
  | dot
deriving DecidableEq

/-- The arithmetic of components: the distance of two vectors of one length, a component of a
normalized vector, the score of a distance, the comparison of distances, which need not be that of
their total order, and the largest. -/
structure Floats (F : Type) where
  distance : Metric → List F → List F → F
  unit : List F → F → F
  score : Metric → F → F
  less : F → F → Bool
  infinity : F

/-- Why an operation ends without a result. -/
inductive Panic where
  | indexOutOfRange
  | capacityOverflow
deriving DecidableEq

def lookup {α : Type} : Option α → Except Panic α
  | some a => .ok a
  | none => .error .indexOutOfRange

@[simp] theorem lookup_some {α : Type} (a : α) : lookup (some a) = .ok a :=
  rfl

@[simp] theorem ok_bind {α β : Type} (a : α) (f : α → Except Panic β) : (.ok a >>= f) = f a :=
  rfl

@[simp] theorem error_bind {α β : Type} (e : Panic) (f : α → Except Panic β) :
    (.error e >>= f) = .error e :=
  rfl

/-- Whether a list of so many node identifiers can be allocated. -/
def capacityFits (m : ℕ) : Bool :=
  decide (4 * m < 2 ^ 63)

/-- Build/search parameters. -/
structure HnswConfig where
  m : ℕ := 16
  efConstruction : ℕ := 200

/-- An HNSW index over `dim`-dimensional vectors under a fixed metric. -/
structure HnswIndex (F : Type) where
  dim : ℕ
  metric : Metric
  vectors : List (List F) := []
  /-- `links[node][layer]` are the neighbours of `node` on `layer`. -/
  links : List (List (List ℕ)) := []
  deleted : List Bool := []
  entryPoint : Option ℕ := none
  maxLayer : ℕ := 0
  m : ℕ
  mMax : ℕ
  mMax0 : ℕ
  efConstruction : ℕ
  live : ℕ := 0

variable {F : Type} [LinearOrder F] (floats : Floats F)

/-- Distance between two vectors: as many components of the second are read as the first has. -/
def Metric.distance (self : Metric) (a b : List F) : Option F :=
  if a.length ≤ b.length then some (floats.distance self a b) else none

def normalize (v : List F) : List F :=
  v.map (floats.unit v)

/-- Whether vectors should be L2-normalized before being stored. -/
def Metric.normalizes : Metric → Bool
  | .cosine => true
  | .l2 | .dot => false

namespace HnswIndex

omit [LinearOrder F] in
variable (F) in
def new (dim : ℕ) (metric : Metric) (config : HnswConfig) : HnswIndex F :=
  let m := max config.m 2
  { dim, metric, m
    mMax := m
    mMax0 := m * 2 % 2 ^ 64
    efConstruction := max config.efConstruction m }

/-! ## Searching -/

def dist (self : HnswIndex F) (node : ℕ) (q : List F) : Option F := do
  let v ← self.vectors[node]?
  self.metric.distance floats v q

/-- What a search on a layer goes over. -/
def terrain (self : HnswIndex F) (q : List F) (layer : ℕ) : BeamSearch.Terrain F ℕ where
  links node := (self.links[node]?).map fun layers => layers[layer]?.getD []
  dist node := self.dist floats node q
  less := floats.less
  infinity := floats.infinity

/-- Up to `ef` closest nodes to `q` on a layer, nearest first; each node is taken once at most. -/
def searchLayer (self : HnswIndex F) (q : List F) (entry : List ℕ) (ef layer : ℕ) :
    Except Panic (List (Cand F ℕ)) :=
  lookup ((self.terrain floats q layer).search entry ef self.links.length)

/-- Greedy descent through the layers above a level. -/
def descend (self : HnswIndex F) (q : List F) (level : ℕ) : ℕ → ℕ → Except Panic ℕ
  | 0, cur => .ok cur
  | lc + 1, cur =>
    if level < lc + 1 then do
      let w ← self.searchLayer floats q [cur] 1 (lc + 1)
      descend self q level lc ((w.head?.map Cand.node).getD cur)
    else .ok cur

/-! ## Choosing neighbours -/

/-- Whether a candidate is closer to the query than to all that are already selected. -/
def isDiverse (self : HnswIndex F) (eVec : List F) (dist : F) : List ℕ → Except Panic Bool
  | [] => .ok true
  | r :: result => do
    let v ← lookup self.vectors[r]?
    let d ← lookup (self.metric.distance floats eVec v)
    if floats.less d dist then .ok false else isDiverse self eVec dist result

/-- Pick diverse neighbours, the nearest first. -/
def pickDiverse (self : HnswIndex F) (m : ℕ) : List (Cand F ℕ) → List ℕ → Except Panic (List ℕ)
  | [], result => .ok result
  | c :: sorted, result =>
    if m ≤ result.length then .ok result
    else do
      let eVec ← lookup self.vectors[c.node]?
      let keep ← self.isDiverse floats eVec c.dist result
      pickDiverse self m sorted (if keep then result ++ [c.node] else result)

/-- Top up with the nearest remaining. -/
def topUp (m : ℕ) : List (Cand F ℕ) → List ℕ → List ℕ
  | [], result => result
  | c :: sorted, result =>
    if m ≤ result.length then result
    else if c.node ∈ result then topUp m sorted result
    else topUp m sorted (result ++ [c.node])

/-- Pick up to `m` diverse neighbours. -/
def selectNeighbors (self : HnswIndex F) (candidates : List (Cand F ℕ)) (m : ℕ) :
    Except Panic (List ℕ) :=
  if capacityFits m then do
    let sorted := candidates.insertionSort (· ≤ ·)
    let result ← self.pickDiverse floats m sorted []
    .ok (if result.length < m then topUp m sorted result else result)
  else .error .capacityOverflow

/-! ## Inserting -/

/-- Replace the neighbours of a node on a layer. -/
def setLinks (self : HnswIndex F) (node layer : ℕ) (neighbors : List ℕ) : HnswIndex F :=
  { self with links := self.links.modify node fun layers => layers.set layer neighbors }

def neighbors (self : HnswIndex F) (node layer : ℕ) : Option (List ℕ) :=
  self.links[node]?.bind fun layers => layers[layer]?

def candidate (self : HnswIndex F) (nbVec : List F) (x : ℕ) : Except Panic (Cand F ℕ) := do
  let v ← lookup self.vectors[x]?
  let d ← lookup (self.metric.distance floats nbVec v)
  .ok { dist := d, node := x }

/-- A neighbour gets a node as its neighbour, and its neighbours are pruned. -/
def linkBack (self : HnswIndex F) (node layer mMax nb : ℕ) : Except Panic (HnswIndex F) := do
  let old ← lookup (self.neighbors nb layer)
  let self := self.setLinks nb layer (old ++ [node])
  if mMax < (old ++ [node]).length then
    let nbVec ← lookup self.vectors[nb]?
    let cands ← (old ++ [node]).mapM (self.candidate floats nbVec)
    let pruned ← self.selectNeighbors floats cands mMax
    .ok (self.setLinks nb layer pruned)
  else .ok self

/-- All selected neighbours get the node as their neighbour. -/
def linkBackAll (node layer mMax : ℕ) : List ℕ → HnswIndex F → Except Panic (HnswIndex F)
  | [], self => .ok self
  | nb :: selected, self => do
    let self ← self.linkBack floats node layer mMax nb
    linkBackAll node layer mMax selected self

/-- The node is linked on a layer; the result is also where the search on the next begins. -/
def linkLayer (self : HnswIndex F) (q : List F) (node layer cur : ℕ) :
    Except Panic (HnswIndex F × ℕ) := do
  let w ← self.searchLayer floats q [cur] self.efConstruction layer
  let mMax := if layer = 0 then self.mMax0 else self.mMax
  let selected ← self.selectNeighbors floats w self.m
  let _ ← lookup (self.neighbors node layer)
  let self ← linkBackAll floats node layer mMax selected (self.setLinks node layer selected)
  .ok (self, (w.head?.map Cand.node).getD cur)

/-- The node is linked on so many layers, from above to the lowest. -/
def linkLayers (q : List F) (node : ℕ) : ℕ → HnswIndex F → ℕ → Except Panic (HnswIndex F)
  | 0, self, _ => .ok self
  | layer + 1, self, cur => do
    let (self, cur) ← self.linkLayer floats q node layer cur
    linkLayers q node layer self cur

/-- Append a node without neighbours. -/
def append (self : HnswIndex F) (vector : List F) (level : ℕ) : HnswIndex F :=
  { self with
    vectors := self.vectors ++ [vector]
    deleted := self.deleted ++ [false]
    links := self.links ++ [List.replicate (level + 1) []]
    live := self.live + 1 }

/-- Insert a vector, with a level that is drawn; the result has the identifier of the node, which
has 32 bits. -/
def insert (self : HnswIndex F) (vector : List F) (level : ℕ) :
    Except Panic (ℕ × HnswIndex F) :=
  let node := self.vectors.length % 2 ^ 32
  let self := self.append vector level
  match self.entryPoint with
  | none => .ok (node, { self with entryPoint := some node, maxLayer := level })
  | some ep => do
    let q ← lookup self.vectors[node]?
    let top := self.maxLayer
    let cur ← self.descend floats q level top ep
    let self ← linkLayers floats q node (min top level + 1) self cur
    .ok (node,
      if self.maxLayer < level then { self with maxLayer := level, entryPoint := some node }
      else self)

/-! ## Deleting -/

/-- The first node that is not deleted. -/
def findLive (self : HnswIndex F) : List ℕ → Except Panic (Option ℕ)
  | [] => .ok none
  | n :: nodes => do
    let deleted ← lookup self.deleted[n]?
    if deleted then findLive self nodes else .ok (some n)

/-- Soft-delete a node. -/
def markDeleted (self : HnswIndex F) (node : ℕ) : Except Panic (HnswIndex F) :=
  if self.deleted[node]? = some false then
    let self := { self with
      deleted := self.deleted.set node true
      live := self.live - 1 }
    if self.entryPoint = some node then do
      -- re-seat the entry point on any live node
      match ← self.findLive (List.range (self.vectors.length % 2 ^ 32)) with
      | some n =>
        let layers ← lookup self.links[n]?
        .ok { self with entryPoint := some n, maxLayer := layers.length - 1 }
      | none => .ok { self with entryPoint := none, maxLayer := 0 }
    else .ok self
  else .ok self

/-! ## Results -/

/-- The results that are not deleted. -/
def liveResults (self : HnswIndex F) : List (Cand F ℕ) → Except Panic (List (Cand F ℕ))
  | [] => .ok []
  | c :: w => do
    let deleted ← lookup self.deleted[c.node]?
    let rest ← liveResults self w
    .ok (if deleted then rest else c :: rest)

/-- Top-`k` nearest live nodes, nearest first. -/
def search (self : HnswIndex F) (q : List F) (k ef : ℕ) : Except Panic (List (Cand F ℕ)) :=
  match self.entryPoint with
  | none => .ok []
  | some ep => do
    let cur ← self.descend floats q 0 self.maxLayer ep
    let ef0 := max (max ef k) 1
    let w ← self.searchLayer floats q [cur] ef0 0
    let live ← self.liveResults w
    .ok (live.take k)

end HnswIndex

end AegisDB.Vector
