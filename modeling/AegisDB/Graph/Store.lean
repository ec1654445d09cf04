import AegisDB.Library.Table

/-!
# The graph store

Nodes and edges are kept in two maps, each behind a lock of its own.  An operation is a sequence of
sections: what it does while it holds a lock, or to a counter.  An operation that changes something
writes a snapshot of both maps to the disk before it returns, if there is a directory for it; the
lock on the nodes is then held until the edges have been copied and the counters have been read.
-/

namespace AegisDB.Graph

/-- Graph node for visualization. -/
structure GraphNode (ν : Type) where
  id : String
  label : String
  properties : ν

/-- Graph edge for visualization. -/
structure GraphEdge where
  id : String
  source : String
  target : String
  relationship : String

/-- In-memory graph store. -/
structure GraphStore (ν : Type) where
  nodes : Table String (GraphNode ν) := ∅
  edges : Table String GraphEdge := ∅
  nodeCounter : UInt64 := 1
  edgeCounter : UInt64 := 1

/-- What is written to the disk. -/
structure GraphSnapshot (ν : Type) where
  nodes : Table String (GraphNode ν)
  edges : Table String GraphEdge
  nodeCounter : UInt64
  edgeCounter : UInt64

/-- How far a snapshot has got, with what it has copied. -/
inductive Flush (ν : Type) where
  | readNodes
  | readEdges (nodes : Table String (GraphNode ν))
  | loadNodeCounter (nodes : Table String (GraphNode ν)) (edges : Table String GraphEdge)
  | loadEdgeCounter (nodes : Table String (GraphNode ν)) (edges : Table String GraphEdge)
      (nodeCounter : UInt64)
  | write (snapshot : GraphSnapshot ν)

/-- What an operation returns. -/
inductive Reply (ν : Type) where
  | node (node : GraphNode ν)
  | edge (edge : GraphEdge)
  | done
  | error (message : String)

/-- What an operation does next. -/
inductive Operation (ν : Type) where
  | numberNode (label : String) (properties : ν)
  | insertNode (node : GraphNode ν)
  | checkEnds (source target relationship : String)
  | numberEdge (source target relationship : String)
  | insertEdge (edge : GraphEdge)
  | deleteNode (id : String)
  | deleteEdge (id : String)
  | updateNode (id : String) (label : Option String) (properties : Option ν)
  | updateEdge (id : String) (relationship : String)
  | flush (flush : Flush ν) (reply : Reply ν)
  | ended (reply : Reply ν)

namespace Operation

variable {ν : Type}

def createNode (label : String) (properties : ν) : Operation ν :=
  .numberNode label properties

def createEdge (source target relationship : String) : Operation ν :=
  .checkEnds source target relationship

/-- Whether the operation is one that is asked for. -/
def isCall : Operation ν → Bool
  | .numberNode _ _ | .checkEnds _ _ _ | .deleteNode _ | .deleteEdge _ | .updateNode _ _ _
  | .updateEdge _ _ => true
  | _ => false

def isEnded : Operation ν → Bool
  | .ended _ => true
  | _ => false

/-! ## Locks -/

/-- Whether the operation has a lock for reading on the nodes, between two sections. -/
def readsNodes : Operation ν → Bool
  | .flush (.readEdges _) _ | .flush (.loadNodeCounter _ _) _
  | .flush (.loadEdgeCounter _ _ _) _ => true
  | _ => false

/-- Whether the operation has a lock for reading on the edges, between two sections. -/
def readsEdges : Operation ν → Bool
  | .flush (.loadNodeCounter _ _) _ | .flush (.loadEdgeCounter _ _ _) _ => true
  | _ => false

/-- Whether the next section needs the lock for writing on the nodes. -/
def writesNodes : Operation ν → Bool
  | .insertNode _ | .deleteNode _ | .updateNode _ _ _ => true
  | _ => false

/-- Whether the next section needs the lock for writing on the edges. -/
def writesEdges : Operation ν → Bool
  | .insertEdge _ | .deleteNode _ | .deleteEdge _ | .updateEdge _ _ => true
  | _ => false

/-! ## Sections -/

variable (dataDir : Bool)

def flushToDisk (reply : Reply ν) : Operation ν :=
  if dataDir then .flush .readNodes reply else .ended reply

/-- A node with its changes; fields left as `none` are kept. -/
def updatedNode (node : GraphNode ν) (label : Option String) (properties : Option ν) :
    GraphNode ν :=
  { node with label := label.getD node.label, properties := properties.getD node.properties }

/-- The next section of an operation; the last section of a snapshot changes the disk only. -/
def next (lowercase : String → String) (store : GraphStore ν) :
    Operation ν → Operation ν × GraphStore ν
  | .numberNode label properties =>
    let id := lowercase label ++ ":" ++ toString store.nodeCounter
    (.insertNode { id, label, properties }, { store with nodeCounter := store.nodeCounter + 1 })
  | .insertNode node =>
    (flushToDisk dataDir (.node node), { store with nodes := store.nodes.insert node.id node })
  | .checkEnds source target relationship =>
    -- the lock on the nodes is given back behind the check
    if source ∉ store.nodes then
      (.ended (.error ("Source node '" ++ source ++ "' not found")), store)
    else if target ∉ store.nodes then
      (.ended (.error ("Target node '" ++ target ++ "' not found")), store)
    else (.numberEdge source target relationship, store)
  | .numberEdge source target relationship =>
    let id := "e" ++ toString store.edgeCounter
    (.insertEdge { id, source, target, relationship },
      { store with edgeCounter := store.edgeCounter + 1 })
  | .insertEdge edge =>
    (flushToDisk dataDir (.edge edge), { store with edges := store.edges.insert edge.id edge })
  | .deleteNode id =>
    if id ∉ store.nodes then (.ended (.error ("Node '" ++ id ++ "' not found")), store)
    else
      (flushToDisk dataDir .done,
        { store with
          nodes := store.nodes.erase id
          edges := store.edges.filterValues fun _ e =>
            decide (e.source ≠ id) && decide (e.target ≠ id) })
  | .deleteEdge id =>
    if id ∉ store.edges then (.ended (.error ("Edge '" ++ id ++ "' not found")), store)
    else (flushToDisk dataDir .done, { store with edges := store.edges.erase id })
  | .updateNode id label properties =>
    match store.nodes.lookup id with
    | none => (.ended (.error ("Node '" ++ id ++ "' not found")), store)
    | some node =>
      let updated := updatedNode node label properties
      (flushToDisk dataDir (.node updated),
        { store with nodes := store.nodes.modify id fun _ => updated })
  | .updateEdge id relationship =>
    match store.edges.lookup id with
    | none => (.ended (.error ("Edge '" ++ id ++ "' not found")), store)
    | some edge =>
      let updated := { edge with relationship }
      (flushToDisk dataDir (.edge updated),
        { store with edges := store.edges.modify id fun _ => updated })
  | .flush .readNodes reply => (.flush (.readEdges store.nodes) reply, store)
  | .flush (.readEdges nodes) reply => (.flush (.loadNodeCounter nodes store.edges) reply, store)
  | .flush (.loadNodeCounter nodes edges) reply =>
    (.flush (.loadEdgeCounter nodes edges store.nodeCounter) reply, store)
  | .flush (.loadEdgeCounter nodes edges nodeCounter) reply =>
    (.flush (.write { nodes, edges, nodeCounter, edgeCounter := store.edgeCounter }) reply, store)
  | .flush (.write _) reply => (.ended reply, store)
  | .ended reply => (.ended reply, store)

end Operation

/-- Open the store: the snapshot on the disk, if there is one that can be read. -/
def GraphStore.withDataDir {ν : Type} (snapshot : Option (GraphSnapshot ν)) : GraphStore ν :=
  match snapshot with
  | some snapshot =>
    { nodes := snapshot.nodes
      edges := snapshot.edges
      nodeCounter := snapshot.nodeCounter
      edgeCounter := snapshot.edgeCounter }
  | none => {}

end AegisDB.Graph
