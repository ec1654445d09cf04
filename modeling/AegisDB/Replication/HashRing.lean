import AegisDB.Library.Circle
import AegisDB.Library.Separators
import Mathlib.Data.Finset.Basic

/-!
# The consistent hash ring

Every node stands on the ring in several places, at the hashes of its name with a number behind.  A
key belongs to the node that is met first from the hash of the key.

The places of a node are found again by its name only, and where two places fall together the later
node takes the place for good.  So the ring is as it should be as long as no two places fall
together, of all nodes that ever were on the ring: then it holds the places of its nodes and nothing
else, in whatever order the nodes came and went.
-/

namespace AegisDB.Replication

abbrev NodeId := String

/-! ## The hash -/

/-- The bytes of a text as the hasher is given them, with the byte that ends a text. -/
def keyBytes (key : String) : List UInt8 :=
  key.toUTF8.toList ++ [0xff]

def hashByte (state : UInt64) (byte : UInt8) : UInt64 :=
  (state ^^^ byte.toUInt64) * 0x100000001b3

def hashKey (key : String) : UInt64 :=
  (keyBytes key).foldl hashByte 0xcbf29ce484222325

/-! ## The ring -/

/-- A virtual node in the hash ring. -/
structure VirtualNode where
  nodeId : NodeId
  replicaIndex : ℕ
  deriving DecidableEq

namespace VirtualNode

/-- What is hashed for the place of a virtual node. -/
def key (vnode : VirtualNode) : String :=
  vnode.nodeId ++ ":" ++ toString vnode.replicaIndex

def hashPosition (hash : String → UInt64) (vnode : VirtualNode) : ℕ :=
  (hash vnode.key).toNat

theorem key_injective : Function.Injective key := by
  rintro ⟨id, i⟩ ⟨id', i'⟩ h
  have hlist : id.toList ++ ':' :: Nat.toDigits 10 i = id'.toList ++ ':' :: Nat.toDigits 10 i' := by
    simpa [key, String.toList_append] using congrArg String.toList h
  have hcolon (n : ℕ) : (Nat.toDigits 10 n).count ':' = 0 := by
    refine List.count_eq_zero.mpr fun hmem => ?_
    cases Nat.isDigit_of_mem_toDigits (by decide) (by decide) hmem
  have hcount : id.toList.count ':' = id'.toList.count ':' := by
    have hall := congrArg (List.count ':') hlist
    rw [List.count_append, List.count_append, List.count_cons_self, List.count_cons_self, hcolon,
      hcolon] at hall
    omega
  obtain ⟨hid, hi⟩ := append_cons_inj_of_count hcount hlist
  have hnumber : i = i' := by
    rw [← Nat.ofDigitChars_ten_toDigits (n := i), hi, Nat.ofDigitChars_ten_toDigits]
  rw [String.toList_inj.mp hid, hnumber]

end VirtualNode

/-- A consistent hash ring for distributing keys across nodes. -/
structure HashRing where
  ring : OrderedTable ℕ VirtualNode
  virtualNodesPerNode : ℕ
  nodes : List NodeId

namespace HashRing

def new (virtualNodesPerNode : ℕ) : HashRing where
  ring := .empty
  virtualNodesPerNode := virtualNodesPerNode
  nodes := []

def default : HashRing :=
  new 150

variable (hash : String → UInt64)

def place (ring : OrderedTable ℕ VirtualNode) (vnode : VirtualNode) :
    OrderedTable ℕ VirtualNode :=
  ring.insert (vnode.hashPosition hash) vnode

def vnodesOf (nodeId : NodeId) (count : ℕ) : List VirtualNode :=
  (List.range count).map fun i => { nodeId, replicaIndex := i }

def addNode (self : HashRing) (nodeId : NodeId) : HashRing :=
  if nodeId ∈ self.nodes then self
  else
    { self with
      ring := (vnodesOf nodeId self.virtualNodesPerNode).foldl (place hash) self.ring
      nodes := self.nodes ++ [nodeId] }

def removeNode (self : HashRing) (nodeId : NodeId) : HashRing :=
  { self with
    ring := self.ring.retain fun _ vnode => decide (vnode.nodeId ≠ nodeId)
    nodes := self.nodes.filter fun n => decide (n ≠ nodeId) }

def keyPosition (key : String) : ℕ :=
  (hash key).toNat

/-- The node responsible for a key: the first one clockwise, or else the first on the ring. -/
def getNode (self : HashRing) (key : String) : Option String :=
  (self.ring.owner (keyPosition hash key)).map fun e => e.2.nodeId

/-! ## What is on the ring -/

/-- The ring holds the places of its nodes and nothing else. -/
def Placed (self : HashRing) : Prop :=
  ∀ e, e ∈ self.ring.entries ↔
    e.2.nodeId ∈ self.nodes ∧ e.2.replicaIndex < self.virtualNodesPerNode ∧
      e.1 = e.2.hashPosition hash

/-- No two of the texts that are hashed for the places of some nodes have the same hash. -/
def CollisionFree (virtualNodesPerNode : ℕ) (names : Set String) : Prop :=
  ∀ v w : VirtualNode, v.nodeId ∈ names → v.replicaIndex < virtualNodesPerNode →
    w.nodeId ∈ names → w.replicaIndex < virtualNodesPerNode →
    hash v.key = hash w.key → v.key = w.key

variable {hash} {self : HashRing} {names : Set String} {count : ℕ} {nodeId : String}

theorem CollisionFree.eq_of_hashPosition (hfree : CollisionFree hash count names) {v w : VirtualNode}
    (hv : v.nodeId ∈ names) (hvi : v.replicaIndex < count) (hw : w.nodeId ∈ names)
    (hwi : w.replicaIndex < count) (h : v.hashPosition hash = w.hashPosition hash) : v = w :=
  VirtualNode.key_injective (hfree v w hv hvi hw hwi (UInt64.toNat_inj.mp h))

theorem mem_vnodesOf {v : VirtualNode} :
    v ∈ vnodesOf nodeId count ↔ v.nodeId = nodeId ∧ v.replicaIndex < count := by
  rw [vnodesOf, List.mem_map]
  constructor
  · rintro ⟨i, hi, rfl⟩
    exact ⟨rfl, List.mem_range.mp hi⟩
  · rintro ⟨rfl, hi⟩
    exact ⟨v.replicaIndex, List.mem_range.mpr hi, rfl⟩

instance (l : List String) : Decidable (CollisionFree hash count {n | n ∈ l}) :=
  decidable_of_iff (∀ v ∈ l.flatMap fun id => vnodesOf id count,
      ∀ w ∈ l.flatMap fun id => vnodesOf id count, hash v.key = hash w.key → v.key = w.key) <| by
    have hmem (v : VirtualNode) : (v ∈ l.flatMap fun id => vnodesOf id count) ↔
        v.nodeId ∈ l ∧ v.replicaIndex < count := by
      rw [List.mem_flatMap]
      constructor
      · rintro ⟨id, hid, hv⟩
        obtain ⟨rfl, hi⟩ := mem_vnodesOf.mp hv
        exact ⟨hid, hi⟩
      · exact fun h => ⟨v.nodeId, h.1, mem_vnodesOf.mpr ⟨rfl, h.2⟩⟩
    constructor
    · exact fun h v w hv hvi hw hwi =>
        h v ((hmem v).mpr ⟨hv, hvi⟩) w ((hmem w).mpr ⟨hw, hwi⟩)
    · exact fun h v hv w hw => h v w ((hmem v).mp hv).1 ((hmem v).mp hv).2 ((hmem w).mp hw).1
        ((hmem w).mp hw).2

/-- Virtual nodes whose places are free, and do not fall together, all get their places. -/
theorem mem_foldl_place {l : List VirtualNode} {ring : OrderedTable ℕ VirtualNode}
    (hfree : ∀ v ∈ l, ∀ e ∈ ring.entries, e.1 ≠ v.hashPosition hash)
    (hdistinct : l.Pairwise fun v w => v.hashPosition hash ≠ w.hashPosition hash) (e : ℕ × VirtualNode) :
    e ∈ (l.foldl (place hash) ring).entries ↔ e ∈ ring.entries ∨ e.2 ∈ l ∧ e.1 = e.2.hashPosition hash := by
  induction l generalizing ring with
  | nil => simp
  | cons v l ih =>
    obtain ⟨hv, hl⟩ := List.pairwise_cons.mp hdistinct
    have hplaced : ∀ d, d ∈ (place hash ring v).entries ↔ d = (v.hashPosition hash, v) ∨ d ∈ ring.entries := by
      intro d
      rw [place, OrderedTable.mem_insert]
      exact or_congr_right ⟨fun h => h.1, fun h => ⟨h, hfree v List.mem_cons_self d h⟩⟩
    rw [List.foldl_cons, ih _ hl, hplaced, List.mem_cons]
    · constructor
      · rintro ((rfl | h) | ⟨h, heq⟩)
        · exact Or.inr ⟨Or.inl rfl, rfl⟩
        · exact Or.inl h
        · exact Or.inr ⟨Or.inr h, heq⟩
      · rintro (h | ⟨rfl | h, heq⟩)
        · exact Or.inl (Or.inr h)
        · exact Or.inl (Or.inl (Prod.ext heq rfl))
        · exact Or.inr ⟨h, heq⟩
    · intro w hw d hd
      rcases (hplaced d).mp hd with rfl | hd
      · exact hv w hw
      · exact hfree w (List.mem_cons_of_mem v hw) d hd

@[simp] theorem mem_nodes_addNode {n : String} :
    n ∈ (self.addNode hash nodeId).nodes ↔ n ∈ self.nodes ∨ n = nodeId := by
  rw [addNode]
  split_ifs with hmem
  · exact ⟨Or.inl, fun h => h.elim id fun heq => heq ▸ hmem⟩
  · rw [List.mem_append, List.mem_singleton]

@[simp] theorem mem_nodes_removeNode {n : String} :
    n ∈ (self.removeNode nodeId).nodes ↔ n ∈ self.nodes ∧ n ≠ nodeId := by
  rw [removeNode, List.mem_filter, decide_eq_true_eq]

@[simp] theorem virtualNodesPerNode_addNode :
    (self.addNode hash nodeId).virtualNodesPerNode = self.virtualNodesPerNode := by
  rw [addNode]
  split_ifs <;> rfl

theorem placed_new : (new count).Placed hash := by
  intro e
  simp [new]

theorem Placed.addNode (h : self.Placed hash)
    (hfree : CollisionFree hash self.virtualNodesPerNode names) (hnodes : ∀ n ∈ self.nodes, n ∈ names)
    (hname : nodeId ∈ names) : (self.addNode hash nodeId).Placed hash := by
  rw [HashRing.addNode]
  split_ifs with hmem
  · exact h
  · have hown : ∀ v ∈ vnodesOf nodeId self.virtualNodesPerNode,
        v.nodeId ∈ names ∧ v.replicaIndex < self.virtualNodesPerNode := by
      intro v hv
      obtain ⟨hid, hi⟩ := mem_vnodesOf.mp hv
      exact ⟨hid ▸ hname, hi⟩
    intro e
    change e ∈ ((vnodesOf nodeId self.virtualNodesPerNode).foldl (place hash) self.ring).entries ↔
      e.2.nodeId ∈ self.nodes ++ [nodeId] ∧ _
    rw [mem_foldl_place, h e, mem_vnodesOf, List.mem_append, List.mem_singleton]
    · tauto
    · intro v hv e he heq
      obtain ⟨hid, hi, hpos⟩ := (h e).mp he
      have hsame : e.2 = v := hfree.eq_of_hashPosition (hnodes _ hid) hi (hown v hv).1
        (hown v hv).2 (hpos.symm.trans heq)
      rw [hsame, (mem_vnodesOf.mp hv).1] at hid
      exact hmem hid
    · rw [vnodesOf, List.pairwise_map]
      refine List.pairwise_lt_range.imp_of_mem fun hi hj hlt heq => ?_
      have hsame := hfree.eq_of_hashPosition hname (List.mem_range.mp hi) hname
        (List.mem_range.mp hj) heq
      exact hlt.ne (congrArg VirtualNode.replicaIndex hsame)

theorem Placed.removeNode (h : self.Placed hash) : (self.removeNode nodeId).Placed hash := by
  intro e
  rw [HashRing.removeNode, OrderedTable.mem_retain, h e, List.mem_filter, decide_eq_true_eq]
  tauto

theorem Placed.ring_eq {other : HashRing} (h : self.Placed hash) (hother : other.Placed hash)
    (hcount : self.virtualNodesPerNode = other.virtualNodesPerNode)
    (hnodes : ∀ n, n ∈ self.nodes ↔ n ∈ other.nodes) : self.ring = other.ring := by
  refine OrderedTable.ext_mem fun e => ?_
  rw [h e, hother e, hnodes, hcount]

/-- When nodes go, the keys of the others stay where they are. -/
theorem Placed.getNode_of_subset {fewer : HashRing} (h : self.Placed hash) (hfewer : fewer.Placed hash)
    (hcount : fewer.virtualNodesPerNode = self.virtualNodesPerNode)
    (hsub : ∀ n ∈ fewer.nodes, n ∈ self.nodes) {key : String}
    (hstays : ∀ n, self.getNode hash key = some n → n ∈ fewer.nodes) :
    fewer.getNode hash key = self.getNode hash key := by
  have hfewerOf : ∀ d ∈ fewer.ring.entries, d ∈ self.ring.entries := by
    intro d hd
    obtain ⟨hid, hi, hpos⟩ := (hfewer d).mp hd
    exact (h d).mpr ⟨hsub _ hid, hcount ▸ hi, hpos⟩
  rw [getNode, getNode]
  cases hfirst : self.ring.owner (keyPosition hash key) with
  | none =>
    have hempty := OrderedTable.owner_eq_none_iff.mp hfirst
    rw [OrderedTable.owner_eq_none_iff.mpr fun d hd => hempty d (hfewerOf d hd)]
  | some e =>
    have hnode : self.getNode hash key = some e.2.nodeId := by
      rw [getNode, hfirst, Option.map_some]
    have hmem := (OrderedTable.owner_eq_some_iff.mp hfirst).1
    obtain ⟨-, hi, hpos⟩ := (h e).mp hmem
    rw [OrderedTable.owner_of_subset hfewerOf hfirst
      ((hfewer e).mpr ⟨hstays _ hnode, hcount ▸ hi, hpos⟩)]

theorem Placed.mem_of_getNode (h : self.Placed hash) {key : String}
    (howner : self.getNode hash key = some nodeId) : nodeId ∈ self.nodes := by
  obtain ⟨e, hfirst, rfl⟩ := Option.map_eq_some_iff.mp howner
  exact ((h e).mp (OrderedTable.owner_eq_some_iff.mp hfirst).1).1

theorem Placed.exists_getNode (h : self.Placed hash) (hcount : 0 < self.virtualNodesPerNode)
    (hmem : nodeId ∈ self.nodes) (key : String) :
    ∃ owner ∈ self.nodes, self.getNode hash key = some owner := by
  let vnode : VirtualNode := { nodeId, replicaIndex := 0 }
  have hentry := (h (vnode.hashPosition hash, vnode)).mpr ⟨hmem, hcount, rfl⟩
  cases howner : self.ring.owner (keyPosition hash key) with
  | none => exact absurd hentry (OrderedTable.owner_eq_none_iff.mp howner _)
  | some e =>
    have hget : self.getNode hash key = some e.2.nodeId := by rw [getNode, howner]; rfl
    exact ⟨_, h.mem_of_getNode hget, hget⟩

/-! ## Rings over time -/

/-- What is done to a ring. -/
inductive RingOp where
  | addNode (nodeId : NodeId)
  | removeNode (nodeId : NodeId)

namespace RingOp

def node : RingOp → String
  | addNode nodeId => nodeId
  | removeNode nodeId => nodeId

def apply (hash : String → UInt64) (self : HashRing) : RingOp → HashRing
  | addNode nodeId => self.addNode hash nodeId
  | removeNode nodeId => self.removeNode nodeId

/-- The nodes that are there, by what happened to them. -/
def member (nodes : Finset String) : RingOp → Finset String
  | addNode nodeId => insert nodeId nodes
  | removeNode nodeId => nodes.erase nodeId

end RingOp

/-- The ring after some operations on an empty one. -/
def after (hash : String → UInt64) (virtualNodesPerNode : ℕ) (ops : List RingOp) : HashRing :=
  ops.foldl (RingOp.apply hash) (new virtualNodesPerNode)

/-- The nodes that have come and have not gone. -/
def members (ops : List RingOp) : Finset String :=
  ops.foldl RingOp.member ∅

variable {ops : List RingOp}

theorem after_concat (op : RingOp) : after hash count (ops ++ [op]) = op.apply hash (after hash count ops) :=
  List.foldl_concat ..

theorem members_concat (op : RingOp) : members (ops ++ [op]) = op.member (members ops) :=
  List.foldl_concat ..

theorem after_nodes : (after hash count ops).virtualNodesPerNode = count ∧
    ∀ n, n ∈ (after hash count ops).nodes ↔ n ∈ members ops := by
  induction ops using List.reverseRecOn with
  | nil => exact ⟨rfl, fun n => by simp [after, members, new]⟩
  | append_singleton ops op ih =>
    obtain ⟨hcount, hnodes⟩ := ih
    rw [after_concat, members_concat]
    cases op with
    | addNode nodeId =>
      refine ⟨virtualNodesPerNode_addNode.trans hcount, fun n => ?_⟩
      rw [RingOp.apply, RingOp.member, mem_nodes_addNode, hnodes, Finset.mem_insert, or_comm]
    | removeNode nodeId =>
      refine ⟨hcount, fun n => ?_⟩
      rw [RingOp.apply, RingOp.member, mem_nodes_removeNode, hnodes, Finset.mem_erase, and_comm]

theorem mem_names_of_members (hops : ∀ op ∈ ops, op.node ∈ names) :
    ∀ n ∈ members ops, n ∈ names := by
  induction ops using List.reverseRecOn with
  | nil => simp [members]
  | append_singleton ops op ih =>
    have hold := ih fun op' h => hops op' (List.mem_append_left _ h)
    have hnew := hops op (List.mem_append_right _ (List.mem_singleton_self op))
    intro n hn
    rw [members_concat] at hn
    cases op with
    | addNode nodeId =>
      rcases Finset.mem_insert.mp hn with rfl | hn
      · exact hnew
      · exact hold n hn
    | removeNode nodeId => exact hold n (Finset.mem_of_mem_erase hn)

theorem placed_after (hfree : CollisionFree hash count names) (hops : ∀ op ∈ ops, op.node ∈ names) :
    (after hash count ops).Placed hash := by
  induction ops using List.reverseRecOn with
  | nil => exact placed_new
  | append_singleton ops op ih =>
    have hold : ∀ op' ∈ ops, op'.node ∈ names := fun op' h => hops op' (List.mem_append_left _ h)
    have hnew := hops op (List.mem_append_right _ (List.mem_singleton_self op))
    have hspec : (after hash count ops).virtualNodesPerNode = count ∧
        ∀ n, n ∈ (after hash count ops).nodes ↔ n ∈ members ops := after_nodes
    obtain ⟨hcount, hnodes⟩ := hspec
    rw [after_concat]
    cases op with
    | addNode nodeId =>
      refine (ih hold).addNode (hcount.symm ▸ hfree) (fun n hn => ?_) hnew
      exact mem_names_of_members hold n ((hnodes n).mp hn)
    | removeNode nodeId => exact (ih hold).removeNode

/-- The ring, and with it the node of every key, depends only on the nodes that are there; a node
that comes takes keys to itself only, and of a node that goes only its own keys go elsewhere.  While
there is a node, every key has one. -/
theorem movesLeast (hash : String → UInt64) (virtualNodesPerNode : ℕ) (names : Set String)
    (hfree : CollisionFree hash virtualNodesPerNode names) :
    (∀ ops ops' : List RingOp, (∀ op ∈ ops, op.node ∈ names) → (∀ op ∈ ops', op.node ∈ names) →
      members ops = members ops' →
        (after hash virtualNodesPerNode ops).ring = (after hash virtualNodesPerNode ops').ring ∧
        ∀ key, (after hash virtualNodesPerNode ops).getNode hash key =
          (after hash virtualNodesPerNode ops').getNode hash key) ∧
    (∀ (ops : List RingOp) (nodeId key : String), (∀ op ∈ ops, op.node ∈ names) → nodeId ∈ names →
      ((after hash virtualNodesPerNode ops).addNode hash nodeId).getNode hash key ≠
        (after hash virtualNodesPerNode ops).getNode hash key →
      ((after hash virtualNodesPerNode ops).addNode hash nodeId).getNode hash key = some nodeId) ∧
    (∀ (ops : List RingOp) (nodeId key : String), (∀ op ∈ ops, op.node ∈ names) →
      ((after hash virtualNodesPerNode ops).removeNode nodeId).getNode hash key ≠
        (after hash virtualNodesPerNode ops).getNode hash key →
      (after hash virtualNodesPerNode ops).getNode hash key = some nodeId) ∧
    ∀ (ops : List RingOp) (key : String), (∀ op ∈ ops, op.node ∈ names) →
      0 < virtualNodesPerNode → (members ops).Nonempty →
        ∃ owner ∈ members ops, (after hash virtualNodesPerNode ops).getNode hash key = some owner := by
  have hspec (ops : List RingOp) :
      (after hash virtualNodesPerNode ops).virtualNodesPerNode = virtualNodesPerNode ∧
        ∀ n, n ∈ (after hash virtualNodesPerNode ops).nodes ↔ n ∈ members ops := after_nodes
  refine ⟨fun ops ops' hops hops' hmembers => ?_, fun ops nodeId key hops hname hmoved => ?_,
    fun ops nodeId key hops hmoved => ?_, fun ops key hops hcount ⟨nodeId, hmem⟩ => ?_⟩
  · have hring : (after hash virtualNodesPerNode ops).ring = (after hash virtualNodesPerNode ops').ring := by
      refine (placed_after hfree hops).ring_eq (placed_after hfree hops')
        ((hspec ops).1.trans (hspec ops').1.symm) fun n => ?_
      rw [(hspec ops).2, (hspec ops').2, hmembers]
    exact ⟨hring, fun key => by rw [getNode, getNode, hring]⟩
  · have hplaced := placed_after hfree hops
    have hnodes : ∀ n ∈ (after hash virtualNodesPerNode ops).nodes, n ∈ names := fun n hn =>
      mem_names_of_members hops n (((hspec ops).2 n).mp hn)
    have hadded : ((after hash virtualNodesPerNode ops).addNode hash nodeId).Placed hash :=
      hplaced.addNode ((hspec ops).1.symm ▸ hfree) hnodes hname
    by_contra hother
    refine hmoved (hadded.getNode_of_subset hplaced virtualNodesPerNode_addNode.symm
      (fun n hn => mem_nodes_addNode.mpr (Or.inl hn)) fun n hn => ?_).symm
    refine (mem_nodes_addNode.mp (hadded.mem_of_getNode hn)).resolve_right fun heq => hother ?_
    rw [hn, heq]
  · have hplaced := placed_after hfree hops
    by_contra hother
    refine hmoved (hplaced.getNode_of_subset hplaced.removeNode rfl
      (fun n hn => (mem_nodes_removeNode.mp hn).1) fun n hn => ?_)
    exact mem_nodes_removeNode.mpr ⟨hplaced.mem_of_getNode hn, fun heq => hother (heq ▸ hn)⟩
  · obtain ⟨owner, howner, hget⟩ := (placed_after hfree hops).exists_getNode
      ((hspec ops).1.symm ▸ hcount) (((hspec ops).2 nodeId).mpr hmem) key
    exact ⟨owner, ((hspec ops).2 owner).mp howner, hget⟩

/-- With the hash of the ring: a node that came and went leaves no trace, nor does the order in which
the others came. -/
theorem movesLeast_three_nodes :
    (after hashKey 4 [.addNode "node1", .addNode "node2", .addNode "node3", .removeNode "node3"]).ring =
      (after hashKey 4 [.addNode "node2", .addNode "node1"]).ring :=
  ((movesLeast hashKey 4 {n | n ∈ ["node1", "node2", "node3"]} (by decide +kernel)).1 _ _
    (by decide +kernel) (by decide +kernel) (by decide +kernel)).1

end HashRing

end AegisDB.Replication
