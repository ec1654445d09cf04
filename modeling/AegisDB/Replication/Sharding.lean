import AegisDB.Library.Table
import AegisDB.Replication.HashRing

/-!
# Shards and the routing of keys

The shards of a cluster divide the hashes of keys into ranges.  The manager of the shards finds the
shard of a hash by its remainder, the router by the ranges, and where no range has the hash by a
ring of virtual nodes.  So the two agree on a hash if and only if it is not the largest one and its
remainder is the number of the range that it falls into.
-/

namespace AegisDB

namespace Replication

abbrev ShardId := UInt32

/-- State of a shard. -/
inductive ShardState where
  | creating | active | migrating | splitting | merging | inactive | deleting
deriving DecidableEq

/-- A data shard in the distributed system. -/
structure Shard where
  id : ShardId
  state : ShardState
  primaryNode : NodeId
  replicaNodes : List NodeId
  keyRangeStart : Option UInt64
  keyRangeEnd : Option UInt64
deriving DecidableEq

namespace Shard

/-- Create a new shard. -/
def new (id : ShardId) (primaryNode : NodeId) : Shard where
  id := id
  state := .creating
  primaryNode := primaryNode
  replicaNodes := []
  keyRangeStart := none
  keyRangeEnd := none

def withRange (id : ShardId) (primaryNode : NodeId) (start stop : UInt64) : Shard :=
  { new id primaryNode with keyRangeStart := some start, keyRangeEnd := some stop }

def addReplica (s : Shard) (node : NodeId) : Shard :=
  if node ∉ s.replicaNodes ∧ node ≠ s.primaryNode then
    { s with replicaNodes := s.replicaNodes ++ [node] }
  else s

def setState (s : Shard) (state : ShardState) : Shard :=
  { s with state }

/-- Check if a key is in this shard's range; without a range all are. -/
def containsKey (s : Shard) (keyHash : UInt64) : Bool :=
  match s.keyRangeStart, s.keyRangeEnd with
  | some start, some stop => start ≤ keyHash && keyHash < stop
  | _, _ => true

end Shard

def maxHash : UInt64 :=
  18446744073709551615

/-- An entry in the routing table. -/
structure RoutingEntry where
  shardId : ShardId
  primary : NodeId
  replicas : List NodeId
  keyRangeStart : UInt64
  keyRangeEnd : UInt64
deriving DecidableEq

/-- The order in which hash maps give what they hold. -/
structure RoutingOrder where
  shards : Table ShardId Shard → List Shard
  shards_perm : ∀ t, (shards t).Perm t.values
  entries : Table ShardId RoutingEntry → List RoutingEntry
  entries_perm : ∀ t, (entries t).Perm t.values

/-! ## The manager of the shards -/

/-- Manages shards across the cluster. -/
structure ShardManager where
  shards : Table ShardId Shard
  nodeShards : Table NodeId (List ShardId)
  numShards : UInt32
  replicationFactor : ℕ

namespace ShardManager

/-- Create a new shard manager. -/
def new (numShards : UInt32) (replicationFactor : ℕ) : ShardManager where
  shards := ∅
  nodeShards := ∅
  numShards := numShards
  replicationFactor := replicationFactor

variable (m : ShardManager)

def noteShard (node : NodeId) (id : ShardId) : Table NodeId (List ShardId) :=
  m.nodeShards.insert node ((m.nodeShards.lookup node).getD [] ++ [id])

/-- Create a shard with a key range. -/
def createShardWithRange (id : ShardId) (primaryNode : NodeId) (start stop : UInt64) :
    ShardManager :=
  { m with
    shards := m.shards.insert id (.withRange id primaryNode start stop)
    nodeShards := m.noteShard primaryNode id }

/-- Add a replica to a shard. -/
def addReplica (shardId : ShardId) (nodeId : NodeId) : ShardManager :=
  if shardId ∈ m.shards then
    { m with
      shards := m.shards.modify shardId fun shard => shard.addReplica nodeId
      nodeShards := m.noteShard nodeId shardId }
  else m

def updateShardState (id : ShardId) (state : ShardState) : ShardManager :=
  { m with shards := m.shards.modify id fun shard => shard.setState state }

def getAllShards (order : RoutingOrder) : List Shard :=
  order.shards m.shards

def getShardForKey (keyHash : UInt64) : Option Shard :=
  m.shards.lookup (keyHash % m.numShards.toUInt64).toUInt32

def rangeSize : UInt64 :=
  maxHash / m.numShards.toUInt64

def rangeStart (i : UInt32) : UInt64 :=
  i.toUInt64 * m.rangeSize

def rangeEnd (i : UInt32) : UInt64 :=
  if i = m.numShards - 1 then maxHash else (i.toUInt64 + 1) * m.rangeSize

/-- The node for a position in the list of nodes, which goes round. -/
def nodeAt (nodes : List NodeId) (i : ℕ) : NodeId :=
  nodes.getD (i % nodes.length) ""

/-- Create one shard with its replicas and activate it. -/
def initializeShard (nodes : List NodeId) (m : ShardManager) (i : UInt32) : ShardManager :=
  let created := m.createShardWithRange i (nodeAt nodes i.toNat) (m.rangeStart i) (m.rangeEnd i)
  let replicas := (List.range (min m.replicationFactor nodes.length)).tail
  let replicated := replicas.foldl
    (fun m r => m.addReplica i (nodeAt nodes (i.toNat % nodes.length + r))) created
  replicated.updateShardState i .active

def initializeShards (nodes : List NodeId) : ShardManager :=
  if nodes.isEmpty then m
  else ((List.range m.numShards.toNat).map UInt32.ofNat).foldl (initializeShard nodes) m

end ShardManager

/-! ## The router -/

/-- A routing decision for a query. -/
inductive RouteDecision where
  | single (shardId : ShardId) (nodeId : NodeId)
  | broadcast (shards : List ShardId)
  | primary (shardId : ShardId) (nodeId : NodeId)
  | anyReplica (shardId : ShardId) (candidates : List NodeId)
deriving DecidableEq

/-- A routing table for shard lookups. -/
structure RoutingTable where
  entries : Table ShardId RoutingEntry
  version : ℕ

/-- Hash maps that give what they hold in the order in which it was put there. -/
def RoutingOrder.insertion : RoutingOrder where
  shards := Table.values
  shards_perm _ := List.Perm.refl _
  entries := Table.values
  entries_perm _ := List.Perm.refl _

namespace RoutingTable

def upsert (table : RoutingTable) (entry : RoutingEntry) : RoutingTable where
  entries := table.entries.insert entry.shardId entry
  version := table.version + 1

def findShard (order : RoutingOrder) (table : RoutingTable) (keyHash : UInt64) :
    Option RoutingEntry :=
  (order.entries table.entries).find? fun e =>
    e.keyRangeStart ≤ keyHash && keyHash < e.keyRangeEnd

/-- The entry of a shard. -/
def entryOf (shard : Shard) : RoutingEntry where
  shardId := shard.id
  primary := shard.primaryNode
  replicas := shard.replicaNodes
  keyRangeStart := shard.keyRangeStart.getD 0
  keyRangeEnd := shard.keyRangeEnd.getD maxHash

def fromShards (shards : List Shard) : RoutingTable :=
  shards.foldl (fun table shard => table.upsert (entryOf shard)) ⟨∅, 0⟩

end RoutingTable

/-- Routes queries to appropriate shards. -/
structure ShardRouter where
  routingTable : RoutingTable
  hashRing : HashRing
  preferLocal : Bool
  localNode : Option NodeId

namespace ShardRouter

/-- Create a new router. -/
def new : ShardRouter where
  routingTable := ⟨∅, 0⟩
  hashRing := .default
  preferLocal := true
  localNode := none

variable (hashKey : String → UInt64) (order : RoutingOrder) (r : ShardRouter)

def addNodes (ring : HashRing) (shard : Shard) : HashRing :=
  (shard.primaryNode :: shard.replicaNodes).foldl (HashRing.addNode hashKey) ring

def updateRouting (shards : List Shard) : ShardRouter :=
  { r with
    routingTable := .fromShards shards
    hashRing := shards.foldl (addNodes hashKey) .default }

/-- Select a node for a routing entry: the local one if it has the shard. -/
def selectNode (entry : RoutingEntry) : NodeId :=
  match r.preferLocal, r.localNode with
  | true, some node =>
      if entry.primary = node then entry.primary
      else if node ∈ entry.replicas then node
      else entry.primary
  | _, _ => entry.primary

def broadcast : RouteDecision :=
  .broadcast ((order.entries r.routingTable.entries).map RoutingEntry.shardId)

/-- Route a query with a partition key of a hash. -/
def route (hash : UInt64) : RouteDecision :=
  match r.routingTable.findShard order hash with
  | some entry => .single entry.shardId (r.selectNode entry)
  | none =>
      match r.hashRing.getNode hashKey (toString hash) with
      | some node => .single 0 node
      | none => r.broadcast order

def routeWrite (hash : UInt64) : RouteDecision :=
  match r.routingTable.findShard order hash with
  | some entry => .primary entry.shardId entry.primary
  | none => r.broadcast order

def routeRead (hash : UInt64) : RouteDecision :=
  match r.routingTable.findShard order hash with
  | some entry => .anyReplica entry.shardId (entry.primary :: entry.replicas)
  | none => r.route hashKey order hash

end ShardRouter

/-! ## The ranges -/

section Ranges

theorem mem_part_iff {q n bound i h : ℕ} (hq : 0 < q) (hbound : n * q ≤ bound) (hi : i < n) :
    (i * q ≤ h ∧ h < if i = n - 1 then bound else (i + 1) * q) ↔
      h < bound ∧ min (h / q) (n - 1) = i := by
  have hle : i * q ≤ h ↔ i ≤ h / q := (Nat.le_div_iff_mul_le hq).symm
  have hlt : h < (i + 1) * q ↔ h / q < i + 1 := (Nat.div_lt_iff_lt_mul hq).symm
  rw [hle]
  split_ifs with hlast
  · omega
  · rw [hlt]
    have hpart : (i + 1) * q ≤ bound := (Nat.mul_le_mul_right q (by omega)).trans hbound
    constructor
    · rintro ⟨hi', hi''⟩
      exact ⟨(hlt.mpr hi'').trans_le hpart, by omega⟩
    · rintro ⟨-, hmin⟩
      omega

variable {m : ShardManager} {i : UInt32}

theorem toNat_rangeSize : m.rangeSize.toNat = maxHash.toNat / m.numShards.toNat := by
  rw [ShardManager.rangeSize, UInt64.toNat_div, UInt32.toNat_toUInt64]

theorem rangeSize_mul_le : m.numShards.toNat * m.rangeSize.toNat ≤ maxHash.toNat := by
  rw [toNat_rangeSize]
  exact Nat.mul_div_le _ _

theorem rangeSize_pos (hn : 0 < m.numShards) : 0 < m.rangeSize.toNat := by
  rw [toNat_rangeSize]
  have hpos : 0 < m.numShards.toNat := hn
  have hlt : m.numShards.toNat < 4294967296 := m.numShards.toNat_lt
  have hmax : maxHash.toNat = 18446744073709551615 := rfl
  exact Nat.div_pos (by omega) hpos

/-- A shard has the range of its number. -/
structure Shard.Ranged (m : ShardManager) (i : ShardId) (s : Shard) : Prop where
  id : s.id = i
  start : s.keyRangeStart = some (m.rangeStart i)
  stop : s.keyRangeEnd = some (m.rangeEnd i)

theorem Shard.Ranged.containsKey_iff {s : Shard} (hs : s.Ranged m i) (hi : i < m.numShards)
    (keyHash : UInt64) :
    s.containsKey keyHash = true ↔ keyHash ≠ maxHash ∧
      min (keyHash.toNat / m.rangeSize.toNat) (m.numShards.toNat - 1) = i.toNat := by
  have hin : i.toNat < m.numShards.toNat := hi
  have hn : 0 < m.numShards := Nat.zero_lt_of_lt hin
  have hmul := rangeSize_mul_le (m := m)
  have hmax : maxHash.toNat = 18446744073709551615 := rfl
  have hpart : (i.toNat + 1) * m.rangeSize.toNat ≤ maxHash.toNat :=
    (Nat.mul_le_mul_right _ hin).trans hmul
  have hstart : (m.rangeStart i).toNat = i.toNat * m.rangeSize.toNat := by
    rw [ShardManager.rangeStart, UInt64.toNat_mul, UInt32.toNat_toUInt64]
    refine Nat.mod_eq_of_lt ?_
    have : i.toNat * m.rangeSize.toNat ≤ (i.toNat + 1) * m.rangeSize.toNat :=
      Nat.mul_le_mul_right _ (Nat.le_succ _)
    omega
  have hstop : (m.rangeEnd i).toNat =
      if i.toNat = m.numShards.toNat - 1 then maxHash.toNat
      else (i.toNat + 1) * m.rangeSize.toNat := by
    have hlast : i = m.numShards - 1 ↔ i.toNat = m.numShards.toNat - 1 := by
      rw [← UInt32.toNat_inj, UInt32.toNat_sub_of_le _ _ (Nat.succ_le_of_lt hn)]
      rfl
    rw [ShardManager.rangeEnd]
    by_cases h : i = m.numShards - 1
    · rw [if_pos h, if_pos (hlast.mp h)]
    · rw [if_neg h, if_neg (mt hlast.mpr h), UInt64.toNat_mul, UInt64.toNat_add,
        UInt32.toNat_toUInt64]
      have hone : (1 : UInt64).toNat = 1 := rfl
      have hi64 : i.toNat < 4294967296 := i.toNat_lt
      rw [hone, Nat.mod_eq_of_lt (by omega : i.toNat + 1 < 2 ^ 64)]
      exact Nat.mod_eq_of_lt (by omega)
  have hne : keyHash ≠ maxHash ↔ keyHash.toNat < maxHash.toNat := by
    have hlt : keyHash.toNat < 18446744073709551616 := keyHash.toNat_lt
    rw [ne_eq, ← UInt64.toNat_inj]
    omega
  rw [Shard.containsKey, hs.start, hs.stop, Bool.and_eq_true, decide_eq_true_iff,
    decide_eq_true_iff, UInt64.le_iff_toNat_le, UInt64.lt_iff_toNat_lt, hstart, hstop, hne]
  exact mem_part_iff (rangeSize_pos hn) hmul hin

end Ranges

/-! ## The shards of a new manager -/

namespace ShardManager

variable {m : ShardManager} {nodes : List NodeId} {i : UInt32}

/-- The shard of a number is there, and has its range. -/
def HasShard (m : ShardManager) (i : ShardId) (shards : Table ShardId Shard) : Prop :=
  ∃ s, shards.lookup i = some s ∧ s.Ranged m i

theorem HasShard.modify {shards : Table ShardId Shard} {f : Shard → Shard}
    (h : HasShard m i shards) (hf : ∀ s, s.Ranged m i → (f s).Ranged m i) :
    HasShard m i (shards.modify i f) := by
  obtain ⟨s, hs, hranged⟩ := h
  refine ⟨f s, ?_, hf s hranged⟩
  rw [Table.lookup_modify, if_pos rfl, hs]
  rfl

theorem addReplica_spec {m' : ShardManager} (h : HasShard m i m'.shards) (node : NodeId) :
    (m'.addReplica i node).numShards = m'.numShards ∧
      (m'.addReplica i node).replicationFactor = m'.replicationFactor ∧
      HasShard m i (m'.addReplica i node).shards ∧
      ∀ j ≠ i, (m'.addReplica i node).shards.lookup j = m'.shards.lookup j := by
  unfold addReplica
  split_ifs
  · refine ⟨rfl, rfl, h.modify fun s hs => ?_, fun j hj => ?_⟩
    · unfold Shard.addReplica
      split_ifs
      · exact ⟨hs.id, hs.start, hs.stop⟩
      · exact hs
    · rw [Table.lookup_modify, if_neg hj]
  · exact ⟨rfl, rfl, h, fun _ _ => rfl⟩

/-- One shard is made, and the others are left as they are. -/
theorem initializeShard_spec (nodes : List NodeId) (m : ShardManager) (i : UInt32) :
    (m.initializeShard nodes i).numShards = m.numShards ∧
      HasShard m i (m.initializeShard nodes i).shards ∧
      ∀ j ≠ i, (m.initializeShard nodes i).shards.lookup j = m.shards.lookup j := by
  have hreplicas (m' : ShardManager) (rs : List ℕ) (h : HasShard m i m'.shards) :
      let done := rs.foldl
        (fun m r => m.addReplica i (nodeAt nodes (i.toNat % nodes.length + r))) m'
      done.numShards = m'.numShards ∧ HasShard m i done.shards ∧
        ∀ j ≠ i, done.shards.lookup j = m'.shards.lookup j := by
    induction rs generalizing m' with
    | nil => exact ⟨rfl, h, fun _ _ => rfl⟩
    | cons r rs ih =>
      obtain ⟨hnum, -, hhas, hother⟩ :=
        addReplica_spec h (nodeAt nodes (i.toNat % nodes.length + r))
      obtain ⟨hnum', hhas', hother'⟩ := ih _ hhas
      exact ⟨hnum'.trans hnum, hhas', fun j hj => (hother' j hj).trans (hother j hj)⟩
  let created := m.createShardWithRange i (nodeAt nodes i.toNat) (m.rangeStart i) (m.rangeEnd i)
  have hcreated : HasShard m i created.shards :=
    ⟨_, AList.lookup_insert _, ⟨rfl, rfl, rfl⟩⟩
  obtain ⟨hnum, hhas, hother⟩ :=
    hreplicas created (List.range (min m.replicationFactor nodes.length)).tail hcreated
  refine ⟨hnum, hhas.modify fun s hs => ⟨hs.id, hs.start, hs.stop⟩, fun j hj => ?_⟩
  rw [initializeShard, updateShardState, Table.lookup_modify, if_neg hj, hother j hj]
  exact AList.lookup_insert_ne hj

theorem foldl_initializeShard (nodes : List NodeId) (is : List UInt32) (m : ShardManager) :
    let done := is.foldl (initializeShard nodes) m
    done.numShards = m.numShards ∧ (∀ i ∈ is, HasShard m i done.shards) ∧
      ∀ j ∉ is, done.shards.lookup j = m.shards.lookup j := by
  induction is generalizing m with
  | nil => exact ⟨rfl, fun _ h => absurd h List.not_mem_nil, fun _ _ => rfl⟩
  | cons i is ih =>
    obtain ⟨hnum, ⟨s, hs, hranged⟩, hother⟩ := initializeShard_spec nodes m i
    obtain ⟨hnum', hhas', hother'⟩ := ih (m.initializeShard nodes i)
    -- The ranges depend on the number of shards alone.
    have hsame {j : UInt32} {s : Shard} (h : s.Ranged (m.initializeShard nodes i) j) :
        s.Ranged m j := by
      refine ⟨h.id, ?_, ?_⟩
      · rw [h.start, rangeStart, rangeStart, rangeSize, rangeSize, hnum]
      · rw [h.stop, rangeEnd, rangeEnd, rangeSize, rangeSize, hnum]
    refine ⟨hnum'.trans hnum, fun j hj => ?_, fun j hj => ?_⟩
    · by_cases hmem : j ∈ is
      · obtain ⟨s', hs', hranged'⟩ := hhas' j hmem
        exact ⟨s', hs', hsame hranged'⟩
      · obtain rfl := (List.mem_cons.mp hj).resolve_right hmem
        exact ⟨s, (hother' j hmem).trans hs, hranged⟩
    · obtain ⟨hne, hmem⟩ := not_or.mp (mt List.mem_cons.mpr hj)
      exact (hother' j hmem).trans (hother j hne)

/-- A new manager has the shards of all numbers, each with its range, and no others. -/
theorem lookup_initializeShards (n : UInt32) (replicationFactor : ℕ) (hnodes : nodes ≠ []) :
    let m := new n replicationFactor
    let done := m.initializeShards nodes
    done.numShards = n ∧ (∀ i < n, HasShard m i done.shards) ∧
      ∀ i s, done.shards.lookup i = some s → i < n ∧ s.Ranged m i := by
  let m := new n replicationFactor
  have hmem (i : UInt32) : i ∈ (List.range n.toNat).map UInt32.ofNat ↔ i < n := by
    rw [List.mem_map]
    constructor
    · rintro ⟨k, hk, rfl⟩
      have hlt : k < n.toNat := List.mem_range.mp hk
      have hsize : k < UInt32.size := hlt.trans n.toNat_lt
      rw [UInt32.lt_iff_toNat_lt, UInt32.toNat_ofNat_of_lt' hsize]
      exact hlt
    · intro hi
      exact ⟨i.toNat, List.mem_range.mpr hi, UInt32.ofNat_toNat⟩
  obtain ⟨hnum, hhas, hother⟩ :=
    foldl_initializeShard nodes ((List.range n.toNat).map UInt32.ofNat) m
  have hdone : m.initializeShards nodes =
      ((List.range n.toNat).map UInt32.ofNat).foldl (initializeShard nodes) m := by
    rw [initializeShards, if_neg (by simpa using hnodes)]
    rfl
  refine ⟨by rw [hdone, hnum]; rfl, fun i hi => ?_, fun i s hs => ?_⟩
  · rw [hdone]
    exact hhas i ((hmem i).mpr hi)
  · rw [hdone] at hs
    by_cases hi : i ∈ (List.range n.toNat).map UInt32.ofNat
    · obtain ⟨s', hs', hranged⟩ := hhas i hi
      rw [hs'] at hs
      obtain rfl := Option.some.inj hs
      exact ⟨(hmem i).mp hi, hranged⟩
    · rw [hother i hi] at hs
      cases hs

end ShardManager

/-! ## Agreement of the manager and the router -/

theorem find?_eq_of_unique {α : Type*} {l : List α} {p : α → Bool} {x : α} (hx : x ∈ l)
    (hp : p x = true) (hunique : ∀ y ∈ l, p y = true → y = x) : l.find? p = some x := by
  cases h : l.find? p with
  | none => exact absurd hp (List.find?_eq_none.mp h x hx)
  | some y => rw [hunique y (List.mem_of_find?_eq_some h) (List.find?_some h)]

namespace RoutingTable

theorem entries_fromShards (shards : List Shard) :
    (fromShards shards).entries =
      Table.ofValues RoutingEntry.shardId (shards.map entryOf) := by
  have hfold (table : RoutingTable) :
      (shards.foldl (fun table shard => table.upsert (entryOf shard)) table).entries =
        (shards.map entryOf).foldl (fun s e => s.insert e.shardId e) table.entries := by
    induction shards generalizing table with
    | nil => rfl
    | cons shard shards ih => exact ih _
  exact hfold _

/-- The table of all shards has their entries, each under its number. -/
theorem mem_values_fromShards {shards : Table ShardId Shard} {l : List Shard}
    (hl : l.Perm shards.values) (hid : ∀ i s, shards.lookup i = some s → s.id = i)
    {e : RoutingEntry} :
    e ∈ (fromShards l).entries.values ↔ ∃ s ∈ l, entryOf s = e := by
  have hentries : ∀ i, (fromShards l).entries.lookup i =
      (shards.mapValues fun _ => entryOf).lookup i := by
    rw [entries_fromShards]
    refine (Table.lookup_ofValues_iff fun b hb => ?_).mpr fun i b hb => ?_
    · obtain ⟨s, hs, rfl⟩ := List.mem_map.mp hb
      obtain ⟨i, hi⟩ := Table.mem_values.mp (hl.mem_iff.mp hs)
      refine Table.mem_values.mpr ⟨i, ?_⟩
      rw [Table.lookup_mapValues, hi]
      rfl
    · rw [Table.lookup_mapValues] at hb
      obtain ⟨s, hs, rfl⟩ := Option.map_eq_some_iff.mp hb
      exact ⟨hid i s hs, List.mem_map_of_mem (hl.mem_iff.mpr (Table.mem_values.mpr ⟨i, hs⟩))⟩
  rw [Table.mem_values]
  constructor
  · rintro ⟨i, hi⟩
    rw [hentries, Table.lookup_mapValues] at hi
    obtain ⟨s, hs, rfl⟩ := Option.map_eq_some_iff.mp hi
    exact ⟨s, hl.mem_iff.mpr (Table.mem_values.mpr ⟨i, hs⟩), rfl⟩
  · rintro ⟨s, hs, rfl⟩
    obtain ⟨i, hi⟩ := Table.mem_values.mp (hl.mem_iff.mp hs)
    refine ⟨i, ?_⟩
    rw [hentries, Table.lookup_mapValues, hi]
    rfl

end RoutingTable

/-- A shard is the one owner of a hash: its range alone has the hash, the manager finds it, and the
router names it in every decision, for a write with its primary. -/
structure OwnedBy (hashKey : String → UInt64) (order : RoutingOrder) (m : ShardManager)
    (r : ShardRouter) (keyHash : UInt64) (s : Shard) : Prop where
  mem : s ∈ m.getAllShards order
  range : ∀ t ∈ m.getAllShards order, t.containsKey keyHash = true ↔ t = s
  manager : m.getShardForKey keyHash = some s
  route : ∃ node ∈ s.primaryNode :: s.replicaNodes, r.route hashKey order keyHash =
    .single s.id node
  routeWrite : r.routeWrite order keyHash = .primary s.id s.primaryNode
  routeRead : r.routeRead hashKey order keyHash =
    .anyReplica s.id (s.primaryNode :: s.replicaNodes)

theorem ShardRouter.selectNode_mem (r : ShardRouter) (s : Shard) :
    r.selectNode (RoutingTable.entryOf s) ∈ s.primaryNode :: s.replicaNodes := by
  unfold selectNode RoutingTable.entryOf
  split
  · split_ifs with hprimary hreplica
    · exact List.mem_cons_self
    · exact List.mem_cons_of_mem _ hreplica
    · exact List.mem_cons_self
  · exact List.mem_cons_self

/-- After new shards are made and routed, a hash has one owner if and only if it is not the largest
hash and its remainder is the number of its range. -/
theorem oneOwner_iff (hashKey : String → UInt64) (order : RoutingOrder) (n : UInt32)
    (replicationFactor : ℕ) (nodes : List NodeId) (router : ShardRouter) (keyHash : UInt64)
    (hn : 0 < n) (hnodes : nodes ≠ []) :
    let m := (ShardManager.new n replicationFactor).initializeShards nodes
    (∃ s, OwnedBy hashKey order m (router.updateRouting hashKey (m.getAllShards order))
      keyHash s) ↔
        keyHash ≠ maxHash ∧ keyHash.toNat % n.toNat =
          min (keyHash.toNat / (maxHash.toNat / n.toNat)) (n.toNat - 1) := by
  intro m
  obtain ⟨hnum, hhas, honly⟩ :=
    ShardManager.lookup_initializeShards n replicationFactor hnodes
  set m₀ := ShardManager.new n replicationFactor
  have hsize : m₀.rangeSize.toNat = maxHash.toNat / n.toNat := toNat_rangeSize
  have hpos : 0 < n.toNat := hn
  -- The shards of the list are those of the table.
  have hmem (s : Shard) : s ∈ m.getAllShards order ↔ m.shards.lookup s.id = some s := by
    rw [ShardManager.getAllShards, (order.shards_perm _).mem_iff, Table.mem_values]
    constructor
    · rintro ⟨i, hi⟩
      rw [(honly i s hi).2.id]
      exact hi
    · exact fun h => ⟨_, h⟩
  have hcontains {s : Shard} (hs : s ∈ m.getAllShards order) : s.containsKey keyHash = true ↔
      keyHash ≠ maxHash ∧
        min (keyHash.toNat / (maxHash.toNat / n.toNat)) (n.toNat - 1) = s.id.toNat := by
    obtain ⟨hlt, hranged⟩ := honly s.id s ((hmem s).mp hs)
    rw [hranged.containsKey_iff hlt, hsize]
    rfl
  -- What the manager finds is the shard of the remainder.
  have hremainder : (keyHash % m.numShards.toUInt64).toUInt32.toNat =
      keyHash.toNat % n.toNat := by
    have hlt : keyHash.toNat % n.toNat < 4294967296 :=
      (Nat.mod_lt _ hpos).trans n.toNat_lt
    rw [hnum, UInt64.toNat_toUInt32, UInt64.toNat_mod, UInt32.toNat_toUInt64]
    exact Nat.mod_eq_of_lt hlt
  constructor
  · rintro ⟨s, howned⟩
    obtain ⟨hne, hrange⟩ := (hcontains howned.mem).mp ((howned.range s howned.mem).mpr rfl)
    have hid := (honly _ _ howned.manager).2.id
    rw [hrange, hid, hremainder]
    exact ⟨hne, rfl⟩
  · rintro ⟨hne, hagree⟩
    have hlt : (keyHash % m.numShards.toUInt64).toUInt32 < n := by
      rw [UInt32.lt_iff_toNat_lt, hremainder]
      exact Nat.mod_lt _ hpos
    obtain ⟨s, hs, hranged⟩ := hhas _ hlt
    have hmems : s ∈ m.getAllShards order := by
      rw [hmem, hranged.id]
      exact hs
    have hrange (t : Shard) (ht : t ∈ m.getAllShards order) :
        t.containsKey keyHash = true ↔ t = s := by
      rw [hcontains ht, and_iff_right hne, ← hagree, ← hremainder, UInt32.toNat_inj,
        ← hranged.id]
      constructor
      · intro hid
        have ht' := (hmem t).mp ht
        rw [← hid, (hmem s).mp hmems] at ht'
        exact (Option.some.inj ht').symm
      · rintro rfl
        rfl
    -- So the table has one entry for the hash.
    have hfind : (RoutingTable.fromShards (m.getAllShards order)).findShard order keyHash =
        some (RoutingTable.entryOf s) := by
      have hentry (e : RoutingEntry) : e ∈ order.entries
          (RoutingTable.fromShards (m.getAllShards order)).entries ↔
            ∃ t ∈ m.getAllShards order, RoutingTable.entryOf t = e := by
        rw [(order.entries_perm _).mem_iff]
        exact RoutingTable.mem_values_fromShards (order.shards_perm _)
          fun i t ht => (honly i t ht).2.id
      have htest {t : Shard} (ht : t ∈ m.getAllShards order) :
          ((RoutingTable.entryOf t).keyRangeStart ≤ keyHash &&
            keyHash < (RoutingTable.entryOf t).keyRangeEnd) = t.containsKey keyHash := by
        have hranged := (honly _ _ ((hmem t).mp ht)).2
        rw [RoutingTable.entryOf, Shard.containsKey, hranged.start, hranged.stop]
        rfl
      refine find?_eq_of_unique ((hentry _).mpr ⟨s, hmems, rfl⟩) ?_ fun e he hp => ?_
      · rw [htest hmems]
        exact (hrange s hmems).mpr rfl
      · obtain ⟨t, ht, rfl⟩ := (hentry e).mp he
        rw [htest ht] at hp
        rw [(hrange t ht).mp hp]
    refine ⟨s, hmems, hrange, hs, ⟨_, router.selectNode_mem s, ?_⟩, ?_, ?_⟩
    · rw [ShardRouter.route, ShardRouter.updateRouting, hfind]
      rfl
    · rw [ShardRouter.routeWrite, ShardRouter.updateRouting, hfind]
      rfl
    · rw [ShardRouter.routeRead, ShardRouter.updateRouting, hfind]
      rfl

/-- Of two shards at one node, the first owns the hash zero. -/
theorem oneOwner_iff_zero :
    let m := (ShardManager.new 2 1).initializeShards ["a"]
    ∃ s, OwnedBy (fun _ => 0) .insertion m (ShardRouter.new.updateRouting (fun _ => 0)
      (m.getAllShards .insertion)) 0 s :=
  (oneOwner_iff (fun _ => 0) .insertion 2 1 ["a"] .new 0 (by decide) (by decide)).mpr
    ⟨by decide, by decide⟩

/-- Of two shards at one node, the manager gives the hash one to the second, and the router to the
first. -/
theorem not_oneOwner :
    let m := (ShardManager.new 2 1).initializeShards ["a"]
    ¬ ∃ s, OwnedBy (fun _ => 0) .insertion m (ShardRouter.new.updateRouting (fun _ => 0)
      (m.getAllShards .insertion)) 1 s := by
  intro m
  rintro ⟨s, h⟩
  have hmanager : (m.getShardForKey 1).map Shard.id = some 1 := by decide +kernel
  have hrouter : (ShardRouter.new.updateRouting (fun _ => 0)
      (m.getAllShards .insertion)).routeWrite .insertion 1 = .primary 0 "a" := by decide +kernel
  rw [h.manager] at hmanager
  rw [h.routeWrite, Option.some.inj hmanager] at hrouter
  exact absurd hrouter (by simp)

end Replication

end AegisDB
