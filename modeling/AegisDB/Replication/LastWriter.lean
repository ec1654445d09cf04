import AegisDB.Library.LastWrite
import AegisDB.Library.MergedTable
import AegisDB.Replication.Sharding
import Mathlib.Data.Prod.Lex
import Mathlib.Data.String.Basic

/-!
# Registers and maps in which the last writer wins

A write carries a timestamp and the id of its node, and a register keeps the value whose pair of
the two is greatest.  A map has a register under each key.  It should be that a key has the value of
the greatest update of it, and none if that update is a removal.  A removal drops the register
with its stamp, so an older value that comes back through a merge, or that is set afterwards with an
older stamp, is taken (`LWWMap.not_shows`).  Two values with one stamp are not told apart, and a
first value with the least stamp is not taken at all.  In all other runs registers and maps are as
they should be, and each of these steps breaks it (`lastWriterWins_iff`).
-/

namespace AegisDB

namespace Replication

/-! ## Stamps -/

/-- A timestamp and the node it is from. -/
@[ext] structure Stamp where
  timestamp : UInt64
  nodeId : String
deriving DecidableEq

namespace Stamp

/-- Stamps are compared by their timestamps first. -/
def key (s : Stamp) : ℕ ×ₗ String :=
  toLex (s.timestamp.toNat, s.nodeId)

theorem key_injective : Function.Injective key := by
  intro s t h
  have hpair : (s.timestamp.toNat, s.nodeId) = (t.timestamp.toNat, t.nodeId) := toLex.injective h
  exact Stamp.ext (UInt64.toNat_inj.mp (congrArg Prod.fst hpair)) (congrArg Prod.snd hpair)

instance : LinearOrder Stamp :=
  LinearOrder.lift' key key_injective

instance : OrderBot Stamp where
  bot := ⟨0, ""⟩
  bot_le s := by
    change toLex ((0 : UInt64).toNat, "") ≤ toLex (s.timestamp.toNat, s.nodeId)
    rw [Prod.Lex.toLex_le_toLex]
    rcases Nat.eq_zero_or_pos s.timestamp.toNat with h | h
    · refine Or.inr ⟨h.symm, ?_⟩
      rw [String.le_iff_toList_le, String.toList_empty]
      exact not_lt.mp (List.not_lt_nil s.nodeId.toList)
    · exact Or.inl h

theorem lt_iff {s t : Stamp} : s < t ↔
    t.timestamp > s.timestamp ∨ t.timestamp = s.timestamp ∧ t.nodeId > s.nodeId := by
  change toLex (s.timestamp.toNat, s.nodeId) < toLex (t.timestamp.toNat, t.nodeId) ↔ _
  rw [Prod.Lex.toLex_lt_toLex, UInt64.toNat_inj]
  refine or_congr Iff.rfl (and_congr_left fun _ => eq_comm)

end Stamp

/-! ## Registers -/

/-- A register where the most recent write wins. -/
structure LWWRegister (V : Type*) where
  value : Option V
  timestamp : UInt64
  nodeId : String

namespace LWWRegister

variable {V : Type*}

def new : LWWRegister V where
  value := none
  timestamp := 0
  nodeId := ""

/-- Set with a specific timestamp. -/
def setWithTimestamp (r : LWWRegister V) (value : V) (timestamp : UInt64) (nodeId : NodeId) :
    LWWRegister V :=
  if timestamp > r.timestamp ∨ (timestamp = r.timestamp ∧ nodeId > r.nodeId) then
    { value := some value, timestamp := timestamp, nodeId := nodeId }
  else r

/-- Set the register value; `now` is what the clock shows. -/
def set (r : LWWRegister V) (value : V) (nodeId : NodeId) (now : UInt64) : LWWRegister V :=
  if now > r.timestamp ∨ (now = r.timestamp ∧ nodeId > r.nodeId) then
    { value := some value, timestamp := now, nodeId := nodeId }
  else r

def get (r : LWWRegister V) : Option V :=
  r.value

/-- Merge with another instance. -/
def merge (self other : LWWRegister V) : LWWRegister V :=
  if other.timestamp > self.timestamp ∨
      (other.timestamp = self.timestamp ∧ other.nodeId > self.nodeId) then
    { value := other.value, timestamp := other.timestamp, nodeId := other.nodeId }
  else self

/-- The updates of a register. -/
inductive Update (V : Type*) where
  | set (value : V) (nodeId : NodeId) (now : UInt64)
  | setWithTimestamp (value : V) (timestamp : UInt64) (nodeId : NodeId)

def update (r : LWWRegister V) : Update V → LWWRegister V
  | .set value nodeId now => r.set value nodeId now
  | .setWithTimestamp value timestamp nodeId => r.setWithTimestamp value timestamp nodeId

def crdt : ReplicatedType (LWWRegister V) (Update V) :=
  ⟨new, update, merge⟩

def Update.write : Update V → LastWrite.Write Stamp V
  | .set value nodeId now => ⟨⟨now, nodeId⟩, some value⟩
  | .setWithTimestamp value timestamp nodeId => ⟨⟨timestamp, nodeId⟩, some value⟩

def toRegister (r : LWWRegister V) : LastWrite.Register Stamp V :=
  ⟨r.value, ⟨r.timestamp, r.nodeId⟩⟩

theorem toRegister_injective : Function.Injective (toRegister (V := V)) := by
  rintro ⟨value, timestamp, nodeId⟩ ⟨value', timestamp', nodeId'⟩ h
  cases h
  rfl

theorem toRegister_merge (a b : LWWRegister V) :
    (a.merge b).toRegister = a.toRegister.merge b.toRegister := by
  have hlt : a.toRegister.stamp < b.toRegister.stamp ↔ b.timestamp > a.timestamp ∨
      (b.timestamp = a.timestamp ∧ b.nodeId > a.nodeId) := Stamp.lt_iff
  rw [merge, LastWrite.Register.merge]
  by_cases h : a.toRegister.stamp < b.toRegister.stamp
  · rw [if_pos h, if_pos (hlt.mp h)]
  · rw [if_neg h, if_neg (mt hlt.mpr h)]

theorem toRegister_update (r : LWWRegister V) (u : Update V) :
    (r.update u).toRegister = r.toRegister.apply u.write := by
  cases u with
  | set value nodeId now => exact toRegister_merge r ⟨some value, now, nodeId⟩
  | setWithTimestamp value timestamp nodeId =>
    exact toRegister_merge r ⟨some value, timestamp, nodeId⟩

theorem cells : LastWrite.Cells (crdt (V := V)) (fun r (_ : Unit) => r.toRegister)
    fun _ u => some u.write where
  new _ := rfl
  update r u _ := toRegister_update r u
  merge a b _ := toRegister_merge a b

theorem merge_new (r : LWWRegister V) : r.merge new = r := by
  refine toRegister_injective ?_
  rw [toRegister_merge]
  exact LastWrite.Register.merge_of_le bot_le

theorem merge_assoc (a b c : LWWRegister V) : (a.merge b).merge c = a.merge (b.merge c) := by
  refine toRegister_injective ?_
  rw [toRegister_merge, toRegister_merge, toRegister_merge, toRegister_merge,
    LastWrite.Register.merge_assoc]

theorem merge_self (a : LWWRegister V) : a.merge a = a := by
  refine toRegister_injective ?_
  rw [toRegister_merge, LastWrite.Register.merge_self]

/-- Two registers have different values with one stamp. -/
def Clash (a b : LWWRegister V) : Prop :=
  a.timestamp = b.timestamp ∧ a.nodeId = b.nodeId ∧ a.value ≠ b.value

theorem merge_comm_iff (a b : LWWRegister V) : a.merge b = b.merge a ↔ ¬ Clash a b := by
  have hinj := toRegister_injective.eq_iff (a := a.merge b) (b := b.merge a)
  rw [← hinj, toRegister_merge, toRegister_merge, LastWrite.Register.merge_comm_iff, Clash,
    not_and, not_and, not_not]
  exact ⟨fun h ht hn => h (Stamp.ext ht hn),
    fun h heq => h (congrArg Stamp.timestamp heq) (congrArg Stamp.nodeId heq)⟩

end LWWRegister

/-! ## Maps -/

/-- A map where the most recent write for each key wins. -/
structure LWWMap (K V : Type*) where
  entries : Table K (LWWRegister V)

namespace LWWMap

variable {K V : Type*}

def new : LWWMap K V :=
  ⟨∅⟩

variable [DecidableEq K]

/-- Set a key-value pair; `now` is what the clock shows. -/
def set (m : LWWMap K V) (key : K) (value : V) (nodeId : NodeId) (now : UInt64) : LWWMap K V :=
  ⟨m.entries.insert key (((m.entries.lookup key).getD .new).set value nodeId now)⟩

def get (m : LWWMap K V) (key : K) : Option V :=
  (m.entries.lookup key).bind LWWRegister.get

def remove (m : LWWMap K V) (key : K) : LWWMap K V :=
  ⟨m.entries.erase key⟩

def merge (self other : LWWMap K V) : LWWMap K V :=
  ⟨self.entries.mergeWith (fun ours register => (ours.getD .new).merge register) other.entries⟩

/-- The updates of a map.  A removal is made at some time on some node as a write is; the map is
not told which. -/
inductive Update (K V : Type*) where
  | set (key : K) (value : V) (nodeId : NodeId) (now : UInt64)
  | remove (key : K) (nodeId : NodeId) (now : UInt64)

def update (m : LWWMap K V) : Update K V → LWWMap K V
  | .set key value nodeId now => m.set key value nodeId now
  | .remove key _ _ => m.remove key

def crdt : ReplicatedType (LWWMap K V) (Update K V) :=
  ⟨new, update, merge⟩

/-- The write to a key that an update is, if it is one. -/
def Update.writeTo (k : K) : Update K V → Option (LastWrite.Write Stamp V)
  | .set key value nodeId now => if k = key then some ⟨⟨now, nodeId⟩, some value⟩ else none
  | .remove key nodeId now => if k = key then some ⟨⟨now, nodeId⟩, none⟩ else none

/-- The register under a key, a new one if there is none. -/
def registerAt (m : LWWMap K V) (k : K) : LWWRegister V :=
  (m.entries.lookup k).getD .new

theorem get_eq_value (m : LWWMap K V) (k : K) : m.get k = (m.registerAt k).value := by
  rw [get, registerAt]
  cases m.entries.lookup k <;> rfl

theorem registerAt_merge (a b : LWWMap K V) (k : K) :
    (a.merge b).registerAt k = (a.registerAt k).merge (b.registerAt k) := by
  rw [registerAt, registerAt, registerAt, merge, Table.lookup_mergeWith]
  cases b.entries.lookup k with
  | none =>
    rw [Option.map_none, Option.none_or, Option.getD_none, LWWRegister.merge_new]
  | some r => rfl

theorem registerAt_set (m : LWWMap K V) (key k : K) (value : V) (nodeId : NodeId) (now : UInt64) :
    (m.set key value nodeId now).registerAt k =
      if k = key then (m.registerAt k).set value nodeId now else m.registerAt k := by
  rw [registerAt, registerAt, set, Table.lookup_insert]
  split_ifs with h
  · rw [h]
    rfl
  · rfl

theorem registerAt_remove (m : LWWMap K V) (key k : K) :
    (m.remove key).registerAt k = if k = key then .new else m.registerAt k := by
  rw [registerAt, registerAt, remove, Table.lookup_erase]
  split_ifs with h
  · rfl
  · rfl

theorem cells : LastWrite.Cells (crdt (K := K) (V := V))
    (fun m k => (m.registerAt k).toRegister) Update.writeTo where
  new _ := rfl
  update m u k := by
    cases u with
    | set key value nodeId now =>
      change ((m.set key value nodeId now).registerAt k).toRegister = _
      rw [registerAt_set, Update.writeTo]
      split_ifs with h
      · exact LWWRegister.toRegister_update (m.registerAt k) (.set value nodeId now)
      · rfl
    | remove key nodeId now =>
      change ((m.remove key).registerAt k).toRegister = _
      rw [registerAt_remove, Update.writeTo]
      split_ifs with h
      · rfl
      · rfl
  merge a b k := by
    rw [← LWWRegister.toRegister_merge, ← registerAt_merge]
    rfl

theorem isSome_lookup_merge (a b : LWWMap K V) (k : K) :
    ((a.merge b).entries.lookup k).isSome =
      ((a.entries.lookup k).isSome || (b.entries.lookup k).isSome) := by
  rw [merge, Table.lookup_mergeWith]
  cases b.entries.lookup k with
  | none => rw [Option.map_none, Option.none_or, Option.isSome_none, Bool.or_false]
  | some r => rw [Option.map_some, Option.some_or, Option.isSome_some, Option.isSome_some,
      Bool.or_true]

theorem lookup_eq_iff (a b : LWWMap K V) (k : K) :
    a.entries.lookup k = b.entries.lookup k ↔
      (a.entries.lookup k).isSome = (b.entries.lookup k).isSome ∧
        a.registerAt k = b.registerAt k := by
  rw [registerAt, registerAt]
  cases a.entries.lookup k with
  | none => cases b.entries.lookup k <;> simp
  | some r => cases b.entries.lookup k <;> simp

theorem merge_assoc (a b c : LWWMap K V) (k : K) :
    ((a.merge b).merge c).entries.lookup k = (a.merge (b.merge c)).entries.lookup k := by
  rw [lookup_eq_iff]
  constructor
  · rw [isSome_lookup_merge, isSome_lookup_merge, isSome_lookup_merge, isSome_lookup_merge,
      Bool.or_assoc]
  · rw [registerAt_merge, registerAt_merge, registerAt_merge, registerAt_merge,
      LWWRegister.merge_assoc]

theorem merge_self (a : LWWMap K V) (k : K) :
    (a.merge a).entries.lookup k = a.entries.lookup k := by
  rw [lookup_eq_iff]
  constructor
  · rw [isSome_lookup_merge, Bool.or_self]
  · rw [registerAt_merge, LWWRegister.merge_self]

theorem merge_comm_iff (a b : LWWMap K V) :
    (∀ k, (a.merge b).entries.lookup k = (b.merge a).entries.lookup k) ↔
      ∀ k, ¬ (a.registerAt k).Clash (b.registerAt k) := by
  refine forall_congr' fun k => ?_
  rw [lookup_eq_iff, isSome_lookup_merge, isSome_lookup_merge, registerAt_merge,
    registerAt_merge, LWWRegister.merge_comm_iff]
  exact and_iff_right (Bool.or_comm _ _)

end LWWMap

/-! ## The last writer wins -/

/-- The register has the value of the greatest update received. -/
def LWWRegister.Shows {V : Type*} (log : List (UpdateEvent (LWWRegister V) (Update V)))
    (c : Copy (LWWRegister V)) : Prop :=
  LastWrite.Shows (LastWrite.received (fun (_ : Unit) u => some u.write) log c.received ())
    c.state.get

/-- Every key has the value of the greatest update of it that has been received, and none if that is
a removal. -/
def LWWMap.Shows {K V : Type*} [DecidableEq K] (log : List (UpdateEvent (LWWMap K V) (Update K V)))
    (c : Copy (LWWMap K V)) : Prop :=
  ∀ k, LastWrite.Shows (LastWrite.received Update.writeTo log c.received k) (c.state.get k)

theorem LWWRegister.shows_iff {V : Type*} {log : List (UpdateEvent (LWWRegister V) (Update V))}
    {c : Copy (LWWRegister V)} : Shows log c ↔
      LastWrite.ShowsReceived (fun r (_ : Unit) => r.toRegister) (fun _ u => some u.write) log c :=
  ⟨fun h _ => h, fun h => h ()⟩

theorem LWWMap.shows_iff {K V : Type*} [DecidableEq K]
    {log : List (UpdateEvent (LWWMap K V) (Update K V))} {c : Copy (LWWMap K V)} :
    Shows log c ↔ LastWrite.ShowsReceived (fun m k => (m.registerAt k).toRegister)
      Update.writeTo log c :=
  forall_congr' fun k => by
    rw [get_eq_value]
    rfl

/-- The updates that a register shows and the merges that show both sides. -/
abbrev LWWRegister.Fits {V N : Type*} :
    Replicas N (LWWRegister V) (Update V) → ReplicaAction N (Update V) → Prop :=
  Replicas.Meets (LastWrite.AcceptsUpdate fun (_ : Unit) u => some u.write)
    (LastWrite.SidesAgree fun (_ : Unit) u => some u.write)

/-- The updates that a map shows and the merges that show both sides. -/
abbrev LWWMap.Fits {K V N : Type*} [DecidableEq K] :
    Replicas N (LWWMap K V) (Update K V) → ReplicaAction N (Update K V) → Prop :=
  Replicas.Meets (LastWrite.AcceptsUpdate Update.writeTo) (LastWrite.SidesAgree Update.writeTo)

theorem LWWRegister.lastWriterWins {V N : Type*} [DecidableEq N]
    {w : Replicas N (LWWRegister V) (Update V)} (h : crdt.replicas.Reach Fits w) :
    (∀ r, Shows w.log (w.replica r)) ∧ ∀ a w', crdt.replicas.step w a = some w' →
      ((∀ r, Shows w'.log (w'.replica r)) ↔ Fits w a) := by
  simp only [shows_iff]
  exact LWWRegister.cells.shows_iff h

theorem LWWMap.lastWriterWins {K V N : Type*} [DecidableEq K] [DecidableEq N]
    {w : Replicas N (LWWMap K V) (Update K V)} (h : crdt.replicas.Reach Fits w) :
    (∀ r, Shows w.log (w.replica r)) ∧ ∀ a w', crdt.replicas.step w a = some w' →
      ((∀ r, Shows w'.log (w'.replica r)) ↔ Fits w a) := by
  simp only [shows_iff]
  exact LWWMap.cells.shows_iff h

theorem LWWMap.get_eq_of_received_eq {K V N : Type*} [DecidableEq K] [DecidableEq N]
    {w : Replicas N (LWWMap K V) (Update K V)} (h : crdt.replicas.Reach Fits w) {r r' : N}
    (hsame : (w.replica r).received = (w.replica r').received) (k : K) :
    (w.replica r).state.get k = (w.replica r').state.get k := by
  have hshows (q : N) := shows_iff.mp ((lastWriterWins h).1 q)
  rw [get_eq_value, get_eq_value]
  exact (hshows r).value_eq (hshows r') hsame k

/-- Merging registers and maps is associative and idempotent, and commutative exactly where no
different values have one stamp.  In every run whose updates are accepted and whose merges are of
sides that agree, every register has the value of the greatest update it has received, and every key
of a map that of the greatest update of it, or none if that is a removal, so that replicas with the
same updates have the same values; and a further step keeps this if and only if it meets the same
condition. -/
theorem lastWriterWins_iff (K V : Type*) [DecidableEq K] :
    ((∀ a b c : LWWRegister V, (a.merge b).merge c = a.merge (b.merge c)) ∧
      (∀ a : LWWRegister V, a.merge a = a) ∧
      (∀ a b : LWWRegister V, a.merge b = b.merge a ↔ ¬ a.Clash b) ∧
      ∀ (N : Type) [DecidableEq N] (w : Replicas N (LWWRegister V) (LWWRegister.Update V)),
        LWWRegister.crdt.replicas.Reach LWWRegister.Fits w →
          (∀ r, LWWRegister.Shows w.log (w.replica r)) ∧
            ∀ a w', LWWRegister.crdt.replicas.step w a = some w' →
              ((∀ r, LWWRegister.Shows w'.log (w'.replica r)) ↔ LWWRegister.Fits w a)) ∧
    ((∀ (a b c : LWWMap K V) (k : K),
        ((a.merge b).merge c).entries.lookup k = (a.merge (b.merge c)).entries.lookup k) ∧
      (∀ (a : LWWMap K V) (k : K), (a.merge a).entries.lookup k = a.entries.lookup k) ∧
      (∀ a b : LWWMap K V,
        (∀ k, (a.merge b).entries.lookup k = (b.merge a).entries.lookup k) ↔
          ∀ k, ¬ (a.registerAt k).Clash (b.registerAt k)) ∧
      ∀ (N : Type) [DecidableEq N] (w : Replicas N (LWWMap K V) (LWWMap.Update K V)),
        LWWMap.crdt.replicas.Reach LWWMap.Fits w →
          (∀ r, LWWMap.Shows w.log (w.replica r)) ∧
            (∀ r r', (w.replica r).received = (w.replica r').received →
              ∀ k, (w.replica r).state.get k = (w.replica r').state.get k) ∧
            ∀ a w', LWWMap.crdt.replicas.step w a = some w' →
              ((∀ r, LWWMap.Shows w'.log (w'.replica r)) ↔ LWWMap.Fits w a)) := by
  refine ⟨⟨LWWRegister.merge_assoc, LWWRegister.merge_self, LWWRegister.merge_comm_iff, ?_⟩,
    LWWMap.merge_assoc, LWWMap.merge_self, LWWMap.merge_comm_iff, ?_⟩
  · exact fun N _ w h => LWWRegister.lastWriterWins h
  · intro N _ w h
    obtain ⟨hshows, hstep⟩ := LWWMap.lastWriterWins h
    exact ⟨hshows, fun r r' hsame k => LWWMap.get_eq_of_received_eq h hsame k, hstep⟩

namespace LWWMap

/-- A replica sets a key, another receives it, the first removes the key at a later time, and then
merges what the other has. -/
def staleRun : List (ReplicaAction Bool (Update String ℕ)) :=
  [.update true (.set "key" 7 "A" 1), .send true, .merge false 0,
    .update true (.remove "key" "A" 2), .send false, .merge true 1]

/-- The removal is the greatest update, and the key has the older value again. -/
theorem not_shows : ∃ w, (crdt (K := String) (V := ℕ)).replicas.Reachable w ∧
    ((w.replica true).state.get "key" = some 7 ∧ ¬ Shows w.log (w.replica true)) := by
  have hrun : (((crdt (K := String) (V := ℕ)).replicas (N := Bool)).run (fun _ _ => True)
      staleRun).any fun w => decide ((w.replica true).state.get "key" = some 7) &&
        decide (w.log.map (fun e => e.update.writeTo "key") =
          [some ⟨⟨1, "A"⟩, some 7⟩, some ⟨⟨2, "A"⟩, none⟩]) &&
        decide ((w.replica true).received = {0, 1}) := by
    decide +kernel
  obtain ⟨w, hw, hbad⟩ := (Option.any_eq_true _ _).mp hrun
  rw [Bool.and_eq_true, Bool.and_eq_true, decide_eq_true_eq, decide_eq_true_eq,
    decide_eq_true_eq] at hbad
  obtain ⟨⟨hget, hlog⟩, hreceived⟩ := hbad
  refine ⟨w, System.reach_of_run hw, hget, fun hshows => ?_⟩
  have hremoved : LastWrite.Latest
      (LastWrite.received Update.writeTo w.log (w.replica true).received "key")
      ⟨⟨2, "A"⟩, none⟩ := by
    constructor
    · rw [LastWrite.mem_received, hlog, hreceived]
      exact ⟨1, by decide, rfl⟩
    · intro x hx
      rw [LastWrite.mem_received, hlog, hreceived] at hx
      obtain ⟨i, hi, hx⟩ := hx
      rcases Finset.mem_insert.mp hi with rfl | hi
      · obtain rfl := Option.some.inj (Option.some.inj hx)
        decide
      · obtain rfl := Finset.mem_singleton.mp hi
        obtain rfl := Option.some.inj (Option.some.inj hx)
        decide
  have hnone := (hshows "key").2 _ hremoved
  rw [hget] at hnone
  cases hnone

end LWWMap

end Replication

end AegisDB
