import AegisDB.Library.MergedTable
import AegisDB.Library.Replicas
import AegisDB.Replication.Sharding
import Mathlib.Data.Finset.Lattice.Basic
import Mathlib.Data.UInt
import Mathlib.Order.WithBot

/-!
# Replicated counters and sets

The counters keep a count for each node, and a merge takes the greater of two counts; the sets only
grow, and a removed element of a two-phase set stays removed.  So the states of each type form a
semilattice whose join is the merge, and replicas that have received the same updates answer alike
(`crdts_converge`).  Only the counts are 64 bits wide: an increment that overflows its count makes
it smaller, and the states it is merged with win over it (`GCounter.not_converges`).
-/

namespace AegisDB

/-! ## What a replicated type promises -/

/-- The promises of a state-based replicated type.  `view` is what there is to a state up to the
order of its tables, `ask` is the answers to all queries, and `Φ` is a condition on the updates. -/
structure ReplicatedType.Converges {σ U L Q : Type*} (D : ReplicatedType σ U) [LE L]
    (view : σ → L) (ask : σ → Q) (Φ : σ → U → Prop) : Prop where
  merge_comm : ∀ a b, view (D.merge a b) = view (D.merge b a)
  merge_assoc : ∀ a b c, view (D.merge (D.merge a b) c) = view (D.merge a (D.merge b c))
  merge_idem : ∀ a, view (D.merge a a) = view a
  /-- An update leads to a greater state if and only if it meets the condition. -/
  dominated : ∀ s u, view s ≤ view (D.update s u) ↔ Φ s u
  /-- Where every update meets the condition, replicas that have received the same updates answer
  alike. -/
  alike : ∀ (N : Type) [DecidableEq N] (w : Replicas N σ U),
    D.replicas.Reach (Replicas.Meets (fun _ c u => Φ c.state u) fun _ _ _ => True) w →
      ∀ r r', (w.replica r).received = (w.replica r').received →
        ask (w.replica r).state = ask (w.replica r').state

/-- A type whose merge is a join keeps all promises, as long as its updates only add to a state. -/
theorem ReplicatedType.Converges.of_join {σ U L Q : Type*} {D : ReplicatedType σ U}
    [SemilatticeSup L] [OrderBot L] {view : σ → L} {ask : σ → Q} {Φ : σ → U → Prop}
    (hnew : view D.new = ⊥) (hmerge : ∀ a b, view (D.merge a b) = view a ⊔ view b)
    (hupdate : ∀ s u, view s ≤ view (D.update s u) ↔ Φ s u)
    (hask : ∀ a b, view a = view b → ask a = ask b) : D.Converges view ask Φ where
  merge_comm a b := by
    rw [hmerge, hmerge, sup_comm]
  merge_assoc a b c := by
    rw [hmerge, hmerge, hmerge, hmerge, sup_assoc]
  merge_idem a := by
    rw [hmerge, sup_idem]
  dominated := hupdate
  alike N _ w h r r' hsame := by
    refine hask _ _ (Replicas.view_eq_of_received_eq hnew hmerge (h.mono ?_) (Or.inl ⟨r, rfl⟩)
      (Or.inl ⟨r', rfl⟩) hsame)
    rintro w (⟨q, u⟩ | q | ⟨q, i⟩) hΦ
    · exact (hupdate _ _).mpr hΦ
    · trivial
    · exact fun _ _ => trivial

namespace Replication

/-! ## Counters -/

/-- The greater of two counts, where there may be none yet. -/
def maxCount (current : Option UInt64) (value : UInt64) : UInt64 :=
  if current.getD 0 ≤ value then value else current.getD 0

/-- A grow-only counter that can only be incremented. -/
structure GCounter where
  counts : Table String UInt64

namespace GCounter

def new : GCounter :=
  ⟨∅⟩

/-- Increment by a specific amount.  The count is 64 bits wide and wraps around. -/
def incrementBy (c : GCounter) (nodeId : NodeId) (amount : UInt64) : GCounter :=
  ⟨c.counts.insert nodeId ((c.counts.lookup nodeId).getD 0 + amount)⟩

def increment (c : GCounter) (nodeId : NodeId) : GCounter :=
  ⟨c.counts.insert nodeId ((c.counts.lookup nodeId).getD 0 + 1)⟩

def value (c : GCounter) : UInt64 :=
  Table.sumValues id c.counts

def nodeValue (c : GCounter) (nodeId : NodeId) : UInt64 :=
  (c.counts.lookup nodeId).getD 0

/-- Merge with another instance: the greater count of each node. -/
def merge (self other : GCounter) : GCounter :=
  ⟨self.counts.mergeWith maxCount other.counts⟩

/-- The updates of a counter. -/
inductive Update where
  | increment (nodeId : NodeId)
  | incrementBy (nodeId : NodeId) (amount : UInt64)

def update (c : GCounter) : Update → GCounter
  | .increment nodeId => c.increment nodeId
  | .incrementBy nodeId amount => c.incrementBy nodeId amount

def crdt : ReplicatedType GCounter Update :=
  ⟨new, update, merge⟩

/-- What a counter has for each node, `⊥` if nothing. -/
def view (c : GCounter) (nodeId : NodeId) : WithBot ℕ :=
  (c.counts.lookup nodeId).elim ⊥ fun count => WithBot.some count.toNat

def ask (c : GCounter) : UInt64 × (NodeId → UInt64) :=
  (c.value, c.nodeValue)

/-- The count that an update increments does not overflow. -/
def Update.Fits (c : GCounter) : Update → Prop
  | .increment nodeId => (c.nodeValue nodeId).toNat + 1 < 2 ^ 64
  | .incrementBy nodeId amount => (c.nodeValue nodeId).toNat + amount.toNat < 2 ^ 64

end GCounter

/-- A counter that supports both increment and decrement. -/
structure PNCounter where
  positive : GCounter
  negative : GCounter

namespace PNCounter

def new : PNCounter :=
  ⟨GCounter.new, GCounter.new⟩

def increment (c : PNCounter) (nodeId : NodeId) : PNCounter :=
  { c with positive := c.positive.increment nodeId }

def incrementBy (c : PNCounter) (nodeId : NodeId) (amount : UInt64) : PNCounter :=
  { c with positive := c.positive.incrementBy nodeId amount }

def decrement (c : PNCounter) (nodeId : NodeId) : PNCounter :=
  { c with negative := c.negative.increment nodeId }

def decrementBy (c : PNCounter) (nodeId : NodeId) (amount : UInt64) : PNCounter :=
  { c with negative := c.negative.incrementBy nodeId amount }

def value (c : PNCounter) : Int64 :=
  c.positive.value.toInt64 - c.negative.value.toInt64

def merge (self other : PNCounter) : PNCounter where
  positive := self.positive.merge other.positive
  negative := self.negative.merge other.negative

/-- The updates of a counter. -/
inductive Update where
  | increment (nodeId : NodeId)
  | incrementBy (nodeId : NodeId) (amount : UInt64)
  | decrement (nodeId : NodeId)
  | decrementBy (nodeId : NodeId) (amount : UInt64)

/-- Make an update. -/
def update (c : PNCounter) : Update → PNCounter
  | .increment nodeId => c.increment nodeId
  | .incrementBy nodeId amount => c.incrementBy nodeId amount
  | .decrement nodeId => c.decrement nodeId
  | .decrementBy nodeId amount => c.decrementBy nodeId amount

def crdt : ReplicatedType PNCounter Update :=
  ⟨new, update, merge⟩

def view (c : PNCounter) : (NodeId → WithBot ℕ) × (NodeId → WithBot ℕ) :=
  (c.positive.view, c.negative.view)

/-- The count that an update increments does not overflow. -/
def Update.Fits (c : PNCounter) : Update → Prop
  | .increment nodeId => GCounter.Update.Fits c.positive (.increment nodeId)
  | .incrementBy nodeId amount => GCounter.Update.Fits c.positive (.incrementBy nodeId amount)
  | .decrement nodeId => GCounter.Update.Fits c.negative (.increment nodeId)
  | .decrementBy nodeId amount => GCounter.Update.Fits c.negative (.incrementBy nodeId amount)

end PNCounter

/-! ## Sets -/

/-- A set that only supports add operations. -/
structure GSet (T : Type*) where
  elements : Finset T

namespace GSet

variable {T : Type*}

def new : GSet T :=
  ⟨∅⟩

def len (s : GSet T) : ℕ :=
  s.elements.card

variable [DecidableEq T]

def isEmpty (s : GSet T) : Bool :=
  s.elements = ∅

def add (s : GSet T) (element : T) : GSet T :=
  ⟨insert element s.elements⟩

def contains (s : GSet T) (element : T) : Bool :=
  element ∈ s.elements

def merge (self other : GSet T) : GSet T :=
  ⟨self.elements ∪ other.elements⟩

/-- The set as a replicated type; its only update adds an element. -/
def crdt : ReplicatedType (GSet T) T :=
  ⟨new, add, merge⟩

/-- All that can be asked of a set: whether it contains an element, how many it has, whether it is
empty, and the elements, whose order is that of their hashes. -/
def ask (s : GSet T) : (T → Bool) × ℕ × Bool × Finset T :=
  (s.contains, s.len, s.isEmpty, s.elements)

end GSet

/-- A set that supports add and remove (elements can only be removed once). -/
structure TwoPSet (T : Type*) where
  added : Finset T
  removed : Finset T

namespace TwoPSet

variable {T : Type*} [DecidableEq T]

def new : TwoPSet T :=
  ⟨∅, ∅⟩

def add (s : TwoPSet T) (element : T) : TwoPSet T :=
  if element ∉ s.removed then { s with added := insert element s.added } else s

def remove (s : TwoPSet T) (element : T) : TwoPSet T :=
  if element ∈ s.added then { s with removed := insert element s.removed } else s

def contains (s : TwoPSet T) (element : T) : Bool :=
  element ∈ s.added && element ∉ s.removed

def elements (s : TwoPSet T) : Finset T :=
  s.added \ s.removed

def len (s : TwoPSet T) : ℕ :=
  s.elements.card

def isEmpty (s : TwoPSet T) : Bool :=
  s.elements = ∅

def merge (self other : TwoPSet T) : TwoPSet T where
  added := self.added ∪ other.added
  removed := self.removed ∪ other.removed

/-- The updates of a two-phase set. -/
inductive Update (T : Type*) where
  | add (element : T)
  | remove (element : T)

def update (s : TwoPSet T) : Update T → TwoPSet T
  | .add element => s.add element
  | .remove element => s.remove element

def crdt : ReplicatedType (TwoPSet T) (Update T) :=
  ⟨new, update, merge⟩

def view (s : TwoPSet T) : Finset T × Finset T :=
  (s.added, s.removed)

def ask (s : TwoPSet T) : (T → Bool) × Finset T × ℕ × Bool :=
  (s.contains, s.elements, s.len, s.isEmpty)

end TwoPSet

/-! ## Convergence of the counters -/

namespace GCounter

theorem view_of_none {c : GCounter} {n : NodeId} (h : c.counts.lookup n = none) :
    c.view n = ⊥ := by
  rw [view, h]
  rfl

theorem view_of_some {c : GCounter} {n : NodeId} {count : UInt64}
    (h : c.counts.lookup n = some count) : c.view n = WithBot.some count.toNat := by
  rw [view, h]
  rfl

theorem view_merge (a b : GCounter) : (a.merge b).view = a.view ⊔ b.view := by
  funext n
  have hmerge : (a.merge b).counts.lookup n = _ :=
    Table.lookup_mergeWith maxCount a.counts b.counts n
  rw [Pi.sup_apply]
  cases hb : b.counts.lookup n with
  | none =>
    rw [hb, Option.map_none, Option.none_or] at hmerge
    rw [view_of_none hb, sup_bot_eq, view, view, hmerge]
  | some y =>
    rw [hb, Option.map_some, Option.some_or] at hmerge
    rw [view_of_some hb, view_of_some hmerge]
    cases ha : a.counts.lookup n with
    | none =>
      have hy : (0 : UInt64) ≤ y := UInt64.le_iff_toNat_le.mpr (Nat.zero_le _)
      rw [view_of_none ha, bot_sup_eq, maxCount, Option.getD_none, if_pos hy]
    | some x =>
      rw [view_of_some ha, maxCount, Option.getD_some, ← WithBot.coe_max]
      split_ifs with hle
      · rw [max_eq_right (UInt64.le_iff_toNat_le.mp hle)]
      · rw [max_eq_left (Nat.le_of_lt (UInt64.lt_iff_toNat_lt.mp (UInt64.not_le.mp hle)))]

/-- An increment leads to a greater state if and only if the count does not overflow. -/
theorem view_le_incrementBy (c : GCounter) (n : NodeId) (amount : UInt64) :
    c.view ≤ (c.incrementBy n amount).view ↔
      (c.nodeValue n).toNat + amount.toNat < 2 ^ 64 := by
  have hsum : (c.nodeValue n + amount).toNat =
      ((c.nodeValue n).toNat + amount.toNat) % 2 ^ 64 := UInt64.toNat_add _ _
  have hlt : amount.toNat < 2 ^ 64 := UInt64.toNat_lt _
  have hnew : (c.incrementBy n amount).view n = WithBot.some (c.nodeValue n + amount).toNat := by
    refine view_of_some ?_
    rw [incrementBy, Table.lookup_insert, if_pos rfl, nodeValue]
  have hother (m : NodeId) (hm : m ≠ n) : (c.incrementBy n amount).view m = c.view m := by
    rw [view, view, incrementBy, Table.lookup_insert, if_neg hm]
  have hat : c.view ≤ (c.incrementBy n amount).view ↔
      c.view n ≤ WithBot.some (c.nodeValue n + amount).toNat := by
    rw [← hnew]
    refine ⟨fun h => h n, fun h m => ?_⟩
    by_cases hm : m = n
    · rw [hm]
      exact h
    · rw [hother m hm]
  rw [hat]
  cases hc : c.counts.lookup n with
  | none =>
    have hzero : c.nodeValue n = 0 := by
      rw [nodeValue, hc, Option.getD_none]
    rw [view_of_none hc, hzero, UInt64.toNat_zero, Nat.zero_add]
    exact iff_of_true bot_le hlt
  | some x =>
    have hx : c.nodeValue n = x := by
      rw [nodeValue, hc, Option.getD_some]
    have hxlt : x.toNat < 2 ^ 64 := UInt64.toNat_lt _
    rw [view_of_some hc, WithBot.coe_le_coe, hsum, hx]
    omega

theorem view_le_update (c : GCounter) (u : Update) :
    c.view ≤ (c.update u).view ↔ u.Fits c := by
  cases u with
  | increment n => exact view_le_incrementBy c n 1
  | incrementBy n amount => exact view_le_incrementBy c n amount

theorem ask_congr {a b : GCounter} (h : a.view = b.view) : a.ask = b.ask := by
  have hlookup (n : NodeId) : a.counts.lookup n = b.counts.lookup n := by
    have hn := congrFun h n
    cases ha : a.counts.lookup n with
    | none =>
      cases hb : b.counts.lookup n with
      | none => rfl
      | some y =>
        rw [view_of_none ha, view_of_some hb] at hn
        exact absurd hn WithBot.bot_ne_coe
    | some x =>
      cases hb : b.counts.lookup n with
      | none =>
        rw [view_of_some ha, view_of_none hb] at hn
        exact absurd hn WithBot.coe_ne_bot
      | some y =>
        rw [view_of_some ha, view_of_some hb] at hn
        rw [UInt64.toNat_inj.mp (WithBot.coe_injective hn)]
  refine Prod.ext ?_ (funext fun n => ?_)
  · refine Table.sumValues_congr fun n => ?_
    rw [hlookup]
  · change (a.counts.lookup n).getD 0 = (b.counts.lookup n).getD 0
    rw [hlookup]

theorem converges : crdt.Converges view ask fun c u => u.Fits c :=
  .of_join rfl view_merge view_le_update fun _ _ => ask_congr

/-- One replica adds `2 ^ 64 - 1`, which another receives, and then one more, which the other
receives too. -/
def overflowRun : List (ReplicaAction Bool Update) :=
  [.update true (.incrementBy "n" (2 ^ 64 - 1)), .send true, .merge false 0,
    .update true (.increment "n"), .send true, .merge false 1]

/-- Where a count overflows, the replica that counted is at zero and the other stays where it
was. -/
theorem not_converges : ¬ crdt.Converges view ask fun _ _ => True := by
  intro h
  have hrun : ((crdt.replicas (N := Bool)).run (fun _ _ => True) overflowRun).any fun w =>
      decide ((w.replica true).received = (w.replica false).received) &&
        decide ((w.replica true).state.value ≠ (w.replica false).state.value) := by
    decide +kernel
  obtain ⟨w, hw, hbad⟩ := (Option.any_eq_true _ _).mp hrun
  rw [Bool.and_eq_true, decide_eq_true_eq, decide_eq_true_eq] at hbad
  have hreach := Replicas.reach_of_reachable (System.reach_of_run hw)
  exact hbad.2 (congrArg Prod.fst (h.alike Bool w hreach true false hbad.1))

end GCounter

namespace PNCounter

theorem view_le_update (c : PNCounter) (u : Update) :
    c.view ≤ (c.update u).view ↔ u.Fits c := by
  rw [Prod.le_def]
  cases u with
  | increment n =>
    exact (and_iff_left le_rfl).trans (GCounter.view_le_update c.positive (.increment n))
  | incrementBy n amount =>
    exact (and_iff_left le_rfl).trans (GCounter.view_le_update c.positive (.incrementBy n amount))
  | decrement n =>
    exact (and_iff_right le_rfl).trans (GCounter.view_le_update c.negative (.increment n))
  | decrementBy n amount =>
    exact (and_iff_right le_rfl).trans (GCounter.view_le_update c.negative (.incrementBy n amount))

theorem value_congr {a b : PNCounter} (h : a.view = b.view) : a.value = b.value := by
  have hpositive : a.positive.value = b.positive.value :=
    congrArg Prod.fst (GCounter.ask_congr (congrArg Prod.fst h))
  have hnegative : a.negative.value = b.negative.value :=
    congrArg Prod.fst (GCounter.ask_congr (congrArg Prod.snd h))
  rw [value, value, hpositive, hnegative]

theorem converges : crdt.Converges view value fun c u => u.Fits c :=
  .of_join rfl (fun _ _ => Prod.ext (GCounter.view_merge _ _) (GCounter.view_merge _ _))
    view_le_update fun _ _ => value_congr

end PNCounter

/-! ## Convergence of the sets -/

theorem GSet.converges {T : Type*} [DecidableEq T] :
    (GSet.crdt (T := T)).Converges GSet.elements GSet.ask fun _ _ => True := by
  refine .of_join rfl (fun _ _ => rfl) (fun s element => ?_) fun a b h => ?_
  · exact iff_of_true (Finset.subset_insert element s.elements) trivial
  · cases a
    cases b
    cases h
    rfl

theorem TwoPSet.view_le_update {T : Type*} [DecidableEq T] (s : TwoPSet T) (u : Update T) :
    s.view ≤ (s.update u).view := by
  cases u with
  | add element =>
    rw [update, add]
    split_ifs
    · exact le_rfl
    · exact Prod.mk_le_mk.mpr ⟨Finset.subset_insert element s.added, le_rfl⟩
  | remove element =>
    rw [update, remove]
    split_ifs
    · exact Prod.mk_le_mk.mpr ⟨le_rfl, Finset.subset_insert element s.removed⟩
    · exact le_rfl

theorem TwoPSet.converges {T : Type*} [DecidableEq T] :
    (TwoPSet.crdt (T := T)).Converges TwoPSet.view TwoPSet.ask fun _ _ => True := by
  refine .of_join rfl (fun _ _ => rfl) (fun s u => ?_) fun a b h => ?_
  · exact iff_of_true (TwoPSet.view_le_update s u) trivial
  · cases a
    cases b
    cases h
    rfl

/-- The counters and the sets keep what a replicated type promises, the counters as long as no
count overflows: their merges are commutative, associative and idempotent, an update is dominated
by the state after it, and replicas that have received the same updates answer alike. -/
theorem crdts_converge (T : Type*) [DecidableEq T] :
    GCounter.crdt.Converges GCounter.view GCounter.ask (fun c u => u.Fits c) ∧
      PNCounter.crdt.Converges PNCounter.view PNCounter.value (fun c u => u.Fits c) ∧
      (GSet.crdt (T := T)).Converges GSet.elements GSet.ask (fun _ _ => True) ∧
      (TwoPSet.crdt (T := T)).Converges TwoPSet.view TwoPSet.ask (fun _ _ => True) :=
  ⟨GCounter.converges, PNCounter.converges, GSet.converges, TwoPSet.converges⟩

end Replication

end AegisDB
