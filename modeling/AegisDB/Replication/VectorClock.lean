import AegisDB.Replication.Crdt

/-!
# Vector clocks

A vector clock has a count for each node that it knows, and a node that it does not know counts as
zero.  So clocks are ordered by their counts, and a merge is the least upper bound of two of them.
The comparison of clocks follows this order, except that equality goes through the entries of one
clock only: it takes clocks of equally many entries for equal if one has zeros where the other has
counts of its own, and tells clocks apart that differ in their zeros (`VectorClock.laws_iff`).
-/

namespace AegisDB

namespace Replication

/-- The result of comparing two vector clocks. -/
inductive VectorClockOrdering where
  | before
  | after
  | equal
  | concurrent
deriving DecidableEq

/-- A vector clock for tracking causality between events. -/
structure VectorClock where
  clocks : Table String UInt64

namespace VectorClock

def new : VectorClock :=
  ⟨∅⟩

def withNode (nodeId : NodeId) : VectorClock :=
  ⟨(∅ : Table String UInt64).insert nodeId 0⟩

def get (c : VectorClock) (nodeId : NodeId) : UInt64 :=
  (c.clocks.lookup nodeId).getD 0

/-- Increment the clock of a node.  The count is 64 bits wide and wraps around. -/
def increment (c : VectorClock) (nodeId : NodeId) : VectorClock :=
  ⟨c.clocks.insert nodeId (c.get nodeId + 1)⟩

def set (c : VectorClock) (nodeId : NodeId) (value : UInt64) : VectorClock :=
  ⟨c.clocks.insert nodeId value⟩

/-- The clock merged with another one: the greater value of each node. -/
def merged (self other : VectorClock) : VectorClock :=
  ⟨self.clocks.mergeWith maxCount other.clocks⟩

/-- Whether this clock happened before another. -/
def happenedBefore (self other : VectorClock) : Bool :=
  if self.clocks.entries.any fun e => other.get e.1 < e.2 then false
  else
    -- a smaller value of our own, or a value of a node that we do not know
    self.clocks.entries.any (fun e => e.2 < other.get e.1) ||
      other.clocks.entries.any fun e => !decide (e.1 ∈ self.clocks) && 0 < e.2

def happenedAfter (self other : VectorClock) : Bool :=
  other.happenedBefore self

/-- Whether neither clock happened before the other. -/
def isConcurrent (self other : VectorClock) : Bool :=
  !self.happenedBefore other && !self.happenedAfter other

/-- Whether two clocks are identical; this is also what `==` is. -/
def equals (self other : VectorClock) : Bool :=
  if self.clocks.entries.length ≠ other.clocks.entries.length then false
  else self.clocks.entries.all fun e => other.get e.1 = e.2

/-- Compare two vector clocks. -/
def compare (self other : VectorClock) : VectorClockOrdering :=
  if self.equals other then .equal
  else if self.happenedBefore other then .before
  else if self.happenedAfter other then .after
  else .concurrent

/-- The partial order that clocks have. -/
def partialCmp (self other : VectorClock) : Option Ordering :=
  match self.compare other with
  | .equal => some .eq
  | .before => some .lt
  | .after => some .gt
  | .concurrent => none

/-! ## Clocks by their counts -/

def counts (c : VectorClock) : String → ℕ :=
  fun node => (c.get node).toNat

variable {a b : VectorClock} {node : NodeId}

theorem counts_of_mem {e : Sigma fun _ : String => UInt64} (h : e ∈ a.clocks.entries) :
    a.counts e.1 = e.2.toNat := by
  rw [counts, get, AList.mem_lookup_iff.mpr h]
  rfl

theorem counts_of_notMem (h : node ∉ a.clocks) : a.counts node = 0 := by
  rw [counts, get, AList.lookup_eq_none.mpr h]
  rfl

theorem exists_entry (h : node ∈ a.clocks) :
    ∃ e ∈ a.clocks.entries, e.1 = node := by
  obtain ⟨value, hvalue⟩ := Option.isSome_iff_exists.mp (AList.lookup_isSome.mpr h)
  exact ⟨⟨node, value⟩, AList.mem_lookup_iff.mp hvalue, rfl⟩

theorem counts_le_iff_entries :
    a.counts ≤ b.counts ↔ ∀ e ∈ a.clocks.entries, e.2.toNat ≤ b.counts e.1 := by
  constructor
  · intro h e he
    rw [← counts_of_mem he]
    exact h e.1
  · intro h node
    by_cases hnode : node ∈ a.clocks
    · obtain ⟨e, he, rfl⟩ := exists_entry hnode
      exact (counts_of_mem he).le.trans (h e he)
    · rw [counts_of_notMem hnode]
      exact Nat.zero_le _

/-- A clock is smaller at some node that one of the two knows. -/
theorem exists_counts_lt_iff :
    (∃ node, a.counts node < b.counts node) ↔
      (∃ e ∈ a.clocks.entries, e.2.toNat < b.counts e.1) ∨
        ∃ e ∈ b.clocks.entries, e.1 ∉ a.clocks ∧ 0 < e.2.toNat := by
  constructor
  · rintro ⟨node, hlt⟩
    by_cases ha : node ∈ a.clocks
    · obtain ⟨e, he, rfl⟩ := exists_entry ha
      rw [counts_of_mem he] at hlt
      exact Or.inl ⟨e, he, hlt⟩
    · rw [counts_of_notMem ha] at hlt
      have hb : node ∈ b.clocks := by
        by_contra hb
        rw [counts_of_notMem hb] at hlt
        exact absurd hlt (Nat.lt_irrefl 0)
      obtain ⟨e, he, rfl⟩ := exists_entry hb
      rw [counts_of_mem he] at hlt
      exact Or.inr ⟨e, he, ha, hlt⟩
  · rintro (⟨e, he, hlt⟩ | ⟨e, he, ha, hlt⟩)
    · refine ⟨e.1, ?_⟩
      rw [counts_of_mem he]
      exact hlt
    · refine ⟨e.1, ?_⟩
      rw [counts_of_notMem ha, counts_of_mem he]
      exact hlt

theorem happenedBefore_iff : a.happenedBefore b = true ↔ a.counts < b.counts := by
  have hlt : a.counts < b.counts ↔
      a.counts ≤ b.counts ∧ ∃ node, a.counts node < b.counts node := Pi.lt_def
  rw [hlt, counts_le_iff_entries, exists_counts_lt_iff, happenedBefore]
  by_cases hgreater : (a.clocks.entries.any fun e => b.get e.1 < e.2) = true
  · rw [if_pos hgreater]
    refine iff_of_false Bool.false_ne_true fun h => ?_
    obtain ⟨e, he, hlt⟩ := List.any_eq_true.mp hgreater
    have hle := h.1 e he
    exact absurd (UInt64.lt_iff_toNat_lt.mp (of_decide_eq_true hlt)) (Nat.not_lt.mpr hle)
  · have hle : ∀ e ∈ a.clocks.entries, e.2.toNat ≤ b.counts e.1 := fun e he =>
      Nat.not_lt.mp fun hlt => hgreater (List.any_eq_true.mpr
        ⟨e, he, decide_eq_true (UInt64.lt_iff_toNat_lt.mpr hlt)⟩)
    rw [if_neg hgreater, and_iff_right hle, Bool.or_eq_true, List.any_eq_true, List.any_eq_true]
    refine or_congr (exists_congr fun e => and_congr_right fun _ => ?_)
      (exists_congr fun e => and_congr_right fun _ => ?_)
    · rw [decide_eq_true_iff]
      exact UInt64.lt_iff_toNat_lt
    · rw [Bool.and_eq_true, Bool.not_eq_true', decide_eq_false_iff_not, decide_eq_true_iff]
      exact and_congr_right fun _ => UInt64.lt_iff_toNat_lt

/-! ## Equality -/

/-- Every entry of the first clock has the value that the second has for its node. -/
def Within (a b : VectorClock) : Prop :=
  ∀ e ∈ a.clocks.entries, b.get e.1 = e.2

/-- In case all entries of the first clock agree with the second, there are equally many entries
exactly if those of the second for nodes that the first does not know are zero. -/
def Comparable (a b : VectorClock) : Prop :=
  a.Within b →
    (a.clocks.entries.length = b.clocks.entries.length ↔
      ∀ e ∈ b.clocks.entries, e.1 ∉ a.clocks → e.2 = 0)

theorem equals_iff :
    a.equals b = true ↔ a.Within b ∧ a.clocks.entries.length = b.clocks.entries.length := by
  unfold equals Within
  by_cases hlength : a.clocks.entries.length = b.clocks.entries.length
  · rw [if_neg (not_not.mpr hlength), and_iff_left hlength, List.all_eq_true]
    exact forall₂_congr fun e _ => decide_eq_true_iff
  · rw [if_pos hlength]
    exact iff_of_false Bool.false_ne_true fun h => hlength h.2

theorem counts_eq_iff_within :
    a.counts = b.counts ↔
      a.Within b ∧ ∀ e ∈ b.clocks.entries, e.1 ∉ a.clocks → e.2 = 0 := by
  constructor
  · intro h
    refine ⟨fun e he => ?_, fun e he ha => ?_⟩
    · have hcount : b.counts e.1 = e.2.toNat := by rw [← h, counts_of_mem he]
      exact UInt64.toNat_inj.mp hcount
    · have hcount : e.2.toNat = 0 := by rw [← counts_of_mem he, ← h, counts_of_notMem ha]
      exact UInt64.toNat_inj.mp hcount
  · rintro ⟨hwithin, hzero⟩
    funext node
    by_cases ha : node ∈ a.clocks
    · obtain ⟨e, he, rfl⟩ := exists_entry ha
      rw [counts_of_mem he, counts, hwithin e he]
    · rw [counts_of_notMem ha]
      by_cases hb : node ∈ b.clocks
      · obtain ⟨e, he, rfl⟩ := exists_entry hb
        rw [counts_of_mem he, hzero e he ha]
        rfl
      · rw [counts_of_notMem hb]

theorem comparable_iff : a.Comparable b ↔ (a.equals b = true ↔ a.counts = b.counts) := by
  rw [equals_iff, counts_eq_iff_within, Comparable]
  exact and_congr_right_iff.symm

/-- The comparisons of two clocks agree with their counts. -/
structure Agrees (a b : VectorClock) : Prop where
  equals : a.equals b = true ↔ a.counts = b.counts
  compare_equal : a.compare b = .equal ↔ a.counts = b.counts
  compare_before : a.compare b = .before ↔ a.counts < b.counts
  compare_after : a.compare b = .after ↔ b.counts < a.counts
  partialCmp_eq : a.partialCmp b = some .eq ↔ a.counts = b.counts
  partialCmp_lt : a.partialCmp b = some .lt ↔ a.counts < b.counts
  partialCmp_gt : a.partialCmp b = some .gt ↔ b.counts < a.counts

theorem agrees_iff : a.Agrees b ↔ a.Comparable b := by
  rw [comparable_iff]
  refine ⟨Agrees.equals, fun hequals => ?_⟩
  have hcompare : a.compare b = if a.equals b then .equal
      else if a.happenedBefore b then .before
      else if b.happenedBefore a then .after else .concurrent := rfl
  by_cases heq : a.equals b = true
  · have hcounts := hequals.mp heq
    rw [heq, if_pos rfl] at hcompare
    refine ⟨hequals, ?_, ?_, ?_, ?_, ?_, ?_⟩ <;>
      simp [partialCmp, hcompare, hcounts]
  · have hcounts : a.counts ≠ b.counts := fun h => heq (hequals.mpr h)
    rw [if_neg heq] at hcompare
    by_cases hbefore : a.counts < b.counts
    · rw [if_pos (happenedBefore_iff.mpr hbefore)] at hcompare
      refine ⟨hequals, ?_, ?_, ?_, ?_, ?_, ?_⟩ <;>
        simp [partialCmp, hcompare, hcounts, hbefore, hbefore.not_gt]
    · rw [if_neg fun h => hbefore (happenedBefore_iff.mp h)] at hcompare
      by_cases hafter : b.counts < a.counts
      · rw [if_pos (happenedBefore_iff.mpr hafter)] at hcompare
        refine ⟨hequals, ?_, ?_, ?_, ?_, ?_, ?_⟩ <;>
          simp [partialCmp, hcompare, hcounts, hbefore, hafter]
      · rw [if_neg fun h => hafter (happenedBefore_iff.mp h)] at hcompare
        refine ⟨hequals, ?_, ?_, ?_, ?_, ?_, ?_⟩ <;>
          simp [partialCmp, hcompare, hcounts, hbefore, hafter]

/-! ## Merging and ticking -/

theorem counts_merged : (a.merged b).counts = a.counts ⊔ b.counts := by
  funext node
  rw [Pi.sup_apply]
  unfold counts get merged
  dsimp only
  rw [Table.lookup_mergeWith]
  cases b.clocks.lookup node with
  | none =>
    rw [Option.map_none, Option.none_or, Option.getD_none]
    exact (max_eq_left (Nat.zero_le _)).symm
  | some value =>
    rw [Option.map_some, Option.some_or, Option.getD_some, Option.getD_some, maxCount]
    split_ifs with hle
    · exact (max_eq_right (UInt64.le_iff_toNat_le.mp hle)).symm
    · exact (max_eq_left (UInt64.lt_iff_toNat_lt.mp (UInt64.not_le.mp hle)).le).symm

theorem isLUB_merged : IsLUB {a.counts, b.counts} (a.merged b).counts := by
  rw [counts_merged]
  exact isLUB_pair

theorem counts_increment (other : NodeId) :
    (a.increment node).counts other =
      if other = node then (a.counts node + 1) % 2 ^ 64 else a.counts other := by
  unfold counts get increment
  dsimp only
  rw [Table.lookup_insert]
  split_ifs
  · exact UInt64.toNat_add _ _
  · rfl

theorem counts_lt_increment (h : a.counts ≤ b.counts) (hfits : b.counts node + 1 < 2 ^ 64) :
    a.counts < (b.increment node).counts := by
  refine Pi.lt_def.mpr ⟨fun other => ?_, node, ?_⟩
  · rw [counts_increment]
    split_ifs with hother
    · rw [Nat.mod_eq_of_lt hfits, hother]
      exact (h node).trans (Nat.le_succ _)
    · exact h other
  · rw [counts_increment, if_pos rfl, Nat.mod_eq_of_lt hfits]
    exact Nat.lt_succ_of_le (h node)

/-- After merging and ticking the result strictly dominates both clocks exactly if the count of the
node does not overflow. -/
theorem dominates_iff :
    (a.counts < ((a.merged b).increment node).counts ∧
        b.counts < ((a.merged b).increment node).counts) ↔
      a.counts node + 1 < 2 ^ 64 ∧ b.counts node + 1 < 2 ^ 64 := by
  have hmerged : (a.merged b).counts node = max (a.counts node) (b.counts node) :=
    congrFun counts_merged node
  constructor
  · rintro ⟨ha, hb⟩
    have hla := ha.le node
    have hlb := hb.le node
    rw [counts_increment, if_pos rfl, hmerged] at hla hlb
    have hsmall := (a.get node).toNat_lt
    have hsmall' := (b.get node).toNat_lt
    simp only [counts] at hla hlb ⊢
    omega
  · rintro ⟨ha, hb⟩
    have hfits : (a.merged b).counts node + 1 < 2 ^ 64 := by
      rw [hmerged]
      omega
    refine ⟨counts_lt_increment ?_ hfits, counts_lt_increment ?_ hfits⟩
    · rw [counts_merged]
      exact le_sup_left
    · rw [counts_merged]
      exact le_sup_right

/-! ## The laws of clocks -/

/-- What two clocks promise: all comparisons agree with the counts in both directions, a merge is
the least upper bound, and a tick of a node after it leads above both. -/
structure Laws (a b : VectorClock) (node : NodeId) : Prop where
  agrees : a.Agrees b
  agrees_swap : b.Agrees a
  merged : IsLUB {a.counts, b.counts} (a.merged b).counts
  ticked : a.counts < ((a.merged b).increment node).counts ∧
    b.counts < ((a.merged b).increment node).counts

/-- Two clocks keep their promises exactly if they are comparable by their entries in both
directions and neither has reached the largest count of the node that ticks. -/
theorem laws_iff (a b : VectorClock) (node : NodeId) :
    Laws a b node ↔
      a.Comparable b ∧ b.Comparable a ∧
        a.counts node + 1 < 2 ^ 64 ∧ b.counts node + 1 < 2 ^ 64 := by
  constructor
  · intro h
    exact ⟨agrees_iff.mp h.agrees, agrees_iff.mp h.agrees_swap, dominates_iff.mp h.ticked⟩
  · rintro ⟨hab, hba, hfits⟩
    exact ⟨agrees_iff.mpr hab, agrees_iff.mpr hba, isLUB_merged, dominates_iff.mpr hfits⟩

/-- A clock that knows a node is equal to a clock that has counted another one. -/
theorem known_equals_counted :
    ¬ ∀ (a b : VectorClock) (node : NodeId), Laws a b node := by
  intro h
  have hequals := (h (withNode "A") (new.increment "B") "A").agrees.equals
  have hcounts := congrFun (hequals.mp (by decide +kernel)) "B"
  revert hcounts
  decide +kernel

end VectorClock

end Replication

end AegisDB
