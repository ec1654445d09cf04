import AegisDB.Replication.Crdt

/-!
# The observed-remove set

Every addition of an element gets a tag, and a removal drops the tags that the replica has.  So an
element should be present at a replica where it has received an addition that no removal it has
received had observed.  The removals are not kept: a merge with a replica that still has the tags
brings the element back (`ORSet.not_observedRemove`).  The set does what it should as long as no
merge meets an element whose last addition only the other side knows to be removed
(`ORSet.observedRemove_iff`).
-/

namespace AegisDB

namespace Replication

/-- Unique identifier for OR-Set elements. -/
structure UniqueTag where
  nodeId : String
  counter : UInt64
deriving DecidableEq

/-- An observed-remove set that supports add and remove without conflicts. -/
structure ORSet (T : Type*) where
  elements : Table T (Finset UniqueTag)
  counters : Table String UInt64

namespace ORSet

variable {T : Type*}

def new : ORSet T :=
  ⟨∅, ∅⟩

variable [DecidableEq T]

/-- Add an element to the set. -/
def add (s : ORSet T) (element : T) (nodeId : NodeId) : ORSet T :=
  let counter := (s.counters.lookup nodeId).getD 0 + 1
  let tag : UniqueTag := ⟨nodeId, counter⟩
  { elements := s.elements.insert element (insert tag ((s.elements.lookup element).getD ∅))
    counters := s.counters.insert nodeId counter }

def remove (s : ORSet T) (element : T) : ORSet T :=
  { s with elements := s.elements.erase element }

def contains (s : ORSet T) (element : T) : Bool :=
  ((s.elements.lookup element).map fun tags => decide (tags ≠ ∅)).getD false

def merge (self other : ORSet T) : ORSet T where
  elements := self.elements.mergeWith (fun ourTags tags => ourTags.getD ∅ ∪ tags) other.elements
  counters := self.counters.mergeWith maxCount other.counters

/-- The updates of a set. -/
inductive Update (T : Type*) where
  | add (element : T) (nodeId : NodeId)
  | remove (element : T)

def update (s : ORSet T) : Update T → ORSet T
  | .add element nodeId => s.add element nodeId
  | .remove element => s.remove element

def crdt : ReplicatedType (ORSet T) (Update T) :=
  ⟨new, update, merge⟩

/-! ## Merging -/

/-- What a set has for each element and for each node, `⊥` if nothing. -/
def view (s : ORSet T) : (T → WithBot (Finset UniqueTag)) × (NodeId → WithBot ℕ) :=
  (fun x => (s.elements.lookup x).elim ⊥ WithBot.some, (GCounter.mk s.counters).view)

theorem view_merge (a b : ORSet T) : (a.merge b).view = a.view ⊔ b.view := by
  refine Prod.ext (funext fun x => ?_) (GCounter.view_merge ⟨a.counters⟩ ⟨b.counters⟩)
  change ((a.merge b).elements.lookup x).elim ⊥ WithBot.some =
    (a.elements.lookup x).elim ⊥ WithBot.some ⊔ (b.elements.lookup x).elim ⊥ WithBot.some
  rw [merge, Table.lookup_mergeWith]
  cases a.elements.lookup x with
  | none =>
    cases b.elements.lookup x with
    | none => exact (bot_sup_eq _).symm
    | some tags =>
      simp only [Option.map_some, Option.getD_none, Finset.empty_union, Option.some_or,
        Option.elim_some, Option.elim_none, bot_sup_eq]
  | some ours =>
    cases b.elements.lookup x with
    | none => exact (sup_bot_eq _).symm
    | some tags => rfl

theorem contains_merge (a b : ORSet T) (x : T) :
    (a.merge b).contains x = (a.contains x || b.contains x) := by
  rw [contains, contains, contains, merge, Table.lookup_mergeWith]
  cases a.elements.lookup x with
  | none =>
    cases b.elements.lookup x with
    | none => rfl
    | some tags => simp
  | some ours =>
    cases b.elements.lookup x with
    | none => simp
    | some tags =>
      simp only [Option.map_some, Option.getD_some, Option.some_or]
      rw [Bool.eq_iff_iff, Bool.or_eq_true, decide_eq_true_eq, decide_eq_true_eq,
        decide_eq_true_eq, ne_eq, Finset.union_eq_empty, not_and_or]

theorem contains_add (s : ORSet T) (x y : T) (n : NodeId) :
    (s.add x n).contains y = (decide (y = x) || s.contains y) := by
  rw [contains, contains, add, Table.lookup_insert]
  by_cases hy : y = x
  · rw [if_pos hy, Option.map_some, Option.getD_some, decide_eq_true hy, Bool.true_or]
    exact decide_eq_true (Finset.insert_ne_empty _ _)
  · rw [if_neg hy, decide_eq_false hy, Bool.false_or]

theorem contains_remove (s : ORSet T) (x y : T) :
    (s.remove x).contains y = (decide (y ≠ x) && s.contains y) := by
  rw [contains, contains, remove, Table.lookup_erase]
  by_cases hy : y = x
  · rw [if_pos hy, decide_eq_false (not_not.mpr hy), Bool.false_and]
    rfl
  · rw [if_neg hy, decide_eq_true hy, Bool.true_and]

/-! ## What should be present -/

def Update.isAddOf (x : T) : Update T → Bool
  | .add element _ => element = x
  | .remove _ => false

def Update.isRemoveOf (x : T) : Update T → Bool
  | .add _ _ => false
  | .remove element => element = x

abbrev History (T : Type*) :=
  List (UpdateEvent (ORSet T) (Update T))

/-- The update at this position adds the element. -/
def Adds (log : History T) (x : T) (i : ℕ) : Prop :=
  log[i]?.any fun e => e.update.isAddOf x

/-- The update at position `j` removes the element where the update at position `i` had been
received. -/
def Observes (log : History T) (x : T) (j i : ℕ) : Prop :=
  log[j]?.any fun e => e.update.isRemoveOf x && decide (i ∈ e.origin.received)

/-- Some addition of the element has been received that no received removal had observed. -/
def Present (log : History T) (received : Finset ℕ) (x : T) : Prop :=
  ∃ i ∈ received, Adds log x i ∧ ∀ j ∈ received, ¬ Observes log x j i

/-- The set at a replica contains what should be present. -/
def Faithful (log : History T) (c : Copy (ORSet T)) : Prop :=
  ∀ x, c.state.contains x = true ↔ Present log c.received x

/-- An element that is present on one of the two sides of a merge has an addition that no removal
on either side had observed. -/
def LosesNothing (log : History T) (c m : Copy (ORSet T)) : Prop :=
  ∀ x, Present log c.received x ∨ Present log m.received x →
    Present log (c.received ∪ m.received) x

instance (log : History T) (x : T) (i : ℕ) : Decidable (Adds log x i) :=
  inferInstanceAs (Decidable (_ = true))

instance (log : History T) (x : T) (j i : ℕ) : Decidable (Observes log x j i) :=
  inferInstanceAs (Decidable (_ = true))

instance (log : History T) (received : Finset ℕ) (x : T) : Decidable (Present log received x) :=
  inferInstanceAs (Decidable (∃ i ∈ received, _))

theorem Present.of_union {log : History T} {r r' : Finset ℕ} {x : T}
    (h : Present log (r ∪ r') x) : Present log r x ∨ Present log r' x := by
  obtain ⟨i, hi, hadds, hlive⟩ := h
  rcases Finset.mem_union.mp hi with hi | hi
  · exact Or.inl ⟨i, hi, hadds, fun j hj => hlive j (Finset.mem_union_left _ hj)⟩
  · exact Or.inr ⟨i, hi, hadds, fun j hj => hlive j (Finset.mem_union_right _ hj)⟩

theorem present_append {log : History T} {c : Copy (ORSet T)} (h : Replicas.Within log c)
    (e : UpdateEvent (ORSet T) (Update T)) (x : T) :
    Present (log ++ [e]) c.received x ↔ Present log c.received x := by
  refine exists_congr fun i => and_congr_right fun hi => ?_
  rw [Adds, Adds, h.getElem?_append e hi]
  refine and_congr_right fun _ => forall₂_congr fun j hj => ?_
  rw [Observes, Observes, h.getElem?_append e hj]

/-! ## One step -/

theorem present_insert {log : History T} {c : Copy (ORSet T)} (h : Replicas.Within log c)
    {u : Update T} {x : T} (hadd : u.isAddOf x = false) (hremove : u.isRemoveOf x = false) :
    Present (log ++ [⟨c, u⟩]) (insert log.length c.received) x ↔ Present log c.received x := by
  rw [← present_append h ⟨c, u⟩]
  have hat : (log ++ [(⟨c, u⟩ : UpdateEvent _ _)])[log.length]? = some ⟨c, u⟩ :=
    List.getElem?_concat_length
  have hadds : ¬ Adds (log ++ [⟨c, u⟩]) x log.length := by
    rw [Adds, hat, Option.any_some, hadd]
    exact Bool.false_ne_true
  have hobserves (i : ℕ) : ¬ Observes (log ++ [⟨c, u⟩]) x log.length i := by
    rw [Observes, hat, Option.any_some, hremove, Bool.false_and]
    exact Bool.false_ne_true
  constructor
  · rintro ⟨i, hi, hi', hlive⟩
    refine ⟨i, ?_, hi', fun j hj => hlive j (Finset.mem_insert_of_mem hj)⟩
    rcases Finset.mem_insert.mp hi with rfl | hi
    · exact absurd hi' hadds
    · exact hi
  · rintro ⟨i, hi, hi', hlive⟩
    refine ⟨i, Finset.mem_insert_of_mem hi, hi', fun j hj => ?_⟩
    rcases Finset.mem_insert.mp hj with rfl | hj
    · exact hobserves i
    · exact hlive j hj

/-- No removal that was made before an addition had observed it. -/
theorem present_add {log : History T} {c : Copy (ORSet T)} (hordered : Replicas.Ordered log)
    (h : Replicas.Within log c) (x : T) (n : NodeId) :
    Present (log ++ [⟨c, .add x n⟩]) (insert log.length c.received) x := by
  have hat : (log ++ [(⟨c, .add x n⟩ : UpdateEvent _ _)])[log.length]? = some ⟨c, .add x n⟩ :=
    List.getElem?_concat_length
  refine ⟨log.length, Finset.mem_insert_self _ _, ?_, fun j hj hobserves => ?_⟩
  · rw [Adds, hat]
    exact decide_eq_true rfl
  · obtain ⟨e, he, hseen⟩ := (Option.any_eq_true _ _).mp hobserves
    obtain ⟨hremove, hseen⟩ := Bool.and_eq_true_iff.mp hseen
    rcases Finset.mem_insert.mp hj with rfl | hj
    · rw [hat] at he
      obtain rfl := Option.some.inj he
      cases hremove
    · rw [h.getElem?_append _ hj] at he
      have hbefore : log.length < j := hordered j e he _ (of_decide_eq_true hseen)
      have hj' := h j hj
      omega

theorem not_present_remove {log : History T} {c : Copy (ORSet T)} (x : T) :
    ¬ Present (log ++ [⟨c, .remove x⟩]) (insert log.length c.received) x := by
  have hat : (log ++ [(⟨c, .remove x⟩ : UpdateEvent _ _)])[log.length]? = some ⟨c, .remove x⟩ :=
    List.getElem?_concat_length
  rintro ⟨i, hi, hadds, hlive⟩
  rcases Finset.mem_insert.mp hi with rfl | hi
  · rw [Adds, hat] at hadds
    cases hadds
  · refine hlive log.length (Finset.mem_insert_self _ _) ?_
    rw [Observes, hat, Option.any_some, Bool.and_eq_true]
    exact ⟨decide_eq_true rfl, decide_eq_true hi⟩

/-- An update makes the set contain what should then be present. -/
theorem Faithful.update {log : History T} {c : Copy (ORSet T)} (hordered : Replicas.Ordered log)
    (hwithin : Replicas.Within log c) (h : Faithful log c) (u : Update T) :
    Faithful (log ++ [⟨c, u⟩]) (crdt.updateCopy log.length c u) := by
  intro x
  cases u with
  | add element n =>
    change (c.state.add element n).contains x = true ↔ _
    rw [contains_add, Bool.or_eq_true, decide_eq_true_eq]
    by_cases hx : x = element
    · subst hx
      exact iff_of_true (Or.inl rfl) (present_add hordered hwithin x n)
    · refine (or_iff_right hx).trans ((h x).trans (present_insert hwithin ?_ rfl).symm)
      exact decide_eq_false fun heq => hx heq.symm
  | remove element =>
    change (c.state.remove element).contains x = true ↔ _
    rw [contains_remove, Bool.and_eq_true, decide_eq_true_eq]
    by_cases hx : x = element
    · subst hx
      exact iff_of_false (fun hne => hne.1 rfl) (not_present_remove x)
    · refine (and_iff_right hx).trans ((h x).trans (present_insert hwithin rfl ?_).symm)
      exact decide_eq_false fun heq => hx heq.symm

theorem faithful_merge_iff {log : History T} {c m : Copy (ORSet T)} (hc : Faithful log c)
    (hm : Faithful log m) : Faithful log (crdt.mergeCopy c m) ↔ LosesNothing log c m := by
  refine forall_congr' fun x => ?_
  change ((c.state.merge m.state).contains x = true ↔
    Present log (c.received ∪ m.received) x) ↔ _
  rw [contains_merge, Bool.or_eq_true, hc x, hm x]
  exact ⟨fun h => h.mp, fun h => ⟨h, Present.of_union⟩⟩

/-! ## All runs -/

theorem faithful_of_reach {N : Type*} [DecidableEq N]
    {w : Replicas N (ORSet T) (Update T)}
    (h : (crdt (T := T)).replicas.Reach (Replicas.Meets (fun _ _ _ => True) LosesNothing) w)
    {c : Copy (ORSet T)} (hc : w.Has c) :
    Replicas.Ordered w.log ∧ Replicas.Within w.log c ∧ Faithful w.log c := by
  suffices hall : Replicas.Ordered w.log ∧
      ∀ c, w.Has c → Replicas.Within w.log c ∧ Faithful w.log c from ⟨hall.1, hall.2 c hc⟩
  refine Replicas.copies_invariant ?_ ?_ ?_ ?_ h
  · intro x
    refine iff_of_false (fun hx => ?_) ?_
    · cases hx
    · rintro ⟨i, hi, _⟩
      cases hi
  · exact fun log c e hwithin hc x => (hc x).trans (present_append hwithin e x).symm
  · exact fun log c u hordered hwithin hc _ => hc.update hordered hwithin u
  · exact fun log c m _ _ hc hm hloses => (faithful_merge_iff hc hm).mpr hloses

/-- Merging is commutative, associative and idempotent.  In every run in which no merge makes an
element lose its last addition, an element is present at a replica if and only if the replica has
received an addition of it that no removal it has received had observed; and a further step keeps
this if and only if it is not such a merge. -/
theorem observedRemove_iff (T : Type*) [DecidableEq T] :
    (∀ a b : ORSet T, (a.merge b).view = (b.merge a).view) ∧
      (∀ a b c : ORSet T, ((a.merge b).merge c).view = (a.merge (b.merge c)).view) ∧
      (∀ a : ORSet T, (a.merge a).view = a.view) ∧
      ∀ (N : Type) [DecidableEq N] (w : Replicas N (ORSet T) (Update T)),
        crdt.replicas.Reach (Replicas.Meets (fun _ _ _ => True) LosesNothing) w →
          (∀ r, Faithful w.log (w.replica r)) ∧
            ∀ a w', crdt.replicas.step w a = some w' →
              ((∀ r, Faithful w'.log (w'.replica r)) ↔
                Replicas.Meets (fun _ _ _ => True) LosesNothing w a) := by
  refine ⟨fun a b => ?_, fun a b c => ?_, fun a => ?_, fun N _ w h => ?_⟩
  · rw [view_merge, view_merge, sup_comm]
  · rw [view_merge, view_merge, view_merge, view_merge, sup_assoc]
  · rw [view_merge, sup_idem]
  · have hall (c : Copy (ORSet T)) (hc : w.Has c) := faithful_of_reach h hc
    have hr (r : N) := hall (w.replica r) (Or.inl ⟨r, rfl⟩)
    refine ⟨fun r => (hr r).2.2, fun a w' hstep => ?_⟩
    refine (Replicas.forall_step_iff (fun r e hfaithful x => ?_) (fun r => (hr r).2.2)
      hstep).trans (Replicas.meets_congr (fun r u => ?_) (fun r m hm => ?_) a)
    · exact (hfaithful x).trans (present_append (hr r).2.1 e x).symm
    · exact iff_of_true ((hr r).2.2.update (hr r).1 (hr r).2.1 u) trivial
    · exact faithful_merge_iff (hr r).2.2 (hall m (Or.inr hm)).2.2

/-- A replica adds an element, another receives it, the first removes it, and then merges what the
other has. -/
def staleRun : List (ReplicaAction Bool (Update String)) :=
  [.update true (.add "apple" "A"), .send true, .merge false 0, .update true (.remove "apple"),
    .send false, .merge true 1]

/-- The merge with a replica that has not seen the removal brings the element back. -/
theorem not_observedRemove : ∃ w, (crdt (T := String)).replicas.Reachable w ∧
    ((w.replica true).state.contains "apple" = true ∧
      ¬ Present w.log (w.replica true).received "apple") := by
  have hrun : (((crdt (T := String)).replicas (N := Bool)).run (fun _ _ => True) staleRun).any
      fun w => (w.replica true).state.contains "apple" &&
        decide (¬ Present w.log (w.replica true).received "apple") := by
    decide +kernel
  obtain ⟨w, hw, hbad⟩ := (Option.any_eq_true _ _).mp hrun
  rw [Bool.and_eq_true, decide_eq_true_eq] at hbad
  exact ⟨w, System.reach_of_run hw, hbad⟩

end ORSet

end Replication

end AegisDB
