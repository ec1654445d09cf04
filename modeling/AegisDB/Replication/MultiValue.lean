import AegisDB.Library.Maxima
import AegisDB.Replication.VectorClock

/-!
# The multi-value register

A register should keep the values of all writes it has received that no other of these has
overwritten, which is told by their vector clocks.  It has one clock for each value, so a write of
a value that it has, at a concurrent clock, takes the place of the earlier one
(`MVRegister.sameValue_not_kept`).  As long as no value has two writes that stay, it keeps what it
should, and merges may be made in any order (`MVRegister.multiValue_iff`).
-/

namespace AegisDB

namespace Replication

/-- A register that keeps all concurrent values. -/
structure MVRegister (T : Type*) where
  values : Table T VectorClock

/-- The orders in which the entries of the hash map of values are visited. -/
structure EntryOrder (T : Type*) where
  entries : Table T VectorClock → List (Sigma fun _ : T => VectorClock)
  perm : ∀ t, (entries t).Perm t.entries

namespace MVRegister

variable {T : Type*}

def new : MVRegister T :=
  ⟨∅⟩

variable [DecidableEq T]

/-- Set the register value. -/
def set (r : MVRegister T) (value : T) (clock : VectorClock) : MVRegister T :=
  -- remove values dominated by the new clock
  let values := r.values.filterValues fun _ v => !v.happenedBefore clock
  let dominated := values.values.any fun v => clock.happenedBefore v
  if !dominated then ⟨values.insert value clock⟩ else ⟨values⟩

/-- Merge with another instance: set what it has. -/
def merge (order : EntryOrder T) (self other : MVRegister T) : MVRegister T :=
  (order.entries other.values).foldl (fun r e => r.set e.1 e.2) self

/-- A write of a value at a clock. -/
structure Write (T : Type*) where
  value : T
  clock : VectorClock

def crdt (order : EntryOrder T) : ReplicatedType (MVRegister T) (Write T) :=
  ⟨new, fun r u => r.set u.value u.clock, merge order⟩

/-! ## Writes -/

/-- Clocks are stamps, and one happened before another if its counts are smaller. -/
def clockStamps : Stamps VectorClock (String → ℕ) where
  stamp := VectorClock.counts
  below := VectorClock.happenedBefore
  below_iff _ _ := VectorClock.happenedBefore_iff

def Write.stamped (u : Write T) : T × (String → ℕ) :=
  (u.value, u.clock.counts)

def writes (r : MVRegister T) : Set (T × (String → ℕ)) :=
  clockStamps.writes r.values

theorem values_set (r : MVRegister T) (value : T) (clock : VectorClock) :
    (r.set value clock).values = clockStamps.put r.values value clock := by
  have hif : ∀ (x : Bool) (t t' : Table T VectorClock),
      (if (!x) = true then (⟨t⟩ : MVRegister T) else ⟨t'⟩).values = if x = true then t' else t := by
    intro x t t'
    cases x <;> rfl
  exact hif _ _ _

theorem values_merge (order : EntryOrder T) (self other : MVRegister T) :
    (self.merge order other).values =
      clockStamps.putAll self.values (order.entries other.values) := by
  rw [merge, Stamps.putAll]
  generalize order.entries other.values = l
  induction l generalizing self with
  | nil => rfl
  | cons e l ih => rw [List.foldl_cons, List.foldl_cons, ih, values_set]

omit [DecidableEq T] in
theorem writesIn_entries (order : EntryOrder T) (r : MVRegister T) :
    clockStamps.writesIn (order.entries r.values) = r.writes := by
  ext w
  exact exists_congr fun e => and_congr_left fun _ => (order.perm r.values).mem_iff

omit [DecidableEq T] in
theorem finite_writes (r : MVRegister T) : r.writes.Finite :=
  Stamps.finite_writesIn _

theorem onePerValue_writes (r : MVRegister T) : OnePerValue r.writes :=
  Stamps.onePerValue_writes _

variable {order : EntryOrder T} {r a b c : MVRegister T}

theorem concurrent_set (h : Concurrent r.writes) (u : Write T) :
    Concurrent (r.set u.value u.clock).writes := by
  rw [writes, values_set]
  exact Stamps.concurrent_put h _ _

theorem concurrent_merge (ha : Concurrent a.writes) : Concurrent (a.merge order b).writes := by
  rw [writes, values_merge]
  exact Stamps.concurrent_putAll ha _

theorem writes_set_iff (h : Concurrent r.writes) (u : Write T) :
    (r.set u.value u.clock).writes = maxima (r.writes ∪ {u.stamped}) ↔
      ¬ Clash r.writes {u.stamped} := by
  have hone : clockStamps.writesIn [⟨u.value, u.clock⟩] = {u.stamped} := by
    ext w
    constructor
    · rintro ⟨e, he, rfl⟩
      rw [List.mem_singleton.mp he]
      rfl
    · rintro rfl
      exact ⟨_, List.mem_cons_self, rfl⟩
  have hput := Stamps.writes_putAll_iff (l := [⟨u.value, u.clock⟩]) h
    (by rw [hone]; exact concurrent_singleton _)
  rw [hone] at hput
  rw [writes, values_set]
  exact hput

theorem writes_merge_iff (ha : Concurrent a.writes) (hb : Concurrent b.writes) :
    (a.merge order b).writes = maxima (a.writes ∪ b.writes) ↔ ¬ Clash a.writes b.writes := by
  have hput := Stamps.writes_putAll_iff (S := clockStamps) (l := order.entries b.values) ha
    (by rw [writesIn_entries]; exact hb)
  rw [writesIn_entries] at hput
  rw [writes, values_merge]
  exact hput

theorem mem_writes_merge {w : T × (String → ℕ)} (hw : w ∈ maxima (a.writes ∪ b.writes))
    (hb : w ∈ b.writes) : w ∈ (a.merge order b).writes := by
  rw [writes, values_merge]
  refine Stamps.mem_putAll_of_maximal (Set.subset_union_left)
    (by rw [writesIn_entries]; exact Set.subset_union_right) ?_ hw
    (Or.inl (by rw [writesIn_entries]; exact hb))
  exact (List.perm_nodupKeys (order.perm b.values)).mpr b.values.nodupKeys

/-! ## The laws of merges -/

/-- What merges of three registers promise. -/
structure MergeLaws (order : EntryOrder T) (a b c : MVRegister T) : Prop where
  comm : ∀ x ∈ [a, b, c], ∀ y ∈ [a, b, c], (x.merge order y).writes = (y.merge order x).writes
  assoc : ((a.merge order b).merge order c).writes = (a.merge order (b.merge order c)).writes
  idem : ∀ x ∈ [a, b, c], (x.merge order x).writes = x.writes

theorem not_clash_self (ha : Concurrent a.writes) : ¬ Clash a.writes a.writes := by
  rw [Clash, not_not, Set.union_self, ha.maxima_eq]
  exact onePerValue_writes a

/-- Two registers may be merged in both directions just if they do not clash. -/
theorem merge_comm_iff (ha : Concurrent a.writes) (hb : Concurrent b.writes) :
    (a.merge order b).writes = (b.merge order a).writes ↔ ¬ Clash a.writes b.writes := by
  constructor
  · intro hsame
    rw [Clash, not_not]
    intro v p q hp hq
    -- what one of them has is there after the merge that puts it last
    have hthere : ∀ p, (v, p) ∈ maxima (a.writes ∪ b.writes) →
        (v, p) ∈ (a.merge order b).writes := by
      intro p hp
      rcases hp.1 with hpa | hpb
      · rw [hsame]
        exact mem_writes_merge (Set.union_comm _ _ ▸ hp) hpa
      · exact mem_writes_merge hp hpb
    exact onePerValue_writes _ v p q (hthere p hp) (hthere q hq)
  · intro h
    rw [(writes_merge_iff ha hb).mpr h, (writes_merge_iff hb ha).mpr (mt clash_comm.mp h),
      Set.union_comm]

/-- Three registers keep the laws of merges just if no two of them clash. -/
theorem mergeLaws_iff (ha : Concurrent a.writes) (hb : Concurrent b.writes)
    (hc : Concurrent c.writes) :
    MergeLaws order a b c ↔
      ¬ Clash a.writes b.writes ∧ ¬ Clash a.writes c.writes ∧ ¬ Clash b.writes c.writes := by
  have hall : ∀ x ∈ [a, b, c], Concurrent x.writes := by
    simp only [List.forall_mem_cons, List.not_mem_nil, false_imp_iff, implies_true, and_true]
    exact ⟨ha, hb, hc⟩
  have hmem : a ∈ [a, b, c] ∧ b ∈ [a, b, c] ∧ c ∈ [a, b, c] :=
    ⟨.head _, .tail _ (.head _), .tail _ (.tail _ (.head _))⟩
  constructor
  · intro h
    exact ⟨(merge_comm_iff ha hb).mp (h.comm a hmem.1 b hmem.2.1),
      (merge_comm_iff ha hc).mp (h.comm a hmem.1 c hmem.2.2),
      (merge_comm_iff hb hc).mp (h.comm b hmem.2.1 c hmem.2.2)⟩
  · rintro ⟨hab, hac, hbc⟩
    have hthree := onePerValue_union₃ hab hac hbc (onePerValue_writes a) (onePerValue_writes b)
      (onePerValue_writes c)
    have hab' : (a.merge order b).writes = maxima (a.writes ∪ b.writes) :=
      (writes_merge_iff ha hb).mpr hab
    have hbc' : (b.merge order c).writes = maxima (b.writes ∪ c.writes) :=
      (writes_merge_iff hb hc).mpr hbc
    refine ⟨?_, ?_, ?_⟩
    · have hpair : ∀ x ∈ [a, b, c], ∀ y ∈ [a, b, c], ¬ Clash x.writes y.writes := by
        simp only [List.forall_mem_cons, List.not_mem_nil, false_imp_iff, implies_true, and_true]
        exact ⟨⟨not_clash_self ha, hab, hac⟩, ⟨mt clash_comm.mp hab, not_clash_self hb, hbc⟩,
          mt clash_comm.mp hac, mt clash_comm.mp hbc, not_clash_self hc⟩
      exact fun x hx y hy => (merge_comm_iff (hall x hx) (hall y hy)).mpr (hpair x hx y hy)
    · -- both are the maxima of all three
      have hleft : ¬ Clash (a.merge order b).writes c.writes := by
        rw [Clash, not_not, hab', maxima_maxima_union
          ((finite_writes a).union (finite_writes b)) (finite_writes c)]
        exact hthree
      have hright : ¬ Clash a.writes (b.merge order c).writes := by
        rw [Clash, not_not, hbc', maxima_union_maxima_right (finite_writes a)
          ((finite_writes b).union (finite_writes c)), ← Set.union_assoc]
        exact hthree
      rw [(writes_merge_iff (concurrent_merge ha) hc).mpr hleft,
        (writes_merge_iff ha (concurrent_merge hb)).mpr hright, hab', hbc',
        maxima_maxima_union ((finite_writes a).union (finite_writes b)) (finite_writes c),
        maxima_union_maxima_right (finite_writes a) ((finite_writes b).union (finite_writes c)),
        Set.union_assoc]
    · intro x hx
      rw [(writes_merge_iff (hall x hx) (hall x hx)).mpr (not_clash_self (hall x hx)),
        Set.union_self, (hall x hx).maxima_eq]

/-! ## What a replica has received -/

def receivedWrites (log : List (UpdateEvent (MVRegister T) (Write T))) (received : Finset ℕ) :
    Set (T × (String → ℕ)) :=
  {w | ∃ i ∈ received, ∃ e, log[i]? = some e ∧ e.update.stamped = w}

/-- A register has exactly the writes it has received that no other of these dominates. -/
def KeepsMaxima (log : List (UpdateEvent (MVRegister T) (Write T))) (c : Copy (MVRegister T)) :
    Prop :=
  c.state.writes = maxima (receivedWrites log c.received)

/-- A write does not clash with what the register has. -/
def SetsApart (_ : List (UpdateEvent (MVRegister T) (Write T))) (c : Copy (MVRegister T))
    (u : Write T) : Prop :=
  ¬ Clash c.state.writes {u.stamped}

/-- A register that is merged does not clash with what the register has. -/
def MergesApart (_ : List (UpdateEvent (MVRegister T) (Write T))) (c m : Copy (MVRegister T)) :
    Prop :=
  ¬ Clash c.state.writes m.state.writes

section Received

variable {log : List (UpdateEvent (MVRegister T) (Write T))} {received received' : Finset ℕ}

omit [DecidableEq T] in
theorem finite_receivedWrites : (receivedWrites log received).Finite := by
  refine ((log.map fun e => e.update.stamped).finite_toSet).subset ?_
  rintro w ⟨i, -, e, he, rfl⟩
  exact List.mem_map.mpr ⟨e, List.mem_of_getElem? he, rfl⟩

omit [DecidableEq T] in
theorem receivedWrites_union :
    receivedWrites log (received ∪ received') =
      receivedWrites log received ∪ receivedWrites log received' := by
  ext w
  constructor
  · rintro ⟨i, hi, hw⟩
    exact (Finset.mem_union.mp hi).imp (fun hi => ⟨i, hi, hw⟩) fun hi => ⟨i, hi, hw⟩
  · rintro (⟨i, hi, hw⟩ | ⟨i, hi, hw⟩)
    · exact ⟨i, Finset.mem_union_left _ hi, hw⟩
    · exact ⟨i, Finset.mem_union_right _ hi, hw⟩

omit [DecidableEq T] in
theorem receivedWrites_append {c : Copy (MVRegister T)} (h : Replicas.Within log c)
    (e : UpdateEvent (MVRegister T) (Write T)) :
    receivedWrites (log ++ [e]) c.received = receivedWrites log c.received := by
  ext w
  refine exists_congr fun i => and_congr_right fun hi => ?_
  rw [h.getElem?_append e hi]

omit [DecidableEq T] in
theorem receivedWrites_insert {c : Copy (MVRegister T)} (h : Replicas.Within log c) (u : Write T) :
    receivedWrites (log ++ [⟨c, u⟩]) (insert log.length c.received) =
      receivedWrites log c.received ∪ {u.stamped} := by
  have hnew : receivedWrites (log ++ [⟨c, u⟩]) {log.length} = {u.stamped} := by
    ext w
    constructor
    · rintro ⟨i, hi, e, he, rfl⟩
      rw [Finset.mem_singleton.mp hi, List.getElem?_concat_length] at he
      rw [← Option.some.inj he]
      rfl
    · rintro rfl
      exact ⟨log.length, Finset.mem_singleton_self _, ⟨c, u⟩, List.getElem?_concat_length, rfl⟩
  rw [Finset.insert_eq, receivedWrites_union, hnew, receivedWrites_append h, Set.union_comm]

end Received

variable {log : List (UpdateEvent (MVRegister T) (Write T))} {x m : Copy (MVRegister T)}

omit [DecidableEq T] in
theorem KeepsMaxima.concurrent (h : KeepsMaxima log x) : Concurrent x.state.writes := by
  rw [KeepsMaxima] at h
  rw [h]
  exact concurrent_maxima

theorem keepsMaxima_update_iff (hwithin : Replicas.Within log x) (h : KeepsMaxima log x)
    (u : Write T) :
    KeepsMaxima (log ++ [⟨x, u⟩]) ((crdt order).updateCopy log.length x u) ↔ SetsApart log x u := by
  rw [KeepsMaxima] at h
  have hmaxima : maxima (x.state.writes ∪ {u.stamped}) =
      maxima (receivedWrites log x.received ∪ {u.stamped}) := by
    rw [h, maxima_maxima_union finite_receivedWrites (Set.finite_singleton _)]
  rw [KeepsMaxima, ReplicatedType.updateCopy, receivedWrites_insert hwithin, ← hmaxima, SetsApart]
  exact writes_set_iff (KeepsMaxima.concurrent h) u

theorem keepsMaxima_merge_iff (h : KeepsMaxima log x) (h' : KeepsMaxima log m) :
    KeepsMaxima log ((crdt order).mergeCopy x m) ↔ MergesApart log x m := by
  rw [KeepsMaxima] at h h'
  have hmaxima : maxima (x.state.writes ∪ m.state.writes) =
      maxima (receivedWrites log x.received ∪ receivedWrites log m.received) := by
    rw [h, h', maxima_union_maxima finite_receivedWrites finite_receivedWrites]
  rw [KeepsMaxima, ReplicatedType.mergeCopy, receivedWrites_union, ← hmaxima, MergesApart]
  exact writes_merge_iff (KeepsMaxima.concurrent h) (KeepsMaxima.concurrent h')

/-! ## All runs -/

theorem concurrent_of_reachable {N : Type*} [DecidableEq N]
    {w : Replicas N (MVRegister T) (Write T)} (h : (crdt order).replicas.Reachable w)
    (hx : w.Has x) : Concurrent x.state.writes := by
  refine ((Replicas.copies_invariant (P := fun _ x => Concurrent x.state.writes) ?_ ?_ ?_ ?_
    (Replicas.reach_of_reachable h)).2 x hx).2
  · rintro w ⟨e, he, -⟩
    cases he
  · exact fun _ _ _ _ hc => hc
  · exact fun _ c u _ _ hc _ => concurrent_set hc u
  · exact fun _ c m _ _ hc _ _ => concurrent_merge hc

/-- In a run without clashes every copy has the maxima of what it has received. -/
theorem keepsMaxima_of_reach {N : Type*} [DecidableEq N]
    {w : Replicas N (MVRegister T) (Write T)}
    (h : (crdt order).replicas.Reach (Replicas.Meets SetsApart MergesApart) w) (hx : w.Has x) :
    Replicas.Within w.log x ∧ KeepsMaxima w.log x := by
  refine (Replicas.copies_invariant ?_ ?_ ?_ ?_ h).2 x hx
  · rw [KeepsMaxima]
    have hnone : receivedWrites ([] : List (UpdateEvent (MVRegister T) (Write T))) ∅ = ∅ := by
      refine Set.eq_empty_of_forall_notMem ?_
      rintro w ⟨i, hi, -⟩
      exact Finset.notMem_empty i hi
    change writes new = maxima (receivedWrites [] ∅)
    rw [hnone]
    refine Set.Subset.antisymm ?_ fun w hw => hw.1.elim
    rintro w ⟨e, he, -⟩
    cases he
  · intro log c e hwithin hc
    rw [KeepsMaxima, receivedWrites_append hwithin]
    exact hc
  · exact fun log c u _ hwithin hc hu => (keepsMaxima_update_iff hwithin hc u).mpr hu
  · exact fun log c m _ _ hc hm h => (keepsMaxima_merge_iff hc hm).mpr h

/-- In every run the clocks of a register are concurrent, and three such registers keep the laws of
merges just if no two of them clash.  In every run whose writes and merges do not clash, a register
has exactly the writes it has received that no other of these dominates; and a further step keeps
this just if it does not clash. -/
theorem multiValue_iff (T : Type*) [DecidableEq T] (order : EntryOrder T) :
    (∀ a b c : MVRegister T, Concurrent a.writes → Concurrent b.writes → Concurrent c.writes →
      (MergeLaws order a b c ↔
        ¬ Clash a.writes b.writes ∧ ¬ Clash a.writes c.writes ∧ ¬ Clash b.writes c.writes)) ∧
      (∀ (N : Type) [DecidableEq N] (w : Replicas N (MVRegister T) (Write T)),
        (crdt order).replicas.Reachable w → ∀ x, w.Has x → Concurrent x.state.writes) ∧
      ∀ (N : Type) [DecidableEq N] (w : Replicas N (MVRegister T) (Write T)),
        (crdt order).replicas.Reach (Replicas.Meets SetsApart MergesApart) w →
          (∀ x, w.Has x → KeepsMaxima w.log x) ∧
            ∀ a w', (crdt order).replicas.step w a = some w' →
              ((∀ r, KeepsMaxima w'.log (w'.replica r)) ↔
                Replicas.Meets SetsApart MergesApart w a) := by
  refine ⟨fun a b c => mergeLaws_iff, fun N _ w h x hx => concurrent_of_reachable h hx,
    fun N _ w h => ?_⟩
  have hall (x : Copy (MVRegister T)) (hx : w.Has x) := keepsMaxima_of_reach h hx
  have hr (r : N) := hall (w.replica r) (Or.inl ⟨r, rfl⟩)
  refine ⟨fun x hx => (hall x hx).2, fun a w' hstep => ?_⟩
  refine (Replicas.forall_step_iff (fun r e hkeeps => ?_) (fun r => (hr r).2) hstep).trans
    (Replicas.meets_congr (fun r u => ?_) (fun r m hm => ?_) a)
  · rw [KeepsMaxima, receivedWrites_append (hr r).1]
    exact hkeeps
  · exact keepsMaxima_update_iff (hr r).1 (hr r).2 u
  · exact keepsMaxima_merge_iff (hr r).2 (hall m (Or.inr hm)).2

/-! ## A value that is written twice -/

def tableOrder : EntryOrder T :=
  ⟨fun t => t.entries, fun _ => List.Perm.refl _⟩

/-- Two replicas write the same value, each at its own clock, and one receives the other's. -/
def sameValueRun : List (ReplicaAction Bool (Write String)) :=
  [.update true ⟨"x", VectorClock.new.increment "A"⟩,
    .update false ⟨"x", VectorClock.new.increment "B"⟩, .send false, .merge true 0]

def written (e : UpdateEvent (MVRegister T) (Write T)) : T × Table String UInt64 :=
  (e.update.value, e.update.clock.clocks)

/-- The clock of the write that is received takes the place of the other one. -/
theorem sameValue_not_kept : ∃ w, (crdt (T := String) tableOrder).replicas.Reachable w ∧
    ¬ KeepsMaxima w.log (w.replica true) := by
  have hrun : (((crdt (T := String) tableOrder).replicas (N := Bool)).run (fun _ _ => True)
      sameValueRun).any fun w => decide
        (w.log.map written = [("x", (VectorClock.new.increment "A").clocks),
            ("x", (VectorClock.new.increment "B").clocks)] ∧
          0 ∈ (w.replica true).received ∧
          ((w.replica true).state.values.lookup "x").map (fun c => c.get "A") = some 0) := by
    decide +kernel
  obtain ⟨w, hw, hreach, hp⟩ := System.exists_reach_of_any hrun
  obtain ⟨hlog, hreceived, hlookup⟩ := of_decide_eq_true hp
  refine ⟨w, hreach, fun hkeeps => ?_⟩
  obtain ⟨e, l, hsplit, he, -⟩ := List.map_eq_cons_iff.mp hlog
  have hstamped : e.update.stamped = ("x", (VectorClock.new.increment "A").counts) :=
    congrArg (fun p : String × Table String UInt64 => (p.1, (VectorClock.mk p.2).counts)) he
  -- the first write is below neither of the two
  have hmax : ("x", (VectorClock.new.increment "A").counts) ∈
      maxima (receivedWrites w.log (w.replica true).received) := by
    refine ⟨⟨0, hreceived, e, by rw [hsplit]; rfl, hstamped⟩, ?_⟩
    rintro _ ⟨i, -, e', he', rfl⟩ hlt
    have hmem : written e' ∈ w.log.map written :=
      List.mem_map_of_mem (List.mem_of_getElem? he')
    have hbefore : (VectorClock.new.increment "A").happenedBefore e'.update.clock = true :=
      VectorClock.happenedBefore_iff.mpr hlt
    have hclock : e'.update.clock = VectorClock.mk (written e').2 := rfl
    rw [hlog] at hmem
    rcases List.mem_cons.mp hmem with heq | hmem
    · rw [hclock, heq] at hbefore
      exact absurd hbefore (by decide +kernel)
    · rw [hclock, List.mem_singleton.mp hmem] at hbefore
      exact absurd hbefore (by decide +kernel)
  rw [← hkeeps] at hmax
  obtain ⟨c, hc, hcounts⟩ := Stamps.mem_writes_iff.mp hmax
  rw [hc] at hlookup
  have hzero : c.get "A" = 0 := Option.some.inj hlookup
  have hone : (c.get "A").toNat = (VectorClock.new.increment "A").counts "A" :=
    congrFun hcounts "A"
  rw [hzero] at hone
  revert hone
  decide +kernel

end MVRegister

end Replication

end AegisDB
