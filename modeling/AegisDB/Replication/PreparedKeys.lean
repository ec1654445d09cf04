import AegisDB.Replication.ParticipantRun

/-!
# The keys of prepared transactions

A participant locks the keys that a transaction writes when it votes to commit, and unlocks them
when the transaction is committed or aborted.  Two transactions that wait for their decision should
write no common key, and the keys locked for them should be those they write
(`ParticipantRun.InStep`).

The validation that the participant does by itself sees to that, except for a transaction that has
its decision already.  A validation callback answers with the keys to lock, whatever they are; and
`handle_prepare_with_validation` looks for no conflicts and locks nothing.
-/

namespace AegisDB

namespace Replication

variable {N T : Type*}

open TransactionOperation (writeKeys)

/-! ## Basic validation -/

namespace ParticipantHandler

variable [DecidableEq T] [ToString T] {h : ParticipantHandler N T} {t : T}

/-- An operation without a conflict: no other transaction has its key locked, and if it writes, no
other prepared transaction writes its key. -/
theorem conflict_eq_none {operation : TransactionOperation}
    (hnone : h.conflict t operation = none) {u : T} (hu : u ≠ t)
    {operations : List TransactionOperation} (hpending : h.pendingPrepares.lookup u = some operations)
    (hwrite : operation.isWrite = true) : operation.key ∉ writeKeys operations := by
  intro hkey
  obtain ⟨other, hother, hkey⟩ := List.mem_map.mp hkey
  obtain ⟨hmem, hotherWrite⟩ := List.mem_filter.mp hother
  have hwriter : h.pendingPrepares.entries.find? (fun e =>
      e.1 ≠ t ∧ e.2.any fun other =>
        other.key = operation.key && other.isWrite && operation.isWrite) ≠ none := by
    rw [Ne, List.find?_eq_none]
    refine fun hall => hall ⟨u, operations⟩ (AList.mem_lookup_iff.mp hpending) ?_
    simp only [decide_eq_true_eq]
    refine ⟨hu, List.any_eq_true.mpr ⟨other, hmem, ?_⟩⟩
    simp [hkey, hotherWrite, hwrite]
  rw [conflict] at hnone
  split at hnone
  · cases hnone
  · cases hnone
  · next hwriter' => exact hwriter hwriter'

/-- A validation that succeeds locks the keys that are written, and none of them is written by
another prepared transaction. -/
theorem basicValidation_success {operations : List TransactionOperation} {keys : List String}
    (hsuccess : (h.basicValidation t operations keys).success = true) :
    (h.basicValidation t operations keys).lockedKeys = keys ++ writeKeys operations ∧
      ∀ u, u ≠ t → ∀ others, h.pendingPrepares.lookup u = some others →
        ∀ k ∈ writeKeys operations, k ∉ writeKeys others := by
  induction operations generalizing keys with
  | nil =>
    refine ⟨(List.append_nil keys).symm, fun u _ others _ k hk => ?_⟩
    cases hk
  | cons operation operations ih =>
    rw [basicValidation] at hsuccess ⊢
    cases hconflict : h.conflict t operation with
    | some error =>
      rw [hconflict] at hsuccess
      cases hsuccess
    | none =>
      rw [hconflict] at hsuccess
      dsimp only at hsuccess ⊢
      obtain ⟨hkeys, hdisjoint⟩ := ih hsuccess
      rw [hkeys]
      cases hwrite : operation.isWrite with
      | true =>
        refine ⟨by simp [writeKeys, hwrite], fun u hu others hothers k hk => ?_⟩
        have hcases : k = operation.key ∨ k ∈ writeKeys operations := by
          simpa [writeKeys, hwrite] using hk
        rcases hcases with rfl | hk
        · exact conflict_eq_none hconflict hu hothers hwrite
        · exact hdisjoint u hu others hothers k hk
      | false =>
        refine ⟨by simp [writeKeys, hwrite], fun u hu others hothers k hk => ?_⟩
        have hk' : k ∈ writeKeys operations := by
          simpa [writeKeys, hwrite] using hk
        exact hdisjoint u hu others hothers k hk'

end ParticipantHandler

namespace ParticipantRun

variable [DecidableEq T]

/-! ## Transactions that wait for their decision -/

/-- The participant has voted to commit the transaction, and has handled neither a commit nor an
abort request for it. -/
def Undecided (s : ParticipantRun N T) (t : T) : Prop :=
  .voted t ∈ s.history ∧ .committed t ∉ s.history ∧ .aborted t ∉ s.history

instance (s : ParticipantRun N T) (t : T) : Decidable (s.Undecided t) :=
  inferInstanceAs (Decidable (_ ∧ _))

/-- The participant has handled a commit or an abort request for the transaction. -/
def Decided (s : ParticipantRun N T) (t : T) : Prop :=
  .committed t ∈ s.history ∨ .aborted t ∈ s.history

instance (s : ParticipantRun N T) (t : T) : Decidable (s.Decided t) :=
  inferInstanceAs (Decidable (_ ∨ _))

/-- The key is written by a transaction, as the participant has prepared it. -/
def Writes (s : ParticipantRun N T) (t : T) (k : String) : Prop :=
  ∃ operations ∈ s.handler.pendingPrepares.lookup t, k ∈ writeKeys operations

def Locks (s : ParticipantRun N T) (t : T) (k : String) : Prop :=
  k ∈ (s.handler.lockedKeys.lookup t).getD []

/-- The locks are in step with the transactions that wait for their decision. -/
structure InStep (s : ParticipantRun N T) : Prop where
  /-- A transaction that waits for its decision is prepared. -/
  prepared : ∀ t, s.Undecided t → t ∈ s.handler.pendingPrepares
  disjoint : ∀ t u, t ≠ u → s.Undecided t → s.Undecided u → ∀ k, s.Writes t k → ¬ s.Writes u k
  locked : ∀ t k, s.Locks t k ↔ s.Undecided t ∧ s.Writes t k

/-- When a request keeps them in step: for a decided transaction nothing is locked, and otherwise
the keys locked are those it writes, which no other transaction that waits for its decision does. -/
def Fits (s : ParticipantRun N T) (t : T) (operations : List TransactionOperation)
    (keys : List String) : Prop :=
  if s.Decided t then keys = []
  else (∀ k, k ∈ keys ↔ k ∈ writeKeys operations) ∧
    ∀ u, u ≠ t → s.Undecided u → ∀ k ∈ writeKeys operations, ¬ s.Writes u k

variable [ToString T]

/-- The call keeps the locks in step: a prepare request that is accepted fits, where the
participant's own validation only has to lock nothing for a decided transaction. -/
def Fitting (s : ParticipantRun N T) : ParticipantCall T → Prop
  | .prepare t operations (.callback none) =>
    s.handler.accepts t operations (.callback none) = true → s.Decided t → writeKeys operations = []
  | .prepare t operations (.callback (some answer)) =>
    answer.success = true → s.Fits t operations answer.lockedKeys
  | .prepare t operations (.validator valid) =>
    valid = true → s.Fits t operations ((s.handler.lockedKeys.lookup t).getD [])
  | _ => True

instance (s : ParticipantRun N T) (t : T) (k : String) : Decidable (s.Writes t k) :=
  inferInstanceAs (Decidable
    (∃ operations ∈ s.handler.pendingPrepares.lookup t, k ∈ writeKeys operations))

instance (s : ParticipantRun N T) (t : T) (k : String) : Decidable (s.Locks t k) :=
  inferInstanceAs (Decidable (k ∈ (s.handler.lockedKeys.lookup t).getD []))

/-! ## What a call does to the keys -/

variable {s s' : ParticipantRun N T} {t : T}

omit [ToString T] in
theorem inStep_iff_fits (h : s.InStep) {operations : List TransactionOperation}
    {keys : List String} (hhistory : s'.history = s.history ++ [.voted t])
    (hpending : s'.handler.pendingPrepares = s.handler.pendingPrepares.insert t operations)
    (hlocked : ∀ u, (s'.handler.lockedKeys.lookup u).getD [] =
      if u = t then keys else (s.handler.lockedKeys.lookup u).getD []) :
    s'.InStep ↔ s.Fits t operations keys := by
  have hself : s'.Undecided t ↔ ¬ s.Decided t := by
    simp [Undecided, Decided, hhistory]
  have hother : ∀ u, u ≠ t → (s'.Undecided u ↔ s.Undecided u) := by
    intro u hu
    simp [Undecided, hhistory, hu]
  have hwritesSelf : ∀ k, s'.Writes t k ↔ k ∈ writeKeys operations := by
    simp [Writes, hpending]
  have hwritesOther : ∀ u, u ≠ t → ∀ k, s'.Writes u k ↔ s.Writes u k := by
    intro u hu k
    simp [Writes, hpending, hu]
  have hlocksSelf : ∀ k, s'.Locks t k ↔ k ∈ keys := by
    intro k
    rw [Locks, hlocked, if_pos rfl]
  have hlocksOther : ∀ u, u ≠ t → ∀ k, s'.Locks u k ↔ s.Locks u k := by
    intro u hu k
    rw [Locks, hlocked, if_neg hu, Locks]
  have hprepared : ∀ u, s'.Undecided u → u ∈ s'.handler.pendingPrepares := by
    intro u hu
    rw [hpending, AList.mem_insert]
    by_cases hut : u = t
    · exact .inl hut
    · exact .inr (h.prepared u ((hother u hut).mp hu))
  -- the other transactions are in step before and after
  have hlockedOther : ∀ u, u ≠ t → ∀ k, s'.Locks u k ↔ s'.Undecided u ∧ s'.Writes u k := by
    intro u hu k
    rw [hlocksOther u hu, hother u hu, hwritesOther u hu]
    exact h.locked u k
  have hdisjointOther : ∀ u v, u ≠ t → v ≠ t → u ≠ v → s'.Undecided u → s'.Undecided v →
      ∀ k, s'.Writes u k → ¬ s'.Writes v k := by
    intro u v hu hv huv hu' hv' k
    rw [hwritesOther u hu, hwritesOther v hv]
    exact h.disjoint u v huv ((hother u hu).mp hu') ((hother v hv).mp hv') k
  rw [Fits]
  split_ifs with hdecided
  · have hnot : ¬ s'.Undecided t := fun hundecided => hself.mp hundecided hdecided
    constructor
    · intro hstep
      refine List.eq_nil_iff_forall_not_mem.mpr fun k hk => ?_
      exact hnot ((hstep.locked t k).mp ((hlocksSelf k).mpr hk)).1
    · rintro rfl
      refine ⟨hprepared, fun u v huv hu hv => ?_, fun u k => ?_⟩
      · exact hdisjointOther u v (fun heq => hnot (heq ▸ hu)) (fun heq => hnot (heq ▸ hv)) huv hu hv
      · by_cases hut : u = t
        · rw [hut, hlocksSelf]
          exact iff_of_false List.not_mem_nil fun hboth => hnot hboth.1
        · exact hlockedOther u hut k
  · have hundecided : s'.Undecided t := hself.mpr hdecided
    constructor
    · intro hstep
      refine ⟨fun k => ?_, fun u hu hu' k hk hwrites => ?_⟩
      · rw [← hlocksSelf, hstep.locked, hwritesSelf]
        exact and_iff_right hundecided
      · refine hstep.disjoint t u (Ne.symm hu) hundecided ((hother u hu).mpr hu') k ?_ ?_
        · exact (hwritesSelf k).mpr hk
        · exact (hwritesOther u hu k).mpr hwrites
    · rintro ⟨hkeys, hfree⟩
      have hfree' : ∀ u, u ≠ t → s'.Undecided u → ∀ k, s'.Writes t k → ¬ s'.Writes u k := by
        intro u hu hu' k hk
        rw [hwritesOther u hu]
        exact hfree u hu ((hother u hu).mp hu') k ((hwritesSelf k).mp hk)
      refine ⟨hprepared, fun u v huv hu hv k hk hk' => ?_, fun u k => ?_⟩
      · by_cases hut : u = t
        · subst hut
          exact hfree' v (Ne.symm huv) hv k hk hk'
        · by_cases hvt : v = t
          · subst hvt
            exact hfree' u huv hu k hk' hk
          · exact hdisjointOther u v hut hvt huv hu hv k hk hk'
      · by_cases hut : u = t
        · rw [hut, hlocksSelf, hkeys, hwritesSelf]
          exact (and_iff_right hundecided).symm
        · exact hlockedOther u hut k

omit [ToString T] in
theorem InStep.decide (h : s.InStep)
    (hundecided : ∀ u, s'.Undecided u ↔ u ≠ t ∧ s.Undecided u)
    (hpending : s'.handler.pendingPrepares = s.handler.pendingPrepares.erase t)
    (hlocked : s'.handler.lockedKeys = s.handler.lockedKeys.erase t) : s'.InStep := by
  have hwrites : ∀ u, u ≠ t → ∀ k, s'.Writes u k ↔ s.Writes u k := by
    intro u hu k
    simp [Writes, hpending, hu]
  refine ⟨fun u hu => ?_, fun u v huv hu hv k => ?_, fun u k => ?_⟩
  · obtain ⟨hne, hu⟩ := (hundecided u).mp hu
    rw [hpending, AList.mem_erase]
    exact ⟨hne, h.prepared u hu⟩
  · obtain ⟨hne, hu⟩ := (hundecided u).mp hu
    obtain ⟨hne', hv⟩ := (hundecided v).mp hv
    rw [hwrites u hne, hwrites v hne']
    exact h.disjoint u v huv hu hv k
  · by_cases hut : u = t
    · have hnone : ¬ s'.Locks u k := by
        rw [Locks, hlocked, Table.lookup_erase, if_pos hut]
        exact List.not_mem_nil
      exact iff_of_false hnone fun hboth => ((hundecided u).mp hboth.1).1 hut
    · have hlocks : s'.Locks u k ↔ s.Locks u k := by
        rw [Locks, hlocked, Table.lookup_erase, if_neg hut, Locks]
      rw [hlocks, h.locked, hundecided, hwrites u hut]
      exact and_congr_left' (and_iff_right hut).symm

theorem fits_basicValidation {operations : List TransactionOperation}
    (haccepts : s.handler.accepts t operations (.callback none) = true) :
    s.Fits t operations (s.handler.keysFor t operations (.callback none)) ↔
      (s.Decided t → writeKeys operations = []) := by
  obtain ⟨hkeys, hdisjoint⟩ := ParticipantHandler.basicValidation_success haccepts
  have heq : s.handler.keysFor t operations (.callback none) = writeKeys operations := hkeys
  rw [heq, Fits]
  split_ifs with hdecided
  · exact ⟨fun hnil _ => hnil, fun hnil => hnil hdecided⟩
  · refine iff_of_true ⟨fun _ => Iff.rfl, fun u hu _ k hk hwrites => ?_⟩
      fun hyes => absurd hyes hdecided
    obtain ⟨others, hothers, hmem⟩ := hwrites
    exact hdisjoint u hu others hothers k hk hmem

theorem inStep_prepare_iff (h : s.InStep) (operations : List TransactionOperation)
    (validation : Validation) :
    (s.call (.prepare t operations validation)).InStep ↔
      (s.handler.accepts t operations validation = true →
        s.Fits t operations (s.handler.keysFor t operations validation)) := by
  cases haccepts : s.handler.accepts t operations validation with
  | false =>
    rw [call, s.handler.handlePrepareBy_of_not_accepts haccepts, haccepts]
    exact iff_of_true ⟨h.prepared, h.disjoint, h.locked⟩ fun hyes =>
      absurd hyes Bool.false_ne_true
  | true =>
    obtain ⟨hpending, -, -, hlocked⟩ := s.handler.handlePrepareBy_of_accepts haccepts
    rw [call, haccepts, forall_prop_of_true rfl]
    exact inStep_iff_fits h rfl hpending hlocked

/-- A call keeps the locks in step exactly when it is fitting. -/
theorem inStep_call_iff (h : s.InStep) (a : ParticipantCall T) :
    (s.call a).InStep ↔ s.Fitting a := by
  cases a with
  | prepare t operations validation =>
    rw [inStep_prepare_iff h]
    cases validation with
    | callback answer =>
      cases answer with
      | none => exact forall_congr' fun haccepts => fits_basicValidation haccepts
      | some answer => exact Iff.rfl
    | validator valid => exact Iff.rfl
  | commit t =>
    refine iff_of_true (h.decide (fun u => ?_) rfl rfl) trivial
    have hmem : ∀ e, e ∈ (s.call (.commit t)).history ↔ e ∈ s.history ∨
        ((s.hasCallback && (s.handler.pendingPrepares.lookup t).isSome) = true ∧ e = .ran t) ∨
          e = .committed t :=
      fun e => List.mem_append.trans (or_congr_right mem_commitEvents)
    rw [Undecided, Undecided, hmem, hmem, hmem]
    simp only [reduceCtorEq, and_false, or_false, false_or, ParticipantEvent.committed.injEq]
    tauto
  | abort t =>
    refine iff_of_true (h.decide (fun u => ?_) rfl rfl) trivial
    rw [Undecided, Undecided, call]
    simp only [List.mem_append, List.mem_singleton, reduceCtorEq, or_false,
      ParticipantEvent.aborted.injEq]
    tauto
  | setCommitCallback => exact iff_of_true ⟨h.prepared, h.disjoint, h.locked⟩ trivial

/-! ## Runs -/

/-- **Prepared transactions do not conflict**: as long as every prepare request that is accepted
fits (with the participant's own validation, it locks nothing for a transaction that has its
decision; otherwise, the keys that the callback answers, or that are locked already, are those that
the transaction writes, no other transaction that waits for its decision writes one of them, and
nothing is locked for a transaction that has its decision), two transactions that wait for their
decision write no common key, and the keys locked are those they write.  Such requests are the only
ones that keep this so. -/
theorem prepared_disjoint {nodeId : N} (h : (system T nodeId).Reach (fun s a => s.Fitting a) s) :
    s.InStep ∧ ∀ a, (s.call a).InStep ↔ s.Fitting a := by
  have hstep : s.InStep := by
    refine h.invariant (P := InStep) ?_ fun s a s' _ hinStep hfitting hs' => ?_
    · refine ⟨fun t ht => ?_, fun t u _ ht => ?_, fun t k => ?_⟩
      · exact absurd ht.1 List.not_mem_nil
      · exact absurd ht.1 List.not_mem_nil
      · exact iff_of_false List.not_mem_nil fun hboth => absurd hboth.1.1 List.not_mem_nil
    · obtain rfl := Option.some.inj hs'
      exact (inStep_call_iff hinStep a).mpr hfitting
  exact ⟨hstep, inStep_call_iff hstep⟩

instance (s : ParticipantRun N T) (t : T) (operations : List TransactionOperation) :
    Decidable (s.Fitting (.prepare t operations (.callback none))) :=
  inferInstanceAs (Decidable
    (s.handler.accepts t operations (.callback none) = true → s.Decided t →
      writeKeys operations = []))

/-- Two transactions are prepared, one of them after a third one was committed. -/
theorem prepared_disjoint_two :
    ∃ s : ParticipantRun ℕ ℕ, (system ℕ 0).Reach (fun s a => s.Fitting a) s ∧
      s.Locks 2 "k" ∧ s.Locks 3 "m" ∧ s.InStep := by
  have hfirst : ∃ s : ParticipantRun ℕ ℕ, (system ℕ 0).Reach (fun s a => s.Fitting a) s ∧
      s.Locks 2 "k" ∧ s.Locks 3 "m" := by
    refine ⟨_, (((System.Reach.init.step (a := .prepare 1 [.write "k" [1] ""] (.callback none))
      (by decide +kernel) rfl).step (a := .commit 1) trivial rfl).step
      (a := .prepare 2 [.delete "k" "", .read "l" ""] (.callback none)) (by decide +kernel) rfl).step
      (a := .prepare 3 [.write "m" [2] ""] (.callback none)) (by decide +kernel) rfl, ?_, ?_⟩
    · decide +kernel
    · decide +kernel
  obtain ⟨s, hreach, hk, hm⟩ := hfirst
  exact ⟨s, hreach, hk, hm, (prepared_disjoint hreach).1⟩

/-- **Prepared transactions that conflict**: two transactions that write one key are prepared with a
validation function, and nothing is locked. -/
theorem prepared_not_disjoint :
    ∃ s : ParticipantRun ℕ ℕ, (system ℕ 0).Reachable s ∧ s.Undecided 1 ∧ s.Undecided 2 ∧
      s.Writes 1 "k" ∧ s.Writes 2 "k" ∧ ∀ t, ¬ s.Locks t "k" := by
  have hrun : ((system ℕ 0).run (fun _ _ => True)
      [.prepare 1 [.write "k" [1] ""] (.validator true),
        .prepare 2 [.write "k" [2] ""] (.validator true)]).any
      (fun s => decide (s.Undecided 1 ∧ s.Undecided 2 ∧ s.Writes 1 "k" ∧ s.Writes 2 "k" ∧
        s.handler.lockedKeys = ∅)) = true := by
    decide +kernel
  obtain ⟨s, -, hreach, hs⟩ := System.exists_reach_of_any hrun
  obtain ⟨h₁, h₂, hw₁, hw₂, hnone⟩ := of_decide_eq_true hs
  refine ⟨s, hreach, h₁, h₂, hw₁, hw₂, fun t => ?_⟩
  rw [Locks, hnone]
  exact List.not_mem_nil

end ParticipantRun

end Replication

end AegisDB
