import AegisDB.Replication.AtomicCommit
import AegisDB.Replication.NodeRun

/-!
# What a coordinator has decided

The calls of a coordinator in any order, and on record which acknowledgments it has received.  Each
handler writes the state of a transaction on its own: a late vote takes a decided transaction back
to `prepared` or `aborting`, `abort` takes an aborted one back to `aborting`, the last commit
acknowledgment commits an aborted one, and the first abort acknowledgment aborts any of them.

`DecisionRun.Respects` is what a step should do, and `DecisionRun.Keeps` is when it does.
-/

namespace AegisDB

theorem Table.lookup_replace {α β : Type*} [DecidableEq α] (s : Table α β) (a a' : α) (b : β) :
    (s.replace a b).lookup a' =
      if a' = a then (s.lookup a).map fun _ => b else s.lookup a' := by
  have hlist : ∀ l : List (Sigma fun _ : α => β), (l.kreplace a b).dlookup a' =
      if a' = a then (l.dlookup a).map fun _ => b else l.dlookup a' := by
    intro l
    induction l with
    | nil => split_ifs <;> rfl
    | cons e l ih =>
      obtain ⟨a₁, b₁⟩ := e
      by_cases ha : a = a₁
      · subst ha
        have hreplace : (⟨a, b₁⟩ :: l).kreplace a b = ⟨a, b⟩ :: l := by
          rw [List.kreplace, List.lookmap_cons]
          simp
        rw [hreplace, List.dlookup_cons_eq]
        split_ifs with ha'
        · rw [ha', List.dlookup_cons_eq, Option.map_some]
        · rw [List.dlookup_cons_ne _ _ ha', List.dlookup_cons_ne _ _ ha']
      · have hreplace : (⟨a₁, b₁⟩ :: l).kreplace a b = ⟨a₁, b₁⟩ :: l.kreplace a b := by
          rw [List.kreplace, List.lookmap_cons]
          simp [ha]
        have hskip : ∀ a', a' ≠ a₁ → ∀ l' : List (Sigma fun _ : α => β),
            (⟨a₁, b₁⟩ :: l').dlookup a' = l'.dlookup a' :=
          fun a' hne l' => List.dlookup_cons_ne l' ⟨a₁, b₁⟩ hne
        rw [hreplace, hskip a ha]
        by_cases ha' : a' = a₁
        · subst ha'
          rw [List.dlookup_cons_eq, List.dlookup_cons_eq, if_neg (Ne.symm ha)]
        · rw [hskip a' ha', hskip a' ha', ih]
  exact hlist s.entries

namespace Replication

variable {N T : Type*}

/-! ## Runs -/

/-- A coordinator, and the acknowledgments that it has received for its transactions. -/
structure DecisionRun (N T : Type*) where
  coordinator : TransactionCoordinator N T := {}
  commitAcks : Finset (T × N) := ∅
  abortAcks : Finset (T × N) := ∅

/-- The calls of a coordinator. -/
inductive CoordinatorCall (N T : Type*)
  | begin (t : T) (now : UInt64)
  | addParticipant (t : T) (n : N)
  | addOperation (t : T) (operation : TransactionOperation)
  | prepare (t : T)
  | prepareResponse (t : T) (participant : N) (vote : ParticipantVote)
  | commit (t : T)
  | commitAck (t : T) (participant : N)
  | abort (t : T)
  | abortAck (t : T) (participant : N)
  | checkTimeouts (now : UInt64)
  | cleanupCompleted

namespace DecisionRun

variable [DecidableEq N] [DecidableEq T]

/-- One call. -/
def call (s : DecisionRun N T) : CoordinatorCall N T → DecisionRun N T
  | .begin t now =>
    { coordinator := s.coordinator.beginTransactionWithId t now
      commitAcks := s.commitAcks.filter fun ack => ack.1 ≠ t
      abortAcks := s.abortAcks.filter fun ack => ack.1 ≠ t }
  | .addParticipant t n => { s with coordinator := s.coordinator.addParticipant t n }
  | .addOperation t operation => { s with coordinator := s.coordinator.addOperation t operation }
  | .prepare _ | .checkTimeouts _ => s
  | .prepareResponse t participant vote =>
    { s with coordinator := (s.coordinator.handlePrepareResponse t participant vote).1 }
  | .commit t => { s with coordinator := (s.coordinator.commit t).1 }
  | .commitAck t participant =>
    { s with
      coordinator := (s.coordinator.handleCommitAck t participant).1
      commitAcks := insert (t, participant) s.commitAcks }
  | .abort t => { s with coordinator := (s.coordinator.abort t).1 }
  | .abortAck t participant =>
    { s with
      coordinator := (s.coordinator.handleAbortAck t).1
      abortAcks := insert (t, participant) s.abortAcks }
  | .cleanupCompleted => { s with coordinator := s.coordinator.cleanupCompleted }

def system (N T : Type*) [DecidableEq N] [DecidableEq T] :
    System (DecisionRun N T) (CoordinatorCall N T) where
  init := {}
  step s a := some (s.call a)

omit [DecidableEq N] in
/-- What a step should do: a decided transaction keeps its state or is forgotten, and a transaction
becomes committed or aborted only when every participant has acknowledged that. -/
structure Respects (s s' : DecisionRun N T) : Prop where
  decided : ∀ t state state', s.coordinator.getState t = some state → state.isTerminal = true →
    s'.coordinator.getState t = some state' → state' = state
  committed : ∀ t txn, s'.coordinator.transactions.lookup t = some txn → txn.state = .committed →
    s.coordinator.getState t ≠ some .committed → ∀ n ∈ txn.participants, (t, n) ∈ s'.commitAcks
  aborted : ∀ t txn, s'.coordinator.transactions.lookup t = some txn → txn.state = .aborted →
    s.coordinator.getState t ≠ some .aborted → ∀ n ∈ txn.participants, (t, n) ∈ s'.abortAcks

/-- When a call does so. -/
def Keeps (s : DecisionRun N T) : CoordinatorCall N T → Prop
  | .begin t _ => ∀ txn ∈ s.coordinator.transactions.lookup t, txn.state.isTerminal = false
  | .prepareResponse t participant vote =>
    ∀ txn ∈ s.coordinator.transactions.lookup t, txn.state.isTerminal = true →
      let voted := txn.updateParticipant participant fun p => p.recordPrepare vote
      voted.anyAbort = false ∧ voted.allPrepared = false
  | .commitAck t participant =>
    ∀ txn ∈ s.coordinator.transactions.lookup t, txn.state = .aborted →
      (txn.updateParticipant participant TransactionParticipant.recordCommit).allCommitted = false
  | .abort t => ∀ txn ∈ s.coordinator.transactions.lookup t, txn.state ≠ .aborted
  | .abortAck t participant =>
    ∀ txn ∈ s.coordinator.transactions.lookup t, txn.state ≠ .committed ∧
      (txn.state = .aborted ∨
        ∀ n ∈ txn.participants.keys, n = participant ∨ (t, n) ∈ s.abortAcks)
  | _ => True

instance (s : DecisionRun N T) : DecidablePred s.Keeps
  | .begin t _ =>
    inferInstanceAs (Decidable
      (∀ txn ∈ s.coordinator.transactions.lookup t, txn.state.isTerminal = false))
  | .prepareResponse t participant vote =>
    inferInstanceAs (Decidable
      (∀ txn ∈ s.coordinator.transactions.lookup t, txn.state.isTerminal = true →
        (txn.updateParticipant participant fun p => p.recordPrepare vote).anyAbort = false ∧
          (txn.updateParticipant participant fun p => p.recordPrepare vote).allPrepared = false))
  | .commitAck t participant =>
    inferInstanceAs (Decidable
      (∀ txn ∈ s.coordinator.transactions.lookup t, txn.state = .aborted →
        (txn.updateParticipant participant
          TransactionParticipant.recordCommit).allCommitted = false))
  | .abort t =>
    inferInstanceAs (Decidable
      (∀ txn ∈ s.coordinator.transactions.lookup t, txn.state ≠ .aborted))
  | .abortAck t participant =>
    have (txn : DistributedTransaction N) : Decidable
        (∀ n ∈ txn.participants.keys, n = participant ∨ (t, n) ∈ s.abortAcks) :=
      List.decidableBAll _ _
    inferInstanceAs (Decidable
      (∀ txn ∈ s.coordinator.transactions.lookup t, txn.state ≠ .committed ∧
        (txn.state = .aborted ∨
          ∀ n ∈ txn.participants.keys, n = participant ∨ (t, n) ∈ s.abortAcks)))
  | .addParticipant _ _ | .addOperation _ _ | .prepare _ | .commit _ | .checkTimeouts _
  | .cleanupCompleted => .isTrue trivial

/-! ## Calls that write one transaction -/

omit [DecidableEq N] in
theorem lookup_put (c : TransactionCoordinator N T) (t u : T) (txn : DistributedTransaction N) :
    (c.put t txn).transactions.lookup u = if u = t then some txn else c.transactions.lookup u :=
  Table.lookup_insert _ _ _ _

variable {s s' : DecisionRun N T} {t : T} {txn txn' : DistributedTransaction N}

omit [DecidableEq N] in
/-- What a step that writes one transaction should do to it. -/
theorem respects_iff (hput : ∀ u, s'.coordinator.transactions.lookup u =
      if u = t then some txn' else s.coordinator.transactions.lookup u) :
    Respects s s' ↔
      (∀ txn ∈ s.coordinator.transactions.lookup t, txn.state.isTerminal = true →
        txn'.state = txn.state) ∧
      (txn'.state = .committed → s.coordinator.getState t ≠ some .committed →
        ∀ n ∈ txn'.participants, (t, n) ∈ s'.commitAcks) ∧
      (txn'.state = .aborted → s.coordinator.getState t ≠ some .aborted →
        ∀ n ∈ txn'.participants, (t, n) ∈ s'.abortAcks) := by
  have ht' : s'.coordinator.transactions.lookup t = some txn' := by
    rw [hput, if_pos rfl]
  have hstate' : s'.coordinator.getState t = some txn'.state := by
    rw [TransactionCoordinator.getState, ht', Option.map_some]
  have hother : ∀ u, u ≠ t → s'.coordinator.transactions.lookup u =
      s.coordinator.transactions.lookup u := by
    intro u hu
    rw [hput, if_neg hu]
  -- a transaction other than `t` is in the state it was in
  have hsame : ∀ u txn₁ state, u ≠ t → s'.coordinator.transactions.lookup u = some txn₁ →
      txn₁.state = state → s.coordinator.getState u = some state := by
    intro u txn₁ state hut hu hnew
    rw [hother u hut] at hu
    rw [TransactionCoordinator.getState, hu, Option.map_some, hnew]
  constructor
  · rintro ⟨hdecided, hcommitted, haborted⟩
    refine ⟨fun txn htxn hterminal => hdecided t _ _ ?_ hterminal hstate', hcommitted t txn' ht',
      haborted t txn' ht'⟩
    rw [TransactionCoordinator.getState, Option.mem_def.mp htxn, Option.map_some]
  · rintro ⟨hdecided, hcommitted, haborted⟩
    refine ⟨fun u state state' hu hterminal hu' => ?_, fun u txn₁ hu hnew hold => ?_,
      fun u txn₁ hu hnew hold => ?_⟩
    · by_cases hut : u = t
      · subst hut
        obtain ⟨txn, htxn, rfl⟩ := Option.map_eq_some_iff.mp hu
        obtain rfl := Option.some.inj (hstate'.symm.trans hu')
        exact hdecided txn htxn hterminal
      · rw [TransactionCoordinator.getState, hother u hut] at hu'
        exact Option.some.inj (hu'.symm.trans hu)
    · by_cases hut : u = t
      · subst hut
        obtain rfl := Option.some.inj (ht'.symm.trans hu)
        exact hcommitted hnew hold
      · exact absurd (hsame u txn₁ _ hut hu hnew) hold
    · by_cases hut : u = t
      · subst hut
        obtain rfl := Option.some.inj (ht'.symm.trans hu)
        exact haborted hnew hold
      · exact absurd (hsame u txn₁ _ hut hu hnew) hold

omit [DecidableEq N] in
theorem respects_of_states (h : ∀ u txn', s'.coordinator.transactions.lookup u = some txn' →
    s.coordinator.getState u = some txn'.state) : Respects s s' where
  decided := fun u state state' hu _ hu' => by
    obtain ⟨txn', htxn', rfl⟩ := Option.map_eq_some_iff.mp hu'
    exact Option.some.inj ((h u txn' htxn').symm.trans hu)
  committed := fun u txn' hu hnew hold => absurd (hnew ▸ h u txn' hu) hold
  aborted := fun u txn' hu hnew hold => absurd (hnew ▸ h u txn' hu) hold

/-! ## Acknowledgments -/

theorem lookup_updateParticipant (txn : DistributedTransaction N) (n m : N)
    (f : TransactionParticipant → TransactionParticipant) :
    (txn.updateParticipant n f).participants.lookup m =
      if m = n then (txn.participants.lookup n).map f else txn.participants.lookup m := by
  rw [DistributedTransaction.updateParticipant]
  cases hn : txn.participants.lookup n with
  | none =>
    split_ifs with hm
    · rw [hm, hn, Option.map_none]
    · rfl
  | some p =>
    dsimp only
    rw [Table.lookup_replace, hn]
    rfl

omit [DecidableEq T] in
theorem committed_of_allCommitted (h : txn.allCommitted = true) {n : N}
    {p : TransactionParticipant} (hn : txn.participants.lookup n = some p) :
    p.committed = true :=
  List.all_eq_true.mp h p (Table.mem_values.mpr ⟨n, hn⟩)

/-- A participant that has committed has acknowledged it. -/
def CommitAcked (s : DecisionRun N T) : Prop :=
  ∀ t txn n p, s.coordinator.transactions.lookup t = some txn →
    txn.participants.lookup n = some p → p.committed = true → (t, n) ∈ s.commitAcks

theorem CommitAcked.put (h : s.CommitAcked)
    (hput : ∀ u, s'.coordinator.transactions.lookup u =
      if u = t then some txn' else s.coordinator.transactions.lookup u)
    (hacks : ∀ u n, u ≠ t → (u, n) ∈ s.commitAcks → (u, n) ∈ s'.commitAcks)
    (hnew : ∀ n p, txn'.participants.lookup n = some p → p.committed = true →
      (t, n) ∈ s'.commitAcks) : s'.CommitAcked := by
  intro u txn₁ n p hu hn hcommitted
  rw [hput] at hu
  split_ifs at hu with hut
  · obtain rfl := Option.some.inj hu
    exact hut ▸ hnew n p hn hcommitted
  · exact hacks u n hut (h u txn₁ n p hu hn hcommitted)

theorem CommitAcked.put_of_participants (h : s.CommitAcked)
    (ht : s.coordinator.transactions.lookup t = some txn)
    (hput : ∀ u, s'.coordinator.transactions.lookup u =
      if u = t then some txn' else s.coordinator.transactions.lookup u)
    (hacks : s.commitAcks ⊆ s'.commitAcks)
    (hnew : ∀ n p', txn'.participants.lookup n = some p' → p'.committed = true →
      (∃ p, txn.participants.lookup n = some p ∧ p.committed = true) ∨ (t, n) ∈ s'.commitAcks) :
    s'.CommitAcked := by
  refine h.put hput (fun u n _ hmem => hacks hmem) fun n p' hn hcommitted => ?_
  rcases hnew n p' hn hcommitted with ⟨p, hp, hold⟩ | hack
  · exact hacks (h t txn n p ht hp hold)
  · exact hack

theorem CommitAcked.call (h : s.CommitAcked) (a : CoordinatorCall N T) :
    (s.call a).CommitAcked := by
  cases a with
  | begin t now =>
    refine h.put (t := t) (fun u => lookup_put _ _ _ _) (fun u n hut hmem => ?_) fun n p hn => ?_
    · exact Finset.mem_filter.mpr ⟨hmem, hut⟩
    · cases hn
  | addParticipant t n =>
    cases ht : s.coordinator.transactions.lookup t with
    | none =>
      rw [DecisionRun.call, TransactionCoordinator.addParticipant, ht]
      exact h
    | some txn =>
      rw [DecisionRun.call, TransactionCoordinator.addParticipant, ht]
      refine h.put_of_participants ht (fun u => lookup_put _ _ _ _) subset_rfl
        fun m p' hm hcommitted => .inl ?_
      rw [DistributedTransaction.addParticipant] at hm
      split_ifs at hm
      · exact ⟨p', hm, hcommitted⟩
      · rw [Table.lookup_insert] at hm
        split_ifs at hm
        · obtain rfl := Option.some.inj hm
          cases hcommitted
        · exact ⟨p', hm, hcommitted⟩
  | addOperation t operation =>
    cases ht : s.coordinator.transactions.lookup t with
    | none =>
      rw [DecisionRun.call, TransactionCoordinator.addOperation, ht]
      exact h
    | some txn =>
      rw [DecisionRun.call, TransactionCoordinator.addOperation, ht]
      exact h.put_of_participants ht (fun u => lookup_put _ _ _ _) subset_rfl
        fun m p' hm hcommitted => .inl ⟨p', hm, hcommitted⟩
  | prepare t => exact h
  | checkTimeouts now => exact h
  | prepareResponse t participant vote =>
    cases ht : s.coordinator.transactions.lookup t with
    | none =>
      rw [DecisionRun.call, TransactionCoordinator.handlePrepareResponse, ht]
      exact h
    | some txn =>
      have hvoted : ∀ m p', (txn.updateParticipant participant fun p =>
          p.recordPrepare vote).participants.lookup m = some p' → p'.committed = true →
            ∃ p, txn.participants.lookup m = some p ∧ p.committed = true := by
        intro m p' hm hcommitted
        rw [lookup_updateParticipant] at hm
        split_ifs at hm with heq
        · obtain ⟨p, hp, rfl⟩ := Option.map_eq_some_iff.mp hm
          exact ⟨p, heq ▸ hp, hcommitted⟩
        · exact ⟨p', hm, hcommitted⟩
      rw [DecisionRun.call, TransactionCoordinator.handlePrepareResponse, ht]
      dsimp only
      split_ifs
      · exact h.put_of_participants ht (fun u => lookup_put _ _ _ _) subset_rfl
          fun m p' hm hcommitted => .inl (hvoted m p' hm hcommitted)
      · exact h.put_of_participants ht (fun u => lookup_put _ _ _ _) subset_rfl
          fun m p' hm hcommitted => .inl (hvoted m p' hm hcommitted)
      · exact h.put_of_participants ht (fun u => lookup_put _ _ _ _) subset_rfl
          fun m p' hm hcommitted => .inl (hvoted m p' hm hcommitted)
  | commit t =>
    cases ht : s.coordinator.transactions.lookup t with
    | none =>
      rw [DecisionRun.call, TransactionCoordinator.commit, ht]
      exact h
    | some txn =>
      rw [DecisionRun.call, TransactionCoordinator.commit, ht]
      dsimp only
      split_ifs
      · exact h.put_of_participants ht (fun u => lookup_put _ _ _ _) subset_rfl
          fun m p' hm hcommitted => .inl ⟨p', hm, hcommitted⟩
      · exact h
  | commitAck t participant =>
    have hgrow : s.commitAcks ⊆ insert (t, participant) s.commitAcks := Finset.subset_insert _ _
    cases ht : s.coordinator.transactions.lookup t with
    | none =>
      rw [DecisionRun.call, TransactionCoordinator.handleCommitAck, ht]
      exact fun u txn n p hu hn hcommitted => hgrow (h u txn n p hu hn hcommitted)
    | some txn =>
      have hacked : ∀ m p', (txn.updateParticipant participant
          TransactionParticipant.recordCommit).participants.lookup m = some p' →
            p'.committed = true →
              (∃ p, txn.participants.lookup m = some p ∧ p.committed = true) ∨
                (t, m) ∈ insert (t, participant) s.commitAcks := by
        intro m p' hm hcommitted
        rw [lookup_updateParticipant] at hm
        split_ifs at hm with heq
        · exact .inr (heq ▸ Finset.mem_insert_self _ _)
        · exact .inl ⟨p', hm, hcommitted⟩
      rw [DecisionRun.call, TransactionCoordinator.handleCommitAck, ht]
      dsimp only
      split_ifs
      · exact h.put_of_participants ht (fun u => lookup_put _ _ _ _) hgrow hacked
      · exact h.put_of_participants ht (fun u => lookup_put _ _ _ _) hgrow hacked
  | abort t =>
    cases ht : s.coordinator.transactions.lookup t with
    | none =>
      rw [DecisionRun.call, TransactionCoordinator.abort, ht]
      exact h
    | some txn =>
      rw [DecisionRun.call, TransactionCoordinator.abort, ht]
      dsimp only
      split_ifs
      · exact h.put_of_participants ht (fun u => lookup_put _ _ _ _) subset_rfl
          fun m p' hm hcommitted => .inl ⟨p', hm, hcommitted⟩
      · exact h
  | abortAck t participant =>
    cases ht : s.coordinator.transactions.lookup t with
    | none =>
      rw [DecisionRun.call, TransactionCoordinator.handleAbortAck, ht]
      exact h
    | some txn =>
      rw [DecisionRun.call, TransactionCoordinator.handleAbortAck, ht]
      exact h.put_of_participants ht (fun u => lookup_put _ _ _ _) subset_rfl
        fun m p' hm hcommitted => .inl ⟨p', hm, hcommitted⟩
  | cleanupCompleted =>
    intro u txn n p hu
    rw [DecisionRun.call, TransactionCoordinator.cleanupCompleted, Table.lookup_filterValues,
      Option.filter_eq_some_iff] at hu
    exact h u txn n p hu.1

/-! ## When a call respects what is decided -/

omit [DecidableEq N] in
theorem respects_iff_of_undecided (hput : ∀ u, s'.coordinator.transactions.lookup u =
      if u = t then some txn' else s.coordinator.transactions.lookup u)
    (hstate : txn'.state.isTerminal = false) :
    Respects s s' ↔
      ∀ txn ∈ s.coordinator.transactions.lookup t, txn.state.isTerminal = false := by
  rw [respects_iff hput]
  constructor
  · rintro ⟨hdecided, -, -⟩ txn htxn
    by_contra hterminal
    rw [Bool.not_eq_false] at hterminal
    rw [hdecided txn htxn hterminal, hterminal] at hstate
    cases hstate
  · refine fun hundecided => ⟨fun txn htxn hterminal => ?_, fun hnew => ?_, fun hnew => ?_⟩
    · rw [hundecided txn htxn] at hterminal
      cases hterminal
    · rw [hnew] at hstate
      cases hstate
    · rw [hnew] at hstate
      cases hstate

omit [DecidableEq N] in
theorem respects_of_state (ht : s.coordinator.transactions.lookup t = some txn)
    (hput : ∀ u, s'.coordinator.transactions.lookup u =
      if u = t then some txn' else s.coordinator.transactions.lookup u)
    (hstate : txn'.state = txn.state) : Respects s s' := by
  refine respects_of_states fun u txn₁ hu => ?_
  rw [hput] at hu
  split_ifs at hu with hut
  · obtain rfl := Option.some.inj hu
    rw [hut, TransactionCoordinator.getState, ht, Option.map_some, hstate]
  · rw [TransactionCoordinator.getState, hu, Option.map_some]

omit [DecidableEq N] in
theorem forall_mem_some {txn : DistributedTransaction N} {p : DistributedTransaction N → Prop} :
    (∀ txn' ∈ some txn, p txn') ↔ p txn := by
  simp

omit [DecidableEq N] in
theorem respects_of_transactions
    (h : s'.coordinator.transactions = s.coordinator.transactions) : Respects s s' := by
  refine respects_of_states fun u txn' hu => ?_
  rw [h] at hu
  rw [TransactionCoordinator.getState, hu, Option.map_some]

theorem respects_prepareResponse_iff (participant : N) (vote : ParticipantVote) :
    Respects s (s.call (.prepareResponse t participant vote)) ↔
      s.Keeps (.prepareResponse t participant vote) := by
  rw [DecisionRun.call, TransactionCoordinator.handlePrepareResponse, Keeps]
  cases ht : s.coordinator.transactions.lookup t with
  | none => exact iff_of_true (respects_of_transactions rfl) fun txn htxn =>
      absurd htxn (Option.not_mem_none txn)
  | some txn =>
    rw [forall_mem_some]
    dsimp only
    split_ifs with habort hprepared
    · rw [respects_iff_of_undecided (fun u => lookup_put _ _ _ _) rfl, ht, forall_mem_some, habort]
      simp
    · rw [respects_iff_of_undecided (fun u => lookup_put _ _ _ _) rfl, ht, forall_mem_some, hprepared]
      simp
    · refine iff_of_true (respects_of_state ht (fun u => lookup_put _ _ _ _) ?_) fun _ => ?_
      · exact TransactionCoordinator.updateParticipant_state _ _ _
      · exact ⟨Bool.eq_false_iff.mpr habort, Bool.eq_false_iff.mpr hprepared⟩

theorem respects_commitAck_iff (h : s.CommitAcked) (participant : N) :
    Respects s (s.call (.commitAck t participant)) ↔ s.Keeps (.commitAck t participant) := by
  have hacked := h.call (.commitAck t participant)
  rw [DecisionRun.call, TransactionCoordinator.handleCommitAck] at hacked ⊢
  rw [Keeps]
  cases ht : s.coordinator.transactions.lookup t with
  | none => exact iff_of_true (respects_of_transactions rfl) fun txn htxn =>
      absurd htxn (Option.not_mem_none txn)
  | some txn =>
    rw [ht] at hacked
    rw [forall_mem_some]
    dsimp only at hacked ⊢
    split_ifs at hacked ⊢ with hall
    · rw [respects_iff fun u => lookup_put _ _ _ _, ht, forall_mem_some, hall]
      have hmembers : ∀ n ∈ (txn.updateParticipant participant
          TransactionParticipant.recordCommit).participants,
            (t, n) ∈ insert (t, participant) s.commitAcks := by
        intro n hn
        obtain ⟨p, hp⟩ := Option.isSome_iff_exists.mp (AList.lookup_isSome.mpr hn)
        have hput := (lookup_put s.coordinator t t
          { txn.updateParticipant participant TransactionParticipant.recordCommit with
            state := .committed }).trans (if_pos rfl)
        exact hacked t _ n p hput hp (committed_of_allCommitted hall hp)
      constructor
      · rintro ⟨hdecided, -, -⟩ hstate
        have := hdecided (by rw [hstate]; rfl)
        rw [hstate] at this
        cases this
      · refine fun hstate => ⟨fun hterminal => ?_, fun _ _ => hmembers, fun hnew => (nomatch hnew)⟩
        cases hold : txn.state with
        | committed => rfl
        | aborted => exact absurd (hstate hold) (by decide)
        | _ =>
          rw [hold] at hterminal
          cases hterminal
    · refine iff_of_true (respects_of_state ht (fun u => lookup_put _ _ _ _) ?_) fun _ => ?_
      · exact TransactionCoordinator.updateParticipant_state _ _ _
      · exact Bool.eq_false_iff.mpr hall

theorem respects_abort_iff : Respects s (s.call (.abort t)) ↔ s.Keeps (.abort t) := by
  rw [DecisionRun.call, TransactionCoordinator.abort, Keeps]
  cases ht : s.coordinator.transactions.lookup t with
  | none => exact iff_of_true (respects_of_transactions rfl) fun txn htxn =>
      absurd htxn (Option.not_mem_none txn)
  | some txn =>
    rw [forall_mem_some]
    dsimp only
    split_ifs with habort
    · rw [respects_iff_of_undecided (fun u => lookup_put _ _ _ _) rfl, ht, forall_mem_some]
      cases hstate : txn.state with
      | committed =>
        rw [hstate] at habort
        cases habort
      | _ => decide
    · refine iff_of_true (respects_of_transactions rfl) fun hstate => habort ?_
      rw [hstate]
      rfl

theorem respects_abortAck_iff (participant : N) :
    Respects s (s.call (.abortAck t participant)) ↔ s.Keeps (.abortAck t participant) := by
  rw [DecisionRun.call, TransactionCoordinator.handleAbortAck, Keeps]
  cases ht : s.coordinator.transactions.lookup t with
  | none => exact iff_of_true (respects_of_transactions rfl) fun txn htxn =>
      absurd htxn (Option.not_mem_none txn)
  | some txn =>
    have hold : s.coordinator.getState t ≠ some .aborted ↔ txn.state ≠ .aborted := by
      rw [TransactionCoordinator.getState, ht, Option.map_some, Ne, Option.some_inj]
    have hmembers : (∀ n ∈ txn.participants, (t, n) ∈ insert (t, participant) s.abortAcks) ↔
        ∀ n ∈ txn.participants.keys, n = participant ∨ (t, n) ∈ s.abortAcks := by
      simp only [AList.mem_keys, Finset.mem_insert, Prod.mk.injEq, true_and]
    rw [forall_mem_some, respects_iff fun u => lookup_put _ _ _ _, ht, forall_mem_some, hold]
    dsimp only
    rw [hmembers]
    constructor
    · rintro ⟨hdecided, -, haborted⟩
      refine ⟨fun hstate => ?_, or_iff_not_imp_left.mpr (haborted rfl)⟩
      have := hdecided (by rw [hstate]; rfl)
      rw [hstate] at this
      cases this
    · rintro ⟨hcommitted, haborted⟩
      refine ⟨fun hterminal => ?_, fun hnew => absurd hnew (by decide),
        fun _ hne => haborted.resolve_left hne⟩
      cases hstate : txn.state with
      | committed => exact absurd hstate hcommitted
      | aborted => rfl
      | _ =>
        rw [hstate] at hterminal
        cases hterminal

theorem respects_call_iff (h : s.CommitAcked) (a : CoordinatorCall N T) :
    Respects s (s.call a) ↔ s.Keeps a := by
  cases a with
  | begin t now =>
    rw [respects_iff_of_undecided (fun u => lookup_put _ _ _ _) rfl]
    rfl
  | addParticipant t n =>
    refine iff_of_true ?_ trivial
    rw [DecisionRun.call, TransactionCoordinator.addParticipant]
    cases ht : s.coordinator.transactions.lookup t with
    | none => exact respects_of_transactions rfl
    | some txn =>
      refine respects_of_state ht (fun u => lookup_put _ _ _ _) ?_
      rw [DistributedTransaction.addParticipant]
      split_ifs <;> rfl
  | addOperation t operation =>
    refine iff_of_true ?_ trivial
    rw [DecisionRun.call, TransactionCoordinator.addOperation]
    cases ht : s.coordinator.transactions.lookup t with
    | none => exact respects_of_transactions rfl
    | some txn => exact respects_of_state ht (fun u => lookup_put _ _ _ _) rfl
  | prepare t => exact iff_of_true (respects_of_transactions rfl) trivial
  | checkTimeouts now => exact iff_of_true (respects_of_transactions rfl) trivial
  | prepareResponse t participant vote => exact respects_prepareResponse_iff participant vote
  | commit t =>
    refine iff_of_true ?_ trivial
    rw [DecisionRun.call, TransactionCoordinator.commit]
    cases ht : s.coordinator.transactions.lookup t with
    | none => exact respects_of_transactions rfl
    | some txn =>
      dsimp only
      split_ifs with hcommit
      · rw [respects_iff_of_undecided (fun u => lookup_put _ _ _ _) rfl, ht]
        rintro txn₁ ⟨⟩
        cases hstate : txn.state with
        | prepared => rfl
        | _ =>
          rw [hstate] at hcommit
          cases hcommit
      · exact respects_of_transactions rfl
  | commitAck t participant => exact respects_commitAck_iff h participant
  | abort t => exact respects_abort_iff
  | abortAck t participant => exact respects_abortAck_iff participant
  | cleanupCompleted =>
    refine iff_of_true (respects_of_states fun u txn' hu => ?_) trivial
    refine getState_cleanupCompleted _ _ _ ?_
    rw [TransactionCoordinator.getState]
    exact congrArg (Option.map _) hu

/-! ## Runs -/

theorem commitAcked_of_reach {Φ : DecisionRun N T → CoordinatorCall N T → Prop}
    (h : (system N T).Reach Φ s) : s.CommitAcked := by
  refine h.invariant (P := CommitAcked) ?_ fun s a s' _ hacked _ hstep => ?_
  · intro t txn n p ht
    cases ht
  · obtain rfl := Option.some.inj hstep
    exact hacked.call a

theorem getState_call_ne_none {a : CoordinatorCall N T} (ha : a ≠ .cleanupCompleted)
    (h : s.coordinator.getState t ≠ none) : (s.call a).coordinator.getState t ≠ none := by
  have hput (c : TransactionCoordinator N T) (hc : c.getState t ≠ none) (u : T)
      (txn : DistributedTransaction N) : (c.put u txn).getState t ≠ none := by
    rw [getState_put]
    split_ifs
    · exact Option.some_ne_none _
    · exact hc
  cases a with
  | begin u now => exact hput _ h _ _
  | addParticipant u n =>
    rw [DecisionRun.call, TransactionCoordinator.addParticipant]
    cases s.coordinator.transactions.lookup u with
    | none => exact h
    | some txn => exact hput _ h _ _
  | addOperation u operation =>
    rw [DecisionRun.call, TransactionCoordinator.addOperation]
    cases s.coordinator.transactions.lookup u with
    | none => exact h
    | some txn => exact hput _ h _ _
  | prepare u => exact h
  | checkTimeouts now => exact h
  | prepareResponse u participant vote =>
    rw [DecisionRun.call, TransactionCoordinator.handlePrepareResponse]
    cases s.coordinator.transactions.lookup u with
    | none => exact h
    | some txn =>
      dsimp only
      split_ifs
      · exact hput _ h _ _
      · exact hput _ h _ _
      · exact hput _ h _ _
  | commit u =>
    rw [DecisionRun.call, TransactionCoordinator.commit]
    cases s.coordinator.transactions.lookup u with
    | none => exact h
    | some txn =>
      dsimp only
      split_ifs
      · exact hput _ h _ _
      · exact h
  | commitAck u participant =>
    rw [DecisionRun.call, TransactionCoordinator.handleCommitAck]
    cases s.coordinator.transactions.lookup u with
    | none => exact h
    | some txn =>
      dsimp only
      split_ifs
      · exact hput _ h _ _
      · exact hput _ h _ _
  | abort u =>
    rw [DecisionRun.call, TransactionCoordinator.abort]
    cases s.coordinator.transactions.lookup u with
    | none => exact h
    | some txn =>
      dsimp only
      split_ifs
      · exact hput _ h _ _
      · exact h
  | abortAck u participant =>
    rw [DecisionRun.call, TransactionCoordinator.handleAbortAck]
    cases s.coordinator.transactions.lookup u with
    | none => exact h
    | some txn => exact hput _ h _ _
  | cleanupCompleted => exact absurd rfl ha

/-- **Decisions**: as long as no vote reaches a decided transaction and leaves it with a vote to
abort or with everyone prepared, no commit acknowledgment that completes them reaches an aborted
transaction, no aborted transaction is aborted again, no abort acknowledgment reaches a committed
transaction or an undecided one before all other participants have acknowledged the abort, and no
transaction is begun under the identifier of a decided one, a decided transaction keeps its state
until it is forgotten.  And these are exactly the calls that keep what is decided, and decide
nothing that some participant has not acknowledged. -/
theorem decisions_kept :
    (∀ s : DecisionRun N T, (system N T).Reach (fun s a => s.Keeps a) s →
      ∀ s', ({ system N T with init := s } : System _ _).Reach
          (fun s a => s.Keeps a ∧ a ≠ .cleanupCompleted) s' →
        ∀ t state, s.coordinator.getState t = some state → state.isTerminal = true →
          s'.coordinator.getState t = some state) ∧
    ∀ s : DecisionRun N T, (system N T).Reachable s → ∀ a, Respects s (s.call a) ↔ s.Keeps a := by
  refine ⟨fun s hs s' hs' t state hstate hterminal => ?_,
    fun s hs a => respects_call_iff (commitAcked_of_reach hs) a⟩
  refine hs'.invariant (P := fun s' => s'.coordinator.getState t = some state) hstate ?_
  intro s₁ a s₂ hs₁ hstate₁ hkeeps hstep
  obtain rfl := Option.some.inj hstep
  have hacked := commitAcked_of_reach (hs.append (hs₁.mono fun _ _ h => h.1))
  have hrespects := (respects_call_iff hacked a).mpr hkeeps.1
  have hthere : (s₁.call a).coordinator.getState t ≠ none := by
    refine getState_call_ne_none hkeeps.2 ?_
    rw [hstate₁]
    exact Option.some_ne_none _
  obtain ⟨state', hstate'⟩ := Option.ne_none_iff_exists'.mp hthere
  rw [hstate', hrespects.decided t state state' hstate₁ hterminal hstate']

def committedScript : List (CoordinatorCall ℕ ℕ) :=
  [.begin 0 0, .addParticipant 0 1, .addParticipant 0 2, .prepareResponse 0 1 .commit,
    .prepareResponse 0 2 .commit, .commit 0, .commitAck 0 1, .commitAck 0 2]

/-- A committed transaction is not aborted. -/
theorem decisions_kept_committed :
    ∃ s : DecisionRun ℕ ℕ, (system ℕ ℕ).Reachable s ∧
      s.coordinator.getState 0 = some .committed ∧ Respects s (s.call (.abort 0)) := by
  have hrun : ((system ℕ ℕ).run (fun _ _ => True) committedScript).any
      (fun s => decide (s.coordinator.getState 0 = some .committed ∧ s.Keeps (.abort 0))) =
        true := by
    decide +kernel
  obtain ⟨s, -, hreach, hs⟩ := System.exists_reach_of_any hrun
  obtain ⟨hstate, hkeeps⟩ := of_decide_eq_true hs
  exact ⟨s, hreach, hstate, (decisions_kept.2 s hreach (.abort 0)).mpr hkeeps⟩

/-- **Decisions that are taken back**: a vote that arrives once more takes a committed transaction
back to `prepared`, and the first of two acknowledgments aborts a transaction. -/
theorem decisions_not_kept :
    (∃ s : DecisionRun ℕ ℕ, (system ℕ ℕ).Reachable s ∧
      s.coordinator.getState 0 = some .committed ∧
      (s.call (.prepareResponse 0 1 .commit)).coordinator.getState 0 = some .prepared) ∧
    ∃ s : DecisionRun ℕ ℕ, (system ℕ ℕ).Reachable s ∧
      s.coordinator.getState 0 = some .aborting ∧
      (s.call (.abortAck 0 1)).coordinator.getState 0 = some .aborted ∧
      (∃ txn ∈ (s.call (.abortAck 0 1)).coordinator.transactions.lookup 0,
        2 ∈ txn.participants) ∧
      (0, 2) ∉ (s.call (.abortAck 0 1)).abortAcks := by
  constructor
  · have hrun : ((system ℕ ℕ).run (fun _ _ => True) committedScript).any
        (fun s => decide (s.coordinator.getState 0 = some .committed ∧
          (s.call (.prepareResponse 0 1 .commit)).coordinator.getState 0 = some .prepared)) =
          true := by
      decide +kernel
    obtain ⟨s, -, hreach, hs⟩ := System.exists_reach_of_any hrun
    exact ⟨s, hreach, of_decide_eq_true hs⟩
  · have hrun : ((system ℕ ℕ).run (fun _ _ => True)
        [.begin 0 0, .addParticipant 0 1, .addParticipant 0 2, .abort 0]).any
        (fun s => decide (s.coordinator.getState 0 = some .aborting ∧
          (s.call (.abortAck 0 1)).coordinator.getState 0 = some .aborted ∧
          (∃ txn ∈ (s.call (.abortAck 0 1)).coordinator.transactions.lookup 0,
            2 ∈ txn.participants) ∧
          (0, 2) ∉ (s.call (.abortAck 0 1)).abortAcks)) = true := by
      decide +kernel
    obtain ⟨s, -, hreach, hs⟩ := System.exists_reach_of_any hrun
    exact ⟨s, hreach, of_decide_eq_true hs⟩

end DecisionRun

end Replication

end AegisDB
