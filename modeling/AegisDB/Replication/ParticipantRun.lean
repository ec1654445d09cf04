import AegisDB.Library.Stepwise
import AegisDB.Replication.AtomicCommit

/-!
# What a participant has done

A participant receives prepare, commit and abort requests in any order, each of them any number of
times.  On record are the votes to commit, the runs of the commit callback, and the commit and abort
requests it has handled.

A prepare request is accepted whatever has happened to its transaction, so that one which arrives
once more after the commit prepares the transaction again, and the next commit request commits it a
second time.  And a commit request is recorded whether or not there was anything to commit.
-/

namespace AegisDB

namespace Replication

variable {N T : Type*}

/-! ## Prepare requests -/

namespace TransactionOperation

def writeKeys (operations : List TransactionOperation) : List String :=
  (operations.filter TransactionOperation.isWrite).map TransactionOperation.key

end TransactionOperation

namespace ParticipantHandler

variable [DecidableEq T] [ToString T] (h : ParticipantHandler N T)

/-- Handle a prepare request on one of the two paths. -/
def handlePrepareBy (t : T) (operations : List TransactionOperation) :
    Validation → ParticipantHandler N T × TwoPhaseMessage N T
  | .callback answer => h.handlePrepare t operations answer
  | .validator valid => h.handlePrepareWithValidation t operations valid

def accepts (t : T) (operations : List TransactionOperation) : Validation → Bool
  | .callback answer => (answer.getD (h.basicValidation t operations [])).success
  | .validator valid => valid

/-- The keys that are locked for a transaction when the participant votes to commit: the second path
leaves them as they are. -/
def keysFor (t : T) (operations : List TransactionOperation) : Validation → List String
  | .callback answer => (answer.getD (h.basicValidation t operations [])).lockedKeys
  | .validator _ => (h.lockedKeys.lookup t).getD []

theorem handlePrepareBy_of_not_accepts {t : T} {operations : List TransactionOperation}
    {validation : Validation} (hno : h.accepts t operations validation = false) :
    (h.handlePrepareBy t operations validation).1 = h := by
  cases validation with
  | callback answer =>
    rw [accepts] at hno
    rw [handlePrepareBy, handlePrepare, hno]
    rfl
  | validator valid =>
    rw [accepts] at hno
    rw [handlePrepareBy, handlePrepareWithValidation, hno]
    rfl

theorem handlePrepareBy_of_accepts {t : T} {operations : List TransactionOperation}
    {validation : Validation} (hyes : h.accepts t operations validation = true) :
    (h.handlePrepareBy t operations validation).1.pendingPrepares =
        h.pendingPrepares.insert t operations ∧
      (h.handlePrepareBy t operations validation).1.prepared = insert t h.prepared ∧
      (h.handlePrepareBy t operations validation).1.committed = h.committed ∧
      ∀ u, ((h.handlePrepareBy t operations validation).1.lockedKeys.lookup u).getD [] =
        if u = t then h.keysFor t operations validation else (h.lockedKeys.lookup u).getD [] := by
  cases validation with
  | callback answer =>
    rw [accepts] at hyes
    rw [handlePrepareBy, handlePrepare, if_pos hyes]
    refine ⟨rfl, rfl, rfl, fun u => ?_⟩
    dsimp only
    rw [Table.lookup_insert]
    split_ifs <;> rfl
  | validator valid =>
    rw [accepts] at hyes
    rw [handlePrepareBy, handlePrepareWithValidation, if_pos hyes]
    refine ⟨rfl, rfl, rfl, fun u => ?_⟩
    split_ifs with hu
    · rw [hu]
      rfl
    · rfl

end ParticipantHandler

/-! ## Runs -/

/-- What a participant has done. -/
inductive ParticipantEvent (T : Type*)
  | voted (t : T)
  | ran (t : T)
  | committed (t : T)
  | aborted (t : T)
  deriving DecidableEq

/-- A participant, and what it has done. -/
structure ParticipantRun (N T : Type*) where
  handler : ParticipantHandler N T
  hasCallback : Bool := false
  history : List (ParticipantEvent T) := []

/-- What a participant is asked to do. -/
inductive ParticipantCall (T : Type*)
  | prepare (t : T) (operations : List TransactionOperation) (validation : Validation)
  | commit (t : T)
  | abort (t : T)
  | setCommitCallback

namespace ParticipantRun

variable [DecidableEq T] [ToString T]

/-- One call. -/
def call (s : ParticipantRun N T) : ParticipantCall T → ParticipantRun N T
  | .prepare t operations validation =>
    { s with
      handler := (s.handler.handlePrepareBy t operations validation).1
      history :=
        if s.handler.accepts t operations validation then s.history ++ [.voted t]
        else s.history }
  | .commit t =>
    { s with
      handler := (s.handler.handleCommit t).1
      history :=
        s.history ++
          ((if s.hasCallback && (s.handler.pendingPrepares.lookup t).isSome then [.ran t] else []) ++
            [.committed t]) }
  | .abort t =>
    { s with handler := (s.handler.handleAbort t).1, history := s.history ++ [.aborted t] }
  | .setCommitCallback => { s with hasCallback := true }

def system (T : Type*) [DecidableEq T] [ToString T] (nodeId : N) :
    System (ParticipantRun N T) (ParticipantCall T) where
  init := { handler := { nodeId := nodeId } }
  step s a := some (s.call a)

/-! ## One commit for each transaction -/

/-- The call is no late request: a prepare request is accepted only for a transaction that was
neither committed nor aborted, and a commit request is for a transaction that it voted to commit. -/
def Timely (s : ParticipantRun N T) : ParticipantCall T → Prop
  | .prepare t operations validation =>
    s.handler.accepts t operations validation = true →
      .committed t ∉ s.history ∧ .aborted t ∉ s.history
  | .commit t => .voted t ∈ s.history
  | _ => True

instance (s : ParticipantRun N T) : DecidablePred s.Timely
  | .prepare t operations validation =>
    inferInstanceAs (Decidable (s.handler.accepts t operations validation = true →
      .committed t ∉ s.history ∧ .aborted t ∉ s.history))
  | .commit t => inferInstanceAs (Decidable (.voted t ∈ s.history))
  | .abort _ | .setCommitCallback => .isTrue trivial

/-- The commit callback runs for a transaction that it voted to commit, that it has not aborted, and
for which the callback has not run. -/
def Allowed (before : List (ParticipantEvent T)) : ParticipantEvent T → Prop
  | .ran t => .voted t ∈ before ∧ .aborted t ∉ before ∧ .ran t ∉ before
  | _ => True

/-- The invariant of timely runs. -/
structure OnceInv (s : ParticipantRun N T) : Prop where
  allowed : Stepwise Allowed s.history
  /-- The callback has run for transactions that were committed. -/
  ran : ∀ t, .ran t ∈ s.history → .committed t ∈ s.history
  committed : ∀ t ∈ s.handler.committed, .voted t ∈ s.history
  /-- What is prepared was voted for, and neither committed nor aborted. -/
  pending : ∀ t ∈ s.handler.pendingPrepares,
    .voted t ∈ s.history ∧ .committed t ∉ s.history ∧ .aborted t ∉ s.history

variable {s : ParticipantRun N T} {t : T}

theorem OnceInv.prepare (h : s.OnceInv) {operations : List TransactionOperation}
    {validation : Validation} (htimely : s.Timely (.prepare t operations validation)) :
    (s.call (.prepare t operations validation)).OnceInv := by
  cases haccepts : s.handler.accepts t operations validation with
  | false =>
    rw [call, s.handler.handlePrepareBy_of_not_accepts haccepts, haccepts]
    exact h
  | true =>
    obtain ⟨hpending, -, hcommitted, -⟩ := s.handler.handlePrepareBy_of_accepts haccepts
    obtain ⟨hnotCommitted, hnotAborted⟩ := htimely haccepts
    rw [call, haccepts]
    refine ⟨h.allowed.concat trivial, fun u hu => ?_, fun u hu => ?_, fun u hu => ?_⟩
    · simp only [if_true, List.mem_append, List.mem_singleton, reduceCtorEq, or_false] at hu ⊢
      exact h.ran u hu
    · rw [hcommitted] at hu
      exact List.mem_append_left _ (h.committed u hu)
    · rw [hpending, AList.mem_insert] at hu
      simp only [if_true, List.mem_append, List.mem_singleton, reduceCtorEq, or_false,
        ParticipantEvent.voted.injEq]
      rcases hu with rfl | hu
      · exact ⟨.inr rfl, hnotCommitted, hnotAborted⟩
      · obtain ⟨hvoted, hother⟩ := h.pending u hu
        exact ⟨.inl hvoted, hother⟩

omit [DecidableEq T] [ToString T] in
theorem mem_commitEvents {runs : Bool} {e : ParticipantEvent T} :
    e ∈ (if runs then [.ran t] else []) ++ [.committed t] ↔
      (runs = true ∧ e = .ran t) ∨ e = .committed t := by
  cases runs <;> simp

theorem OnceInv.commit (h : s.OnceInv) (htimely : s.Timely (.commit t)) :
    (s.call (.commit t)).OnceInv := by
  have hvoted : .voted t ∈ s.history := htimely
  rw [call]
  refine ⟨?_, fun u hu => ?_, fun u hu => ?_, fun u hu => ?_⟩
  · dsimp only
    rw [← List.append_assoc]
    refine Stepwise.concat ?_ trivial
    split_ifs with hruns
    · rw [Bool.and_eq_true] at hruns
      obtain ⟨-, hnotCommitted, hnotAborted⟩ :=
        h.pending t (AList.lookup_isSome.mp hruns.2)
      exact h.allowed.concat ⟨hvoted, hnotAborted, fun hran => hnotCommitted (h.ran t hran)⟩
    · rw [List.append_nil]
      exact h.allowed
  · rcases List.mem_append.mp hu with hu | hu
    · exact List.mem_append_left _ (h.ran u hu)
    · rcases mem_commitEvents.mp hu with ⟨-, heq⟩ | heq
      · rw [ParticipantEvent.ran.inj heq]
        exact List.mem_append_right _ (mem_commitEvents.mpr (.inr rfl))
      · cases heq
  · refine List.mem_append_left _ ?_
    rcases Finset.mem_insert.mp hu with rfl | hu
    · exact hvoted
    · exact h.committed u hu
  · have hmem : u ∈ s.handler.pendingPrepares.erase t := hu
    rw [AList.mem_erase] at hmem
    obtain ⟨hvoted', hnotCommitted, hnotAborted⟩ := h.pending u hmem.2
    refine ⟨List.mem_append_left _ hvoted', fun hcommitted => ?_, fun haborted => ?_⟩
    · rcases List.mem_append.mp hcommitted with hold | hnew
      · exact hnotCommitted hold
      · rcases mem_commitEvents.mp hnew with ⟨-, heq⟩ | heq
        · cases heq
        · exact hmem.1 (ParticipantEvent.committed.inj heq)
    · rcases List.mem_append.mp haborted with hold | hnew
      · exact hnotAborted hold
      · rcases mem_commitEvents.mp hnew with ⟨-, heq⟩ | heq
        · cases heq
        · cases heq

theorem OnceInv.abort (h : s.OnceInv) : (s.call (.abort t)).OnceInv := by
  rw [call]
  refine ⟨h.allowed.concat trivial, fun u hu => ?_, fun u hu => ?_, fun u hu => ?_⟩
  · simp only [List.mem_append, List.mem_singleton, reduceCtorEq, or_false] at hu ⊢
    exact h.ran u hu
  · exact List.mem_append_left _ (h.committed u hu)
  · have hmem : u ∈ s.handler.pendingPrepares.erase t := hu
    rw [AList.mem_erase] at hmem
    obtain ⟨hvoted, hnotCommitted, hnotAborted⟩ := h.pending u hmem.2
    simp only [List.mem_append, List.mem_singleton, reduceCtorEq, or_false,
      ParticipantEvent.aborted.injEq]
    exact ⟨hvoted, hnotCommitted, not_or.mpr ⟨hnotAborted, hmem.1⟩⟩

theorem onceInv_of_reach {nodeId : N} (h : (system T nodeId).Reach (fun s a => s.Timely a) s) :
    s.OnceInv := by
  refine h.invariant (P := OnceInv) ?_ fun s a s' _ honce htimely hstep => ?_
  · refine ⟨Stepwise.nil, fun t ht => ?_, fun t ht => ?_, fun t ht => ?_⟩
    · cases ht
    · exact absurd ht (Finset.notMem_empty t)
    · exact absurd ht (AList.notMem_empty t)
  · obtain rfl := Option.some.inj hstep
    cases a with
    | prepare t operations validation => exact honce.prepare htimely
    | commit t => exact honce.commit htimely
    | abort t => exact honce.abort
    | setCommitCallback => exact ⟨honce.allowed, honce.ran, honce.committed, honce.pending⟩

/-- **One commit for each transaction**: as long as no prepare request is accepted for a transaction
for which a commit or an abort request was handled, and no commit request arrives for a transaction
that the participant has not voted to commit, the commit callback runs for a transaction only after
a vote to commit it, when it was not aborted, and not a second time; and what is recorded as
committed was prepared. -/
theorem commits_once {nodeId : N} (h : (system T nodeId).Reach (fun s a => s.Timely a) s) :
    (∀ t before after, s.history = before ++ .ran t :: after →
      .voted t ∈ before ∧ .aborted t ∉ before ∧ .ran t ∉ before) ∧
    ∀ t ∈ s.handler.committed, .voted t ∈ s.history :=
  ⟨fun t before after heq => (onceInv_of_reach h).allowed before (.ran t) after heq,
    (onceInv_of_reach h).committed⟩

/-- A transaction is prepared and committed, and the commit request arrives twice. -/
theorem commits_once_duplicate :
    ∃ s : ParticipantRun ℕ ℕ, (system ℕ 0).Reach (fun s a => s.Timely a) s ∧
      .ran 7 ∈ s.history ∧ ∀ t ∈ s.handler.committed, .voted t ∈ s.history := by
  have hrun : ((system ℕ 0).run (fun s a => s.Timely a)
      [.setCommitCallback, .prepare 7 [.write "k" [1] ""] (.callback none), .commit 7,
        .commit 7]).any (fun s => decide (.ran 7 ∈ s.history)) = true := by
    decide +kernel
  obtain ⟨s, -, hreach, hs⟩ := System.exists_reach_of_any hrun
  exact ⟨s, hreach, of_decide_eq_true hs, (commits_once hreach).2⟩

/-- **Two commits of one transaction**: a prepare request that arrives once more after the commit is
accepted, and so is the next commit request.  And a commit request for a transaction that was never
prepared is recorded. -/
theorem not_commits_once :
    (∃ s : ParticipantRun ℕ ℕ, (system ℕ 0).Reachable s ∧ s.history =
      [.voted 7, .ran 7, .committed 7, .voted 7, .ran 7, .committed 7]) ∧
    ∃ s : ParticipantRun ℕ ℕ, (system ℕ 0).Reachable s ∧
      7 ∈ s.handler.committed ∧ .voted 7 ∉ s.history := by
  constructor
  · have hrun : ((system ℕ 0).run (fun _ _ => True)
        [.setCommitCallback, .prepare 7 [.write "k" [1] ""] (.callback none), .commit 7,
          .prepare 7 [.write "k" [1] ""] (.callback none), .commit 7]).any
        (fun s => decide (s.history =
          [.voted 7, .ran 7, .committed 7, .voted 7, .ran 7, .committed 7])) = true := by
      decide +kernel
    obtain ⟨s, -, hreach, hs⟩ := System.exists_reach_of_any hrun
    exact ⟨s, hreach, of_decide_eq_true hs⟩
  · have hrun : ((system ℕ 0).run (fun _ _ => True) [.commit 7]).any
        (fun s => decide (7 ∈ s.handler.committed ∧ .voted 7 ∉ s.history)) = true := by
      decide +kernel
    obtain ⟨s, -, hreach, hs⟩ := System.exists_reach_of_any hrun
    exact ⟨s, hreach, of_decide_eq_true hs⟩

end ParticipantRun

end Replication

end AegisDB
