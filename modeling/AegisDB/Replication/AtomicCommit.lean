import AegisDB.Library.Transition
import AegisDB.Replication.Transaction

/-!
# Atomic commitment

A coordinator and its participants on a network that loses, delays, repeats and reorders messages:
what was ever sent can be delivered at any later time, any number of times, or never.  A
transaction whose fate the coordinator has made public must keep it.  The coordinator does not see
to that alone: `abort` is allowed while the transaction is committing, and a late vote takes a
transaction out of a state in which its fate is public.  `KeepsFate` leaves these steps out.
-/

namespace AegisDB

namespace Replication

/-- A coordinator, the participants, and what was ever sent. -/
structure TwoPhaseCommit (N T : Type*) where
  coordinator : TransactionCoordinator N T := {}
  participants : N → ParticipantHandler N T
  requests : List (N × TwoPhaseMessage N T) := []
  responses : List (TwoPhaseMessage N T) := []
  /-- Every abort ever executed: the transaction and the participant. -/
  aborted : List (T × N) := []

/-- How a participant validates the operations it is to prepare. -/
inductive Validation
  /-- By the validation callback, or by the basic validation if none is set. -/
  | callback (answer : Option ValidationResult)
  | validator (valid : Bool)

/-- What can happen. -/
inductive TwoPhaseAction (N T : Type*)
  | begin (t : T) (now : UInt64)
  | addParticipant (t : T) (n : N)
  | addOperation (t : T) (operation : TransactionOperation)
  | prepare (t : T)
  | commit (t : T)
  | abort (t : T)
  /-- The coordinator looks for the transactions that have timed out. -/
  | checkTimeouts (now : UInt64)
  /-- The coordinator forgets the transactions that are over. -/
  | cleanupCompleted
  | deliverRequest (position : ℕ) (validation : Validation)
  | deliverResponse (position : ℕ)

variable {N T : Type*} [DecidableEq T]

@[simp] theorem getState_put (c : TransactionCoordinator N T) (t t' : T)
    (txn : DistributedTransaction N) :
    (c.put t txn).getState t' = if t' = t then some txn.state else c.getState t' := by
  simp only [TransactionCoordinator.getState, TransactionCoordinator.put, Table.lookup_insert]
  split <;> rfl

theorem getState_cleanupCompleted (c : TransactionCoordinator N T) (t : T)
    (state : TransactionState) (h : c.cleanupCompleted.getState t = some state) :
    c.getState t = some state := by
  obtain ⟨txn, htxn, rfl⟩ := Option.map_eq_some_iff.mp h
  rw [TransactionCoordinator.cleanupCompleted, Table.lookup_filterValues,
    Option.filter_eq_some_iff] at htxn
  simp [TransactionCoordinator.getState, htxn.1]

/-- The transaction whose fate a message makes public. -/
def TwoPhaseMessage.decides : TwoPhaseMessage N T → Option T
  | .commitRequest t | .abortRequest t => some t
  | _ => none

variable [DecidableEq N]

/-- The vote would move a transaction whose fate can be public to another state. -/
def DistributedTransaction.reopenedBy (txn : DistributedTransaction N) (participant : N)
    (vote : ParticipantVote) : Bool :=
  let voted := txn.updateParticipant participant fun p => p.recordPrepare vote
  match txn.state with
  | .committing | .committed => voted.anyAbort || voted.allPrepared
  | .aborting | .aborted => !voted.anyAbort && voted.allPrepared
  | _ => false

/-- The coordinator handles a response. -/
def TransactionCoordinator.handleResponse (c : TransactionCoordinator N T) :
    TwoPhaseMessage N T → TransactionCoordinator N T
  | .prepareResponse t vote participant => (c.handlePrepareResponse t participant vote).1
  | .commitAck t participant => (c.handleCommitAck t participant).1
  | .abortAck t _ => (c.handleAbortAck t).1
  | _ => c

namespace TwoPhaseCommit

/-- Participant `n` has handled a request and answers it. -/
def answer (s : TwoPhaseCommit N T) (n : N)
    (handled : ParticipantHandler N T × TwoPhaseMessage N T) : TwoPhaseCommit N T :=
  { s with
    participants := Function.update s.participants n handled.1
    responses := s.responses ++ [handled.2] }

/-- Participant `n` handles a request. -/
def handleRequest [ToString T] (s : TwoPhaseCommit N T) (n : N) (validation : Validation) :
    TwoPhaseMessage N T → TwoPhaseCommit N T
  | .prepareRequest t operations =>
    match validation with
    | .callback result => s.answer n ((s.participants n).handlePrepare t operations result)
    | .validator valid =>
      s.answer n ((s.participants n).handlePrepareWithValidation t operations valid)
  | .commitRequest t => s.answer n ((s.participants n).handleCommit t)
  | .abortRequest t =>
    { s.answer n ((s.participants n).handleAbort t) with aborted := s.aborted ++ [(t, n)] }
  | _ => s

/-- One step. -/
def step [ToString T] (s : TwoPhaseCommit N T) : TwoPhaseAction N T → Option (TwoPhaseCommit N T)
  | .begin t now => some { s with coordinator := s.coordinator.beginTransactionWithId t now }
  | .addParticipant t n => some { s with coordinator := s.coordinator.addParticipant t n }
  | .addOperation t operation =>
    some { s with coordinator := s.coordinator.addOperation t operation }
  | .prepare t => some { s with requests := s.requests ++ (s.coordinator.prepare t).getD [] }
  | .commit t =>
    some
      { s with
        coordinator := (s.coordinator.commit t).1
        requests := s.requests ++ (s.coordinator.commit t).2.getD [] }
  | .abort t =>
    some
      { s with
        coordinator := (s.coordinator.abort t).1
        requests := s.requests ++ (s.coordinator.abort t).2.getD [] }
  | .checkTimeouts _ => some s
  | .cleanupCompleted => some { s with coordinator := s.coordinator.cleanupCompleted }
  | .deliverRequest position validation =>
    s.requests[position]?.map fun r => s.handleRequest r.1 validation r.2
  | .deliverResponse position =>
    s.responses[position]?.map fun response =>
      { s with coordinator := s.coordinator.handleResponse response }

def system (N T : Type*) [DecidableEq N] [DecidableEq T] [ToString T] :
    System (TwoPhaseCommit N T) (TwoPhaseAction N T) where
  init := { participants := fun n => { nodeId := n } }
  step := step

/-- A commit request for the transaction has been sent. -/
def CommitSent (s : TwoPhaseCommit N T) (t : T) : Prop :=
  ∃ n, (n, .commitRequest t) ∈ s.requests

/-- An abort request for the transaction has been sent. -/
def AbortSent (s : TwoPhaseCommit N T) (t : T) : Prop :=
  ∃ n, (n, .abortRequest t) ∈ s.requests

/-- The step takes no transaction out of a state in which its fate can be public: it does not
begin a transaction under an identifier whose fate is public, does not abort a transaction that is
committing, and delivers no vote that reopens a transaction. -/
def keepsFate (s : TwoPhaseCommit N T) : TwoPhaseAction N T → Bool
  | .begin t _ => s.requests.all fun r => r.2.decides ≠ some t
  | .abort t => s.coordinator.getState t ≠ some .committing
  | .deliverResponse position =>
    match s.responses[position]? with
    | some (.prepareResponse t vote participant) =>
      match s.coordinator.transactions.lookup t with
      | some txn => !txn.reopenedBy participant vote
      | none => true
    | _ => true
  | _ => true

/-- The step keeps the fate of every transaction. -/
abbrev KeepsFate (s : TwoPhaseCommit N T) (a : TwoPhaseAction N T) : Prop :=
  s.keepsFate a = true

end TwoPhaseCommit

/-! ## What the coordinator can do to a transaction -/

namespace TransactionCoordinator

/-- If the table has the transaction, it is on the way to commit. -/
def Committing (c : TransactionCoordinator N T) (t : T) : Prop :=
  ∀ state, c.getState t = some state → state = .committing ∨ state = .committed

/-- If the table has the transaction, it is on the way to abort. -/
def Aborting (c : TransactionCoordinator N T) (t : T) : Prop :=
  ∀ state, c.getState t = some state → state = .aborting ∨ state = .aborted

/-- The fates that are settled in `c` are settled the same way in `c'`. -/
structure Keeps (c c' : TransactionCoordinator N T) : Prop where
  committing : ∀ t, c.Committing t → c'.Committing t
  aborting : ∀ t, c.Aborting t → c'.Aborting t

variable {c c' : TransactionCoordinator N T} {t : T}

omit [DecidableEq N]

theorem Keeps.of_states (h : ∀ t state, c'.getState t = some state → c.getState t = some state) :
    c.Keeps c' :=
  ⟨fun t hc state hs => hc state (h t state hs), fun t hc state hs => hc state (h t state hs)⟩

/-- To put a transaction back keeps the fates if it stays on the way it is on. -/
theorem keeps_put {txn txn' : DistributedTransaction N} (h : c.transactions.lookup t = some txn)
    (hc : txn.state = .committing ∨ txn.state = .committed →
      txn'.state = .committing ∨ txn'.state = .committed)
    (ha : txn.state = .aborting ∨ txn.state = .aborted →
      txn'.state = .aborting ∨ txn'.state = .aborted) : c.Keeps (c.put t txn') := by
  have hstate : c.getState t = some txn.state := by simp [getState, h]
  constructor
  · intro t' ht state hs
    rw [getState_put] at hs
    split_ifs at hs with heq
    · subst heq
      obtain rfl := Option.some.inj hs
      exact hc (ht _ hstate)
    · exact ht state hs
  · intro t' ht state hs
    rw [getState_put] at hs
    split_ifs at hs with heq
    · subst heq
      obtain rfl := Option.some.inj hs
      exact ha (ht _ hstate)
    · exact ht state hs

/-- `commit` keeps the fates, and sends commit requests only for a transaction that it puts on the
way to commit and that was not on the way to abort. -/
theorem commit_spec (c : TransactionCoordinator N T) (t : T) :
    c.Keeps (c.commit t).1 ∧
      ∀ requests, (c.commit t).2 = some requests →
        (c.commit t).1.Committing t ∧ ¬ c.Aborting t ∧
          ∀ r ∈ requests, r.2 = .commitRequest t := by
  unfold commit
  split
  · next txn htxn =>
    split_ifs with hcan
    · have hprepared : txn.state = .prepared := by
        unfold TransactionState.canCommit at hcan
        split at hcan
        · assumption
        · cases hcan
      refine ⟨keeps_put htxn (by simp [hprepared]) (by simp [hprepared]), ?_⟩
      intro requests hr
      obtain rfl := Option.some.inj hr
      refine ⟨?_, fun ha => ?_, fun r hr => ?_⟩
      · intro state hs
        rw [getState_put, if_pos rfl] at hs
        exact .inl (Option.some.inj hs).symm
      · have := ha txn.state (by simp [getState, htxn])
        simp [hprepared] at this
      · obtain ⟨n, -, rfl⟩ := List.mem_map.mp hr
        rfl
    · exact ⟨.of_states fun _ _ h => h, fun _ h => by cases h⟩
  · exact ⟨.of_states fun _ _ h => h, fun _ h => by cases h⟩

/-- `abort` keeps the fates if the transaction is not committing, and sends abort requests only for
a transaction that it puts on the way to abort and that was not on the way to commit. -/
theorem abort_spec (c : TransactionCoordinator N T) (t : T)
    (hstate : c.getState t ≠ some .committing) :
    c.Keeps (c.abort t).1 ∧
      ∀ requests, (c.abort t).2 = some requests →
        (c.abort t).1.Aborting t ∧ ¬ c.Committing t ∧
          ∀ r ∈ requests, r.2 = .abortRequest t := by
  unfold abort
  split
  · next txn htxn =>
    have hlookup : c.getState t = some txn.state := by simp [getState, htxn]
    split_ifs with hcan
    · have hopen : ¬ (txn.state = .committing ∨ txn.state = .committed) := by
        rintro (h | h)
        · exact hstate (by rw [hlookup, h])
        · simp [h, TransactionState.canAbort] at hcan
      refine ⟨keeps_put htxn (fun h => absurd h hopen) (fun _ => .inl rfl), ?_⟩
      intro requests hr
      obtain rfl := Option.some.inj hr
      refine ⟨?_, fun hc => hopen (hc _ hlookup), fun r hr => ?_⟩
      · intro state hs
        rw [getState_put, if_pos rfl] at hs
        exact .inl (Option.some.inj hs).symm
      · obtain ⟨n, -, rfl⟩ := List.mem_map.mp hr
        rfl
    · exact ⟨.of_states fun _ _ h => h, fun _ h => by cases h⟩
  · exact ⟨.of_states fun _ _ h => h, fun _ h => by cases h⟩

theorem addOperation_keeps (operation : TransactionOperation) :
    c.Keeps (c.addOperation t operation) := by
  unfold addOperation
  split
  · next txn htxn => exact keeps_put htxn id id
  · exact .of_states fun _ _ h => h

theorem handleAbortAck_keeps (h : c.Aborting t) : c.Keeps (c.handleAbortAck t).1 := by
  unfold handleAbortAck
  split
  · next txn htxn =>
    have hstate := h txn.state (by simp [getState, htxn])
    refine keeps_put htxn (fun hs => ?_) fun _ => .inr rfl
    rcases hs with hs | hs <;> simp [hs] at hstate
  · exact .of_states fun _ _ h => h

variable [DecidableEq N]

theorem addParticipant_keeps (n : N) : c.Keeps (c.addParticipant t n) := by
  unfold addParticipant
  split
  · next txn htxn =>
    have hstate : (txn.addParticipant n).state = txn.state := by
      unfold DistributedTransaction.addParticipant
      split <;> rfl
    exact keeps_put htxn (by rw [hstate]; exact id) (by rw [hstate]; exact id)
  · exact .of_states fun _ _ h => h

@[simp] theorem updateParticipant_state (txn : DistributedTransaction N) (n : N)
    (f : TransactionParticipant → TransactionParticipant) :
    (txn.updateParticipant n f).state = txn.state := by
  unfold DistributedTransaction.updateParticipant
  split <;> rfl

theorem handleCommitAck_keeps (n : N) (h : c.Committing t) :
    c.Keeps (c.handleCommitAck t n).1 := by
  unfold handleCommitAck
  split
  · next txn htxn =>
    have hstate := h txn.state (by simp [getState, htxn])
    dsimp only
    split
    · refine keeps_put htxn (fun _ => .inr rfl) fun hs => ?_
      rcases hs with hs | hs <;> simp [hs] at hstate
    · exact keeps_put htxn (by simp) (by simp)
  · exact .of_states fun _ _ h => h

/-- A vote that does not reopen its transaction keeps the fates. -/
theorem handlePrepareResponse_keeps (participant : N) (vote : ParticipantVote)
    (h : ∀ txn, c.transactions.lookup t = some txn → txn.reopenedBy participant vote = false) :
    c.Keeps (c.handlePrepareResponse t participant vote).1 := by
  unfold handlePrepareResponse
  split
  · next txn htxn =>
    have hopen := h txn htxn
    unfold DistributedTransaction.reopenedBy at hopen
    dsimp only at hopen ⊢
    generalize hv : txn.updateParticipant participant (fun p => p.recordPrepare vote) = voted
      at hopen ⊢
    have hstate : voted.state = txn.state := by
      rw [← hv]
      exact updateParticipant_state _ _ _
    split_ifs with habort hprepared
    · refine keeps_put htxn (fun hs => ?_) fun _ => .inl rfl
      rcases hs with hs | hs <;> simp [hs, habort] at hopen
    · have hput : c.Keeps (c.put t { voted with state := .prepared }) := by
        refine keeps_put htxn (fun hs => ?_) fun hs => ?_
        · rcases hs with hs | hs <;> simp [hs, hprepared] at hopen
        · rcases hs with hs | hs <;> simp [hs, habort, hprepared] at hopen
      exact ⟨hput.committing, hput.aborting⟩
    · exact keeps_put htxn (by rw [hstate]; exact id) (by rw [hstate]; exact id)
  · exact .of_states fun _ _ h => h

end TransactionCoordinator

/-! ## The invariant -/

namespace TwoPhaseCommit

/-- The fate of a transaction that somebody may know is the one that the coordinator is carrying
out, and it is the only one that anybody knows. -/
structure FateInv (s : TwoPhaseCommit N T) : Prop where
  /-- A transaction whose commit requests are sent is on the way to commit. -/
  committing : ∀ t, s.CommitSent t → s.coordinator.Committing t
  /-- A transaction whose abort requests are sent is on the way to abort. -/
  aborting : ∀ t, s.AbortSent t → s.coordinator.Aborting t
  exclusive : ∀ t, s.CommitSent t → ¬ s.AbortSent t
  commitAck : ∀ t n, .commitAck t n ∈ s.responses → s.CommitSent t
  abortAck : ∀ t n, .abortAck t n ∈ s.responses → s.AbortSent t
  committed : ∀ t n, (s.participants n).isCommitted t = true → s.CommitSent t
  aborted : ∀ t n, (t, n) ∈ s.aborted → s.AbortSent t

variable {s : TwoPhaseCommit N T}

omit [DecidableEq N] in
theorem FateInv.coordinator (h : s.FateInv) {c : TransactionCoordinator N T}
    (hc : ∀ t, s.CommitSent t → c.Committing t) (ha : ∀ t, s.AbortSent t → c.Aborting t) :
    FateInv { s with coordinator := c } :=
  ⟨hc, ha, h.exclusive, h.commitAck, h.abortAck, h.committed, h.aborted⟩

omit [DecidableEq N] in
theorem FateInv.keeps (h : s.FateInv) {c : TransactionCoordinator N T}
    (hc : s.coordinator.Keeps c) : FateInv { s with coordinator := c } :=
  h.coordinator (fun t ht => hc.committing t (h.committing t ht))
    (fun t ht => hc.aborting t (h.aborting t ht))

omit [DecidableEq N] in
/-- A coordinator step that keeps all fates and makes at most one fate public, which it has just
settled and which was not settled the other way. -/
theorem FateInv.send (h : s.FateInv) {c : TransactionCoordinator N T}
    {requests : List (N × TwoPhaseMessage N T)} (hkeeps : s.coordinator.Keeps c)
    (hr : (∀ r ∈ requests, r.2.decides = none) ∨
      (∃ t, c.Committing t ∧ ¬ s.coordinator.Aborting t ∧ ∀ r ∈ requests, r.2 = .commitRequest t) ∨
      ∃ t, c.Aborting t ∧ ¬ s.coordinator.Committing t ∧ ∀ r ∈ requests, r.2 = .abortRequest t) :
    FateInv { s with coordinator := c, requests := s.requests ++ requests } := by
  have hcommit (t : T) (n : N) (hn : (n, .commitRequest t) ∈ s.requests ++ requests) :
      s.CommitSent t ∨ (c.Committing t ∧ ¬ s.coordinator.Aborting t ∧
        ∀ r ∈ requests, r.2 = .commitRequest t) := by
    rcases List.mem_append.mp hn with hn | hn
    · exact .inl ⟨n, hn⟩
    rcases hr with hr | ⟨t', hc, ha, hr⟩ | ⟨t', -, -, hr⟩
    · cases hr _ hn
    · obtain rfl := TwoPhaseMessage.commitRequest.inj (hr _ hn)
      exact .inr ⟨hc, ha, hr⟩
    · cases hr _ hn
  have habort (t : T) (n : N) (hn : (n, .abortRequest t) ∈ s.requests ++ requests) :
      s.AbortSent t ∨ (c.Aborting t ∧ ¬ s.coordinator.Committing t ∧
        (n, .abortRequest t) ∈ requests) := by
    rcases List.mem_append.mp hn with hn | hn
    · exact .inl ⟨n, hn⟩
    rcases hr with hr | ⟨t', -, -, hr⟩ | ⟨t', ha, hc, hr⟩
    · cases hr _ hn
    · cases hr _ hn
    · obtain rfl := TwoPhaseMessage.abortRequest.inj (hr _ hn)
      exact .inr ⟨ha, hc, hn⟩
  refine
    { committing := fun t ⟨n, hn⟩ => ?_
      aborting := fun t ⟨n, hn⟩ => ?_
      exclusive := fun t ⟨n, hn⟩ ⟨m, hm⟩ => ?_
      commitAck := fun t n hn => ?_
      abortAck := fun t n hn => ?_
      committed := fun t n hn => ?_
      aborted := fun t n hn => ?_ }
  · rcases hcommit t n hn with hold | ⟨hnew, -⟩
    · exact hkeeps.committing t (h.committing t hold)
    · exact hnew
  · rcases habort t n hn with hold | ⟨hnew, -⟩
    · exact hkeeps.aborting t (h.aborting t hold)
    · exact hnew
  · rcases hcommit t n hn with hold | ⟨-, hopen, hnew⟩
    · rcases habort t m hm with hold' | ⟨-, hopen', -⟩
      · exact h.exclusive t hold hold'
      · exact hopen' (h.committing t hold)
    · rcases habort t m hm with hold' | ⟨-, -, hmem⟩
      · exact hopen (h.aborting t hold')
      · cases hnew _ hmem
  · obtain ⟨m, hm⟩ := h.commitAck t n hn
    exact ⟨m, List.mem_append_left _ hm⟩
  · obtain ⟨m, hm⟩ := h.abortAck t n hn
    exact ⟨m, List.mem_append_left _ hm⟩
  · obtain ⟨m, hm⟩ := h.committed t n hn
    exact ⟨m, List.mem_append_left _ hm⟩
  · obtain ⟨m, hm⟩ := h.aborted t n hn
    exact ⟨m, List.mem_append_left _ hm⟩

/-- A participant that answers a request executes and acknowledges nothing that was not asked
for. -/
theorem FateInv.answer (h : s.FateInv) {n : N}
    {handled : ParticipantHandler N T × TwoPhaseMessage N T}
    (hc : ∀ t, handled.1.isCommitted t = true → s.CommitSent t)
    (hca : ∀ t m, handled.2 = .commitAck t m → s.CommitSent t)
    (haa : ∀ t m, handled.2 = .abortAck t m → s.AbortSent t) : (s.answer n handled).FateInv := by
  refine
    { committing := h.committing
      aborting := h.aborting
      exclusive := h.exclusive
      commitAck := fun t m hm => ?_
      abortAck := fun t m hm => ?_
      committed := fun t m hm => ?_
      aborted := h.aborted }
  · rcases List.mem_append.mp hm with hm | hm
    · exact h.commitAck t m hm
    · exact hca t m (List.mem_singleton.mp hm).symm
  · rcases List.mem_append.mp hm with hm | hm
    · exact h.abortAck t m hm
    · exact haa t m (List.mem_singleton.mp hm).symm
  · by_cases hmn : m = n
    · subst hmn
      simp only [TwoPhaseCommit.answer, Function.update_self] at hm
      exact hc t hm
    · simp only [TwoPhaseCommit.answer, Function.update_of_ne hmn] at hm
      exact h.committed t m hm

variable [ToString T]

theorem FateInv.handleRequest (h : s.FateInv) {n : N} {message : TwoPhaseMessage N T}
    (hsent : (n, message) ∈ s.requests) (validation : Validation) :
    (s.handleRequest n validation message).FateInv := by
  cases message with
  | prepareRequest t operations =>
    cases validation with
    | callback result =>
      unfold TwoPhaseCommit.handleRequest ParticipantHandler.handlePrepare
      dsimp only
      split
      all_goals
        refine h.answer (fun t' => h.committed t' n) ?_ ?_
        · intro _ _ heq
          cases heq
        · intro _ _ heq
          cases heq
    | validator valid =>
      unfold TwoPhaseCommit.handleRequest ParticipantHandler.handlePrepareWithValidation
      dsimp only
      split
      all_goals
        refine h.answer (fun t' => h.committed t' n) ?_ ?_
        · intro _ _ heq
          cases heq
        · intro _ _ heq
          cases heq
  | commitRequest t =>
    refine h.answer (fun t' ht' => ?_) (fun t' m heq => ?_) (fun _ _ heq => nomatch heq)
    · have hmem : t' = t ∨ t' ∈ (s.participants n).committed := by
        simpa [ParticipantHandler.handleCommit, ParticipantHandler.isCommitted] using ht'
      rcases hmem with rfl | hmem
      · exact ⟨n, hsent⟩
      · exact h.committed t' n (by simpa [ParticipantHandler.isCommitted] using hmem)
    · obtain ⟨rfl, -⟩ := TwoPhaseMessage.commitAck.inj heq
      exact ⟨n, hsent⟩
  | abortRequest t =>
    have hanswer : (s.answer n ((s.participants n).handleAbort t)).FateInv := by
      refine h.answer (fun t' => h.committed t' n) (fun _ _ heq => nomatch heq)
        (fun t' m heq => ?_)
      obtain ⟨rfl, -⟩ := TwoPhaseMessage.abortAck.inj heq
      exact ⟨n, hsent⟩
    refine { hanswer with aborted := fun t' m hm => ?_ }
    rcases List.mem_append.mp hm with hm | hm
    · exact h.aborted t' m hm
    · obtain ⟨rfl, -⟩ := Prod.mk.inj (List.mem_singleton.mp hm)
      exact ⟨n, hsent⟩
  | prepareResponse _ _ _ | commitAck _ _ | abortAck _ _ => exact h

/-- One action keeps the fates, by cases on the call. -/
theorem fateInv_step {s' : TwoPhaseCommit N T} {a : TwoPhaseAction N T} (h : s.FateInv)
    (ha : s.KeepsFate a) (hstep : (system N T).step s a = some s') : s'.FateInv := by
  cases a with
  | begin t now =>
    obtain rfl := Option.some.inj hstep
    have hfresh : ∀ r ∈ s.requests, r.2.decides ≠ some t := by
      simpa [KeepsFate, keepsFate] using ha
    refine h.coordinator (fun t' ht' state hs => ?_) (fun t' ht' state hs => ?_)
    · obtain ⟨n, hn⟩ := ht'
      rw [TransactionCoordinator.beginTransactionWithId, getState_put,
        if_neg (fun heq => hfresh _ hn (by rw [heq]; rfl))] at hs
      exact h.committing t' ⟨n, hn⟩ state hs
    · obtain ⟨n, hn⟩ := ht'
      rw [TransactionCoordinator.beginTransactionWithId, getState_put,
        if_neg (fun heq => hfresh _ hn (by rw [heq]; rfl))] at hs
      exact h.aborting t' ⟨n, hn⟩ state hs
  | addParticipant t n =>
    obtain rfl := Option.some.inj hstep
    exact h.keeps (TransactionCoordinator.addParticipant_keeps n)
  | addOperation t operation =>
    obtain rfl := Option.some.inj hstep
    exact h.keeps (TransactionCoordinator.addOperation_keeps operation)
  | prepare t =>
    obtain rfl := Option.some.inj hstep
    refine h.send (.of_states fun _ _ h => h) (.inl fun r hr => ?_)
    unfold TransactionCoordinator.prepare at hr
    split at hr
    · split at hr
      · obtain ⟨n, -, rfl⟩ := List.mem_map.mp hr
        rfl
      · cases hr
    · cases hr
  | commit t =>
    obtain rfl := Option.some.inj hstep
    obtain ⟨hkeeps, hrequests⟩ := s.coordinator.commit_spec t
    refine h.send hkeeps ?_
    cases hr : (s.coordinator.commit t).2 with
    | none => exact .inl fun r hmem => nomatch hmem
    | some requests => exact .inr (.inl ⟨t, hrequests requests hr⟩)
  | abort t =>
    obtain rfl := Option.some.inj hstep
    have hstate : s.coordinator.getState t ≠ some .committing := by
      simpa [KeepsFate, keepsFate] using ha
    obtain ⟨hkeeps, hrequests⟩ := s.coordinator.abort_spec t hstate
    refine h.send hkeeps ?_
    cases hr : (s.coordinator.abort t).2 with
    | none => exact .inl fun r hmem => nomatch hmem
    | some requests => exact .inr (.inr ⟨t, hrequests requests hr⟩)
  | checkTimeouts now =>
    obtain rfl := Option.some.inj hstep
    exact h
  | cleanupCompleted =>
    obtain rfl := Option.some.inj hstep
    exact h.keeps (.of_states (getState_cleanupCompleted s.coordinator))
  | deliverRequest position validation =>
    obtain ⟨r, hr, rfl⟩ := Option.map_eq_some_iff.mp hstep
    exact h.handleRequest (List.mem_of_getElem? hr) validation
  | deliverResponse position =>
    obtain ⟨response, hr, rfl⟩ := Option.map_eq_some_iff.mp hstep
    have hsent := List.mem_of_getElem? hr
    cases response with
    | prepareResponse t vote participant =>
      refine h.keeps (TransactionCoordinator.handlePrepareResponse_keeps _ _ fun txn htxn => ?_)
      simpa [KeepsFate, keepsFate, hr, htxn] using ha
    | commitAck t n =>
      exact h.keeps (TransactionCoordinator.handleCommitAck_keeps n
        (h.committing t (h.commitAck t n hsent)))
    | abortAck t n =>
      exact h.keeps (TransactionCoordinator.handleAbortAck_keeps
        (h.aborting t (h.abortAck t n hsent)))
    | prepareRequest _ _ | commitRequest _ | abortRequest _ => exact h

theorem fateInv {s : TwoPhaseCommit N T} (hs : (system N T).Reach KeepsFate s) : s.FateInv := by
  refine System.Reach.invariant (P := FateInv) ?_
    (fun s a s' _ h ha hstep => fateInv_step h ha hstep) hs
  refine
    { committing := fun t ⟨n, hn⟩ => ?_
      aborting := fun t ⟨n, hn⟩ => ?_
      exclusive := fun t ⟨n, hn⟩ => ?_
      commitAck := fun t n hn => ?_
      abortAck := fun t n hn => ?_
      committed := fun t n hn => ?_
      aborted := fun t n hn => ?_ }
  all_goals cases hn

/-- Atomic commitment: in a run that keeps the fates, no participant commits a transaction that a
participant aborts, and no transaction has both commit requests and abort requests. -/
theorem atomic_commitment {s : TwoPhaseCommit N T} (hs : (system N T).Reach KeepsFate s) :
    (∀ t p q, (s.participants p).isCommitted t = true → (t, q) ∉ s.aborted) ∧
      ∀ t, ¬ (s.CommitSent t ∧ s.AbortSent t) := by
  have h := fateInv hs
  refine ⟨fun t p q hp hq => ?_, fun t ht => h.exclusive t ht.1 ht.2⟩
  exact h.exclusive t (h.committed t p hp) (h.aborted t q hq)

/-- Transaction `0` is prepared at the participants `1` and `2`. -/
def preparedSchedule : List (TwoPhaseAction ℕ ℕ) :=
  [.begin 0 0, .addParticipant 0 1, .addParticipant 0 2, .prepare 0,
    .deliverRequest 0 (.callback none), .deliverRequest 1 (.callback none), .deliverResponse 0,
    .deliverResponse 1]

theorem atomic_commitment_committed :
    ∃ s, (system ℕ ℕ).Reach KeepsFate s ∧ (s.participants 1).isCommitted 0 = true ∧
      (s.participants 2).isCommitted 0 = true ∧ ∀ q, (0, q) ∉ s.aborted := by
  have hrun : ((system ℕ ℕ).run KeepsFate (preparedSchedule ++
      [.commit 0, .deliverRequest 2 (.callback none), .deliverRequest 3 (.callback none),
        .deliverResponse 2, .deliverResponse 3, .abort 0])).map
      (fun s => ((s.participants 1).isCommitted 0, (s.participants 2).isCommitted 0)) =
      some (true, true) := by decide +kernel
  obtain ⟨s, hs, heq⟩ := Option.map_eq_some_iff.mp hrun
  obtain ⟨h1, h2⟩ := Prod.mk.inj heq
  have hreach := System.reach_of_run hs
  exact ⟨s, hreach, h1, h2, fun q => (atomic_commitment hreach).1 0 1 q h1⟩

/-- `abort` while a transaction is committing makes one participant commit what the other one
aborts. -/
theorem not_atomic_commitment :
    ¬ ∀ s, (system ℕ ℕ).Reachable s →
      (∀ t p q, (s.participants p).isCommitted t = true → (t, q) ∉ s.aborted) ∧
        ∀ t, ¬ (s.CommitSent t ∧ s.AbortSent t) := by
  intro hall
  have hrun : ((system ℕ ℕ).run (fun _ _ => True) (preparedSchedule ++
      [.commit 0, .abort 0, .deliverRequest 3 (.callback none),
        .deliverRequest 4 (.callback none)])).map
      (fun s => ((s.participants 1).isCommitted 0, s.aborted)) = some (true, [(0, 2)]) := by
    decide +kernel
  obtain ⟨s, hs, heq⟩ := Option.map_eq_some_iff.mp hrun
  obtain ⟨h1, h2⟩ := Prod.mk.inj heq
  exact (hall s (System.reach_of_run hs)).1 0 1 2 h1 (by simp [h2])

end TwoPhaseCommit

end Replication

end AegisDB
