import AegisDB.Replication.Position
import AegisDB.Replication.SnapshotTransfer

/-!
# One node and whatever it is sent

A single Raft node receives messages that may say anything, proposes commands, applies entries and
takes snapshots, in any order.  Every step of such a `NodeRun` moves the node's `Position`, as long
as the messages are orderly.

The commit index is kept twice.  The log takes a new one only when it is larger; the state takes
whatever the request leads to, so that a request which ends early takes the state's index back.  The
last applied index is that of the last snapshot, however old.
-/

namespace AegisDB

/-! ## Runs that go on -/

theorem System.Reach.append {S A : Type*} {M : System S A} {Φ : S → A → Prop} {s s' : S}
    (h : M.Reach Φ s) (h' : ({ M with init := s } : System S A).Reach Φ s') : M.Reach Φ s' := by
  induction h' with
  | init => exact h
  | step _ hΦ hs ih => exact ih.step hΦ hs

namespace Replication

variable {N S C Snap : Type*}

/-! ## The handlers -/

namespace RaftNode

/-- Where a node stands, with what was installed and handed over. -/
def position (x : RaftNode N S) (installed : ℕ) (handed : List ℕ) : Position where
  log := x.log
  commitIndex := x.state.commitIndex
  lastApplied := x.state.lastApplied
  installed := installed
  handed := handed

/-- The snapshot that is restored from what has been put together. -/
def restored (B : StateMachineBackend S C Snap) (metadata : SnapshotMetadata) (data : Bytes)
    (checksum : Option UInt32) : Option SnapshotMetadata :=
  if checksum.any fun expected => B.crc32 data ≠ expected then none
  else (B.snapshotFromBytes data).map fun _ => metadata

/-- The snapshot that a node installs when it receives a chunk. -/
def installs (B : StateMachineBackend S C Snap) (x : RaftNode N S)
    (request : InstallSnapshotRequest N) : Option SnapshotMetadata :=
  (x.assembled request).bind fun p => restored B p.1 p.2 request.checksum

/-- The index of the last snapshot installed, after a message. -/
def installedAfter (B : StateMachineBackend S C Snap) (x : RaftNode N S) (installed : ℕ) :
    MessagePayload N → ℕ
  | .installSnapshot request =>
    ((x.installs B request).map SnapshotMetadata.lastIncludedIndex).getD installed
  | _ => installed

/-- An append request that the node accepts satisfies `R`. -/
def Admits (x : RaftNode N S) (R : AppendEntriesRequest N → Prop) : MessagePayload N → Prop
  | .appendEntries request =>
    x.state.currentTerm ≤ request.term → (x.refusal request).isNone = true → R request
  | _ => True

/-- A snapshot that the node installs is not older than what it has applied. -/
def Recent (B : StateMachineBackend S C Snap) (x : RaftNode N S) : MessagePayload N → Prop
  | .installSnapshot request =>
    ∀ metadata ∈ x.installs B request, x.state.lastApplied ≤ metadata.lastIncludedIndex
  | _ => True

instance (x : RaftNode N S) (R : AppendEntriesRequest N → Prop) [DecidablePred R] :
    DecidablePred (x.Admits R)
  | .appendEntries request =>
    inferInstanceAs (Decidable
      (x.state.currentTerm ≤ request.term → (x.refusal request).isNone = true → R request))
  | .voteRequest _ | .voteResponse _ | .appendEntriesResponse _ _ | .installSnapshot _
  | .installSnapshotResponse _ _ => .isTrue trivial

instance (B : StateMachineBackend S C Snap) (x : RaftNode N S) : DecidablePred (x.Recent B)
  | .installSnapshot request =>
    inferInstanceAs (Decidable
      (∀ metadata ∈ x.installs B request, x.state.lastApplied ≤ metadata.lastIncludedIndex))
  | .voteRequest _ | .voteResponse _ | .appendEntries _ | .appendEntriesResponse _ _
  | .installSnapshotResponse _ _ => .isTrue trivial

variable {B : StateMachineBackend S C Snap} {R : AppendEntriesRequest N → Prop}
  {x y : RaftNode N S} {installed : ℕ} {handed : List ℕ}

theorem moves_of_eq (hlog : y.log = x.log) (hcommit : y.state.commitIndex = x.state.commitIndex)
    (happlied : y.state.lastApplied = x.state.lastApplied) :
    (x.position installed handed).Moves R (y.position installed handed) := by
  have heq : y.position installed handed = x.position installed handed := by
    rw [position, position, hlog, hcommit, happlied]
  rw [heq]
  exact .stay

theorem moves_congr {z : RaftNode N S} {q : Position} (hlog : z.log = x.log)
    (hcommit : z.state.commitIndex = x.state.commitIndex)
    (happlied : z.state.lastApplied = x.state.lastApplied)
    (hmoves : (z.position installed handed).Moves R q) :
    (x.position installed handed).Moves R q := by
  rw [position, hlog, hcommit, happlied] at hmoves
  exact hmoves

theorem followLeader_refusal (x : RaftNode N S) (term : ℕ) (leader : N)
    (request : AppendEntriesRequest N) :
    ((x.followLeader term leader).refusal request).isNone = (x.refusal request).isNone := by
  rw [refusal, refusal]
  split_ifs
  · rfl
  · have hlog : (x.followLeader term leader).log = x.log := rfl
    rw [hlog]
    cases x.log.termAt request.prevLogIndex with
    | none => rfl
    | some t =>
      dsimp only
      split_ifs <;> rfl

theorem prevLogIndex_of_refusal {request : AppendEntriesRequest N}
    (h : (x.refusal request).isNone = true) :
    request.prevLogIndex = 0 ∨ ∃ term, x.log.termAt request.prevLogIndex = some term := by
  rw [refusal] at h
  split_ifs at h with hzero
  · exact .inl hzero
  · cases hterm : x.log.termAt request.prevLogIndex with
    | none =>
      rw [hterm] at h
      cases h
    | some term => exact .inr ⟨term, rfl⟩

theorem acceptEntries_position (x : RaftNode N S) (request : AppendEntriesRequest N) :
    (x.acceptEntries request).position installed handed =
      (x.position installed handed).accept request := by
  rw [acceptEntries, followCommit, Position.accept]
  by_cases hlt : x.state.commitIndex < request.leaderCommit
  · rw [if_pos hlt]
    exact (if_pos (c := (x.position installed handed).commitIndex < request.leaderCommit) hlt).symm
  · rw [if_neg hlt]
    exact (if_neg (c := (x.position installed handed).commitIndex < request.leaderCommit) hlt).symm

theorem handleAppendEntries_moves {request : AppendEntriesRequest N}
    (hadmits : x.Admits R (.appendEntries request)) :
    (x.position installed handed).Moves R
      ((x.handleAppendEntries request).1.position installed handed) := by
  have hfollow : ∀ y : RaftNode N S, y = x.followLeader request.term request.leaderId →
      y.log = x.log ∧ y.state.commitIndex = x.state.commitIndex ∧
        y.state.lastApplied = x.state.lastApplied := by
    rintro y rfl
    rw [followLeader]
    split_ifs
    · exact ⟨rfl, rfl, rfl⟩
    · exact ⟨rfl, rfl, rfl⟩
  have hrefusal := x.followLeader_refusal request.term request.leaderId request
  rw [handleAppendEntries]
  split_ifs with hterm
  · exact .stay
  · dsimp only
    generalize x.followLeader request.term request.leaderId = y at hfollow hrefusal
    obtain ⟨hlog, hcommit, happlied⟩ := hfollow y rfl
    cases hresponse : y.refusal request with
    | some response => exact moves_of_eq hlog hcommit happlied
    | none =>
      rw [hresponse] at hrefusal
      have hnone : (x.refusal request).isNone = true := hrefusal.symm
      refine moves_congr hlog hcommit happlied ?_
      dsimp only
      rw [acceptEntries_position]
      refine .accept request ?_ (hadmits (not_lt.mp hterm) hnone)
      rw [position, hlog]
      exact prevLogIndex_of_refusal hnone

theorem tryAdvanceCommitIndex_moves (x : RaftNode N S) :
    (x.position installed handed).Moves R (x.tryAdvanceCommitIndex.position installed handed) := by
  rw [tryAdvanceCommitIndex]
  split_ifs with h
  · exact .commit _ _ h.1 h.2
  · exact .stay

/-- What has been put together is installed when it can be restored. -/
theorem installSnapshot_moves {metadata : SnapshotMetadata} {data : Bytes}
    {checksum : Option UInt32}
    (hle : ∀ m ∈ restored B metadata data checksum, x.state.lastApplied ≤ m.lastIncludedIndex) :
    (x.position installed handed).Moves R
      ((x.installSnapshot B metadata data checksum).position
        (((restored B metadata data checksum).map SnapshotMetadata.lastIncludedIndex).getD
          installed) handed) := by
  rw [restored] at hle ⊢
  rw [installSnapshot]
  dsimp only
  by_cases hchecksum : (checksum.any fun expected => B.crc32 data ≠ expected) = true
  · rw [if_pos hchecksum, if_pos hchecksum]
    exact .stay
  · rw [if_neg hchecksum] at hle
    rw [if_neg hchecksum, if_neg hchecksum]
    cases hsnap : B.snapshotFromBytes data with
    | none => exact .stay
    | some snapshot =>
      rw [hsnap] at hle
      exact .install _ _ (hle metadata rfl)

theorem handleInstallSnapshot_moves {request : InstallSnapshotRequest N}
    (hrecent : x.Recent B (.installSnapshot request)) :
    (x.position installed handed).Moves R
      ((x.handleInstallSnapshot B request).1.position
        (x.installedAfter B installed (.installSnapshot request)) handed) := by
  have hfollow : ∀ y : RaftNode N S, y = x.followSnapshot request.term request.leaderId →
      y.log = x.log ∧ y.state.commitIndex = x.state.commitIndex ∧
        y.state.lastApplied = x.state.lastApplied ∧ y.pendingFor request = x.pendingFor request := by
    rintro y rfl
    rw [followSnapshot]
    split_ifs
    · exact ⟨rfl, rfl, rfl, rfl⟩
    · exact ⟨rfl, rfl, rfl, rfl⟩
  rw [Recent, installs, assembled] at hrecent
  rw [handleInstallSnapshot, installedAfter, installs, assembled]
  split_ifs with hterm
  · cases hpending : x.pendingFor request with
    | none => exact .stay
    | some snapshot =>
      rw [Option.bind_some, if_neg fun h => hterm.not_ge h.1]
      exact .stay
  · dsimp only
    generalize x.followSnapshot request.term request.leaderId = y at hfollow
    obtain ⟨hlog, hcommit, happlied, hpending⟩ := hfollow y rfl
    rw [receiveChunk, hpending]
    cases hpending' : x.pendingFor request with
    | none => exact moves_of_eq hlog hcommit happlied
    | some snapshot =>
      rw [hpending', Option.bind_some] at hrecent
      rw [Option.bind_some]
      dsimp only
      by_cases hoffset : request.offset = snapshot.offset
      · by_cases hdone : request.done = true
        · rw [if_pos ⟨not_lt.mp hterm, hoffset, hdone⟩, Option.bind_some] at hrecent
          rw [if_neg (not_not.mpr hoffset), if_pos hdone,
            if_pos ⟨not_lt.mp hterm, hoffset, hdone⟩, Option.bind_some]
          refine moves_congr hlog hcommit happlied (installSnapshot_moves ?_)
          rw [happlied]
          exact hrecent
        · rw [if_neg (not_not.mpr hoffset), if_neg hdone, if_neg fun h => hdone h.2.2]
          exact moves_of_eq hlog hcommit happlied
      · rw [if_pos hoffset, if_neg fun h => hoffset h.2.1]
        exact moves_of_eq hlog hcommit happlied

theorem applyNext_moves (B : StateMachineBackend S C Snap) (x : RaftNode N S) :
    (x.position installed handed).Moves R
      ((x.applyNext B).1.position installed
        (handed ++ (x.log.nextToApply.map LogEntry.index).toList)) := by
  rw [applyNext]
  cases hnext : x.log.nextToApply with
  | none =>
    rw [Option.map_none, Option.toList_none, List.append_nil]
    exact .stay
  | some entry =>
    cases hcommand : B.commandFromBytes entry.data with
    | none => exact .apply entry hnext
    | some command => exact .apply entry hnext

theorem takeSnapshot_moves (B : StateMachineBackend S C Snap) (x : RaftNode N S) :
    (x.position installed handed).Moves R ((x.takeSnapshot B).1.position installed handed) := by
  rw [takeSnapshot]
  dsimp only
  split_ifs
  · exact .stay
  · cases x.log.termAt x.state.lastApplied with
    | none => exact .stay
    | some term => exact .snapshot term

theorem propose_moves (B : StateMachineBackend S C Snap) (x : RaftNode N S) (command : C) :
    (x.position installed handed).Moves R
      ((x.propose B command).1.position installed handed) := by
  rw [propose]
  split_ifs
  · exact .append (.command (x.log.lastIndex + 1) _ _) rfl
  · exact .stay

variable [DecidableEq N]

theorem handleVoteRequest_moves (x : RaftNode N S) (request : VoteRequest N) :
    (x.position installed handed).Moves R
      ((x.handleVoteRequest request).1.position installed handed) := by
  have hnotice : (x.noticeTerm request.term).log = x.log ∧
      (x.noticeTerm request.term).state.commitIndex = x.state.commitIndex ∧
      (x.noticeTerm request.term).state.lastApplied = x.state.lastApplied := by
    rw [noticeTerm]
    split_ifs
    · exact ⟨rfl, rfl, rfl⟩
    · exact ⟨rfl, rfl, rfl⟩
  obtain ⟨hlog, hcommit, happlied⟩ := hnotice
  rw [handleVoteRequest]
  dsimp only
  split_ifs
  · exact moves_of_eq hlog hcommit happlied
  · exact moves_of_eq hlog hcommit happlied

theorem handleVoteResponse_moves (x : RaftNode N S) (response : VoteResponse N) :
    (x.position installed handed).Moves R
      ((x.handleVoteResponse response).1.position installed handed) := by
  have hcount : (x.countVote response).log = x.log ∧
      (x.countVote response).state.commitIndex = x.state.commitIndex ∧
      (x.countVote response).state.lastApplied = x.state.lastApplied := by
    rw [countVote]
    split_ifs
    · exact ⟨rfl, rfl, rfl⟩
    · exact ⟨rfl, rfl, rfl⟩
  obtain ⟨hlog, hcommit, happlied⟩ := hcount
  rw [handleVoteResponse]
  dsimp only
  split_ifs
  · exact moves_of_eq rfl rfl rfl
  · exact .stay
  · exact moves_congr hlog hcommit happlied (.append _ rfl)
  · exact moves_of_eq hlog hcommit happlied

theorem handleAppendEntriesResponse_moves (x : RaftNode N S) (peerId : N)
    (response : AppendEntriesResponse) :
    (x.position installed handed).Moves R
      ((x.handleAppendEntriesResponse peerId response).position installed handed) := by
  rw [handleAppendEntriesResponse]
  split_ifs
  · exact moves_of_eq rfl rfl rfl
  · exact moves_congr rfl rfl rfl (tryAdvanceCommitIndex_moves (x.recordMatch peerId _))
  · rw [retryFrom]
    cases response.conflictIndex with
    | none => exact moves_of_eq rfl rfl rfl
    | some index => exact moves_of_eq rfl rfl rfl
  · exact .stay

theorem handleInstallSnapshotResponse_moves (x : RaftNode N S) (peerId : N)
    (response : InstallSnapshotResponse) (wasLastChunk : Bool) :
    (x.position installed handed).Moves R
      ((x.handleInstallSnapshotResponse peerId response wasLastChunk).position
        installed handed) := by
  rw [handleInstallSnapshotResponse]
  split_ifs
  · exact moves_of_eq rfl rfl rfl
  · cases x.snapshotMetadata with
    | none => exact .stay
    | some metadata => exact moves_of_eq rfl rfl rfl
  · exact .stay
  · exact .stay

theorem processMessage_moves {payload : MessagePayload N} (hadmits : x.Admits R payload)
    (hrecent : x.Recent B payload) (n source : N) :
    (x.position installed handed).Moves R
      ((x.processMessage B n source payload).node.position
        (x.installedAfter B installed payload) handed) := by
  cases payload with
  | voteRequest request => exact handleVoteRequest_moves x request
  | voteResponse response => exact handleVoteResponse_moves x response
  | appendEntries request => exact handleAppendEntries_moves hadmits
  | appendEntriesResponse response lastTerm =>
    exact handleAppendEntriesResponse_moves x source response
  | installSnapshot request => exact handleInstallSnapshot_moves hrecent
  | installSnapshotResponse response wasLastChunk =>
    exact handleInstallSnapshotResponse_moves x source response wasLastChunk

/-- Remove a peer from the cluster. -/
def removePeer (x : RaftNode N S) (peerId : N) : RaftNode N S :=
  { x with
    peers := x.peers.erase peerId
    nextIndex := x.nextIndex.erase peerId
    matchIndex := x.matchIndex.erase peerId }

end RaftNode

/-! ## Runs -/

/-- A node, and what has been handed to its state machine. -/
structure NodeRun (N S C : Type*) where
  node : RaftNode N S
  /-- The index of the last snapshot that was installed. -/
  installed : ℕ := 0
  /-- The indices of the entries that the loop of `apply_committed` has taken. -/
  handed : List ℕ := []
  /-- The commands that the state machine was given, with their indices. -/
  applied : List (ℕ × C) := []

/-- What can happen to a node. -/
inductive NodeAction (N C : Type*)
  | receive (source : N) (payload : MessagePayload N)
  | electionTimeout
  | checkLease
  | addPeer (peer : N)
  | removePeer (peer : N)
  | propose (command : C)
  | applyNext
  | takeSnapshot

namespace NodeRun

variable [DecidableEq N]

def position (s : NodeRun N S C) : Position := s.node.position s.installed s.handed

/-- One step. -/
def step (B : StateMachineBackend S C Snap) (s : NodeRun N S C) :
    NodeAction N C → Option (NodeRun N S C)
  | .receive source payload =>
    some
      { s with
        node := (s.node.processMessage B s.node.id source payload).node
        installed := s.node.installedAfter B s.installed payload }
  | .electionTimeout => some { s with node := s.node.startElection.1 }
  | .checkLease => some { s with node := s.node.checkLease }
  | .addPeer peer => some { s with node := s.node.addPeer peer }
  | .removePeer peer => some { s with node := s.node.removePeer peer }
  | .propose command => some { s with node := (s.node.propose B command).1 }
  | .applyNext =>
    if s.node.log.hasEntriesToApply then
      some
        { s with
          node := (s.node.applyNext B).1
          handed := s.handed ++ (s.node.log.nextToApply.map LogEntry.index).toList
          applied := s.applied ++ (s.node.applyNext B).2.map fun r => (r.1, r.2.1) }
    else none
  | .takeSnapshot => some { s with node := (s.node.takeSnapshot B).1 }

def system (B : StateMachineBackend S C Snap) (id : N) (config : RaftConfig) :
    System (NodeRun N S C) (NodeAction N C) where
  init := { node := RaftNode.withStateMachine id config B.new }
  step := step B

/-- The append requests that are accepted satisfy `R`, and no snapshot that is installed is older
than what has been applied. -/
def Admits (B : StateMachineBackend S C Snap) (R : Position → AppendEntriesRequest N → Prop)
    (s : NodeRun N S C) : NodeAction N C → Prop
  | .receive _ payload => s.node.Admits (R s.position) payload ∧ s.node.Recent B payload
  | _ => True

instance (B : StateMachineBackend S C Snap) (R : Position → AppendEntriesRequest N → Prop)
    [∀ p, DecidablePred (R p)] (s : NodeRun N S C) : DecidablePred (s.Admits B R)
  | .receive _ payload =>
    inferInstanceAs (Decidable (s.node.Admits (R s.position) payload ∧ s.node.Recent B payload))
  | .electionTimeout | .checkLease | .addPeer _ | .removePeer _ | .propose _ | .applyNext
  | .takeSnapshot => .isTrue trivial

def Orderly (B : StateMachineBackend S C Snap) (s : NodeRun N S C) (a : NodeAction N C) : Prop :=
  s.Admits B (fun p request => request.Orderly p.log) a

/-- The indices and the term are so far below the end of the 64-bit numbers that no step goes past
it, and an index that a message brings is not the last of these numbers. -/
def Fits (B : StateMachineBackend S C Snap) (s : NodeRun N S C) (a : NodeAction N C) : Prop :=
  s.node.state.currentTerm + 1 < 2 ^ 64 ∧ s.node.log.lastIndex + 2 < 2 ^ 64 ∧
    match a with
    | .receive _ (.installSnapshot request) =>
      ∀ metadata ∈ s.node.installs B request, metadata.lastIncludedIndex + 1 < 2 ^ 64
    | _ => True

/-- An append request is orderly, does not take the commit index back, and brings no index that is
the last of the 64-bit numbers. -/
def Fitting (p : Position) (request : AppendEntriesRequest N) : Prop :=
  (request.Orderly p.log ∧ p.Reaches request) ∧ request.lastNewIndex + 1 < 2 ^ 64

/-- The messages that arrive are orderly and do not take the commit index back, and no index
overflows. -/
def Steady (B : StateMachineBackend S C Snap) (s : NodeRun N S C) (a : NodeAction N C) : Prop :=
  s.Admits B Fitting a ∧ s.Fits B a

instance (B : StateMachineBackend S C Snap) (s : NodeRun N S C) (a : NodeAction N C) :
    Decidable (Orderly B s a) :=
  inferInstanceAs (Decidable (s.Admits B (fun p request => request.Orderly p.log) a))

instance (p : Position) (request : AppendEntriesRequest N) : Decidable (Fitting p request) :=
  inferInstanceAs (Decidable ((request.Orderly p.log ∧
    (p.commitIndex < request.leaderCommit → p.commitIndex ≤ request.lastNewIndex)) ∧ _))

instance (B : StateMachineBackend S C Snap) (s : NodeRun N S C) :
    (a : NodeAction N C) → Decidable (Fits B s a)
  | .receive _ (.installSnapshot request) =>
    inferInstanceAs (Decidable (_ ∧ _ ∧ ∀ metadata ∈ s.node.installs B request,
      metadata.lastIncludedIndex + 1 < 2 ^ 64))
  | .receive _ (.voteRequest _) | .receive _ (.voteResponse _) | .receive _ (.appendEntries _)
  | .receive _ (.appendEntriesResponse _ _) | .receive _ (.installSnapshotResponse _ _)
  | .electionTimeout | .checkLease | .addPeer _ | .removePeer _ | .propose _ | .applyNext
  | .takeSnapshot => inferInstanceAs (Decidable (_ ∧ _ ∧ True))

instance (B : StateMachineBackend S C Snap) (s : NodeRun N S C) (a : NodeAction N C) :
    Decidable (Steady B s a) :=
  inferInstanceAs (Decidable (_ ∧ _))

variable {B : StateMachineBackend S C Snap} {R : Position → AppendEntriesRequest N → Prop}
  {id : N} {config : RaftConfig} {s s' : NodeRun N S C} {a : NodeAction N C}

theorem step_moves (hadmits : s.Admits B R a) (hstep : step B s a = some s') :
    s.position.Moves (R s.position) s'.position := by
  cases a with
  | receive source payload =>
    obtain rfl := Option.some.inj hstep
    exact RaftNode.processMessage_moves hadmits.1 hadmits.2 _ source
  | electionTimeout =>
    obtain rfl := Option.some.inj hstep
    exact RaftNode.moves_of_eq rfl rfl rfl
  | checkLease =>
    obtain rfl := Option.some.inj hstep
    rw [position, position, RaftNode.checkLease]
    split_ifs
    · exact RaftNode.moves_of_eq rfl rfl rfl
    · exact .stay
  | addPeer peer =>
    obtain rfl := Option.some.inj hstep
    exact RaftNode.moves_of_eq rfl rfl rfl
  | removePeer peer =>
    obtain rfl := Option.some.inj hstep
    exact RaftNode.moves_of_eq rfl rfl rfl
  | propose command =>
    obtain rfl := Option.some.inj hstep
    exact RaftNode.propose_moves B s.node command
  | applyNext =>
    rw [step] at hstep
    split_ifs at hstep
    obtain rfl := Option.some.inj hstep
    exact RaftNode.applyNext_moves B s.node
  | takeSnapshot =>
    obtain rfl := Option.some.inj hstep
    exact RaftNode.takeSnapshot_moves B s.node

theorem inOrder_init : (system B id config).init.position.InOrder where
  numbered := ⟨[], fun _ _ h => (nomatch h), ReplicatedLog.Window.empty⟩
  snapshot_le := le_rfl
  applied_le := le_rfl
  commit_le := le_rfl
  applied_eq := rfl
  state_le := le_rfl
  increasing := List.Pairwise.nil
  handed_le := fun _ hi => (nomatch hi)
  complete := fun _ hi hi' => absurd (hi.trans_le hi') (lt_irrefl _)

theorem position_inOrder (h : (system B id config).Reach (Orderly B) s) : s.position.InOrder := by
  refine h.invariant (P := fun s => s.position.InOrder) inOrder_init ?_
  intro s a s' _ hinOrder horderly hstep
  exact hinOrder.moves (step_moves horderly hstep) fun _ hrequest => hrequest

omit [DecidableEq N] in
theorem Steady.orderly (h : Steady B s a) : Orderly B s a := by
  cases a with
  | receive source payload =>
    refine ⟨?_, h.1.2⟩
    cases payload with
    | appendEntries request => exact fun hterm hnone => (h.1.1 hterm hnone).1.1
    | _ => trivial
  | _ => trivial

/-- What was installed last, after a step. -/
theorem Steady.installed_le (h : Steady B s a) {n : ℕ} (hs : s.installed ≤ n)
    (hn : ∀ m, m + 1 < 2 ^ 64 → m ≤ n) (hstep : step B s a = some s') : s'.installed ≤ n := by
  cases a with
  | receive source payload =>
    obtain rfl := Option.some.inj hstep
    cases payload with
    | installSnapshot request =>
      have hfits : ∀ metadata ∈ s.node.installs B request,
          metadata.lastIncludedIndex + 1 < 2 ^ 64 := h.2.2.2
      change ((s.node.installs B request).map SnapshotMetadata.lastIncludedIndex).getD
        s.installed ≤ n
      cases hinstalls : s.node.installs B request with
      | none => exact hs
      | some metadata => exact hn _ (hfits metadata hinstalls)
    | _ => exact hs
  | applyNext =>
    rw [step] at hstep
    split_ifs at hstep
    obtain rfl := Option.some.inj hstep
    exact hs
  | _ =>
    obtain rfl := Option.some.inj hstep
    exact hs

/-- The node and its log agree on the commit index. -/
theorem commitIndex_eq_of_reach (h : (system B id config).Reach (Steady B) s) :
    s.node.state.commitIndex = s.node.log.commitIndex := by
  refine h.invariant (P := fun s => s.node.state.commitIndex = s.node.log.commitIndex) rfl ?_
  intro s a s' _ heq hsteady hstep
  have hmoves := step_moves hsteady.1 hstep
  exact (hmoves.commitIndex_le (fun _ hrequest => hrequest.1.2) heq).2

theorem inOrder_of_steady (h : (system B id config).Reach (Steady B) s) : s.position.InOrder :=
  position_inOrder (h.mono fun _ _ => Steady.orderly)

/-- The index behind the last one is a 64-bit number. -/
theorem lastIndex_lt_of_reach (h : (system B id config).Reach (Steady B) s) :
    s.node.log.lastIndex + 1 < 2 ^ 64 := by
  suffices s.node.log.lastIndex ≤ 2 ^ 64 - 2 ∧ s.installed ≤ 2 ^ 64 - 2 by omega
  refine h.invariant (P := fun s => s.node.log.lastIndex ≤ 2 ^ 64 - 2 ∧
    s.installed ≤ 2 ^ 64 - 2) ⟨Nat.zero_le _, Nat.zero_le _⟩ ?_
  intro s a s' hs hle hsteady hstep
  have hinstalled := hsteady.installed_le hle.2 (by omega) hstep
  have hlast : s.position.log.lastIndex + 2 < 2 ^ 64 := hsteady.2.2.1
  refine ⟨(step_moves hsteady.1 hstep).lastIndex_le (inOrder_of_steady hs) (by omega) ?_
    hinstalled, hinstalled⟩
  intro request hrequest
  have hnew := hrequest.2
  exact ⟨hrequest.1.1, by omega⟩

/-- **Indices only grow**: as long as every append request that is accepted numbers its entries
behind its previous index, reaches the commit index of the log when one of its entries conflicts
with the log, and reaches that of the node when it has a larger one, and no snapshot that is
installed is older than what has been applied, and no index or term comes to the end of the 64-bit
numbers, the node and its log agree on what is committed and applied, which is in the log, and none
of this is ever taken back. -/
theorem indices_monotone (h : (system B id config).Reach (Steady B) s) :
    s.node.state.commitIndex = s.node.log.commitIndex ∧
      s.node.state.lastApplied = s.node.log.lastApplied ∧
      s.node.state.lastApplied ≤ s.node.state.commitIndex ∧
      s.node.state.commitIndex ≤ s.node.log.lastIndex ∧ s.node.log.lastIndex + 1 < 2 ^ 64 ∧
      ∀ s', ({ system B id config with init := s } : System _ _).Reach (Steady B) s' →
        s.node.state.commitIndex ≤ s'.node.state.commitIndex ∧
          s.node.log.commitIndex ≤ s'.node.log.commitIndex ∧
          s.node.state.lastApplied ≤ s'.node.state.lastApplied := by
  have hs := inOrder_of_steady h
  have hcommit := commitIndex_eq_of_reach h
  refine ⟨hcommit, hs.applied_eq, ?_, ?_, lastIndex_lt_of_reach h, fun s' h' => ?_⟩
  · rw [hcommit]
    exact hs.applied_eq.le.trans hs.applied_le
  · rw [hcommit]
    exact hs.commit_le
  · have hlater : s.node.log.commitIndex ≤ s'.node.log.commitIndex ∧
        s.node.log.lastApplied ≤ s'.node.log.lastApplied := by
      refine h'.invariant (P := fun t => s.node.log.commitIndex ≤ t.node.log.commitIndex ∧
        s.node.log.lastApplied ≤ t.node.log.lastApplied) ⟨le_rfl, le_rfl⟩ ?_
      intro t a t' ht hle hsteady hstep
      have hmoves := (step_moves hsteady.1 hstep).log_le (inOrder_of_steady (h.append ht))
      exact ⟨hle.1.trans hmoves.1, hle.2.trans hmoves.2⟩
    have hcommit' := commitIndex_eq_of_reach (h.append h')
    have happlied' := (inOrder_of_steady (h.append h')).applied_eq
    refine ⟨?_, hlater.1, ?_⟩
    · rw [hcommit, hcommit']
      exact hlater.1
    · exact hs.applied_eq.le.trans (hlater.2.trans happlied'.ge)

/-! ## Scripts -/

/-- The entries of a term from an index on, one for each byte. -/
def entriesFrom (term : ℕ) : ℕ → Bytes → List LogEntry
  | _, [] => []
  | index, b :: bytes => .command index term [b] :: entriesFrom term (index + 1) bytes

/-- The leader of the first term sends the bytes behind an index. -/
def appendMessage (prevLogIndex : ℕ) (bytes : Bytes) (leaderCommit : ℕ) : NodeAction ℕ UInt8 :=
  .receive 1 (.appendEntries
    { term := 1
      leaderId := 1
      prevLogIndex := prevLogIndex
      prevLogTerm := if prevLogIndex = 0 then 0 else 1
      entries := entriesFrom 1 (prevLogIndex + 1) bytes
      leaderCommit := leaderCommit })

/-- The leader of the first term sends its snapshot, in one chunk. -/
def snapshotMessage (lastIncludedIndex : ℕ) (data : Bytes) : NodeAction ℕ UInt8 :=
  .receive 1 (.installSnapshot
    { term := 1
      leaderId := 1
      lastIncludedIndex := lastIncludedIndex
      lastIncludedTerm := 1
      offset := 0
      data := data
      done := true
      checksum := some (Crc32.hash data) })

/-- A node that keeps the commands it is given. -/
def logNode : System (NodeRun ℕ Bytes UInt8) (NodeAction ℕ UInt8) :=
  system commandLog 0 {}

/-- A follower gets three entries, of which it applies two, takes a snapshot, and installs that of
the leader. -/
def steadyScript : List (NodeAction ℕ UInt8) :=
  [appendMessage 0 [7, 8, 9] 2, .applyNext, .applyNext, .takeSnapshot,
    snapshotMessage 4 [7, 8, 9, 5], appendMessage 4 [6] 5, .applyNext]

theorem indices_monotone_snapshot :
    ∃ s, logNode.Reach (Steady commandLog) s ∧ s.node.state.lastApplied = 5 ∧
      s.node.state.commitIndex = s.node.log.commitIndex := by
  have hrun : (logNode.run (Steady commandLog) steadyScript).any
      (fun s => decide (s.node.state.lastApplied = 5)) = true := by
    decide +kernel
  obtain ⟨s, -, hreach, hs⟩ := System.exists_reach_of_any hrun
  exact ⟨s, hreach, of_decide_eq_true hs, (indices_monotone hreach).1⟩

theorem exists_step_of_any {p : NodeRun ℕ Bytes UInt8 → NodeRun ℕ Bytes UInt8 → Prop}
    [∀ s s', Decidable (p s s')] {script : List (NodeAction ℕ UInt8)} {a : NodeAction ℕ UInt8}
    (h : ((logNode.run (fun _ _ => True) script).any fun s =>
      (logNode.step s a).any fun s' => decide (p s s')) = true) :
    ∃ s s', logNode.Reachable s ∧
      ({ logNode with init := s } : System _ _).Reachable s' ∧ p s s' := by
  obtain ⟨s, -, hreach, hs⟩ := System.exists_reach_of_any h
  obtain ⟨s', hstep, hp⟩ := (Option.any_eq_true _ _).mp hs
  exact ⟨s, s', hreach, .step .init trivial hstep, of_decide_eq_true hp⟩

/-- **Indices are taken back**: a snapshot that arrives once more takes back what has been applied,
and an append request that ends before the commit index takes back the commit index of the node, but
not that of its log. -/
theorem indices_not_monotone :
    (∃ s s', logNode.Reachable s ∧ ({ logNode with init := s } : System _ _).Reachable s' ∧
      s'.node.state.lastApplied < s.node.state.lastApplied) ∧
    ∃ s s', logNode.Reachable s ∧ ({ logNode with init := s } : System _ _).Reachable s' ∧
      s'.node.state.commitIndex < s.node.state.commitIndex ∧
      s'.node.state.commitIndex ≠ s'.node.log.commitIndex := by
  constructor
  · have hrun : ((logNode.run (fun _ _ => True)
        [snapshotMessage 1 [7], appendMessage 1 [8, 9] 3, .applyNext, .applyNext]).any fun s =>
          (logNode.step s (snapshotMessage 1 [7])).any fun s' =>
            decide (s'.node.state.lastApplied < s.node.state.lastApplied)) = true := by
      decide +kernel
    exact exists_step_of_any hrun
  · have hrun : ((logNode.run (fun _ _ => True) [appendMessage 0 [7, 8, 9] 2]).any fun s =>
          (logNode.step s (appendMessage 0 [7] 3)).any fun s' =>
            decide (s'.node.state.commitIndex < s.node.state.commitIndex ∧
              s'.node.state.commitIndex ≠ s'.node.log.commitIndex)) = true := by
      decide +kernel
    exact exists_step_of_any hrun

end NodeRun

end Replication

end AegisDB
