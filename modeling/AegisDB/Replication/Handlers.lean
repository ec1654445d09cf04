import AegisDB.Replication.Cluster

/-!
# What the handlers leave alone

Every handler but three leaves a node's election state alone or moves the node, as a follower
without a vote, to a later term; `RaftNode.Follows` says so once for all of them.  Most of them do
not touch the indices kept for the peers either; they `RaftNode.Keep` those too.

`Deployment.wired` collects what never changes: the names and peers of the nodes, which peers the
two index maps speak of, and who sends messages to whom.
-/

namespace AegisDB

namespace Replication

variable {N S C Snap : Type*}

/-! ## Handlers and the election state -/

namespace RaftNode

/-- `y` is `x` after an event that is not part of an election: the term and the vote are kept, or
the node follows in a later term without having voted. -/
structure Follows (x y : RaftNode N S) : Prop where
  id : y.id = x.id
  peers : y.peers = x.peers
  votesReceived : y.votesReceived = x.votesReceived
  /-- The term and the vote are kept, or the term is a later one without a vote. -/
  election :
    (y.state.currentTerm = x.state.currentTerm ∧ y.state.votedFor = x.state.votedFor ∧
      (y.role = x.role ∨ y.role = .follower)) ∨
    (x.state.currentTerm < y.state.currentTerm ∧ y.state.votedFor = none ∧ y.role = .follower)

@[refl] theorem Follows.refl (x : RaftNode N S) : x.Follows x :=
  ⟨rfl, rfl, rfl, .inl ⟨rfl, rfl, .inl rfl⟩⟩

theorem Follows.trans {x y z : RaftNode N S} (h : x.Follows y) (h' : y.Follows z) :
    x.Follows z := by
  refine ⟨h'.id.trans h.id, h'.peers.trans h.peers, h'.votesReceived.trans h.votesReceived, ?_⟩
  rcases h.election with ⟨ht, hv, hr⟩ | ⟨ht, hv, hr⟩ <;>
    rcases h'.election with ⟨ht', hv', hr'⟩ | ⟨ht', hv', hr'⟩
  · left
    refine ⟨ht'.trans ht, hv'.trans hv, ?_⟩
    rcases hr' with hr' | hr'
    · exact hr.imp hr'.trans hr'.trans
    · exact .inr hr'
  · exact .inr ⟨ht ▸ ht', hv', hr'⟩
  · refine .inr ⟨ht'.symm ▸ ht, hv'.trans hv, ?_⟩
    rcases hr' with hr' | hr'
    · exact hr'.trans hr
    · exact hr'
  · exact .inr ⟨ht.trans ht', hv', hr'⟩

/-- `y` follows `x` with the same indices for the peers. -/
structure Keeps (x y : RaftNode N S) : Prop extends x.Follows y where
  matchIndex : y.matchIndex = x.matchIndex
  nextIndex : y.nextIndex = x.nextIndex

@[refl] theorem Keeps.refl (x : RaftNode N S) : x.Keeps x := ⟨.refl x, rfl, rfl⟩

theorem Keeps.trans {x y z : RaftNode N S} (h : x.Keeps y) (h' : y.Keeps z) : x.Keeps z :=
  ⟨h.toFollows.trans h'.toFollows, h'.matchIndex.trans h.matchIndex,
    h'.nextIndex.trans h.nextIndex⟩

/-- A handler that leaves term and vote alone. -/
theorem Keeps.of_eq {x y : RaftNode N S} (hid : y.id = x.id) (hpeers : y.peers = x.peers)
    (hvotes : y.votesReceived = x.votesReceived)
    (hterm : y.state.currentTerm = x.state.currentTerm)
    (hvoted : y.state.votedFor = x.state.votedFor) (hrole : y.role = x.role ∨ y.role = .follower)
    (hmatch : y.matchIndex = x.matchIndex) (hnext : y.nextIndex = x.nextIndex) : x.Keeps y :=
  ⟨⟨hid, hpeers, hvotes, .inl ⟨hterm, hvoted, hrole⟩⟩, hmatch, hnext⟩

/-- A handler that moves to a later term clears the vote. -/
theorem Keeps.of_lt {x y : RaftNode N S} (hid : y.id = x.id) (hpeers : y.peers = x.peers)
    (hvotes : y.votesReceived = x.votesReceived)
    (hterm : x.state.currentTerm < y.state.currentTerm) (hvoted : y.state.votedFor = none)
    (hrole : y.role = .follower) (hmatch : y.matchIndex = x.matchIndex)
    (hnext : y.nextIndex = x.nextIndex) : x.Keeps y :=
  ⟨⟨hid, hpeers, hvotes, .inr ⟨hterm, hvoted, hrole⟩⟩, hmatch, hnext⟩

theorem stepDown_keeps {x : RaftNode N S} {term : ℕ} (h : x.state.currentTerm < term) :
    x.Keeps (x.stepDown term) :=
  .of_lt rfl rfl rfl h rfl rfl rfl rfl

theorem checkLease_keeps (x : RaftNode N S) : x.Keeps x.checkLease := by
  unfold checkLease
  split
  · exact .of_eq rfl rfl rfl rfl rfl (.inr rfl) rfl rfl
  · rfl

theorem propose_keeps (B : StateMachineBackend S C Snap) (x : RaftNode N S) (command : C) :
    x.Keeps (x.propose B command).1 := by
  unfold propose
  split
  · rfl
  · exact .of_eq rfl rfl rfl rfl rfl (.inl rfl) rfl rfl

theorem applyNext_keeps (B : StateMachineBackend S C Snap) (x : RaftNode N S) :
    x.Keeps (x.applyNext B).1 := by
  unfold applyNext
  split
  · rfl
  · exact .of_eq rfl rfl rfl rfl rfl (.inl rfl) rfl rfl

theorem applyCommitted_keeps (B : StateMachineBackend S C Snap) (turns : ℕ)
    (x : RaftNode N S) : x.Keeps (x.applyCommitted B turns).1 := by
  induction turns generalizing x with
  | zero => rfl
  | succ turns ih =>
    rw [applyCommitted]
    split
    · exact (applyNext_keeps B x).trans (ih _)
    · rfl

theorem applyCommitted_commitIndex (B : StateMachineBackend S C Snap) (turns : ℕ)
    (x : RaftNode N S) : (x.applyCommitted B turns).1.state.commitIndex = x.state.commitIndex := by
  induction turns generalizing x with
  | zero => rfl
  | succ turns ih =>
    rw [applyCommitted]
    split
    · refine (ih _).trans ?_
      unfold applyNext
      split <;> rfl
    · rfl

theorem takeSnapshot_keeps (B : StateMachineBackend S C Snap) (x : RaftNode N S) :
    x.Keeps (x.takeSnapshot B).1 := by
  unfold takeSnapshot
  dsimp only
  split
  · rfl
  · split
    · rfl
    · exact .of_eq rfl rfl rfl rfl rfl (.inl rfl) rfl rfl

theorem followCommit_keeps (x : RaftNode N S) (request : AppendEntriesRequest N) :
    x.Keeps (x.followCommit request) := by
  unfold followCommit
  split
  · exact .of_eq rfl rfl rfl rfl rfl (.inl rfl) rfl rfl
  · rfl

theorem followLeader_keeps {x : RaftNode N S} {term : ℕ} (leader : N) :
    x.Keeps (x.followLeader term leader) := by
  refine ⟨⟨rfl, rfl, rfl, ?_⟩, rfl, rfl⟩
  unfold followLeader
  split
  · next hlt => exact .inr ⟨hlt, rfl, rfl⟩
  · exact .inl ⟨rfl, rfl, .inr rfl⟩

theorem followSnapshot_keeps {x : RaftNode N S} {term : ℕ} (leader : N) :
    x.Keeps (x.followSnapshot term leader) := by
  refine ⟨⟨rfl, rfl, rfl, ?_⟩, rfl, rfl⟩
  unfold followSnapshot
  split
  · next hlt => exact .inr ⟨hlt, rfl, rfl⟩
  · exact .inl ⟨rfl, rfl, .inl rfl⟩

theorem acceptEntries_keeps (x : RaftNode N S) (request : AppendEntriesRequest N) :
    x.Keeps (x.acceptEntries request) := by
  have hlog : x.Keeps { x with log := x.log.reconcile request.entries } :=
    .of_eq rfl rfl rfl rfl rfl (.inl rfl) rfl rfl
  exact hlog.trans (followCommit_keeps _ _)

/-- A follower's answer to entries touches no replication index. -/
theorem handleAppendEntries_keeps (x : RaftNode N S) (request : AppendEntriesRequest N) :
    x.Keeps (x.handleAppendEntries request).1 := by
  unfold handleAppendEntries
  split
  · rfl
  · dsimp only
    split
    · exact followLeader_keeps _
    · exact (followLeader_keeps _).trans (acceptEntries_keeps _ _)

theorem tryAdvanceCommitIndex_keeps (x : RaftNode N S) : x.Keeps x.tryAdvanceCommitIndex := by
  unfold tryAdvanceCommitIndex
  dsimp only
  split
  · exact .of_eq rfl rfl rfl rfl rfl (.inl rfl) rfl rfl
  · rfl

theorem installSnapshot_keeps (B : StateMachineBackend S C Snap) (x : RaftNode N S)
    (metadata : SnapshotMetadata) (data : Bytes) (checksum : Option UInt32) :
    x.Keeps (x.installSnapshot B metadata data checksum) := by
  unfold installSnapshot
  dsimp only
  split
  · exact .of_eq rfl rfl rfl rfl rfl (.inl rfl) rfl rfl
  · split
    · exact .of_eq rfl rfl rfl rfl rfl (.inl rfl) rfl rfl
    · exact .of_eq rfl rfl rfl rfl rfl (.inl rfl) rfl rfl

theorem receiveChunk_keeps (B : StateMachineBackend S C Snap) (x : RaftNode N S)
    (request : InstallSnapshotRequest N) : x.Keeps (x.receiveChunk B request) := by
  have hpending (pending : Option PendingSnapshot) :
      x.Keeps { x with pendingSnapshot := pending } :=
    .of_eq rfl rfl rfl rfl rfl (.inl rfl) rfl rfl
  unfold receiveChunk
  split
  · exact hpending _
  · split_ifs
    · exact hpending _
    · exact installSnapshot_keeps B x _ _ _
    · exact hpending _

theorem handleInstallSnapshot_keeps (B : StateMachineBackend S C Snap) (x : RaftNode N S)
    (request : InstallSnapshotRequest N) :
    x.Keeps (x.handleInstallSnapshot B request).1 := by
  unfold handleInstallSnapshot
  split
  · rfl
  · exact (followSnapshot_keeps _).trans (receiveChunk_keeps B _ _)

theorem noticeTerm_keeps (x : RaftNode N S) (term : ℕ) : x.Keeps (x.noticeTerm term) := by
  unfold noticeTerm
  split
  · next hlt => exact stepDown_keeps hlt
  · rfl

variable [DecidableEq N]

theorem recordMatch_follows (x : RaftNode N S) (peerId : N) (m : ℕ) :
    x.Follows (x.recordMatch peerId m) :=
  ⟨rfl, rfl, rfl, .inl ⟨rfl, rfl, .inl rfl⟩⟩

theorem retryFrom_follows (x : RaftNode N S) (peerId : N) (response : AppendEntriesResponse) :
    x.Follows (x.retryFrom peerId response) := by
  unfold retryFrom
  split <;> exact ⟨rfl, rfl, rfl, .inl ⟨rfl, rfl, .inl rfl⟩⟩

theorem handleAppendEntriesResponse_follows (x : RaftNode N S) (peerId : N)
    (response : AppendEntriesResponse) :
    x.Follows (x.handleAppendEntriesResponse peerId response) := by
  unfold handleAppendEntriesResponse
  split
  · next hlt => exact (stepDown_keeps hlt).toFollows
  · split
    · rfl
    · split
      · exact (recordMatch_follows _ _ _).trans (tryAdvanceCommitIndex_keeps _).toFollows
      · exact retryFrom_follows _ _ _

theorem handleInstallSnapshotResponse_follows (x : RaftNode N S) (peerId : N)
    (response : InstallSnapshotResponse) (wasLastChunk : Bool) :
    x.Follows (x.handleInstallSnapshotResponse peerId response wasLastChunk) := by
  unfold handleInstallSnapshotResponse
  split
  · next hlt => exact (stepDown_keeps hlt).toFollows
  · split
    · rfl
    · split
      · split
        · exact ⟨rfl, rfl, rfl, .inl ⟨rfl, rfl, .inl rfl⟩⟩
        · rfl
      · rfl

/-- A vote is granted in the current term, to a free vote or the same candidate. -/
theorem grantsVote_eq_true {x : RaftNode N S} {request : VoteRequest N}
    (h : (x.noticeTerm request.term).grantsVote request = true) :
    request.term = (x.noticeTerm request.term).state.currentTerm ∧
      ((x.noticeTerm request.term).state.votedFor = none ∨
        (x.noticeTerm request.term).state.votedFor = some request.candidateId) ∧
      x.log.isUpToDate request.lastLogIndex request.lastLogTerm = true := by
  have hlog : (x.noticeTerm request.term).log = x.log := by
    unfold noticeTerm stepDown
    split <;> rfl
  have hle : request.term ≤ (x.noticeTerm request.term).state.currentTerm := by
    unfold noticeTerm stepDown
    split
    · exact le_rfl
    · next hlt => exact Nat.le_of_not_lt hlt
  simp only [grantsVote, decide_eq_true_eq, hlog] at h
  exact ⟨le_antisymm hle h.1, h.2⟩

/-! ## Names, peers and index maps -/

omit [DecidableEq N] in
theorem findFirstIndexOfTermFrom_pos (r : ReplicatedLog) (term i : ℕ) :
    0 < r.findFirstIndexOfTermFrom term i := by
  induction i with
  | zero => exact Nat.one_pos
  | succ i ih =>
    rw [ReplicatedLog.findFirstIndexOfTermFrom]
    split
    · split
      · exact Nat.succ_pos _
      · exact ih
    · exact ih

theorem lookup_foldl_insert (l : List N) (v : ℕ) (m : AList fun _ : N => ℕ) (q : N) :
    (l.foldl (fun m p => m.insert p v) m).lookup q = if q ∈ l then some v else m.lookup q := by
  induction l generalizing m with
  | nil => simp
  | cons p l ih =>
    rw [List.foldl_cons, ih]
    by_cases hl : q ∈ l
    · simp [hl]
    · by_cases hp : q = p
      · subst hp
        simp [hl, AList.lookup_insert]
      · simp [hl, hp, AList.lookup_insert_ne]

/-- The names a node goes by and knows. -/
structure Wired (members : List N) (n : N) (x : RaftNode N S) : Prop where
  id : x.id = n
  nodup : x.peers.Nodup
  peers : ∀ p, p ∈ x.peers ↔ p ∈ members ∧ p ≠ n
  /-- Every peer, and nobody else, has a reported index. -/
  matchIndex : ∀ p, p ∈ x.matchIndex ↔ p ∈ x.peers
  /-- What is sent next is a proper index, and it is sent to a peer. -/
  nextIndex : ∀ p k, x.nextIndex.lookup p = some k → 0 < k ∧ p ∈ x.peers

variable {members : List N} {n : N} {x y : RaftNode N S}

theorem Wired.congr (h : x.Wired members n) (hid : y.id = x.id) (hpeers : y.peers = x.peers)
    (hmatch : y.matchIndex = x.matchIndex) (hnext : y.nextIndex = x.nextIndex) :
    y.Wired members n where
  id := hid.trans h.id
  nodup := hpeers ▸ h.nodup
  peers p := hpeers ▸ h.peers p
  matchIndex p := hpeers ▸ hmatch ▸ h.matchIndex p
  nextIndex p k hk := hpeers ▸ h.nextIndex p k (hnext ▸ hk)

/-- What keeps the node's links keeps it wired. -/
theorem Wired.keeps (h : x.Wired members n) (hxy : x.Keeps y) : y.Wired members n :=
  h.congr hxy.id hxy.peers hxy.matchIndex hxy.nextIndex

theorem Wired.insert (h : x.Wired members n) {p : N} (hp : p ∈ x.peers) {k : ℕ} (hk : 0 < k)
    (hid : y.id = x.id) (hpeers : y.peers = x.peers)
    (hmatch : y.matchIndex = x.matchIndex ∨ ∃ m, y.matchIndex = x.matchIndex.insert p m)
    (hnext : y.nextIndex = x.nextIndex.insert p k) : y.Wired members n where
  id := hid.trans h.id
  nodup := hpeers ▸ h.nodup
  peers q := hpeers ▸ h.peers q
  matchIndex q := by
    rw [hpeers]
    rcases hmatch with hm | ⟨m, hm⟩
    · exact hm ▸ h.matchIndex q
    · rw [hm, AList.mem_insert, h.matchIndex]
      exact ⟨fun hq => hq.elim (fun heq => heq ▸ hp) fun hq => hq, .inr⟩
  nextIndex q j hj := by
    rw [hpeers]
    rw [hnext] at hj
    by_cases hq : q = p
    · subst hq
      rw [AList.lookup_insert, Option.some.injEq] at hj
      exact ⟨hj ▸ hk, hp⟩
    · rw [AList.lookup_insert_ne hq] at hj
      exact h.nextIndex q j hj

theorem Wired.startElection (h : x.Wired members n) : x.startElection.1.Wired members n :=
  h.congr rfl rfl rfl rfl

theorem Wired.handleVoteRequest (h : x.Wired members n) (request : VoteRequest N) :
    (x.handleVoteRequest request).1.Wired members n := by
  have hy := h.keeps (noticeTerm_keeps x request.term)
  unfold RaftNode.handleVoteRequest
  dsimp only
  split
  · exact hy.congr rfl rfl rfl rfl
  · exact hy

theorem Wired.becomeLeaderWithTerm (h : x.Wired members n) (term : ℕ) :
    (x.becomeLeaderWithTerm term).Wired members n where
  id := h.id
  nodup := h.nodup
  peers := h.peers
  matchIndex p := by
    rw [← AList.lookup_isSome]
    simp only [RaftNode.becomeLeaderWithTerm, lookup_foldl_insert]
    split
    · next hp => simpa using hp
    · rw [AList.lookup_isSome]
      exact h.matchIndex p
  nextIndex p k hk := by
    simp only [RaftNode.becomeLeaderWithTerm, lookup_foldl_insert] at hk ⊢
    split at hk
    · next hp => exact ⟨by rw [← Option.some.inj hk]; exact Nat.succ_pos _, hp⟩
    · exact h.nextIndex p k hk

theorem countVote_eq (x : RaftNode N S) (response : VoteResponse N) :
    ∃ votes, x.countVote response = { x with votesReceived := votes } ∧
      (votes = x.votesReceived ∨
        response.voteGranted = true ∧ votes = Insert.insert response.voterId x.votesReceived) := by
  unfold countVote
  split
  · next hg => exact ⟨_, rfl, .inr ⟨hg, rfl⟩⟩
  · exact ⟨_, rfl, .inl rfl⟩

theorem handleVoteResponse_of_candidate {response : VoteResponse N} (hrole : x.role = .candidate)
    (hterm : response.term = x.state.currentTerm) :
    x.handleVoteResponse response =
      if (x.countVote response).quorumSize ≤ (x.countVote response).votesReceived.card then
        ((x.countVote response).becomeLeaderWithTerm (x.countVote response).state.currentTerm, true)
      else (x.countVote response, false) := by
  rw [handleVoteResponse, if_neg (by omega), if_neg (by simp [hrole, hterm])]

theorem Wired.handleVoteResponse (h : x.Wired members n) (response : VoteResponse N) :
    (x.handleVoteResponse response).1.Wired members n := by
  unfold RaftNode.handleVoteResponse
  split
  · next hlt => exact h.keeps (stepDown_keeps hlt)
  · split
    · exact h
    · obtain ⟨votes, hvotes, -⟩ := countVote_eq x response
      have hy : (x.countVote response).Wired members n := hvotes ▸ h.congr rfl rfl rfl rfl
      dsimp only
      split
      · exact hy.becomeLeaderWithTerm _
      · exact hy

theorem Wired.handleAppendEntriesResponse (h : x.Wired members n) {p : N} (hp : p ∈ x.peers)
    (response : AppendEntriesResponse) (hpos : ∀ c, response.conflictIndex = some c → 0 < c) :
    (x.handleAppendEntriesResponse p response).Wired members n := by
  unfold RaftNode.handleAppendEntriesResponse
  split
  · next hlt => exact h.keeps (stepDown_keeps hlt)
  · split
    · exact h
    · split
      · have hy : (x.recordMatch p response.matchIndex).Wired members n :=
          h.insert hp (Nat.succ_pos _) rfl rfl (.inr ⟨_, rfl⟩) rfl
        exact hy.keeps (tryAdvanceCommitIndex_keeps _)
      · unfold retryFrom
        split
        · next c hc => exact h.insert hp (hpos c hc) rfl rfl (.inl rfl) rfl
        · exact h.insert hp (by omega) rfl rfl (.inl rfl) rfl

theorem Wired.handleInstallSnapshotResponse (h : x.Wired members n) {p : N} (hp : p ∈ x.peers)
    (response : InstallSnapshotResponse) (wasLastChunk : Bool) :
    (x.handleInstallSnapshotResponse p response wasLastChunk).Wired members n := by
  unfold RaftNode.handleInstallSnapshotResponse
  split
  · next hlt => exact h.keeps (stepDown_keeps hlt)
  · split
    · exact h
    · split
      · split
        · exact h.insert hp (Nat.succ_pos _) rfl rfl (.inr ⟨_, rfl⟩) rfl
        · exact h
      · exact h

omit [DecidableEq N] in
theorem handleAppendEntries_conflictIndex_pos (x : RaftNode N S)
    (request : AppendEntriesRequest N) (c : ℕ)
    (hc : (x.handleAppendEntries request).2.conflictIndex = some c) : 0 < c := by
  unfold RaftNode.handleAppendEntries at hc
  split at hc
  · cases hc
  · dsimp only at hc
    split at hc
    · next response hr =>
      unfold refusal at hr
      split_ifs at hr
      split at hr
      · simp only [Option.some.injEq] at hr
        subst hr
        simp only [Option.some.injEq] at hc
        omega
      · split_ifs at hr
        simp only [Option.some.injEq] at hr
        subst hr
        simp only [Option.some.injEq] at hc
        exact hc ▸ findFirstIndexOfTermFrom_pos _ _ _
    · cases hc

/-- A wired node counts the whole cluster. -/
theorem Wired.clusterSize_eq (h : x.Wired members n) (hn : n ∈ members) :
    x.clusterSize = members.toFinset.card := by
  have hpeers : x.peers.toFinset = members.toFinset.erase n := by
    ext p
    simp [h.peers, and_comm]
  have hcard : x.peers.length = (members.toFinset.erase n).card := by
    rw [← hpeers, List.toFinset_card_of_nodup h.nodup]
  rw [RaftNode.clusterSize, hcard, Finset.card_erase_add_one (by simpa using hn)]

/-- Adding peers one after another adds nothing but the peers and their indices. -/
theorem foldl_addPeer (l : List N) (x : RaftNode N S) :
    ∃ peers nextIndex matchIndex,
      l.foldl addPeer x = { x with peers, nextIndex, matchIndex } ∧
      (x.peers.Nodup → peers.Nodup) ∧ (∀ p, p ∈ peers ↔ p ∈ x.peers ∨ p ∈ l) ∧
      (∀ p, p ∈ matchIndex ↔ p ∈ x.matchIndex ∨ p ∈ l) ∧
      ∀ p k, nextIndex.lookup p = some k →
        x.nextIndex.lookup p = some k ∨ (0 < k ∧ p ∈ l) := by
  induction l generalizing x with
  | nil => exact ⟨_, _, _, rfl, fun h => h, by simp, by simp, fun _ _ => .inl⟩
  | cons q l ih =>
    obtain ⟨peers, next, mtch, heq, hnodup, hpeers, hmatch, hnext⟩ := ih (x.addPeer q)
    refine ⟨peers, next, mtch, heq, fun hn => hnodup (hn.insert), fun p => ?_, fun p => ?_,
      fun p k hk => ?_⟩
    · simp only [hpeers, addPeer, List.mem_insert_iff, List.mem_cons]
      tauto
    · simp only [hmatch, addPeer, AList.mem_insert, List.mem_cons]
      tauto
    · rcases hnext p k hk with hk | ⟨hpos, hp⟩
      · by_cases hp : p = q
        · subst hp
          simp only [addPeer, AList.lookup_insert, Option.some.injEq] at hk
          exact .inr ⟨by omega, by simp⟩
        · simp only [addPeer, AList.lookup_insert_ne hp] at hk
          exact .inl hk
      · exact .inr ⟨hpos, by simp [hp]⟩

end RaftNode

/-- A message names its sender, and an index it reports is a proper one. -/
def Message.Wired (members : List N) (m : Message N) : Prop :=
  m.source ∈ members ∧ m.target ∈ members ∧ m.source ≠ m.target ∧
    match m.payload with
    | .voteRequest request => request.candidateId = m.source
    | .voteResponse response => response.voterId = m.source
    | .appendEntriesResponse response _ => ∀ c, response.conflictIndex = some c → 0 < c
    | _ => True

namespace Deployment

variable [DecidableEq N] (D : Deployment N S C Snap)

theorem initialNode_spec (n : N) :
    ∃ peers nextIndex matchIndex,
      D.initialNode n =
        { RaftNode.withStateMachine n (D.config n) D.backend.new with
          peers, nextIndex, matchIndex } ∧
      (D.initialNode n).Wired D.members n := by
  obtain ⟨peers, next, mtch, heq, hnodup, hpeers, hmatch, hnext⟩ :=
    RaftNode.foldl_addPeer (D.members.filter (· ≠ n))
      (RaftNode.withStateMachine n (D.config n) D.backend.new)
  have hp : ∀ p, p ∈ peers ↔ p ∈ D.members ∧ p ≠ n := fun p => by
    simp [hpeers, RaftNode.withStateMachine]
  refine ⟨peers, next, mtch, heq, ?_⟩
  unfold initialNode
  rw [heq]
  refine ⟨rfl, hnodup (by simp [RaftNode.withStateMachine]), hp, fun p => ?_, fun p k hk => ?_⟩
  · simp [hmatch, hpeers, RaftNode.withStateMachine]
  · rcases hnext p k hk with hk | ⟨hpos, hp'⟩
    · simp [RaftNode.withStateMachine] at hk
    · exact ⟨hpos, (hpeers p).mpr (.inr hp')⟩

/-- Names, peers and senders are in order in every state of every run. -/
structure ClusterWired (s : Cluster N S C) : Prop where
  nodes : ∀ n, (s.nodes n).Wired D.members n
  sent : ∀ m ∈ s.sent, m.Wired D.members

variable {D}

theorem ClusterWired.record {s : Cluster N S C} (hs : D.ClusterWired s) {n : N}
    {o : Outcome N S C} (hnode : o.node.Wired D.members n)
    (hsent : ∀ m ∈ o.sent, m.Wired D.members) : D.ClusterWired (s.record n o) where
  nodes p := by
    by_cases hp : p = n
    · subst hp
      simpa [Cluster.record] using hnode
    · simpa [Cluster.record, hp] using hs.nodes p
  sent m hm := by
    rcases List.mem_append.mp hm with hm | hm
    · exact hs.sent m hm
    · exact hsent m hm

/-- A delivered message leaves its target and the reply to it in order. -/
theorem processMessage_wired {B : StateMachineBackend S C Snap} {x : RaftNode N S} {m : Message N}
    (hx : x.Wired D.members m.target) (hm : m.Wired D.members) :
    let o : Outcome N S C := x.processMessage B m.target m.source m.payload
    o.node.Wired D.members m.target ∧ ∀ r ∈ o.sent, r.Wired D.members := by
  obtain ⟨hsource, htarget, hne, hpayload⟩ := hm
  have hpeer : m.source ∈ x.peers := (hx.peers _).mpr ⟨hsource, hne⟩
  have reply {payload : MessagePayload N}
      (hp : match payload with
        | .voteRequest request => request.candidateId = m.target
        | .voteResponse response => response.voterId = m.target
        | .appendEntriesResponse response _ => ∀ c, response.conflictIndex = some c → 0 < c
        | _ => True) : Message.Wired D.members ⟨m.target, m.source, payload⟩ :=
    ⟨htarget, hsource, hne.symm, hp⟩
  revert hpayload
  cases m.payload with
  | voteRequest request =>
    intro _
    refine ⟨hx.handleVoteRequest request, fun r hr => ?_⟩
    rw [List.mem_singleton.mp hr]
    refine reply ?_
    show (x.handleVoteRequest request).2.voterId = m.target
    unfold RaftNode.handleVoteRequest
    have hid := (RaftNode.noticeTerm_keeps x request.term).id.trans hx.id
    dsimp only
    split <;> exact hid
  | voteResponse response =>
    intro _
    refine ⟨hx.handleVoteResponse response, fun r hr => ?_⟩
    cases hr
  | appendEntries request =>
    intro _
    refine ⟨hx.keeps (RaftNode.handleAppendEntries_keeps x request), fun r hr => ?_⟩
    rw [List.mem_singleton.mp hr]
    exact reply (RaftNode.handleAppendEntries_conflictIndex_pos x request)
  | appendEntriesResponse response lastTerm =>
    intro hpayload
    exact ⟨hx.handleAppendEntriesResponse hpeer response hpayload, fun r hr => by cases hr⟩
  | installSnapshot request =>
    intro _
    refine ⟨hx.keeps (RaftNode.handleInstallSnapshot_keeps B x request), fun r hr => ?_⟩
    rw [List.mem_singleton.mp hr]
    exact reply trivial
  | installSnapshotResponse response wasLastChunk =>
    intro _
    exact ⟨hx.handleInstallSnapshotResponse hpeer response wasLastChunk, fun r hr => by cases hr⟩

/-- One action of the cluster, by cases on the handler that ran. -/
theorem wired_step {s s' : Cluster N S C} {a : ClusterAction N C} (hs : D.ClusterWired s)
    (hstep : D.system.step s a = some s') : D.ClusterWired s' := by
  obtain ⟨n, o, ho, hn, rfl⟩ := D.step_eq_some hstep
  -- a message to a peer comes from a member and goes to another one
  have toPeer {n p : N} (hn : n ∈ D.members) (hp : p ∈ (s.nodes n).peers) :
      n ∈ D.members ∧ p ∈ D.members ∧ n ≠ p := by
    have := ((hs.nodes n).peers p).mp hp
    exact ⟨hn, this.1, this.2.symm⟩
  cases a with
  | electionTimeout p =>
    obtain ⟨rfl, rfl⟩ := Prod.mk.inj (Option.some.inj ho)
    refine hs.record (hs.nodes p).startElection fun m hm => ?_
    obtain ⟨q, hq, rfl⟩ := List.mem_map.mp hm
    obtain ⟨h₁, h₂, h₃⟩ := toPeer hn hq
    exact ⟨h₁, h₂, h₃, (hs.nodes p).id⟩
  | checkLease p =>
    obtain ⟨rfl, rfl⟩ := Prod.mk.inj (Option.some.inj ho)
    exact hs.record ((hs.nodes p).keeps (RaftNode.checkLease_keeps _)) fun m hm => by cases hm
  | propose p command =>
    obtain ⟨rfl, rfl⟩ := Prod.mk.inj (Option.some.inj ho)
    exact hs.record ((hs.nodes p).keeps (RaftNode.propose_keeps _ _ _)) fun m hm => by cases hm
  | sendAppendEntries p peer =>
    obtain ⟨request, hreq, ho⟩ := Option.map_eq_some_iff.mp ho
    obtain ⟨rfl, rfl⟩ := Prod.mk.inj ho
    refine hs.record (hs.nodes p) fun m hm => ?_
    rw [List.mem_singleton.mp hm]
    have hpeer : peer ∈ (s.nodes p).peers := by
      unfold RaftNode.createAppendEntries at hreq
      split_ifs at hreq
      obtain ⟨k, hk, -⟩ := Option.map_eq_some_iff.mp hreq
      exact ((hs.nodes p).nextIndex peer k hk).2
    obtain ⟨h₁, h₂, h₃⟩ := toPeer hn hpeer
    exact ⟨h₁, h₂, h₃, trivial⟩
  | applyCommitted p turns =>
    obtain ⟨rfl, rfl⟩ := Prod.mk.inj (Option.some.inj ho)
    exact hs.record ((hs.nodes p).keeps (RaftNode.applyCommitted_keeps _ _ _)) fun m hm => by
      cases hm
  | takeSnapshot p =>
    obtain ⟨rfl, rfl⟩ := Prod.mk.inj (Option.some.inj ho)
    exact hs.record ((hs.nodes p).keeps (RaftNode.takeSnapshot_keeps _ _)) fun m hm => by cases hm
  | sendInstallSnapshot p peer offset =>
    obtain ⟨request, hreq, ho⟩ := Option.map_eq_some_iff.mp ho
    obtain ⟨rfl, rfl⟩ := Prod.mk.inj ho
    refine hs.record (hs.nodes p) fun m hm => ?_
    rw [List.mem_singleton.mp hm]
    have hpeer : peer ∈ (s.nodes p).peers := by
      unfold RaftNode.createInstallSnapshot at hreq
      split_ifs at hreq
      split at hreq
      · next k _ _ hk _ => exact ((hs.nodes p).nextIndex peer k hk).2
      · cases hreq
    obtain ⟨h₁, h₂, h₃⟩ := toPeer hn hpeer
    exact ⟨h₁, h₂, h₃, trivial⟩
  | deliver position =>
    obtain ⟨m, hm, ho⟩ := Option.map_eq_some_iff.mp ho
    obtain ⟨rfl, rfl⟩ := Prod.mk.inj ho
    have := processMessage_wired (B := D.backend) (hs.nodes m.target)
      (hs.sent m (List.mem_of_getElem? hm))
    exact hs.record this.1 this.2

/-- Every cluster that is reached is wired. -/
theorem wired {s : Cluster N S C} {Φ : Cluster N S C → ClusterAction N C → Prop}
    (h : D.system.Reach Φ s) : D.ClusterWired s := by
  refine System.Reach.invariant (P := D.ClusterWired) ⟨fun n => ?_, fun m hm => ?_⟩
    (fun _ _ _ _ hs _ => wired_step hs) h
  · obtain ⟨_, _, _, _, hw⟩ := D.initialNode_spec n
    exact hw
  · cases hm

end Deployment

end Replication

end AegisDB
