import AegisDB.Library.LeaderCompleteness
import AegisDB.Replication.Handlers

/-!
# Election safety

At most one node becomes the leader of a term, whatever the network does.  The invariant
`ElectionInv` ties the votes on record to the `voted_for` of the voters, to the answers in flight
and to the `votes_received` of the candidates; a leader has the votes of more than half of the
members on record, and two such majorities share a voter.
-/

namespace AegisDB

namespace Replication

open TermLog

variable {N S C Snap : Type*} [DecidableEq N]

namespace Deployment

variable (D : Deployment N S C Snap)

/-- What the votes on record have to do with the nodes and the messages. -/
structure ElectionInv (s : Cluster N S C) : Prop where
  voter : ∀ p T x, (p, T, x) ∈ s.votes → p ∈ D.members
  vote_le : ∀ p T x, (p, T, x) ∈ s.votes → T ≤ (s.nodes p).state.currentTerm
  /-- A vote in the current term is the one the node remembers. -/
  votedFor : ∀ p x, (p, (s.nodes p).state.currentTerm, x) ∈ s.votes →
    (s.nodes p).state.votedFor = some x
  unique : ∀ p T x y, (p, T, x) ∈ s.votes → (p, T, y) ∈ s.votes → x = y
  /-- An answer that grants a vote reports a vote for its receiver. -/
  response : ∀ m r, m ∈ s.sent → m.payload = .voteResponse r → r.voteGranted = true →
    (m.source, r.term, m.target) ∈ s.votes
  received : ∀ x, (s.nodes x).role = .candidate → ∀ v ∈ (s.nodes x).votesReceived,
    (v, (s.nodes x).state.currentTerm, x) ∈ s.votes
  /-- A leader was elected by more than half of the members. -/
  elected : ∀ T x, (T, x) ∈ s.elected →
    ∃ W, Majority D.members.toFinset W ∧ ∀ p ∈ W, (p, T, x) ∈ s.votes
  elected_le : ∀ T x, (T, x) ∈ s.elected → T ≤ (s.nodes x).state.currentTerm
  candidate : ∀ x, (s.nodes x).role = .candidate →
    ((s.nodes x).state.currentTerm, x) ∉ s.elected
  leader : ∀ x, (s.nodes x).role = .leader → ((s.nodes x).state.currentTerm, x) ∈ s.elected

variable {D}

theorem ElectionInv.elected_unique {s : Cluster N S C} (hs : D.ElectionInv s) {T : ℕ} {x y : N}
    (hx : (T, x) ∈ s.elected) (hy : (T, y) ∈ s.elected) : x = y := by
  obtain ⟨W, hW, hvx⟩ := hs.elected T x hx
  obtain ⟨W', hW', hvy⟩ := hs.elected T y hy
  obtain ⟨p, hp, hp'⟩ := hW.inter hW'.half
  exact hs.unique p T x y (hvx p hp) (hvy p hp')

section Record

variable {s : Cluster N S C} {n : N} {o : Outcome N S C}

theorem record_nodes_self : (s.record n o).nodes n = o.node := by simp [Cluster.record]

theorem record_nodes_ne {p : N} (hp : p ≠ n) : (s.record n o).nodes p = s.nodes p := by
  simp [Cluster.record, hp]

theorem ElectionInv.follows (hs : D.ElectionInv s) (hf : (s.nodes n).Follows o.node)
    (hvotes : o.votes = []) (helected : o.elected = [])
    (hsent : ∀ m r, m ∈ o.sent → m.payload = .voteResponse r → r.voteGranted = false) :
    D.ElectionInv (s.record n o) := by
  have hv : (s.record n o).votes = s.votes := by simp [Cluster.record, hvotes]
  have he : (s.record n o).elected = s.elected := by simp [Cluster.record, helected]
  have hle (p : N) :
      (s.nodes p).state.currentTerm ≤ ((s.record n o).nodes p).state.currentTerm := by
    by_cases hp : p = n
    · subst hp
      rw [record_nodes_self]
      rcases hf.election with ⟨ht, -⟩ | ⟨ht, -⟩
      · exact ht.ge
      · exact ht.le
    · rw [record_nodes_ne hp]
  -- a node that is no follower afterwards has kept its term and its role
  have hrole (p : N) (hne : ((s.record n o).nodes p).role ≠ .follower) :
      ((s.record n o).nodes p).role = (s.nodes p).role ∧
        ((s.record n o).nodes p).state.currentTerm = (s.nodes p).state.currentTerm ∧
        ((s.record n o).nodes p).votesReceived = (s.nodes p).votesReceived := by
    by_cases hp : p = n
    · subst hp
      rw [record_nodes_self] at hne ⊢
      rcases hf.election with ⟨ht, -, hr⟩ | ⟨-, -, hr⟩
      · exact ⟨hr.resolve_right hne, ht, hf.votesReceived⟩
      · exact absurd hr hne
    · rw [record_nodes_ne hp]
      exact ⟨rfl, rfl, rfl⟩
  refine ⟨fun p T x => ?_, fun p T x => ?_, fun p x => ?_, fun p T x y => ?_, fun m r hm => ?_,
    fun x hx v => ?_, fun T x => ?_, fun T x => ?_, fun x hx => ?_, fun x hx => ?_⟩
  · rw [hv]
    exact hs.voter p T x
  · rw [hv]
    exact fun h => (hs.vote_le p T x h).trans (hle p)
  · rw [hv]
    intro h
    by_cases hp : p = n
    · subst hp
      rw [record_nodes_self] at h ⊢
      rcases hf.election with ⟨ht, hvote, -⟩ | ⟨ht, -⟩
      · rw [hvote]
        exact hs.votedFor p x (ht ▸ h)
      · have := hs.vote_le p _ x h
        omega
    · rw [record_nodes_ne hp] at h ⊢
      exact hs.votedFor p x h
  · rw [hv]
    exact hs.unique p T x y
  · rw [hv]
    intro hr hg
    rcases List.mem_append.mp hm with hm | hm
    · exact hs.response m r hm hr hg
    · rw [hsent m r hm hr] at hg
      cases hg
  · obtain ⟨hr, ht, hvr⟩ := hrole x (by rw [hx]; decide)
    rw [hv, ht, hvr]
    exact hs.received x (hr ▸ hx) v
  · rw [hv, he]
    exact hs.elected T x
  · rw [he]
    exact fun h => (hs.elected_le T x h).trans (hle x)
  · obtain ⟨hr, ht, -⟩ := hrole x (by rw [hx]; decide)
    rw [he, ht]
    exact hs.candidate x (hr ▸ hx)
  · obtain ⟨hr, ht, -⟩ := hrole x (by rw [hx]; decide)
    rw [he, ht]
    exact hs.leader x (hr ▸ hx)

theorem record_record (y : RaftNode N S) :
    (s.record n { node := y }).record n o = s.record n o := by
  simp [Cluster.record]

/-- The start of an election: a later term, a vote for oneself. -/
theorem ElectionInv.stand (hs : D.ElectionInv s) (hn : n ∈ D.members)
    (hid : (s.nodes n).id = n) (hnode : o.node = (s.nodes n).startElection.1)
    (hvotes : o.votes = [((s.nodes n).state.currentTerm + 1, n)]) (helected : o.elected = [])
    (hsent : ∀ m r, m ∈ o.sent → m.payload ≠ .voteResponse r) :
    D.ElectionInv (s.record n o) := by
  have hv (p : N) (T : ℕ) (x : N) : (p, T, x) ∈ (s.record n o).votes ↔
      (p, T, x) ∈ s.votes ∨ (p = n ∧ T = (s.nodes n).state.currentTerm + 1 ∧ x = n) := by
    simp [Cluster.record, hvotes]
  have he : (s.record n o).elected = s.elected := by simp [Cluster.record, helected]
  have hterm : o.node.state.currentTerm = (s.nodes n).state.currentTerm + 1 := by
    rw [hnode]
    rfl
  refine ⟨fun p T x => ?_, fun p T x => ?_, fun p x => ?_, fun p T x y => ?_, fun m r hm => ?_,
    fun x hx v => ?_, fun T x => ?_, fun T x => ?_, fun x hx => ?_, fun x hx => ?_⟩
  · rw [hv]
    rintro (h | ⟨rfl, -, -⟩)
    · exact hs.voter p T x h
    · exact hn
  · rw [hv]
    by_cases hp : p = n
    · subst hp
      rw [record_nodes_self, hterm]
      rintro (h | ⟨-, rfl, -⟩)
      · exact (hs.vote_le p T x h).trans (Nat.le_succ _)
      · exact le_rfl
    · rw [record_nodes_ne hp]
      rintro (h | ⟨rfl, -⟩)
      · exact hs.vote_le p T x h
      · exact absurd rfl hp
  · rw [hv]
    by_cases hp : p = n
    · subst hp
      rw [record_nodes_self, hterm]
      rintro (h | ⟨-, -, rfl⟩)
      · have := hs.vote_le p _ x h
        omega
      · rw [hnode]
        exact congrArg some hid
    · rw [record_nodes_ne hp]
      rintro (h | ⟨rfl, -⟩)
      · exact hs.votedFor p x h
      · exact absurd rfl hp
  · rw [hv, hv]
    rintro (h | ⟨hp, hT, hx⟩) (h' | ⟨hp', hT', hy⟩)
    · exact hs.unique p T x y h h'
    · have := hs.vote_le p T x h
      rw [hp', hT'] at this
      omega
    · have := hs.vote_le p T y h'
      rw [hp, hT] at this
      omega
    · exact hx.trans hy.symm
  · rw [hv]
    intro hr hg
    rcases List.mem_append.mp hm with hm | hm
    · exact .inl (hs.response m r hm hr hg)
    · exact absurd hr (hsent m r hm)
  · by_cases hp : x = n
    · subst hp
      rw [record_nodes_self, hterm, hnode, hv]
      intro hvr
      have : v = (s.nodes x).id := Finset.mem_singleton.mp hvr
      exact .inr ⟨this.trans hid, rfl, rfl⟩
    · rw [record_nodes_ne hp, hv] at *
      exact fun hvr => .inl (hs.received x hx v hvr)
  · rw [he]
    intro h
    obtain ⟨W, hW, hvW⟩ := hs.elected T x h
    exact ⟨W, hW, fun p hp => (hv p T x).mpr (.inl (hvW p hp))⟩
  · rw [he]
    intro h
    have := hs.elected_le T x h
    by_cases hp : x = n
    · subst hp
      rw [record_nodes_self, hterm]
      omega
    · rwa [record_nodes_ne hp]
  · rw [he]
    by_cases hp : x = n
    · subst hp
      rw [record_nodes_self, hterm]
      intro h
      have := hs.elected_le _ x h
      omega
    · rw [record_nodes_ne hp] at hx ⊢
      exact hs.candidate x hx
  · rw [he]
    by_cases hp : x = n
    · subst hp
      rw [record_nodes_self, hnode] at hx
      cases hx
    · rw [record_nodes_ne hp] at hx ⊢
      exact hs.leader x hx

/-- A vote for `x` by a node that has no other vote in its term. -/
theorem ElectionInv.vote (hs : D.ElectionInv s) (hn : n ∈ D.members) {x : N}
    (hfree : (s.nodes n).state.votedFor = none ∨ (s.nodes n).state.votedFor = some x)
    (hnode : o.node =
      { s.nodes n with state := { (s.nodes n).state with votedFor := some x } })
    (hvotes : o.votes = [((s.nodes n).state.currentTerm, x)]) (helected : o.elected = [])
    (hsent : ∀ m r, m ∈ o.sent → m.payload = .voteResponse r →
      m.source = n ∧ r.term = (s.nodes n).state.currentTerm ∧ m.target = x) :
    D.ElectionInv (s.record n o) := by
  have hv (p : N) (T : ℕ) (y : N) : (p, T, y) ∈ (s.record n o).votes ↔
      (p, T, y) ∈ s.votes ∨ (p = n ∧ T = (s.nodes n).state.currentTerm ∧ y = x) := by
    simp [Cluster.record, hvotes]
  have he : (s.record n o).elected = s.elected := by simp [Cluster.record, helected]
  have hsame (p : N) :
      ((s.record n o).nodes p).state.currentTerm = (s.nodes p).state.currentTerm ∧
        ((s.record n o).nodes p).role = (s.nodes p).role ∧
        ((s.record n o).nodes p).votesReceived = (s.nodes p).votesReceived := by
    by_cases hp : p = n
    · subst hp
      rw [record_nodes_self, hnode]
      exact ⟨rfl, rfl, rfl⟩
    · rw [record_nodes_ne hp]
      exact ⟨rfl, rfl, rfl⟩
  -- a vote the node already has in its term is the one it gives now
  have hown (y : N) (h : (n, (s.nodes n).state.currentTerm, y) ∈ s.votes) : y = x := by
    have hy := hs.votedFor n y h
    rcases hfree with hnone | hsome
    · rw [hnone] at hy
      cases hy
    · rw [hsome, Option.some.injEq] at hy
      exact hy.symm
  refine ⟨fun p T y => ?_, fun p T y => ?_, fun p y => ?_, fun p T y z => ?_, fun m r hm => ?_,
    fun y hy v => ?_, fun T y => ?_, fun T y => ?_, fun y hy => ?_, fun y hy => ?_⟩
  · rw [hv]
    rintro (h | ⟨rfl, -, -⟩)
    · exact hs.voter p T y h
    · exact hn
  · rw [hv, (hsame p).1]
    rintro (h | ⟨rfl, rfl, -⟩)
    · exact hs.vote_le p T y h
    · exact le_rfl
  · rw [hv, (hsame p).1]
    by_cases hp : p = n
    · subst hp
      rw [record_nodes_self, hnode]
      rintro (h | ⟨-, -, rfl⟩)
      · exact congrArg some (hown y h).symm
      · rfl
    · rw [record_nodes_ne hp]
      rintro (h | ⟨rfl, -⟩)
      · exact hs.votedFor p y h
      · exact absurd rfl hp
  · rw [hv, hv]
    rintro (h | ⟨hp, hT, hy⟩) (h' | ⟨hp', hT', hz⟩)
    · exact hs.unique p T y z h h'
    · subst hp' hT'
      exact (hown y h).trans hz.symm
    · subst hp hT
      exact hy.trans (hown z h').symm
    · exact hy.trans hz.symm
  · rw [hv]
    intro hr hg
    rcases List.mem_append.mp hm with hm | hm
    · exact .inl (hs.response m r hm hr hg)
    · exact .inr (hsent m r hm hr)
  · obtain ⟨ht, hr, hvr⟩ := hsame y
    rw [hv, ht, hvr]
    exact fun h => .inl (hs.received y (hr ▸ hy) v h)
  · rw [he]
    intro h
    obtain ⟨W, hW, hvW⟩ := hs.elected T y h
    exact ⟨W, hW, fun p hp => (hv p T y).mpr (.inl (hvW p hp))⟩
  · rw [he, (hsame y).1]
    exact hs.elected_le T y
  · rw [he, (hsame y).1]
    exact hs.candidate y ((hsame y).2.1 ▸ hy)
  · rw [he, (hsame y).1]
    exact hs.leader y ((hsame y).2.1 ▸ hy)

theorem ElectionInv.count (hs : D.ElectionInv s) {votes : Finset N}
    (hvotes : ∀ v ∈ votes, v ∈ (s.nodes n).votesReceived ∨
      (v, (s.nodes n).state.currentTerm, n) ∈ s.votes) :
    D.ElectionInv (s.record n { node := { s.nodes n with votesReceived := votes } }) := by
  have hv : (s.record n { node := { s.nodes n with votesReceived := votes } }).votes = s.votes := by
    simp [Cluster.record]
  have he : (s.record n { node := { s.nodes n with votesReceived := votes } }).elected =
      s.elected := by simp [Cluster.record]
  have hsame (p : N) :
      ((s.record n { node := { s.nodes n with votesReceived := votes } }).nodes p).state =
          (s.nodes p).state ∧
        ((s.record n { node := { s.nodes n with votesReceived := votes } }).nodes p).role =
          (s.nodes p).role := by
    by_cases hp : p = n
    · subst hp
      rw [record_nodes_self]
      exact ⟨rfl, rfl⟩
    · rw [record_nodes_ne hp]
      exact ⟨rfl, rfl⟩
  refine ⟨hv ▸ hs.voter, fun p T x h => ?_, fun p x h => ?_, hv ▸ hs.unique, fun m r hm hr => ?_,
    fun x hx v hvr => ?_, hv ▸ he ▸ hs.elected, fun T x h => ?_, fun x hx => ?_, fun x hx => ?_⟩
  · rw [(hsame p).1]
    exact hs.vote_le p T x (hv ▸ h)
  · rw [(hsame p).1] at h ⊢
    exact hs.votedFor p x (hv ▸ h)
  · rw [hv]
    exact hs.response m r (by simpa [Cluster.record] using hm) hr
  · rw [hv, (hsame x).1]
    rw [(hsame x).2] at hx
    by_cases hp : x = n
    · subst hp
      rw [record_nodes_self] at hvr
      exact (hvotes v hvr).elim (hs.received x hx v) fun h => h
    · rw [record_nodes_ne hp] at hvr
      exact hs.received x hx v hvr
  · rw [(hsame x).1]
    exact hs.elected_le T x (he ▸ h)
  · rw [he, (hsame x).1]
    exact hs.candidate x ((hsame x).2 ▸ hx)
  · rw [he, (hsame x).1]
    exact hs.leader x ((hsame x).2 ▸ hx)

/-- A candidate with enough votes becomes the leader of its term. -/
theorem ElectionInv.elect (hs : D.ElectionInv s) (hn : n ∈ D.members)
    (hw : (s.nodes n).Wired D.members n) (hrole : (s.nodes n).role = .candidate)
    (hquorum : (s.nodes n).quorumSize ≤ (s.nodes n).votesReceived.card)
    (hnode : o.node = (s.nodes n).becomeLeaderWithTerm (s.nodes n).state.currentTerm)
    (hvotes : o.votes = []) (helected : o.elected = [(s.nodes n).state.currentTerm])
    (hsent : o.sent = []) : D.ElectionInv (s.record n o) := by
  have hv : (s.record n o).votes = s.votes := by simp [Cluster.record, hvotes]
  have he (T : ℕ) (x : N) : (T, x) ∈ (s.record n o).elected ↔
      (T, x) ∈ s.elected ∨ (T = (s.nodes n).state.currentTerm ∧ x = n) := by
    simp [Cluster.record, helected]
  have hstate (p : N) : ((s.record n o).nodes p).state = (s.nodes p).state := by
    by_cases hp : p = n
    · subst hp
      rw [record_nodes_self, hnode]
      rfl
    · rw [record_nodes_ne hp]
  refine ⟨hv ▸ hs.voter, fun p T x h => ?_, fun p x h => ?_, hv ▸ hs.unique, fun m r hm hr => ?_,
    fun x hx v hvr => ?_, fun T x h => ?_, fun T x h => ?_, fun x hx => ?_, fun x hx => ?_⟩
  · rw [hstate]
    exact hs.vote_le p T x (hv ▸ h)
  · rw [hstate] at h ⊢
    exact hs.votedFor p x (hv ▸ h)
  · rw [hv]
    exact hs.response m r (by simpa [Cluster.record, hsent] using hm) hr
  · by_cases hp : x = n
    · subst hp
      rw [record_nodes_self, hnode] at hx
      cases hx
    · rw [record_nodes_ne hp] at hx hvr ⊢
      exact hv ▸ hs.received x hx v hvr
  · rw [hv]
    rcases (he T x).mp h with h | ⟨rfl, rfl⟩
    · exact hs.elected T x h
    · refine ⟨(s.nodes x).votesReceived, ⟨fun v hvr => ?_, ?_⟩, hs.received x hrole⟩
      · exact List.mem_toFinset.mpr (hs.voter v _ x (hs.received x hrole v hvr))
      · rw [RaftNode.quorumSize, hw.clusterSize_eq hn] at hquorum
        omega
  · rw [hstate]
    rcases (he T x).mp h with h | ⟨rfl, rfl⟩
    · exact hs.elected_le T x h
    · exact le_rfl
  · by_cases hp : x = n
    · subst hp
      rw [record_nodes_self, hnode] at hx
      cases hx
    · rw [hstate, he]
      rw [record_nodes_ne hp] at hx
      rintro (h | ⟨-, rfl⟩)
      · exact hs.candidate x hx h
      · exact hp rfl
  · rw [hstate, he]
    by_cases hp : x = n
    · exact .inr ⟨hp ▸ rfl, hp⟩
    · rw [record_nodes_ne hp] at hx
      exact .inl (hs.leader x hx)

end Record

/-- A request for a vote is answered by a vote for its sender, or not at all. -/
theorem ElectionInv.handleVoteRequest {s : Cluster N S C} (hs : D.ElectionInv s) {n source : N}
    (hn : n ∈ D.members) {request : VoteRequest N} (hid : request.candidateId = source) :
    D.ElectionInv (s.record n
      ((s.nodes n).processMessage D.backend n source (.voteRequest request))) := by
  have hf := (RaftNode.noticeTerm_keeps (s.nodes n) request.term).toFollows
  generalize hy : (s.nodes n).noticeTerm request.term = y at hf
  -- first the term is noticed, then the vote is given
  have hs₁ : D.ElectionInv (s.record n { node := y }) :=
    hs.follows hf rfl rfl fun m r hm => by cases hm
  rw [← record_record y]
  by_cases hg : y.grantsVote request = true
  · obtain ⟨hterm, hfree, -⟩ := RaftNode.grantsVote_eq_true (hy ▸ hg)
    rw [hy] at hterm hfree
    refine hs₁.vote hn (x := source) ?_ ?_ ?_ rfl fun m r hm hr => ?_
    · simpa [record_nodes_self, hid] using hfree
    · simp [record_nodes_self, RaftNode.processMessage, RaftNode.handleVoteRequest, hy, hg, hid]
    · simp [record_nodes_self, RaftNode.processMessage, RaftNode.handleVoteRequest, hy, hg, hid]
    · simp only [RaftNode.processMessage, RaftNode.handleVoteRequest, hy, hg, if_true,
        List.mem_singleton] at hm
      subst hm
      simp only [MessagePayload.voteResponse.injEq] at hr
      subst hr
      exact ⟨rfl, by rw [record_nodes_self], rfl⟩
  · rw [Bool.not_eq_true] at hg
    refine hs₁.follows ?_ ?_ rfl fun m r hm hr => ?_
    · simp [record_nodes_self, RaftNode.processMessage, RaftNode.handleVoteRequest, hy, hg]
      rfl
    · simp [RaftNode.processMessage, RaftNode.handleVoteRequest, hy, hg]
    · simp only [RaftNode.processMessage, RaftNode.handleVoteRequest, hy, hg,
        List.mem_singleton] at hm
      subst hm
      simp only [Bool.false_eq_true, if_false, MessagePayload.voteResponse.injEq] at hr
      exact hr ▸ rfl

/-- An answer to a request for a vote is counted by a candidate of its term. -/
theorem ElectionInv.handleVoteResponse {s : Cluster N S C} (hs : D.ElectionInv s)
    (hw : D.ClusterWired s) {m : Message N} (hn : m.target ∈ D.members) (hm : m ∈ s.sent)
    {response : VoteResponse N} (hp : m.payload = .voteResponse response) :
    D.ElectionInv (s.record m.target
      ((s.nodes m.target).processMessage D.backend m.target m.source
        (.voteResponse response))) := by
  have hvoter : response.voterId = m.source := by
    have := (hw.sent m hm).2.2.2
    rwa [hp] at this
  generalize hx : s.nodes m.target = x
  by_cases hlt : x.state.currentTerm < response.term
  · refine hs.follows ?_ rfl ?_ fun _ _ h => by cases h
    · simp only [RaftNode.processMessage, RaftNode.handleVoteResponse, hlt, if_true, hx]
      exact (RaftNode.stepDown_keeps hlt).toFollows
    · simp [RaftNode.processMessage, RaftNode.handleVoteResponse, hlt]
  by_cases hstale : x.role ≠ .candidate ∨ response.term ≠ x.state.currentTerm
  · refine hs.follows ?_ rfl ?_ fun _ _ h => by cases h
    · simp only [RaftNode.processMessage, RaftNode.handleVoteResponse, hlt, if_false, hstale,
        if_true, hx]
      rfl
    · simp only [RaftNode.processMessage, RaftNode.handleVoteResponse, hlt, if_false, hstale,
        if_true]
      rfl
  push Not at hstale
  obtain ⟨hrole, hterm⟩ := hstale
  obtain ⟨votes, hvotes, hcount⟩ := RaftNode.countVote_eq x response
  have hs₁ : D.ElectionInv (s.record m.target { node := { x with votesReceived := votes } }) := by
    subst hx
    refine hs.count fun v hv => ?_
    rcases hcount with rfl | ⟨hg, rfl⟩
    · exact .inl hv
    · rcases Finset.mem_insert.mp hv with rfl | hv
      · right
        rw [hvoter, ← hterm]
        exact hs.response m response hm hp hg
      · exact .inl hv
  rw [← record_record (x.countVote response)]
  rw [← hvotes] at hs₁
  have heq := RaftNode.handleVoteResponse_of_candidate hrole hterm
  split_ifs at heq with hq
  · refine hs₁.elect hn ?_ ?_ ?_ ?_ rfl ?_ rfl
    · rw [record_nodes_self, hvotes]
      exact (hx ▸ hw.nodes m.target).congr rfl rfl rfl rfl
    · rw [record_nodes_self, hvotes]
      exact hrole
    · rw [record_nodes_self]
      exact hq
    · rw [record_nodes_self]
      simp only [RaftNode.processMessage, heq]
    · rw [record_nodes_self]
      simp only [RaftNode.processMessage, heq, if_true]
      rfl
  · refine hs₁.follows ?_ rfl ?_ fun _ _ h => by cases h
    · rw [record_nodes_self]
      simp only [RaftNode.processMessage, heq]
      rfl
    · simp only [RaftNode.processMessage, heq]
      rfl

/-- One action keeps the votes on record, by cases on the handler that runs. -/
theorem electionInv_step {s s' : Cluster N S C} {a : ClusterAction N C} (hw : D.ClusterWired s)
    (hs : D.ElectionInv s) (hstep : D.system.step s a = some s') : D.ElectionInv s' := by
  obtain ⟨n, o, ho, hn, rfl⟩ := D.step_eq_some hstep
  cases a with
  | electionTimeout p =>
    obtain ⟨rfl, rfl⟩ := Prod.mk.inj (Option.some.inj ho)
    refine hs.stand hn (hw.nodes p).id rfl rfl rfl fun m r hm hr => ?_
    obtain ⟨q, -, rfl⟩ := List.mem_map.mp hm
    cases hr
  | checkLease p =>
    obtain ⟨rfl, rfl⟩ := Prod.mk.inj (Option.some.inj ho)
    exact hs.follows (RaftNode.checkLease_keeps _).toFollows rfl rfl fun _ _ h => by cases h
  | propose p command =>
    obtain ⟨rfl, rfl⟩ := Prod.mk.inj (Option.some.inj ho)
    exact hs.follows (RaftNode.propose_keeps _ _ _).toFollows rfl rfl fun _ _ h => by cases h
  | sendAppendEntries p peer =>
    obtain ⟨request, -, ho⟩ := Option.map_eq_some_iff.mp ho
    obtain ⟨rfl, rfl⟩ := Prod.mk.inj ho
    refine hs.follows (.refl _) rfl rfl fun m r hm hr => ?_
    rw [List.mem_singleton.mp hm] at hr
    cases hr
  | applyCommitted p turns =>
    obtain ⟨rfl, rfl⟩ := Prod.mk.inj (Option.some.inj ho)
    exact hs.follows (RaftNode.applyCommitted_keeps _ _ _).toFollows rfl rfl fun _ _ h => by
      cases h
  | takeSnapshot p =>
    obtain ⟨rfl, rfl⟩ := Prod.mk.inj (Option.some.inj ho)
    exact hs.follows (RaftNode.takeSnapshot_keeps _ _).toFollows rfl rfl fun _ _ h => by cases h
  | sendInstallSnapshot p peer offset =>
    obtain ⟨request, -, ho⟩ := Option.map_eq_some_iff.mp ho
    obtain ⟨rfl, rfl⟩ := Prod.mk.inj ho
    refine hs.follows (.refl _) rfl rfl fun m r hm hr => ?_
    rw [List.mem_singleton.mp hm] at hr
    cases hr
  | deliver position =>
    obtain ⟨m, hm, ho⟩ := Option.map_eq_some_iff.mp ho
    obtain ⟨rfl, rfl⟩ := Prod.mk.inj ho
    have hmem := List.mem_of_getElem? hm
    cases hp : m.payload with
    | voteRequest request =>
      have hid := (hw.sent m hmem).2.2.2
      rw [hp] at hid
      exact hs.handleVoteRequest hn hid
    | voteResponse response => exact hs.handleVoteResponse hw hn hmem hp
    | appendEntries request =>
      refine hs.follows (RaftNode.handleAppendEntries_keeps _ request).toFollows rfl rfl
        fun r _ hr hpr => ?_
      rw [List.mem_singleton.mp hr] at hpr
      cases hpr
    | appendEntriesResponse response lastTerm =>
      exact hs.follows (RaftNode.handleAppendEntriesResponse_follows _ _ _) rfl rfl
        fun _ _ h => by cases h
    | installSnapshot request =>
      refine hs.follows (RaftNode.handleInstallSnapshot_keeps _ _ request).toFollows rfl rfl
        fun r _ hr hpr => ?_
      rw [List.mem_singleton.mp hr] at hpr
      cases hpr
    | installSnapshotResponse response wasLastChunk =>
      exact hs.follows (RaftNode.handleInstallSnapshotResponse_follows _ _ _ _) rfl rfl
        fun _ _ h => by cases h

theorem electionInv {s : Cluster N S C} {Φ : Cluster N S C → ClusterAction N C → Prop}
    (h : D.system.Reach Φ s) : D.ElectionInv s := by
  refine System.Reach.invariant (P := D.ElectionInv) ?_
    (fun _ _ _ hr hs _ hstep => electionInv_step (wired hr) hs hstep) h
  have hinit (n : N) : (D.initialNode n).role = .follower := by
    obtain ⟨_, _, _, heq, -⟩ := D.initialNode_spec n
    rw [heq]
    rfl
  have hrole (n : N) : ((D.system.init : Cluster N S C).nodes n).role = .follower := hinit n
  exact
    { voter := fun _ _ _ h => absurd h List.not_mem_nil
      vote_le := fun _ _ _ h => absurd h List.not_mem_nil
      votedFor := fun _ _ h => absurd h List.not_mem_nil
      unique := fun _ _ _ _ h => absurd h List.not_mem_nil
      response := fun _ _ h => absurd h List.not_mem_nil
      received := fun x hx => by
        rw [hrole x] at hx
        cases hx
      elected := fun _ _ h => absurd h List.not_mem_nil
      elected_le := fun _ _ h => absurd h List.not_mem_nil
      candidate := fun _ _ => List.not_mem_nil
      leader := fun x hx => by
        rw [hrole x] at hx
        cases hx }

/-- Election safety: in every run at most one node becomes the leader of a term.  Every node that
is a leader is on record as elected in its term. -/
theorem election_safety {s : Cluster N S C} (h : D.system.Reachable s) :
    (∀ T x y, (T, x) ∈ s.elected → (T, y) ∈ s.elected → x = y) ∧
      ∀ x, (s.nodes x).role = .leader → ((s.nodes x).state.currentTerm, x) ∈ s.elected :=
  ⟨fun _ _ _ => (electionInv h).elected_unique, (electionInv h).leader⟩

/-- Node `0` stands for election and node `2` votes for it. -/
def electionSchedule : List (ClusterAction ℕ UInt8) :=
  [.electionTimeout 0, .deliver 0, .deliver 2]

theorem election_safety_three :
    ∃ s, (commandLogCluster 3).system.Reachable s ∧ (s.nodes 0).role = .leader ∧
      (1, 0) ∈ s.elected ∧ ∀ y, (1, y) ∈ s.elected → 0 = y := by
  have hrun : ((commandLogCluster 3).system.run (fun _ _ => True) electionSchedule).map
      (fun s => (s.elected, (s.nodes 0).role)) = some ([(1, 0)], .leader) := by decide +kernel
  obtain ⟨s, hs, heq⟩ := Option.map_eq_some_iff.mp hrun
  obtain ⟨helected, hrole⟩ := Prod.mk.inj heq
  have hreach := System.reach_of_run hs
  have hmem : (1, 0) ∈ s.elected := by simp [helected]
  exact ⟨s, hreach, hrole, hmem, fun y hy => (election_safety hreach).1 1 0 y hmem hy⟩

end Deployment

end Replication

end AegisDB
