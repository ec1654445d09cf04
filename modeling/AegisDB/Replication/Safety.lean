import AegisDB.Replication.ClusterHistory

/-!
# Safety of the cluster

What the history of a run says about the logs, the commit indices and the applied commands of the
nodes.  All three results hold of the runs whose counted replies are truthful, and each of them
fails in a run with an untruthful one, or, for the commit rule, with an even cluster: the schedules
that show it are given next to the results.
-/

namespace AegisDB

namespace Replication

open TermLog

variable {N S C Snap : Type*} [DecidableEq N]

namespace Deployment

variable {D : Deployment N S C Snap}

/-! ## State machine safety -/

/-- State machine safety: in a run whose counted replies are truthful, all commands ever applied
at an index, by whatever node and however often, are the same. -/
theorem state_machine_safety {s : Cluster N S C} (hs : D.system.Reach Truthful s) :
    ∀ n m i c d, (n, i, c) ∈ s.applied → (m, i, d) ∈ s.applied → c = d := by
  intro n m i c d hc hd
  obtain ⟨h, hr⟩ := exists_refines hs
  obtain ⟨U, P, e, hP, hi, hPe, hdec⟩ := hr.applied n i c hc
  obtain ⟨U', P', e', hP', -, hPe', hdec'⟩ := hr.applied m i d hd
  have heq : e = e' := by
    rcases hP.comparable hr.safe hP' with ⟨t, ht⟩ | ⟨t, ht⟩
    · have hlt := (List.getElem?_eq_some_iff.mp hPe).1
      rw [← ht, List.getElem?_append_left hlt, hPe, Option.some.injEq] at hPe'
      exact hPe'
    · have hlt := (List.getElem?_eq_some_iff.mp hPe').1
      rw [← ht, List.getElem?_append_left hlt, hPe', Option.some.injEq] at hPe
      exact hPe.symm
  rw [heq, hdec', Option.some.injEq] at hdec
  exact hdec.symm

/-- Node `0` is elected by node `2`, replicates the command `7` to it, and both apply it. -/
def replicationSchedule : List (ClusterAction ℕ UInt8) :=
  [.electionTimeout 0, .deliver 0, .deliver 2, .propose 0 7, .sendAppendEntries 0 2, .deliver 3,
    .deliver 4, .applyCommitted 0 2, .sendAppendEntries 0 2, .deliver 5, .applyCommitted 2 2]

theorem state_machine_safety_replication :
    ∃ s, (commandLogCluster 3).system.Reach Truthful s ∧ (0, 2, 7) ∈ s.applied ∧
      (2, 2, 7) ∈ s.applied ∧ ∀ m d, (m, 2, d) ∈ s.applied → 7 = d := by
  have hrun : ((commandLogCluster 3).system.run Truthful replicationSchedule).map
      (fun s => s.applied) = some [(0, 2, 7), (2, 2, 7)] := by decide +kernel
  obtain ⟨s, hs, happlied⟩ := Option.map_eq_some_iff.mp hrun
  have hreach := System.reach_of_run hs
  refine ⟨s, hreach, by simp [happlied], by simp [happlied], fun m d hd => ?_⟩
  exact state_machine_safety hreach 0 m 2 7 d (by simp [happlied]) hd

/-- Node `0` leads term 1 and keeps three entries to itself.  Node `1` leads term 2, commits and
compacts its first entry, and sends node `0` a request without entries, which node `0` answers
with its own last index `4`; node `1` counts that, and applies its next two entries alone.  Node
`2` leads term 3 and replicates other entries there. -/
def divergedReplySchedule : List (ClusterAction ℕ UInt8) :=
  [.electionTimeout 0, .deliver 0, .deliver 2, .propose 0 10, .propose 0 11, .propose 0 12,
    .electionTimeout 1, .electionTimeout 1, .deliver 5, .deliver 7, .sendAppendEntries 1 2,
    .deliver 8, .deliver 9, .applyCommitted 1 1, .takeSnapshot 1,
    .sendAppendEntries 1 0, .deliver 10, .propose 1 20, .propose 1 21, .deliver 11,
    .applyCommitted 1 2,
    .electionTimeout 2, .deliver 13, .deliver 14, .propose 2 30, .sendAppendEntries 2 0,
    .deliver 15, .deliver 16, .sendAppendEntries 2 0, .deliver 17, .deliver 18,
    .applyCommitted 2 3]

/-- Counting the last index of a diverged log makes two nodes apply different commands. -/
theorem not_state_machine_safety :
    ¬ ∀ s, (commandLogCluster 3).system.Reachable s →
      ∀ n m i c d, (n, i, c) ∈ s.applied → (m, i, d) ∈ s.applied → c = d := by
  intro hall
  have hrun : ((commandLogCluster 3).system.run (fun _ _ => True) divergedReplySchedule).map
      (fun s => s.applied) = some [(1, 2, 20), (1, 3, 21), (2, 3, 30)] := by decide +kernel
  obtain ⟨s, hs, happlied⟩ := Option.map_eq_some_iff.mp hrun
  have := hall s (System.reach_of_run hs) 1 2 3 21 30 (by simp [happlied]) (by simp [happlied])
  exact absurd this (by decide)

/-! ## Log matching -/

/-- Log matching across compaction: in a run whose counted replies are truthful, two nodes that
hold entries of one term at an index hold the same entries there and at every earlier index that
both still hold. -/
theorem log_matching {s : Cluster N S C} (hs : D.system.Reach Truthful s) :
    ∀ p q i e e', (s.nodes p).log.get i = some e → (s.nodes q).log.get i = some e' →
      e.term = e'.term → e = e' ∧
        ∀ j ≤ i, ∀ f f', (s.nodes p).log.get j = some f → (s.nodes q).log.get j = some f' →
          f = f' := by
  intro p q i e e' he he' ht
  obtain ⟨h, hr⟩ := exists_refines hs
  obtain ⟨hpi, hpe⟩ := (hr.node p).window.get_eq_some he
  obtain ⟨hqi, hqe⟩ := (hr.node q).window.get_eq_some he'
  have htake := (hr.safe.authored.node p).take_eq (hr.safe.authored.node q) hpe hqe ht
  -- the uncompacted logs agree up to the index
  have hagree (k : ℕ) (hk : k ≤ i - 1) : (h.log p)[k]? = (h.log q)[k]? := by
    have := congrArg (·[k]?) htake
    simpa [List.getElem?_take_of_lt (Nat.lt_succ_of_le hk)] using this
  refine ⟨?_, fun j hj f f' hf hf' => ?_⟩
  · have := hagree (i - 1) le_rfl
    rw [hpe, hqe, Option.some.injEq] at this
    exact this
  · obtain ⟨hpj, hpf⟩ := (hr.node p).window.get_eq_some hf
    obtain ⟨hqj, hqf⟩ := (hr.node q).window.get_eq_some hf'
    have := hagree (j - 1) (by omega)
    rw [hpf, hqf, Option.some.injEq] at this
    exact this

theorem log_matching_replication :
    ∃ s, (commandLogCluster 3).system.Reach Truthful s ∧
      (s.nodes 0).log.get 2 = some (.command 2 1 [7]) ∧
      (s.nodes 2).log.get 2 = some (.command 2 1 [7]) ∧
      ∀ j ≤ 2, ∀ f f', (s.nodes 0).log.get j = some f → (s.nodes 2).log.get j = some f' →
        f = f' := by
  have hrun : ((commandLogCluster 3).system.run Truthful replicationSchedule).map
      (fun s => ((s.nodes 0).log.get 2, (s.nodes 2).log.get 2)) =
        some (some (.command 2 1 [7]), some (.command 2 1 [7])) := by decide +kernel
  obtain ⟨s, hs, hlogs⟩ := Option.map_eq_some_iff.mp hrun
  obtain ⟨h0, h2⟩ := Prod.mk.inj hlogs
  have hreach := System.reach_of_run hs
  exact ⟨s, hreach, h0, h2, (log_matching hreach 0 2 2 _ _ h0 h2 rfl).2⟩

/-- As in `divergedReplySchedule` node `1` commits and compacts entries of term 2 that only node
`3` has, this time in a cluster of five.  Node `2` leads term 3 with other entries there.  Node
`1` finds them in conflict with the end of its snapshot, drops nothing but what follows, and takes
over the entry behind it.  As the leader of term 4 it passes that entry on to node `3`. -/
def compactedConflictSchedule : List (ClusterAction ℕ UInt8) :=
  [.electionTimeout 0, .deliver 0, .deliver 1, .deliver 4, .deliver 5,
    .propose 0 10, .propose 0 11, .propose 0 12,
    .electionTimeout 1, .electionTimeout 1, .deliver 10, .deliver 11, .deliver 14, .deliver 15,
    .sendAppendEntries 1 2, .sendAppendEntries 1 3, .deliver 16, .deliver 17, .deliver 18,
    .deliver 19, .applyCommitted 1 1, .takeSnapshot 1, .propose 1 20, .propose 1 21,
    .sendAppendEntries 1 3, .deliver 20, .deliver 21, .sendAppendEntries 1 0, .deliver 22,
    .deliver 23, .applyCommitted 1 2, .takeSnapshot 1,
    .electionTimeout 2, .deliver 24, .deliver 27, .deliver 28, .deliver 29, .propose 2 30,
    .propose 2 31, .sendAppendEntries 2 1, .deliver 30, .deliver 31, .sendAppendEntries 2 1,
    .deliver 32, .deliver 33, .sendAppendEntries 2 1, .deliver 34,
    .electionTimeout 1, .deliver 36, .deliver 37, .deliver 40, .deliver 41,
    .sendAppendEntries 1 3, .deliver 42, .deliver 43, .sendAppendEntries 1 3, .deliver 44]

/-- A committed prefix that was not one makes logs with a common entry disagree before it. -/
theorem not_log_matching :
    ¬ ∀ s, (commandLogCluster 5).system.Reachable s →
      ∀ p q i e e', (s.nodes p).log.get i = some e → (s.nodes q).log.get i = some e' →
        e.term = e'.term → (e.entryType = e'.entryType ∧ e.data = e'.data) ∧
          ∀ j ≤ i, ∀ f f', (s.nodes p).log.get j = some f → (s.nodes q).log.get j = some f' →
            f.term = f'.term ∧ f.entryType = f'.entryType ∧ f.data = f'.data := by
  intro hall
  have hrun : ((commandLogCluster 5).system.run (fun _ _ => True) compactedConflictSchedule).map
      (fun s => ((s.nodes 2).log.entries, (s.nodes 2).log.firstIndex,
        (s.nodes 3).log.entries, (s.nodes 3).log.firstIndex)) =
      some ([.noop 1 2, .noop 2 3, .command 3 3 [30], .command 4 3 [31]], 1,
        [.noop 1 2, .command 2 2 [20], .command 3 2 [21], .command 4 3 [31], .noop 5 4], 1) := by
    decide +kernel
  obtain ⟨s, hs, hlogs⟩ := Option.map_eq_some_iff.mp hrun
  simp only [Prod.mk.injEq] at hlogs
  obtain ⟨h2, hf2, h3, hf3⟩ := hlogs
  have hget (n k : ℕ) (hf : (s.nodes n).log.firstIndex = 1) :
      (s.nodes n).log.get (k + 1) = (s.nodes n).log.entries[k]? := by
    simp [ReplicatedLog.get, hf]
  have := (hall s (System.reach_of_run hs) 2 3 4 (.command 4 3 [31]) (.command 4 3 [31])
    (by rw [hget 2 3 hf2, h2]; rfl) (by rw [hget 3 3 hf3, h3]; rfl) rfl).2 3 (by decide)
    (.command 3 3 [30]) (.command 3 2 [21]) (by rw [hget 2 2 hf2, h2]; rfl)
    (by rw [hget 3 2 hf3, h3]; rfl)
  exact absurd this.1 (by decide)

/-! ## The commit rule -/

/-- More than half of the members hold the entry that node `n` holds at an index. -/
def StoredByMajority (D : Deployment N S C Snap) (s : Cluster N S C) (n : N) (index : ℕ) : Prop :=
  ∃ W, Majority D.members.toFinset W ∧
    ∀ p ∈ W, ∃ e, (s.nodes p).log.get index = some e ∧ (s.nodes n).log.get index = some e

/-- A leader counts a truthful reply after which no index of its own term is reported by exactly
half of the cluster, and no such index is compacted by any node. -/
def CommitsByMajority (D : Deployment N S C Snap) (s : Cluster N S C) (a : ClusterAction N C) :
    Prop :=
  Truthful s a ∧ ∀ r ∈ s.countedReply a,
    let x := s.nodes r.leader
    let reported := (x.recordMatch r.follower r.matchIndex).matchIndices
    ∀ v ∈ reported, x.state.commitIndex < v → x.log.termAt v = some x.state.currentTerm →
      2 * (reported.filter fun w => v ≤ w).length ≠ reported.length ∧
        ∀ p ∈ D.members, (s.nodes p).log.snapshotIndex < v

instance (s : Cluster N S C) (a : ClusterAction N C) : Decidable (CommitsByMajority D s a) :=
  inferInstanceAs (Decidable (_ ∧ _))

/-- Snapshots are sent by nodes that were elected in their term. -/
theorem installSnapshot_elected {s : Cluster N S C}
    {Φ : Cluster N S C → ClusterAction N C → Prop} (hs : D.system.Reach Φ s) :
    ∀ m ∈ s.sent, ∀ request, m.payload = .installSnapshot request →
      (request.term, m.source) ∈ s.elected := by
  refine System.Reach.invariant (P := fun s => ∀ m ∈ s.sent, ∀ request,
    m.payload = .installSnapshot request → (request.term, m.source) ∈ s.elected)
    (fun m hm => by cases hm) ?_ hs
  intro s a s' hreach ih _ hstep m hm request hreq
  obtain ⟨n, o, ho, -, rfl⟩ := D.step_eq_some hstep
  rcases List.mem_append.mp hm with hold | hnew
  · exact List.mem_append_left _ (ih m hold request hreq)
  refine List.mem_append_left _ ?_
  cases a with
  | electionTimeout p =>
    obtain ⟨rfl, rfl⟩ := Prod.mk.inj (Option.some.inj ho)
    obtain ⟨q, -, rfl⟩ := List.mem_map.mp hnew
    cases hreq
  | sendAppendEntries p peer =>
    obtain ⟨r, -, ho⟩ := Option.map_eq_some_iff.mp ho
    obtain ⟨rfl, rfl⟩ := Prod.mk.inj ho
    rw [List.mem_singleton.mp hnew] at hreq
    cases hreq
  | sendInstallSnapshot p peer offset =>
    obtain ⟨r, hr, ho⟩ := Option.map_eq_some_iff.mp ho
    obtain ⟨rfl, rfl⟩ := Prod.mk.inj ho
    rw [List.mem_singleton.mp hnew] at hreq ⊢
    obtain rfl := MessagePayload.installSnapshot.inj hreq
    unfold RaftNode.createInstallSnapshot at hr
    split_ifs at hr with hleader
    have helected := (electionInv hreach).leader p (by simpa [RaftNode.isLeader] using hleader)
    split at hr
    · split_ifs at hr
      obtain rfl := Option.some.inj hr
      exact helected
    · cases hr
  | deliver position =>
    obtain ⟨r, -, ho⟩ := Option.map_eq_some_iff.mp ho
    obtain ⟨rfl, rfl⟩ := Prod.mk.inj ho
    cases hp : r.payload with
    | voteRequest _ | appendEntries _ | installSnapshot _ =>
      rw [hp] at hnew
      rw [List.mem_singleton.mp hnew] at hreq
      cases hreq
    | voteResponse _ | appendEntriesResponse _ _ | installSnapshotResponse _ _ =>
      rw [hp] at hnew
      cases hnew
  | checkLease p | propose p command | applyCommitted p turns | takeSnapshot p =>
    obtain ⟨rfl, rfl⟩ := Prod.mk.inj (Option.some.inj ho)
    cases hnew

/-- A message that moves the commit index of a leader which stays one is a snapshot, or a reply to an
append request. -/
theorem processMessage_moves {x : RaftNode N S} {target source : N} {payload : MessagePayload N}
    (hrole : x.role = .leader) (hsnapshot : ∀ request, payload ≠ .installSnapshot request)
    (hrole' : (RaftNode.processMessage D.backend x target source payload).node.role = .leader)
    (hmoves : x.state.commitIndex ≠
      (RaftNode.processMessage D.backend x target source payload).node.state.commitIndex) :
    ∃ response lastTerm, payload = .appendEntriesResponse response lastTerm ∧
      response.success = true ∧ response.term ≤ x.state.currentTerm ∧
      (RaftNode.processMessage D.backend x target source payload).node =
        (x.recordMatch source response.matchIndex).tryAdvanceCommitIndex := by
  have hleader : x.isLeader = true := by simp [RaftNode.isLeader, hrole]
  cases payload with
  | voteRequest request =>
    refine absurd ?_ hmoves
    show _ = (x.handleVoteRequest request).1.state.commitIndex
    unfold RaftNode.handleVoteRequest RaftNode.noticeTerm
    dsimp only
    split <;> split <;> rfl
  | voteResponse response =>
    refine absurd ?_ hmoves
    show _ = (x.handleVoteResponse response).1.state.commitIndex
    unfold RaftNode.handleVoteResponse
    split
    · rfl
    · rw [if_pos (.inl (by rw [hrole]; decide))]
  | appendEntries request =>
    have hrole'' : (x.handleAppendEntries request).1.role = .leader := hrole'
    have hmoves' : x.state.commitIndex ≠
        (x.handleAppendEntries request).1.state.commitIndex := hmoves
    by_cases hlt : request.term < x.state.currentTerm
    · rw [RaftNode.handleAppendEntries, if_pos hlt] at hmoves'
      exact absurd rfl hmoves'
    · rw [RaftNode.handleAppendEntries, if_neg hlt] at hrole''
      dsimp only at hrole''
      split at hrole''
      · cases hrole''
      · unfold RaftNode.acceptEntries RaftNode.followCommit at hrole''
        split at hrole'' <;> cases hrole''
  | appendEntriesResponse response lastTerm =>
    have hnode : (RaftNode.processMessage D.backend x target source
        (.appendEntriesResponse response lastTerm)).node =
        x.handleAppendEntriesResponse source response := rfl
    rw [hnode] at hmoves hrole' ⊢
    unfold RaftNode.handleAppendEntriesResponse at hmoves hrole' ⊢
    by_cases hlt : x.state.currentTerm < response.term
    · rw [if_pos hlt] at hrole'
      cases hrole'
    · rw [if_neg hlt, if_neg (by simp [hleader])] at hmoves ⊢
      by_cases hsucc : response.success = true
      · rw [if_pos hsucc]
        exact ⟨response, lastTerm, rfl, hsucc, Nat.le_of_not_lt hlt, rfl⟩
      · rw [if_neg hsucc] at hmoves
        refine absurd ?_ hmoves
        unfold RaftNode.retryFrom
        split <;> rfl
  | installSnapshot request => exact absurd rfl (hsnapshot request)
  | installSnapshotResponse response wasLastChunk =>
    refine absurd ?_ hmoves
    show _ = (x.handleInstallSnapshotResponse source response
      wasLastChunk).state.commitIndex
    unfold RaftNode.handleInstallSnapshotResponse
    by_cases hlt : x.state.currentTerm < response.term
    · rw [if_pos hlt]
      rfl
    · rw [if_neg hlt, if_neg (by simp [hleader])]
      split
      · split <;> rfl
      · rfl

/-- A snapshot that is delivered to a leader which stays one does not move its commit index. -/
theorem installSnapshot_commitIndex {s : Cluster N S C}
    {Φ : Cluster N S C → ClusterAction N C → Prop} (hs : D.system.Reach Φ s) {position : ℕ} {source target : N}
    {request : InstallSnapshotRequest N}
    (hm : s.sent[position]? = some ⟨source, target, .installSnapshot request⟩)
    (hrole : (s.nodes target).role = .leader)
    (hrole' : ((s.nodes target).handleInstallSnapshot D.backend request).1.role = .leader) :
    ((s.nodes target).handleInstallSnapshot D.backend request).1.state.commitIndex =
      (s.nodes target).state.commitIndex := by
  by_contra hmoves
  have hmem := List.mem_of_getElem? hm
  obtain ⟨-, -, hne, -⟩ := (wired hs).sent _ hmem
  by_cases hlt : request.term < (s.nodes target).state.currentTerm
  · rw [RaftNode.handleInstallSnapshot, if_pos hlt] at hmoves
    exact hmoves rfl
  · -- the sender would be the leader of the same term
    rcases Nat.eq_or_lt_of_le (Nat.le_of_not_lt hlt) with heq | hgt
    · have he := electionInv hs
      have hsource := installSnapshot_elected hs _ hmem request rfl
      have htarget := he.leader target hrole
      rw [heq] at htarget
      exact absurd (he.elected_unique hsource htarget) hne
    · have hf := (RaftNode.handleInstallSnapshot_keeps D.backend (s.nodes target)
        request).election
      rcases hf with ⟨ht, -⟩ | ⟨-, -, hr⟩
      · have hf' := (RaftNode.receiveChunk_keeps D.backend
          ((s.nodes target).followSnapshot request.term request.leaderId) request).election
        rw [RaftNode.handleInstallSnapshot, if_neg hlt] at ht
        have hterm : ((s.nodes target).followSnapshot request.term
            request.leaderId).state.currentTerm = request.term := by
          simp [RaftNode.followSnapshot, hgt]
        rcases hf' with ⟨ht', -⟩ | ⟨ht', -⟩
        · dsimp only at ht
          omega
        · dsimp only at ht
          omega
      · rw [hr] at hrole'
        cases hrole'

/-- A step that moves the commit index of a node that stays the leader is the delivery of a reply
to one of its append requests. -/
theorem commitIndex_moves {s s' : Cluster N S C} {a : ClusterAction N C}
    {Φ : Cluster N S C → ClusterAction N C → Prop} (hs : D.system.Reach Φ s)
    (hstep : D.system.step s a = some s') {n : N} (hrole : (s.nodes n).role = .leader)
    (hrole' : (s'.nodes n).role = .leader)
    (hmoves : (s.nodes n).state.commitIndex ≠ (s'.nodes n).state.commitIndex) :
    ∃ position m response lastTerm, a = .deliver position ∧ s.sent[position]? = some m ∧
      m.target = n ∧ m.payload = .appendEntriesResponse response lastTerm ∧
      response.success = true ∧ response.term ≤ (s.nodes n).state.currentTerm ∧
      s'.nodes n =
        ((s.nodes n).recordMatch m.source response.matchIndex).tryAdvanceCommitIndex ∧
      ∀ p ≠ n, s'.nodes p = s.nodes p := by
  obtain ⟨p, o, ho, -, rfl⟩ := D.step_eq_some hstep
  have hp : n = p := by
    by_contra hne
    exact hmoves (by rw [record_nodes_ne hne])
  subst hp
  have hothers : ∀ p ≠ n, (s.record n o).nodes p = s.nodes p := fun p hp => record_nodes_ne hp
  rw [record_nodes_self] at hrole' hmoves ⊢
  cases a with
  | electionTimeout p =>
    obtain ⟨rfl, rfl⟩ := Prod.mk.inj (Option.some.inj ho)
    cases hrole'
  | checkLease p =>
    obtain ⟨rfl, rfl⟩ := Prod.mk.inj (Option.some.inj ho)
    refine absurd ?_ hmoves
    unfold RaftNode.checkLease
    split <;> rfl
  | propose p command =>
    obtain ⟨rfl, rfl⟩ := Prod.mk.inj (Option.some.inj ho)
    refine absurd ?_ hmoves
    unfold RaftNode.propose
    split <;> rfl
  | sendAppendEntries p peer =>
    obtain ⟨r, -, ho⟩ := Option.map_eq_some_iff.mp ho
    obtain ⟨rfl, rfl⟩ := Prod.mk.inj ho
    exact absurd rfl hmoves
  | applyCommitted p turns =>
    obtain ⟨rfl, rfl⟩ := Prod.mk.inj (Option.some.inj ho)
    exact absurd (RaftNode.applyCommitted_commitIndex _ _ _).symm hmoves
  | takeSnapshot p =>
    obtain ⟨rfl, rfl⟩ := Prod.mk.inj (Option.some.inj ho)
    refine absurd ?_ hmoves
    unfold RaftNode.takeSnapshot
    dsimp only
    split
    · rfl
    · split <;> rfl
  | sendInstallSnapshot p peer offset =>
    obtain ⟨r, -, ho⟩ := Option.map_eq_some_iff.mp ho
    obtain ⟨rfl, rfl⟩ := Prod.mk.inj ho
    exact absurd rfl hmoves
  | deliver position =>
    obtain ⟨⟨source, target, payload⟩, hm, ho⟩ := Option.map_eq_some_iff.mp ho
    obtain ⟨rfl, rfl⟩ := Prod.mk.inj ho
    by_cases hsnapshot : ∃ request, payload = .installSnapshot request
    · obtain ⟨request, rfl⟩ := hsnapshot
      exact absurd (installSnapshot_commitIndex hs hm hrole hrole').symm hmoves
    · obtain ⟨response, lastTerm, rfl, hsucc, hle, hnode⟩ := processMessage_moves hrole
        (fun request heq => hsnapshot ⟨request, heq⟩) hrole' hmoves
      exact ⟨position, _, response, lastTerm, rfl, hm, rfl, rfl, hsucc, hle, hnode, hothers⟩

/-- The leader commit rule: in a run whose counted replies are truthful and leave no tie, a leader
moves its commit index only to an index at which more than half of the members hold its entry. -/
theorem leader_commit_rule {s s' : Cluster N S C} {a : ClusterAction N C}
    (hs : D.system.Reach (CommitsByMajority D) s) (ha : CommitsByMajority D s a)
    (hstep : D.system.step s a = some s') {n : N} (hrole : (s.nodes n).role = .leader)
    (hrole' : (s'.nodes n).role = .leader)
    (hmoves : (s.nodes n).state.commitIndex ≠ (s'.nodes n).state.commitIndex) :
    StoredByMajority D s' n (s'.nodes n).state.commitIndex := by
  obtain ⟨position, ⟨source, target, payload⟩, response, lastTerm, rfl, hm, rfl, rfl, hsucc, hle,
    hnode, hothers⟩ := commitIndex_moves hs hstep hrole hrole' hmoves
  obtain ⟨h, hr⟩ := exists_refines (hs.mono fun _ _ h => h.1)
  obtain ⟨htruthful, hcommits⟩ := ha
  have hcounted := countedReply_deliver hm hrole hsucc hle
  have hreported := hcommits _ hcounted
  simp only at hreported hnode hothers hrole hle hmoves hrole' ⊢
  have hmem := List.mem_of_getElem? hm
  obtain ⟨hsource, htarget, hne, -⟩ := (wired hs).sent _ hmem
  have hy := mirrors_recordMatch hr (hr.sent _ hmem) hrole hsucc hle
    (htruthful _ hcounted)
  have hw : ((s.nodes target).recordMatch source response.matchIndex).Wired D.members target :=
    ((wired hs).nodes target).insert ((((wired hs).nodes target).peers _).mpr ⟨hsource, hne⟩)
      (Nat.succ_pos _) rfl rfl (.inr ⟨_, rfl⟩) rfl
  generalize hyy : (s.nodes target).recordMatch source response.matchIndex = y at *
  have hyrole : y.role = .leader := by
    rw [← hyy]
    exact hrole
  have hycommit : y.state.commitIndex = (s.nodes target).state.commitIndex := by
    rw [← hyy]
    rfl
  -- the commit index has moved to the index at the middle
  unfold RaftNode.tryAdvanceCommitIndex at hnode
  dsimp only at hnode
  split at hnode
  · next hcond =>
    obtain ⟨hlt, hterm⟩ := hcond
    obtain ⟨htie, hheld⟩ := hreported _ (middle_mem_matchIndices y) (hycommit ▸ hlt)
      (by rw [← hyy] at hterm ⊢; exact hterm)
    have hmajority := reporters_majority hw htarget htie
    generalize y.matchIndices.getD (y.matchIndices.length / 2) 0 = index at *
    have hown := hy.owns hr.safe hyrole (by omega) hterm
    obtain ⟨hL, -, -⟩ := hy.leader hyrole
    obtain ⟨k, e, rfl, he, -⟩ := id hown
    rw [hL] at he
    have hget (p : N) (i : ℕ) : (s'.nodes p).log.get i = (s.nodes p).log.get i := by
      by_cases hp : p = target
      · rw [hp, hnode, ReplicatedLog.setCommitIndex_eq, ← hyy]
        rfl
      · rw [hothers p hp]
    have holds (p : N) (hp : p ∈ reporters y target (k + 1)) :
        (s'.nodes p).log.get (k + 1) = some e := by
      have hpre := hy.held_by_reporters hr.safe hyrole hmajority.half
        (fun q hq => mem_reporters hq) hown hlt hp
      have hpm : p ∈ D.members := List.mem_toFinset.mp (hmajority.1 hp)
      rw [hget, (hr.node p).window.get_of_lt (hheld p hpm), Nat.add_sub_cancel]
      obtain ⟨t, ht⟩ := hpre
      have hk := (List.getElem?_eq_some_iff.mp he).1
      rw [← ht, List.getElem?_append_left (by simp only [List.length_take]; omega),
        List.getElem?_take_of_lt (Nat.lt_succ_self k), he]
    rw [hnode]
    refine ⟨_, hmajority, fun p hp => ⟨e, ?_, ?_⟩⟩
    · exact holds p hp
    · exact holds target (Finset.mem_insert_self _ _)
  · rw [hnode, hycommit] at hmoves
    exact absurd rfl hmoves

theorem leader_commit_rule_replication :
    ∃ s s', (commandLogCluster 3).system.Reach (CommitsByMajority (commandLogCluster 3)) s ∧
      (commandLogCluster 3).system.step s (.deliver 4) = some s' ∧
      (s'.nodes 0).state.commitIndex = 2 ∧ StoredByMajority (commandLogCluster 3) s' 0 2 := by
  have hrun : (((commandLogCluster 3).system.run (CommitsByMajority (commandLogCluster 3))
      (replicationSchedule.take 6)).bind fun s =>
        ((commandLogCluster 3).system.step s (.deliver 4)).map fun s' =>
          (decide (CommitsByMajority (commandLogCluster 3) s (.deliver 4)),
            ((s.nodes 0).role, (s.nodes 0).state.commitIndex),
            ((s'.nodes 0).role, (s'.nodes 0).state.commitIndex))) =
      some (true, (.leader, 0), (.leader, 2)) := by decide +kernel
  obtain ⟨s, hs, hrest⟩ := Option.bind_eq_some_iff.mp hrun
  obtain ⟨s', hstep, heq⟩ := Option.map_eq_some_iff.mp hrest
  simp only [Prod.mk.injEq, decide_eq_true_eq] at heq
  obtain ⟨hcond, ⟨hrole, hcommit⟩, hrole', hcommit'⟩ := heq
  have hreach := System.reach_of_run hs
  have := leader_commit_rule hreach hcond hstep hrole hrole' (by rw [hcommit, hcommit']; decide)
  rw [hcommit'] at this
  exact ⟨s, s', hreach, hstep, hcommit', this⟩

/-- Node `0` of two leads, sends its first entry, and proposes a second one before the answer to
the first, which is the last message sent, arrives. -/
def evenClusterSchedule : List (ClusterAction ℕ UInt8) :=
  [.electionTimeout 0, .deliver 0, .deliver 1, .sendAppendEntries 0 1, .propose 0 7, .deliver 2]

/-- In a cluster of two the leader commits an entry that it alone has. -/
theorem not_leader_commit_rule :
    ¬ ∀ s s' a n, (commandLogCluster 2).system.Reachable s →
      (commandLogCluster 2).system.step s a = some s' → (s.nodes n).role = .leader →
      (s'.nodes n).role = .leader →
      (s.nodes n).state.commitIndex ≠ (s'.nodes n).state.commitIndex →
      StoredByMajority (commandLogCluster 2) s' n (s'.nodes n).state.commitIndex := by
  intro hall
  have hrun : (((commandLogCluster 2).system.run (fun _ _ => True) evenClusterSchedule).bind
      fun s => ((commandLogCluster 2).system.step s (.deliver 3)).map fun s' =>
        (((s.nodes 0).role, (s.nodes 0).state.commitIndex),
          ((s'.nodes 0).role, (s'.nodes 0).state.commitIndex), (s'.nodes 1).log.get 2)) =
      some ((.leader, 0), (.leader, 2), none) := by decide +kernel
  obtain ⟨s, hs, hrest⟩ := Option.bind_eq_some_iff.mp hrun
  obtain ⟨s', hstep, heq⟩ := Option.map_eq_some_iff.mp hrest
  simp only [Prod.mk.injEq] at heq
  obtain ⟨⟨hrole, hcommit⟩, ⟨hrole', hcommit'⟩, hget⟩ := heq
  obtain ⟨W, ⟨hsub, hcard⟩, hW⟩ := hall s s' _ 0 (System.reach_of_run hs) hstep hrole hrole'
    (by rw [hcommit, hcommit']; decide)
  -- more than half of two nodes is both of them
  have hmem : 1 ∈ W := by
    have heq : W = (commandLogCluster 2).members.toFinset := by
      refine Finset.eq_of_subset_of_card_le hsub ?_
      have : (commandLogCluster 2).members.toFinset.card = 2 := by decide
      omega
    rw [heq]
    decide
  obtain ⟨e, he, -⟩ := hW 1 hmem
  rw [hcommit', hget] at he
  cases he

end Deployment

end Replication

end AegisDB
