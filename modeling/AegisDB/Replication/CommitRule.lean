import AegisDB.Replication.Refinement

/-!
# The commit rule

A leader sorts the indices its peers have reported, together with its own last index, and takes
the one at position `len / 2`.  At least half of the cluster has reported that index or a later
one; more than half has, unless the cluster is even and exactly half of it has.
-/

namespace AegisDB

namespace Replication

open TermLog

variable {N S C Snap : Type*} [DecidableEq N]

/-- At least half of a sorted list is not below the element at its middle. -/
theorem length_le_two_mul_filter {s : List ℕ} (hsorted : s.Pairwise (· ≤ ·)) (hne : s ≠ []) :
    s.length ≤ 2 * (s.filter fun v => s.getD (s.length / 2) 0 ≤ v).length := by
  have hpos := List.length_pos_of_ne_nil hne
  have hmid : s.length / 2 < s.length := by omega
  -- everything from the middle on is not below it
  have hdrop : (s.drop (s.length / 2)).filter (fun v => s.getD (s.length / 2) 0 ≤ v) =
      s.drop (s.length / 2) := by
    rw [List.filter_eq_self]
    intro v hv
    obtain ⟨i, hi⟩ := List.mem_iff_getElem?.mp hv
    rw [List.getElem?_drop] at hi
    obtain ⟨hlt, rfl⟩ := List.getElem?_eq_some_iff.mp hi
    rw [List.getD_eq_getElem?_getD, List.getElem?_eq_getElem hmid, Option.getD_some,
      decide_eq_true_eq]
    rcases Nat.eq_zero_or_pos i with rfl | hi0
    · exact le_rfl
    · exact List.pairwise_iff_getElem.mp hsorted _ _ hmid hlt (by omega)
  have hsub := ((List.drop_sublist (s.length / 2) s).filter
    fun v => s.getD (s.length / 2) 0 ≤ v).length_le
  rw [hdrop, List.length_drop] at hsub
  omega

variable {members : List N} {n : N} {x : RaftNode N S}

theorem matchIndices_length (hw : x.Wired members n) : x.matchIndices.length = x.clusterSize := by
  have hkeys : x.matchIndex.keys.Perm x.peers := by
    refine (List.perm_ext_iff_of_nodup x.matchIndex.keys_nodup hw.nodup).mpr fun p => ?_
    rw [← AList.mem_keys, hw.matchIndex]
  have hlen := hkeys.length_eq
  rw [AList.keys, List.keys, List.length_map] at hlen
  rw [RaftNode.matchIndices, List.length_insertionSort, RaftNode.clusterSize]
  simp [hlen]

/-- The nodes that have reported an index or a later one, together with the leader. -/
def reporters (x : RaftNode N S) (n : N) (index : ℕ) : Finset N :=
  insert n ((x.matchIndex.entries.filter fun e => index ≤ e.2).map Sigma.fst).toFinset

theorem mem_reporters {index : ℕ} {p : N} (hp : p ∈ reporters x n index) :
    p = n ∨ ∃ m, x.matchIndex.lookup p = some m ∧ index ≤ m := by
  rcases Finset.mem_insert.mp hp with rfl | hp
  · exact .inl rfl
  · right
    rw [List.mem_toFinset, List.mem_map] at hp
    obtain ⟨⟨q, m⟩, he, rfl⟩ := hp
    rw [List.mem_filter, decide_eq_true_eq] at he
    exact ⟨m, AList.mem_lookup_iff.mpr he.1, he.2⟩

theorem reporters_subset (hw : x.Wired members n) (hn : n ∈ members) (index : ℕ) :
    reporters x n index ⊆ members.toFinset := by
  intro p hp
  rw [List.mem_toFinset]
  rcases mem_reporters hp with rfl | ⟨m, hm, -⟩
  · exact hn
  · have : p ∈ x.matchIndex := by
      rw [← AList.lookup_isSome, hm]
      rfl
    exact ((hw.peers p).mp ((hw.matchIndex p).mp this)).1

/-- There are as many reporters as sorted indices that are not below the index. -/
theorem length_filter_le_card_reporters (hw : x.Wired members n) (index : ℕ) :
    (x.matchIndices.filter fun v => index ≤ v).length ≤ (reporters x n index).card := by
  have hnodup : ((x.matchIndex.entries.filter fun e => index ≤ e.2).map Sigma.fst).Nodup := by
    have := x.matchIndex.keys_nodup
    rw [AList.keys, List.keys] at this
    exact this.sublist (List.filter_sublist.map _)
  have hnot : n ∉ ((x.matchIndex.entries.filter fun e => index ≤ e.2).map Sigma.fst).toFinset := by
    rw [List.mem_toFinset, List.mem_map]
    rintro ⟨⟨q, m⟩, he, rfl⟩
    have hq : q ∈ x.matchIndex := by
      rw [← AList.lookup_isSome, AList.mem_lookup_iff.mpr (List.mem_filter.mp he).1]
      rfl
    exact ((hw.peers q).mp ((hw.matchIndex q).mp hq)).2 rfl
  have hcount : (x.matchIndices.filter fun v => index ≤ v).length =
      ((x.matchIndex.entries.map Sigma.snd ++ [x.log.lastIndex]).filter
        fun v => index ≤ v).length :=
    ((List.perm_insertionSort _ _).filter _).length_eq
  rw [hcount, List.filter_append, List.length_append, List.filter_map, List.length_map, reporters,
    Finset.card_insert_of_notMem hnot, List.toFinset_card_of_nodup hnodup, List.length_map]
  refine Nat.add_le_add_left ?_ _
  exact (List.length_filter_le _ _).trans (by simp)

omit [DecidableEq N] in
theorem middle_mem_matchIndices (x : RaftNode N S) :
    x.matchIndices.getD (x.matchIndices.length / 2) 0 ∈ x.matchIndices := by
  have hpos : 0 < x.matchIndices.length := by
    rw [RaftNode.matchIndices, List.length_insertionSort]
    simp
  have hlt : x.matchIndices.length / 2 < x.matchIndices.length := by omega
  rw [List.getD_eq_getElem?_getD, List.getElem?_eq_getElem hlt]
  exact List.getElem_mem hlt

/-- At least half of the cluster reports the middle index, as its order among the others shows. -/
theorem reporters_bounds (hw : x.Wired members n) (hn : n ∈ members) :
    let middle := x.matchIndices.getD (x.matchIndices.length / 2) 0
    x.matchIndices.length = members.toFinset.card ∧
      x.matchIndices.length ≤ 2 * (x.matchIndices.filter fun w => middle ≤ w).length ∧
      (x.matchIndices.filter fun w => middle ≤ w).length ≤ (reporters x n middle).card := by
  have hsorted : x.matchIndices.Pairwise (· ≤ ·) := List.pairwise_insertionSort _ _
  exact ⟨(matchIndices_length hw).trans (hw.clusterSize_eq hn),
    length_le_two_mul_filter hsorted (List.ne_nil_of_mem (middle_mem_matchIndices x)),
    length_filter_le_card_reporters hw _⟩

theorem reporters_half (hw : x.Wired members n) (hn : n ∈ members) :
    Half members.toFinset
      (reporters x n (x.matchIndices.getD (x.matchIndices.length / 2) 0)) := by
  obtain ⟨hlen, hhalf, hcard⟩ := reporters_bounds hw hn
  exact ⟨reporters_subset hw hn _, by omega⟩

theorem reporters_majority (hw : x.Wired members n) (hn : n ∈ members)
    (htie : 2 * (x.matchIndices.filter fun w =>
      x.matchIndices.getD (x.matchIndices.length / 2) 0 ≤ w).length ≠ x.matchIndices.length) :
    Majority members.toFinset
      (reporters x n (x.matchIndices.getD (x.matchIndices.length / 2) 0)) := by
  obtain ⟨hlen, hhalf, hcard⟩ := reporters_bounds hw hn
  exact ⟨reporters_subset hw hn _, by omega⟩

/-! ## What the leader's indices mean -/

variable {M : Finset N} {h : History N LogEntry}

section Leader

variable (hx : Mirrors M h n x) (hs : h.Safe LogEntry.term M) (hrole : x.role = .leader)

include hx hs hrole in
/-- An index at which a leader's log ends a term of its own is one it owns as an author. -/
theorem Mirrors.owns {index : ℕ} (hpos : 0 < index)
    (hterm : x.log.termAt index = some x.state.currentTerm) :
    Owns LogEntry.term h.leaderLog (h.term n) index := by
  obtain ⟨hL, hne, -⟩ := hx.leader hrole
  rw [hx.term] at hterm
  rcases Nat.lt_trichotomy x.log.snapshotIndex index with hlt | heq | hgt
  · rw [hx.window.termAt_of_lt hlt, ← hL] at hterm
    obtain ⟨e, he, ht⟩ := Option.map_eq_some_iff.mp hterm
    exact ⟨index - 1, e, by omega, he, ht⟩
  · obtain ⟨P, -, hPL, hlen, hPterm⟩ := hx.snapshot_leaderLog hs (hL ▸ hne)
    rw [← heq, ReplicatedLog.termAt_snapshotIndex _ (by omega), Option.some.injEq] at hterm
    obtain ⟨e, hlast⟩ : ∃ e, P[index - 1]? = some e :=
      ⟨_, List.getElem?_eq_getElem (show index - 1 < P.length by omega)⟩
    refine ⟨index - 1, e, by omega, ?_, ?_⟩
    · obtain ⟨t, ht⟩ := hPL
      rw [← ht, List.getElem?_append_left (by omega), hlast]
    · rw [← hterm, ← hPterm]
      refine (lastTerm_eq_of_getElem? _ ?_).symm
      rw [show P.length - 1 = index - 1 by omega]
      exact hlast
  · rw [hx.window.termAt_of_gt (by omega) hgt] at hterm
    cases hterm

include hx hs hrole in
/-- What a reply reports of a log that agrees with the leader's at its end was acknowledged. -/
theorem Mirrors.reported_of_truthful {p : N} {m t T : ℕ}
    (htruthful : m ≤ x.log.snapshotIndex ∨ x.log.termAt m = some t) (ht : t ≤ T)
    (hT : T ≤ h.term n) (hack : t = T → m ≤ h.acked p T) :
    m ≤ (h.log n).length ∧ ∀ c ≤ m, Owns LogEntry.term h.leaderLog (h.term n) c →
      c ≤ h.acked p (h.term n) ∨ c ≤ x.log.commitIndex := by
  have hsnap := hx.snapshot_le
  have hbound := hx.window.bound
  rcases Nat.lt_or_ge x.log.snapshotIndex m with hlt | hge
  · -- the entry at `m` is not older than the one at `c`, which is of the leader's term
    obtain ⟨hL, -, -⟩ := hx.leader hrole
    have hm := htruthful.resolve_left (by omega)
    rw [hx.window.termAt_of_lt hlt] at hm
    obtain ⟨e', he', rfl⟩ := Option.map_eq_some_iff.mp hm
    have hmlen := (List.getElem?_eq_some_iff.mp he').1
    refine ⟨by omega, fun c hc hown => ?_⟩
    obtain ⟨k, e, rfl, he, hte⟩ := hown
    rw [hL] at he
    have hle := (hs.authored.node n).term_le hs.authored.bounded he he' (by omega)
    have heq : e'.term = T := by omega
    have hTn : T = h.term n := by omega
    left
    rw [← hTn]
    exact hc.trans (hack heq)
  · exact ⟨by omega, fun c hc _ => .inr (by omega)⟩

include hx hrole in
theorem Mirrors.note {y : RaftNode N S} {p : N} {m : ℕ}
    (hm : m ≤ (h.log n).length ∧ ∀ c ≤ m, Owns LogEntry.term h.leaderLog (h.term n) c →
      c ≤ h.acked p (h.term n) ∨ c ≤ x.log.commitIndex)
    (hlog : y.log = x.log) (hstate : y.state = x.state)
    (hmeta : y.snapshotMetadata = x.snapshotMetadata)
    (hpend : y.pendingSnapshot = x.pendingSnapshot) (hyrole : y.role = x.role)
    (hmatch : y.matchIndex = x.matchIndex.insert p m) : Mirrors M h n y := by
  have hfollow := hx.congr (y := { y with role := .follower }) hlog hstate hmeta (.inr hpend)
    (.inl rfl)
  exact
    { hfollow with
      leader := fun _ => hx.leader hrole
      reported := fun _ q k hk => by
        rw [hmatch] at hk
        rw [hlog]
        by_cases hq : q = p
        · subst hq
          rw [AList.lookup_insert, Option.some.injEq] at hk
          exact hk ▸ hm
        · rw [AList.lookup_insert_ne hq] at hk
          exact hx.reported hrole q k hk
      committed := fun _ => by
        rw [hlog, hstate]
        exact hx.committed hrole
      candidate := fun hr => by
        rw [hyrole, hrole] at hr
        cases hr
      positive := fun _ => hx.positive (by rw [hrole]; decide) }

include hx hs hrole in
/-- The index at which a leader's log ends a term of its own, once half of the cluster has
reported it, ends a chosen prefix. -/
theorem Mirrors.chosen_of_reporters {index : ℕ} {Q : Finset N} (hQ : Half M Q)
    (hreport : ∀ p ∈ Q, p = n ∨ ∃ m, x.matchIndex.lookup p = some m ∧ index ≤ m)
    (hown : Owns LogEntry.term h.leaderLog (h.term n) index) :
    h.Chosen LogEntry.term M (h.term n) ((h.log n).take index) := by
  obtain ⟨hL, hne, hack⟩ := hx.leader hrole
  by_cases hcommitted : index ≤ x.log.commitIndex
  · obtain ⟨P, hP, hlen, -⟩ := hx.commit
    have hPL := hP.prefix_leaderLog hs (hL ▸ hne)
    rw [hL] at hPL
    refine hP.of_isPrefix ?_
    rw [take_eq_of_isPrefix hPL (by omega)]
    exact List.take_prefix _ _
  · refine .inr ⟨h.term n, index, le_rfl, hown, hL ▸ List.prefix_rfl, Q, hQ, fun p hp => ?_⟩
    rcases hreport p hp with rfl | ⟨m, hm, hle⟩
    · rw [hack, ← hL]
      exact hown.le_length
    · exact ((hx.reported hrole p m hm).2 index hle hown).resolve_right hcommitted

include hx hs hrole in
theorem Mirrors.tryAdvanceCommitIndex {members : List N} (hM : M = members.toFinset)
    (hw : x.Wired members n) (hn : n ∈ members) : Mirrors M h n x.tryAdvanceCommitIndex := by
  unfold RaftNode.tryAdvanceCommitIndex
  dsimp only
  split
  · next hcond =>
    have hown := hx.owns hs hrole (by omega) hcond.2
    have hchosen := hx.chosen_of_reporters hs hrole (hM ▸ reporters_half hw hn)
      (fun p hp => mem_reporters hp) hown
    have hle := hown.le_length
    rw [(hx.leader hrole).1] at hle
    exact hx.setCommit ⟨_, hchosen, by rw [List.length_take]; omega,
      fun _ => List.take_prefix _ _⟩ fun _ => hcond.1.le
  · exact hx

include hx hs hrole in
theorem Mirrors.commitIndex_le_length : x.log.commitIndex ≤ (h.log n).length := by
  obtain ⟨hL, hne, -⟩ := hx.leader hrole
  obtain ⟨P, hP, hlen, -⟩ := hx.commit
  have := (hP.prefix_leaderLog hs (hL ▸ hne)).length_le
  rw [hL] at this
  omega

include hx hs hrole in
theorem Mirrors.held_by_reporters {index : ℕ} {Q : Finset N} (hQ : Half M Q)
    (hreport : ∀ p ∈ Q, p = n ∨ ∃ m, x.matchIndex.lookup p = some m ∧ index ≤ m)
    (hown : Owns LogEntry.term h.leaderLog (h.term n) index)
    (hnew : x.state.commitIndex < index) {p : N} (hp : p ∈ Q) :
    (h.log n).take index <+: h.log p := by
  obtain ⟨hL, -, hack⟩ := hx.leader hrole
  have hacked (q : N) (hq : q ∈ Q) : index ≤ h.acked q (h.term n) := by
    rcases hreport q hq with rfl | ⟨m, hm, hle⟩
    · rw [hack, ← hL]
      exact hown.le_length
    · refine ((hx.reported hrole q m hm).2 index hle hown).resolve_right fun hcommit => ?_
      have := hx.committed hrole index hcommit hown
      omega
  rw [← hL]
  exact (hs.kept p _ index hown (hacked p hp)).resolve_right (History.not_blocked hQ hacked)

end Leader

end Replication

end AegisDB
