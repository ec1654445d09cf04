import AegisDB.Replication.Election

/-!
# The cluster and its history

`Mirrors` relates a node of the cluster to a `TermLog.History`: the log the node holds is a window
of the uncompacted log of the history, its commit index and its snapshot end chosen prefixes, and
what a leader has been told by its peers was acknowledged in the history.  `Refines` adds the
messages in flight and the commands applied.

A snapshot that is installed below the end of the log leaves the suffix of the log in place even
where the two disagree.  `Mirrors.snapshot` therefore allows the snapshot to end a chosen prefix
that the uncompacted log does not have, as long as the log goes on behind it; nothing of such a log
counts as committed beyond the snapshot.
-/

namespace AegisDB

namespace Replication

open TermLog

variable {N S C Snap : Type*}

/-- The index and the term at which a prefix chosen by term `U` ends. -/
def Point (M : Finset N) (h : History N LogEntry) (U index term : ℕ) : Prop :=
  ∃ P, h.Chosen LogEntry.term M U P ∧ P.length = index ∧ lastTerm LogEntry.term P = term

/-- A command that a chosen prefix has at an index. -/
def ChosenCommand (M : Finset N) (h : History N LogEntry) (decode : Bytes → Option C) (i : ℕ)
    (c : C) : Prop :=
  ∃ U P e, h.Chosen LogEntry.term M U P ∧ 0 < i ∧ P[i - 1]? = some e ∧ decode e.data = some c

/-- What an append request says of its leader's log.  A request that names an index without an
entry of a term there is refused by every node. -/
def AppendEntriesRequest.Refines (h : History N LogEntry) (request : AppendEntriesRequest N) :
    Prop :=
  (0 < request.prevLogIndex ∧ request.prevLogTerm = 0) ∨
    ∃ P, P <+: h.leaderLog request.term ∧ request.prevLogIndex ≤ P.length ∧
      ReplicatedLog.termOf P request.prevLogIndex = some request.prevLogTerm ∧
      request.entries = P.drop request.prevLogIndex

/-- What a message says is so in the history. -/
def Message.Refines (M : Finset N) (h : History N LogEntry) (m : Message N) : Prop :=
  match m.payload with
  | .voteRequest request =>
    request.term ≤ h.term m.source ∧
      request.lastLogIndex = (h.cand m.source request.term).length ∧
      request.lastLogTerm = lastTerm LogEntry.term (h.cand m.source request.term)
  | .appendEntries request =>
    h.leaderLog request.term ≠ [] ∧
      (∃ P, h.Chosen LogEntry.term M request.term P ∧ P.length = request.leaderCommit) ∧
      request.Refines h
  | .appendEntriesResponse response lastTerm =>
    response.success = true → lastTerm ≤ response.term ∧
      (lastTerm = response.term → response.matchIndex ≤ h.acked m.source response.term)
  | .installSnapshot request =>
    h.leaderLog request.term ≠ [] ∧
      Point M h request.term request.lastIncludedIndex request.lastIncludedTerm
  | _ => True

variable {M : Finset N} {h h' : History N LogEntry} {n : N} {x y : RaftNode N S}

theorem Point.mono {U i t : ℕ} (hp : Point M h U i t) (he : h.Extends h') : Point M h' U i t := by
  obtain ⟨P, hP, hi, ht⟩ := hp
  exact ⟨P, hP.mono he, hi, ht⟩

theorem Point.le {U U' i t : ℕ} (hp : Point M h U i t) (hU : U ≤ U') : Point M h U' i t := by
  obtain ⟨P, hP, hi, ht⟩ := hp
  exact ⟨P, hP.le hU, hi, ht⟩

theorem ChosenCommand.mono {decode : Bytes → Option C} {i : ℕ} {c : C}
    (hc : ChosenCommand M h decode i c) (he : h.Extends h') : ChosenCommand M h' decode i c := by
  obtain ⟨U, P, e, hP, hi, hPe, hdec⟩ := hc
  exact ⟨U, P, e, hP.mono he, hi, hPe, hdec⟩

theorem Message.Refines.mono {m : Message N} (hm : m.Refines M h) (he : h.Extends h') :
    m.Refines M h' := by
  unfold Message.Refines at hm ⊢
  have hauthor {T : ℕ} (hT : h.leaderLog T ≠ []) : h'.leaderLog T ≠ [] := by
    intro hnil
    have := he.leaderLog T
    rw [hnil] at this
    exact hT (List.prefix_nil.mp this)
  split
  · next request hreq =>
    rw [hreq] at hm
    obtain ⟨hterm, hi, ht⟩ := hm
    rw [he.cand _ _ hterm]
    exact ⟨hterm.trans (he.term _), hi, ht⟩
  · next request hreq =>
    rw [hreq] at hm
    obtain ⟨hL, ⟨P, hP, hlen⟩, hentries⟩ := hm
    refine ⟨hauthor hL, ⟨P, hP.mono he, hlen⟩, hentries.imp_right ?_⟩
    rintro ⟨Q, hQ, hrest⟩
    exact ⟨Q, hQ.trans (he.leaderLog _), hrest⟩
  · next response lastTerm hreq =>
    rw [hreq] at hm
    intro hsucc
    obtain ⟨hle, hack⟩ := hm hsucc
    exact ⟨hle, fun heq => (hack heq).trans (he.acked _ _)⟩
  · next request hreq =>
    rw [hreq] at hm
    exact ⟨hauthor hm.1, hm.2.mono he⟩
  · trivial

variable [DecidableEq N]

/-- The node `x`, under the name `n`, is where the history says it is. -/
structure Mirrors (M : Finset N) (h : History N LogEntry) (n : N) (x : RaftNode N S) : Prop where
  term : x.state.currentTerm = h.term n
  /-- The entries held are those of the uncompacted log behind the snapshot. -/
  window : x.log.Window (h.log n)
  /-- The snapshot ends a chosen prefix, which the log has or goes on behind. -/
  snapshot : ∃ P, h.Chosen LogEntry.term M (h.term n) P ∧ P.length = x.log.snapshotIndex ∧
    lastTerm LogEntry.term P = x.log.snapshotTerm ∧
    (P <+: h.log n ∨ x.log.snapshotIndex < (h.log n).length)
  /-- The commit index ends a chosen prefix, which the log has when it is behind the snapshot. -/
  commit : ∃ P, h.Chosen LogEntry.term M (h.term n) P ∧ P.length = x.log.commitIndex ∧
    (x.log.snapshotIndex < x.log.commitIndex → P <+: h.log n)
  snapshot_le : x.log.snapshotIndex ≤ x.log.commitIndex
  /-- The commit index of the handlers is not ahead of the one of the log. -/
  commit_le : x.state.commitIndex ≤ x.log.commitIndex
  applied : x.state.lastApplied = x.log.lastApplied
  applied_le : x.log.lastApplied ≤ x.log.commitIndex
  metadata : ∀ m, x.snapshotMetadata = some m →
    Point M h (h.term n) m.lastIncludedIndex m.lastIncludedTerm ∧
      m.lastIncludedIndex ≤ x.log.commitIndex
  /-- The snapshot being received ends a chosen prefix. -/
  pending : ∀ p, x.pendingSnapshot = some p →
    Point M h (h.term n) p.metadata.lastIncludedIndex p.metadata.lastIncludedTerm
  /-- A leader is the author of its term and has acknowledged its own log. -/
  leader : x.role = .leader → h.leaderLog (h.term n) = h.log n ∧ h.log n ≠ [] ∧
    h.acked n (h.term n) = (h.log n).length
  /-- What a leader has been told lies in its log, and what of it is of the leader's own term was
  acknowledged or is committed. -/
  reported : x.role = .leader → ∀ p m, x.matchIndex.lookup p = some m →
    m ≤ (h.log n).length ∧ ∀ c ≤ m, Owns LogEntry.term h.leaderLog (h.term n) c →
      c ≤ h.acked p (h.term n) ∨ c ≤ x.log.commitIndex
  /-- What a leader's log calls committed of the leader's own term, the handlers call so too. -/
  committed : x.role = .leader → ∀ c ≤ x.log.commitIndex,
    Owns LogEntry.term h.leaderLog (h.term n) c → c ≤ x.state.commitIndex
  /-- A candidate stands with its log, as long as its term has no author. -/
  candidate : x.role = .candidate → h.leaderLog (h.term n) = [] → h.cand n (h.term n) = h.log n
  positive : x.role ≠ .follower → 0 < h.term n

/-- The cluster is where the history says it is. -/
structure Refines (D : Deployment N S C Snap) (h : History N LogEntry)
    (s : Cluster N S C) : Prop where
  /-- The history is one of a cluster that loses nothing it has chosen. -/
  safe : h.Safe LogEntry.term D.members.toFinset
  node : ∀ n, Mirrors D.members.toFinset h n (s.nodes n)
  vote : ∀ p T x, h.vote p T x ↔ (p, T, x) ∈ s.votes
  /-- The terms with an author are those in which somebody was elected. -/
  author : ∀ T, h.leaderLog T ≠ [] ↔ ∃ x, (T, x) ∈ s.elected
  /-- The entries of the authors carry their positions. -/
  indexed : ∀ T, ReplicatedLog.Indexed (h.leaderLog T)
  /-- The entries of the authors carry terms behind `0`. -/
  positive : ∀ T, ∀ e ∈ h.leaderLog T, 0 < e.term
  sent : ∀ m ∈ s.sent, m.Refines D.members.toFinset h
  applied : ∀ n i c, (n, i, c) ∈ s.applied →
    ChosenCommand D.members.toFinset h D.backend.commandFromBytes i c

/-- A node that an event does not concern stays where it is. -/
theorem Mirrors.mono (hx : Mirrors M h n x) (he : h.Extends h')
    (hs : h'.Safe LogEntry.term M) (hlog : h'.log n = h.log n) (hterm : h'.term n = h.term n)
    (hlead : x.role = .leader → h'.leaderLog (h.term n) = h.leaderLog (h.term n)) :
    Mirrors M h' n x where
  term := hx.term.trans hterm.symm
  window := hlog ▸ hx.window
  snapshot := by
    obtain ⟨P, hP, hrest⟩ := hx.snapshot
    rw [hlog, hterm]
    exact ⟨P, hP.mono he, hrest⟩
  commit := by
    obtain ⟨P, hP, hrest⟩ := hx.commit
    rw [hlog, hterm]
    exact ⟨P, hP.mono he, hrest⟩
  snapshot_le := hx.snapshot_le
  commit_le := hx.commit_le
  applied := hx.applied
  applied_le := hx.applied_le
  metadata m hm := by
    rw [hterm]
    exact ⟨(hx.metadata m hm).1.mono he, (hx.metadata m hm).2⟩
  pending p hp := by
    rw [hterm]
    exact (hx.pending p hp).mono he
  leader hr := by
    obtain ⟨hL, hne, hack⟩ := hx.leader hr
    rw [hterm, hlog, hlead hr]
    refine ⟨hL, hne, le_antisymm ?_ (hack ▸ he.acked _ _)⟩
    have := hs.acked_le n (h.term n)
    rwa [hlead hr, hL] at this
  reported hr p m hm := by
    rw [hterm, hlog]
    refine ⟨(hx.reported hr p m hm).1, fun c hc hown => ?_⟩
    have hown' : Owns LogEntry.term h.leaderLog (h.term n) c := by
      obtain ⟨k, e, hk, he', ht⟩ := hown
      exact ⟨k, e, hk, hlead hr ▸ he', ht⟩
    exact ((hx.reported hr p m hm).2 c hc hown').imp_left fun hle => hle.trans (he.acked _ _)
  committed hr c hc hown := by
    rw [hterm] at hown
    obtain ⟨k, e, hk, he', ht⟩ := hown
    exact hx.committed hr c hc ⟨k, e, hk, hlead hr ▸ he', ht⟩
  candidate hr hnil := by
    rw [hterm] at hnil ⊢
    have hnil' : h.leaderLog (h.term n) = [] :=
      List.prefix_nil.mp (hnil ▸ he.leaderLog (h.term n))
    rw [he.cand n _ le_rfl, hlog]
    exact hx.candidate hr hnil'
  positive hr := hterm ▸ hx.positive hr

/-! ## Reading the log -/

section Read

variable (hx : Mirrors M h n x) (hs : h.Safe LogEntry.term M)

include hs in
omit [DecidableEq N] in
theorem authored_getElem? {k : ℕ} {e : LogEntry} (hk : (h.log n)[k]? = some e) :
    (h.leaderLog e.term)[k]? = some e := by
  obtain ⟨t, ht⟩ := hs.authored.node n k e hk
  have hlt := (List.getElem?_eq_some_iff.mp hk).1
  rw [← ht, List.getElem?_append_left (by simp only [List.length_take]; omega),
    List.getElem?_take_of_lt (Nat.lt_succ_self k), hk]

include hx in
theorem Mirrors.lastTerm : x.log.lastTerm = TermLog.lastTerm LogEntry.term (h.log n) := by
  unfold ReplicatedLog.lastTerm
  rw [hx.window.entries, List.getLast?_drop]
  split_ifs with hle
  · -- everything is compacted, so the snapshot ends the log
    obtain ⟨P, -, hlen, hterm, hP⟩ := hx.snapshot
    have hb := hx.window.bound
    have hpre : P <+: h.log n := hP.resolve_right (by omega)
    have heq : P = h.log n := hpre.eq_of_length (by omega)
    rw [← heq, hterm]
  · have hne : h.log n ≠ [] := by
      intro hnil
      rw [hnil] at hle
      simp at hle
    rw [List.getLast?_eq_some_getLast hne]
    simp [TermLog.lastTerm, List.getLast?_eq_some_getLast hne]

include hx in
theorem Mirrors.upToDate {κ : List LogEntry}
    (hup : x.log.isUpToDate κ.length (TermLog.lastTerm LogEntry.term κ) = true) :
    History.UpToDate LogEntry.term κ (h.log n) := by
  unfold ReplicatedLog.isUpToDate at hup
  rw [hx.lastTerm, hx.window.lastIndex] at hup
  split_ifs at hup with hlt hge
  · exact .inl hlt
  · exact .inr ⟨hge.1.symm, hge.2⟩

include hx in
theorem Mirrors.getElem?_committed {k : ℕ} (hk : x.log.snapshotIndex ≤ k)
    (hkc : k < x.log.commitIndex) :
    ∃ P, h.Chosen LogEntry.term M (h.term n) P ∧ P.length = x.log.commitIndex ∧
      (h.log n)[k]? = P[k]? := by
  obtain ⟨P, hP, hlen, hpre⟩ := hx.commit
  obtain ⟨t, ht⟩ := hpre (by omega)
  exact ⟨P, hP, hlen, by rw [← ht, List.getElem?_append_left (by omega)]⟩

end Read

/-! ## Events that leave the history alone -/

/-- A node that enters a later term, as a follower, or goes on in its term. -/
theorem Mirrors.enter (hx : Mirrors M h n x) {T : ℕ} (hT : h.term n ≤ T) (hlog : y.log = x.log)
    (hterm : y.state.currentTerm = T) (hcommit : y.state.commitIndex = x.state.commitIndex)
    (happlied : y.state.lastApplied = x.state.lastApplied)
    (hmeta : y.snapshotMetadata = x.snapshotMetadata)
    (hpend : y.pendingSnapshot = none ∨ y.pendingSnapshot = x.pendingSnapshot)
    (hrole : y.role = .follower ∨
      (T = h.term n ∧ y.role = x.role ∧ y.matchIndex = x.matchIndex)) :
    Mirrors M (h.raise n T) n y := by
  have hnew : (h.raise n T).term n = T := if_pos rfl
  have hext : h.Extends (h.raise n T) := History.raise_extends hT
  have hrole' (hne : y.role ≠ .follower) :
      T = h.term n ∧ y.role = x.role ∧ y.matchIndex = x.matchIndex := hrole.resolve_left hne
  refine
    { term := hterm.trans hnew.symm
      window := hlog ▸ hx.window
      snapshot := ?_
      commit := ?_
      snapshot_le := hlog ▸ hx.snapshot_le
      commit_le := hlog ▸ hcommit ▸ hx.commit_le
      applied := hlog ▸ happlied ▸ hx.applied
      applied_le := hlog ▸ hx.applied_le
      metadata := fun m hm => ?_
      pending := fun p hp => ?_
      leader := fun hr => ?_
      reported := fun hr p m hm => ?_
      committed := fun hr => ?_
      candidate := fun hr => ?_
      positive := fun hr => ?_ }
  · obtain ⟨P, hP, hrest⟩ := hx.snapshot
    rw [hlog, hnew]
    exact ⟨P, (hP.mono hext).le hT, hrest⟩
  · obtain ⟨P, hP, hrest⟩ := hx.commit
    rw [hlog, hnew]
    exact ⟨P, (hP.mono hext).le hT, hrest⟩
  · obtain ⟨hpoint, hle⟩ := hx.metadata m (hmeta ▸ hm)
    rw [hlog, hnew]
    exact ⟨(hpoint.mono hext).le hT, hle⟩
  · rw [hnew]
    rcases hpend with hnone | hsame
    · rw [hnone] at hp
      cases hp
    · exact ((hx.pending p (hsame ▸ hp)).mono hext).le hT
  · obtain ⟨rfl, hr', -⟩ := hrole' (by rw [hr]; decide)
    rw [hnew]
    exact hx.leader (hr' ▸ hr)
  · obtain ⟨rfl, hr', hmatch⟩ := hrole' (by rw [hr]; decide)
    rw [hlog, hnew]
    exact hx.reported (hr' ▸ hr) p m (hmatch ▸ hm)
  · obtain ⟨rfl, hr', -⟩ := hrole' (by rw [hr]; decide)
    rw [hlog, hcommit, hnew]
    exact hx.committed (hr' ▸ hr)
  · obtain ⟨rfl, hr', -⟩ := hrole' (by rw [hr]; decide)
    rw [hnew]
    exact hx.candidate (hr' ▸ hr)
  · obtain ⟨rfl, hr', -⟩ := hrole' hr
    rw [hnew]
    exact hx.positive (hr' ▸ hr)

theorem Mirrors.congr (hx : Mirrors M h n x) (hlog : y.log = x.log) (hstate : y.state = x.state)
    (hmeta : y.snapshotMetadata = x.snapshotMetadata)
    (hpend : y.pendingSnapshot = none ∨ y.pendingSnapshot = x.pendingSnapshot)
    (hrole : y.role = .follower ∨ (y.role = x.role ∧ y.matchIndex = x.matchIndex)) :
    Mirrors M h n y := by
  have := hx.enter (T := h.term n) le_rfl hlog (hstate ▸ hx.term) (hstate ▸ rfl) (hstate ▸ rfl)
    hmeta hpend (hrole.imp_right fun hr => ⟨rfl, hr⟩)
  rwa [History.raise_self] at this

theorem Mirrors.setCommit (hx : Mirrors M h n x) {c : ℕ}
    (hc : ∃ P, h.Chosen LogEntry.term M (h.term n) P ∧ P.length = c ∧
      (x.log.snapshotIndex < c → P <+: h.log n))
    (hgrow : x.role = .leader → x.state.commitIndex ≤ c) :
    Mirrors M h n
      { x with
        state := { x.state with commitIndex := c }
        log := x.log.setCommitIndex c } := by
  rw [ReplicatedLog.setCommitIndex_eq]
  have hle : x.log.commitIndex ≤ max x.log.commitIndex c := le_max_left _ _
  exact
    { term := hx.term
      window := ⟨hx.window.first, hx.window.entries, hx.window.bound⟩
      snapshot := hx.snapshot
      commit := by
        rcases Nat.le_total c x.log.commitIndex with hcle | hcle
        · obtain ⟨P, hP, hlen, hpre⟩ := hx.commit
          simp only [max_eq_left hcle]
          exact ⟨P, hP, hlen, hpre⟩
        · simp only [max_eq_right hcle]
          exact hc
      snapshot_le := hx.snapshot_le.trans hle
      commit_le := le_max_right _ _
      applied := hx.applied
      applied_le := hx.applied_le.trans hle
      metadata := fun m hm => ⟨(hx.metadata m hm).1, (hx.metadata m hm).2.trans hle⟩
      pending := hx.pending
      leader := hx.leader
      reported := fun hr p m hm => (hx.reported hr p m hm).imp_right fun hrep c hcm hown =>
        (hrep c hcm hown).imp_right fun hcc => hcc.trans hle
      committed := fun hr c' hc' hown => by
        rcases le_max_iff.mp hc' with hc' | hc'
        · exact (hx.committed hr c' hc' hown).trans (hgrow hr)
        · exact hc'
      candidate := hx.candidate
      positive := hx.positive }

/-- One turn of the loop applies an entry of a chosen prefix. -/
theorem Mirrors.applyNext (B : StateMachineBackend S C Snap) (hx : Mirrors M h n x)
    (hidx : ReplicatedLog.Indexed (h.log n)) :
    Mirrors M h n (x.applyNext B).1 ∧
      ∀ r ∈ (x.applyNext B).2, ChosenCommand M h B.commandFromBytes r.1 r.2.1 := by
  unfold RaftNode.applyNext
  split
  · exact ⟨hx, fun r hr => by cases hr⟩
  · next entry hentry =>
    unfold ReplicatedLog.nextToApply at hentry
    split_ifs at hentry with hlt
    obtain ⟨hsnap, hget⟩ := hx.window.get_eq_some hentry
    rw [Nat.add_sub_cancel] at hget
    have hindex : entry.index = x.log.lastApplied + 1 := hidx _ _ hget
    obtain ⟨P, hP, hlen, hPk⟩ := hx.getElem?_committed (Nat.lt_succ_iff.mp hsnap) hlt
    refine ⟨?_, fun r hr => ?_⟩
    · exact
        { term := hx.term
          window := ⟨hx.window.first, hx.window.entries, hx.window.bound⟩
          snapshot := hx.snapshot
          commit := hx.commit
          snapshot_le := hx.snapshot_le
          commit_le := hx.commit_le
          applied := rfl
          applied_le := by
            show entry.index ≤ x.log.commitIndex
            omega
          metadata := hx.metadata
          pending := hx.pending
          leader := hx.leader
          reported := hx.reported
          committed := hx.committed
          candidate := hx.candidate
          positive := hx.positive }
    · dsimp only at hr
      split at hr
      · next command hcommand =>
        rw [List.mem_singleton.mp hr]
        refine ⟨_, P, entry, hP, by simp only; omega, ?_, hcommand⟩
        simp only [hindex, Nat.add_sub_cancel]
        exact hPk ▸ hget
      · cases hr

theorem Mirrors.applyCommitted (B : StateMachineBackend S C Snap) (turns : ℕ)
    (hx : Mirrors M h n x) (hidx : ReplicatedLog.Indexed (h.log n)) :
    Mirrors M h n (x.applyCommitted B turns).1 ∧
      ∀ r ∈ (x.applyCommitted B turns).2, ChosenCommand M h B.commandFromBytes r.1 r.2.1 := by
  induction turns generalizing x with
  | zero => exact ⟨hx, fun r hr => by cases hr⟩
  | succ turns ih =>
    rw [RaftNode.applyCommitted]
    split
    · obtain ⟨hy, hfirst⟩ := hx.applyNext B hidx
      obtain ⟨hz, hlater⟩ := ih hy
      refine ⟨hz, fun r hr => ?_⟩
      rcases List.mem_append.mp hr with hr | hr
      · exact hfirst r hr
      · exact hlater r hr
    · exact ⟨hx, fun r hr => by cases hr⟩

theorem Mirrors.takeSnapshot (B : StateMachineBackend S C Snap) (hx : Mirrors M h n x) :
    Mirrors M h n (x.takeSnapshot B).1 := by
  unfold RaftNode.takeSnapshot
  dsimp only
  split
  · exact hx
  · next hzero =>
    split
    · exact hx
    · next t ht =>
      have happlied := hx.applied
      have hle := hx.applied_le
      have hfirst := hx.window.first
      rcases Nat.lt_trichotomy x.log.snapshotIndex x.state.lastApplied with hlt | heq | hgt
      · -- the log still has the last entry applied
        rw [hx.window.termAt_of_lt hlt, Option.map_eq_some_iff] at ht
        obtain ⟨e, he, rfl⟩ := ht
        have hk := (List.getElem?_eq_some_iff.mp he).1
        obtain ⟨P, hP, hlen, hpre⟩ := hx.commit
        have hPlog := hpre (by omega)
        have hTlen : (P.take x.state.lastApplied).length = x.state.lastApplied := by
          rw [List.length_take]
          omega
        have hTterm : TermLog.lastTerm LogEntry.term (P.take x.state.lastApplied) = e.term := by
          refine lastTerm_eq_of_getElem? _ ?_
          rw [hTlen, List.getElem?_take_of_lt (by omega), ← he]
          obtain ⟨u, hu⟩ := hPlog
          rw [← hu, List.getElem?_append_left (by omega)]
        have hchosen := hP.of_isPrefix (List.take_prefix x.state.lastApplied P)
        have hcompact : x.log.compact x.state.lastApplied e.term =
            { x.log with
              entries := x.log.entries.drop (x.state.lastApplied - x.log.firstIndex + 1)
              firstIndex := x.state.lastApplied + 1
              snapshotIndex := x.state.lastApplied
              snapshotTerm := e.term } := by
          rw [ReplicatedLog.compact, if_neg (by omega)]
        have hstored : x.state.lastApplied ≤ (h.log n).length := by omega
        have hwin := hx.window.compact hstored e.term
        rw [hcompact] at hwin ⊢
        exact
          { term := hx.term
            window := hwin
            snapshot := ⟨_, hchosen, hTlen, hTterm,
              .inl ((List.take_prefix _ _).trans hPlog)⟩
            commit := ⟨P, hP, hlen, fun _ => hPlog⟩
            snapshot_le := by
              show x.state.lastApplied ≤ x.log.commitIndex
              omega
            commit_le := hx.commit_le
            applied := hx.applied
            applied_le := hx.applied_le
            metadata := fun m hm => by
              obtain rfl := Option.some.inj hm
              refine ⟨⟨_, hchosen, hTlen, hTterm⟩, ?_⟩
              show x.state.lastApplied ≤ x.log.commitIndex
              omega
            pending := hx.pending
            leader := hx.leader
            reported := hx.reported
            committed := hx.committed
            candidate := hx.candidate
            positive := hx.positive }
      · -- nothing was applied since the last snapshot
        rw [← heq, ReplicatedLog.termAt_snapshotIndex _ (by omega), Option.some.injEq] at ht
        have hcompact : x.log.compact x.state.lastApplied t = x.log := by
          rw [ReplicatedLog.compact, if_pos (by omega)]
        obtain ⟨P, hP, hlen, hterm, -⟩ := hx.snapshot
        rw [hcompact]
        exact
          { hx with
            metadata := fun m hm => by
              obtain rfl := Option.some.inj hm
              refine ⟨⟨P, hP, hlen.trans heq, hterm.trans ht⟩, ?_⟩
              show x.state.lastApplied ≤ x.log.commitIndex
              omega }
      · rw [hx.window.termAt_of_gt hzero hgt] at ht
        cases ht

/-! ## Taking over the leader's entries -/

/-- The history has changed only where it concerns node `n`, and no author has appended. -/
structure Around (n : N) (h h' : History N LogEntry) : Prop where
  leaderLog : h'.leaderLog = h.leaderLog
  vote : h'.vote = h.vote
  log : ∀ p ≠ n, h'.log p = h.log p
  term : ∀ p ≠ n, h'.term p = h.term p

omit [DecidableEq N] in
theorem Around.refl (n : N) (h : History N LogEntry) : Around n h h :=
  ⟨rfl, rfl, fun _ _ => rfl, fun _ _ => rfl⟩

omit [DecidableEq N] in
theorem Around.trans {h'' : History N LogEntry} (h₁ : Around n h h') (h₂ : Around n h' h'') :
    Around n h h'' :=
  ⟨h₂.leaderLog.trans h₁.leaderLog, h₂.vote.trans h₁.vote,
    fun p hp => (h₂.log p hp).trans (h₁.log p hp),
    fun p hp => (h₂.term p hp).trans (h₁.term p hp)⟩

theorem Around.raise (n : N) (h : History N LogEntry) (T : ℕ) : Around n h (h.raise n T) :=
  ⟨rfl, rfl, fun _ _ => rfl, fun _ hp => if_neg hp⟩

theorem Around.takeOver (n : N) (h : History N LogEntry) (P : List LogEntry) :
    Around n h (h.takeOver n P) :=
  ⟨rfl, rfl, fun _ hp => by simp [History.takeOver, Logs.adopt, hp], fun _ _ => rfl⟩

theorem Around.acknowledge (n : N) (h : History N LogEntry) : Around n h (h.acknowledge n) :=
  ⟨rfl, rfl, fun _ _ => rfl, fun _ _ => rfl⟩

omit [DecidableEq N] in
theorem termOf_length {P : List LogEntry} (hne : P ≠ []) :
    ReplicatedLog.termOf P P.length = some (TermLog.lastTerm LogEntry.term P) := by
  have hpos := List.length_pos_of_ne_nil hne
  have hlast : P[P.length - 1]? = some P[P.length - 1] := List.getElem?_eq_getElem (by omega)
  rw [ReplicatedLog.termOf, if_neg (by omega), hlast, lastTerm_eq_of_getElem? _ hlast]
  rfl

omit [DecidableEq N] in
theorem termOf_of_isPrefix {P Q : List LogEntry} (hpre : P <+: Q) {k : ℕ} (hk : k ≤ P.length) :
    ReplicatedLog.termOf Q k = ReplicatedLog.termOf P k := by
  unfold ReplicatedLog.termOf
  split_ifs with h0
  · rfl
  · obtain ⟨t, rfl⟩ := hpre
    rw [List.getElem?_append_left (by omega)]

section Accept

variable (hx : Mirrors M h n x) (hs : h.Safe LogEntry.term M)
  (hidx : ∀ T, ReplicatedLog.Indexed (h.leaderLog T))
  (hpos : ∀ T, ∀ e ∈ h.leaderLog T, 0 < e.term)

include hx hs hpos in
theorem Mirrors.termAt_pos {k t : ℕ} (hk : k ≠ 0) (ht : x.log.termAt k = some t) : 0 < t := by
  unfold ReplicatedLog.termAt at ht
  rw [if_neg hk] at ht
  split_ifs at ht with hsnap
  · obtain ⟨P, hP, hlen, hterm, -⟩ := hx.snapshot
    have hne : P ≠ [] := List.ne_nil_of_length_pos (by omega)
    obtain ⟨T, -, hPT⟩ := hP.exists_leaderLog
    have hlast : P[P.length - 1]? = some P[P.length - 1] :=
      List.getElem?_eq_getElem (by have := List.length_pos_of_ne_nil hne; omega)
    rw [Option.some.injEq] at ht
    rw [← ht, ← hterm, lastTerm_eq_of_getElem? _ hlast]
    exact hpos T _ (hPT.subset (List.getElem_mem _))
  · obtain ⟨e, he, rfl⟩ := Option.map_eq_some_iff.mp ht
    obtain ⟨-, hget⟩ := hx.window.get_eq_some he
    exact hpos _ e (List.mem_of_getElem? (authored_getElem? hs hget))

include hs hidx in
omit [DecidableEq N] in
theorem indexed_log (n : N) : ReplicatedLog.Indexed (h.log n) :=
  fun k e hk => hidx e.term k e (authored_getElem? hs hk)

include hx hs in
theorem Mirrors.snapshot_leaderLog (hL : h.leaderLog (h.term n) ≠ []) :
    ∃ P, h.Chosen LogEntry.term M (h.term n) P ∧ P <+: h.leaderLog (h.term n) ∧
      P.length = x.log.snapshotIndex ∧ TermLog.lastTerm LogEntry.term P = x.log.snapshotTerm := by
  obtain ⟨P, hP, hlen, hterm, -⟩ := hx.snapshot
  exact ⟨P, hP, hP.prefix_leaderLog hs hL, hlen, hterm⟩

include hx hs in
/-- A log that a follower takes over from the author of its term. -/
theorem Mirrors.takeOver {P : List LogEntry} (hrole : x.role = .follower)
    (hP : P <+: h.leaderLog (h.term n)) (hnew : ¬ P <+: h.log n)
    (hlt : x.log.snapshotIndex < P.length) :
    Mirrors M (h.takeOver n P) n
      { x with log := { x.log with entries := P.drop x.log.snapshotIndex } } := by
  have hL : h.leaderLog (h.term n) ≠ [] := by
    intro hnil
    rw [hnil] at hP
    exact hnew (List.prefix_nil.mp hP ▸ List.nil_prefix)
  have hext : h.Extends (h.takeOver n P) := History.takeOver_extends
  have hlog : (h.takeOver n P).log n = P := by simp [History.takeOver, Logs.adopt]
  have hfollower {P : Prop} {r : NodeRole} (hr : x.role = r) (hne : r ≠ .follower) : P :=
    absurd (hr.symm.trans hrole) hne
  refine
    { term := hx.term
      window := ?_
      snapshot := ?_
      commit := ?_
      snapshot_le := hx.snapshot_le
      commit_le := hx.commit_le
      applied := hx.applied
      applied_le := hx.applied_le
      metadata := fun m hm => ⟨(hx.metadata m hm).1.mono hext, (hx.metadata m hm).2⟩
      pending := fun p hp => (hx.pending p hp).mono hext
      leader := fun hr => hfollower hr (by decide)
      reported := fun hr => hfollower hr (by decide)
      committed := fun hr => hfollower hr (by decide)
      candidate := fun hr => hfollower hr (by decide)
      positive := fun hr => absurd hrole hr }
  · rw [hlog]
    exact ⟨hx.window.first, rfl, hlt.le⟩
  · obtain ⟨Q, hQ, hQL, hlen, hterm⟩ := hx.snapshot_leaderLog hs hL
    rw [hlog]
    exact ⟨Q, hQ.mono hext, hlen, hterm, .inr hlt⟩
  · obtain ⟨Q, hQ, hlen, hpre⟩ := hx.commit
    rw [hlog]
    refine ⟨Q, hQ.mono hext, hlen, fun hsnap => ?_⟩
    rcases List.prefix_or_prefix_of_prefix (hQ.prefix_leaderLog hs hL) hP with h₁ | h₁
    · exact h₁
    · exact absurd (h₁.trans (hpre hsnap)) hnew

include hx hs hidx in
/-- Editing the log by the entries of a request that passes the consistency check leaves the log
as it is or takes over the part of the leader's log that the request ends. -/
theorem Mirrors.reconcile {P : List LogEntry} {request : AppendEntriesRequest N}
    (hrole : x.role = .follower) (hL : h.leaderLog (h.term n) ≠ [])
    (hP : P <+: h.leaderLog (h.term n)) (hprev : request.prevLogIndex ≤ P.length)
    (hprevTerm : ReplicatedLog.termOf P request.prevLogIndex = some request.prevLogTerm)
    (hcheck : request.prevLogIndex ≠ 0 →
      x.log.termAt request.prevLogIndex = some request.prevLogTerm) :
    ∃ h', History.Steps LogEntry.term M h h' ∧ Around n h h' ∧ h'.term n = h.term n ∧
      Mirrors M h' n { x with log := x.log.reconcile (P.drop request.prevLogIndex) } ∧
      (P <+: h'.log n ∨ P.length ≤ x.log.snapshotIndex) ∧
      (x.log.reconcile (P.drop request.prevLogIndex)).snapshotIndex = x.log.snapshotIndex := by
  have hPidx : ReplicatedLog.Indexed P := by
    intro k e hk
    obtain ⟨t, ht⟩ := hP
    refine hidx (h.term n) k e ?_
    rw [← ht, List.getElem?_append_left (List.getElem?_eq_some_iff.mp hk).1, hk]
  have hagree : ReplicatedLog.Agree (h.log n) P := fun k e e' hk hk' ht =>
    (hs.authored.node n).take_eq ((hs.authored.leader _).of_isPrefix hP) hk hk' ht
  have hmatch (hlt : x.log.snapshotIndex < request.prevLogIndex) :
      request.prevLogIndex ≤ (h.log n).length ∧
        ReplicatedLog.termOf (h.log n) request.prevLogIndex =
          ReplicatedLog.termOf P request.prevLogIndex := by
    have ht := hcheck (by omega)
    rw [hx.window.termAt_of_lt hlt] at ht
    obtain ⟨e, he, -⟩ := Option.map_eq_some_iff.mp ht
    have := (List.getElem?_eq_some_iff.mp he).1
    refine ⟨by omega, ?_⟩
    rw [hprevTerm, ReplicatedLog.termOf, if_neg (by omega), ht]
  have hedge (hlt : request.prevLogIndex < x.log.snapshotIndex)
      (hle : x.log.snapshotIndex ≤ P.length) :
      ReplicatedLog.termOf P x.log.snapshotIndex = some x.log.snapshotTerm := by
    obtain ⟨Q, -, hQL, hlen, hterm⟩ := hx.snapshot_leaderLog hs hL
    have hQP : Q <+: P := List.prefix_of_prefix_length_le hQL hP (by omega)
    rw [← hlen, termOf_of_isPrefix hQP le_rfl,
      termOf_length (List.ne_nil_of_length_pos (by omega)), hterm]
  rcases hx.window.reconcile hPidx hagree hprev hmatch hedge with
    ⟨hsame, hhas⟩ | ⟨hnew, hlt, htake⟩
  · exact ⟨h, .refl, .refl n h, rfl, by rw [hsame]; exact hx, hhas, by rw [hsame]⟩
  · refine ⟨h.takeOver n P, .single (.takeOver n P hP hnew), .takeOver n h P, rfl, ?_, ?_, ?_⟩
    · rw [htake]
      exact hx.takeOver hs hrole hP hnew hlt
    · left
      simp [History.takeOver, Logs.adopt]
    · rw [htake]

include hs in
omit [DecidableEq N] in
theorem acknowledgeable
    (hlast : TermLog.lastTerm LogEntry.term (h.log n) = h.term n) :
    h.log n <+: h.leaderLog (h.term n) := by
  rcases eq_or_ne (h.log n) [] with hnil | hne
  · rw [hnil]
    exact List.nil_prefix
  · have := (hs.authored.node n).prefix_last hne
    rwa [hlast] at this

include hx hs hidx hpos in
/-- A follower that accepts a request of the author of its term acknowledges the log it has then,
when that log ends in the term. -/
theorem Mirrors.acceptEntries {request : AppendEntriesRequest N} (hrole : x.role = .follower)
    (hL : h.leaderLog (h.term n) ≠ []) (hterm : request.term = h.term n)
    (hcommit : ∃ Q, h.Chosen LogEntry.term M (h.term n) Q ∧ Q.length = request.leaderCommit)
    (hreq : request.Refines h) (hcheck : x.refusal request = none) :
    ∃ h', History.Steps LogEntry.term M h h' ∧ Around n h h' ∧ h'.term n = h.term n ∧
      Mirrors M h' n (x.acceptEntries request) ∧
      (x.acceptEntries request).log.lastTerm ≤ h.term n ∧
      ((x.acceptEntries request).log.lastTerm = h.term n →
        (x.acceptEntries request).log.lastIndex ≤ h'.acked n (h.term n)) := by
  have hcheck' (h0 : request.prevLogIndex ≠ 0) :
      x.log.termAt request.prevLogIndex = some request.prevLogTerm := by
    unfold RaftNode.refusal at hcheck
    rw [if_neg h0] at hcheck
    split at hcheck
    · cases hcheck
    · next t ht =>
      split_ifs at hcheck with hne
      rw [ht, Classical.not_not.mp hne]
  obtain ⟨P, hP, hprev, hprevTerm, hentries⟩ := hreq.resolve_left fun hdead => by
    have := hx.termAt_pos hs hpos (by omega) (hcheck' (by omega))
    omega
  rw [hterm] at hP
  obtain ⟨h₁, hrun, haround, hterm₁, hx₁, hhas, hsnap⟩ :=
    hx.reconcile hs hidx hrole hL hP hprev hprevTerm hcheck'
  obtain ⟨hs₁, hext⟩ := hrun.safe_extends hs
  -- the request vouches for the entries up to the end of `P`
  have hlast : request.lastNewIndex = P.length := by
    unfold AppendEntriesRequest.lastNewIndex
    rw [hentries, List.getLast?_drop]
    split_ifs with hle
    · exact le_antisymm hprev hle
    · have hPne : P ≠ [] := by
        rintro rfl
        simp at hle
      have hpos' := List.length_pos_of_ne_nil hPne
      rw [List.getLast?_eq_getElem?, List.getElem?_eq_getElem (by omega)]
      simp only
      have hPlast : P[P.length - 1]? = some P[P.length - 1] :=
        List.getElem?_eq_getElem (by omega)
      obtain ⟨t, ht⟩ := hP
      have := hidx (h.term n) (P.length - 1) P[P.length - 1]
        (by rw [← ht, List.getElem?_append_left (by omega), hPlast])
      omega
  have hx₂ : Mirrors M h₁ n (x.acceptEntries request) := by
    unfold RaftNode.acceptEntries RaftNode.followCommit
    rw [hentries]
    split
    · refine hx₁.setCommit ?_ (fun hr => absurd (hrole.symm.trans hr) (by decide))
      obtain ⟨Q, hQ, hQlen⟩ := hcommit
      have hlen : (Q.take (min request.leaderCommit request.lastNewIndex)).length =
          min request.leaderCommit request.lastNewIndex := by
        rw [List.length_take, hQlen]
        omega
      refine ⟨Q.take (min request.leaderCommit request.lastNewIndex), ?_, hlen, fun hlt => ?_⟩
      · rw [hterm₁]
        exact (hQ.mono hext).of_isPrefix (List.take_prefix _ _)
      · have hQP : Q.take (min request.leaderCommit request.lastNewIndex) <+: P := by
          refine List.prefix_of_prefix_length_le
            ((List.take_prefix _ _).trans (hQ.prefix_leaderLog hs hL)) hP ?_
          omega
        refine hQP.trans (hhas.resolve_right fun hle => ?_)
        rw [hsnap] at hlt
        omega
    · exact hx₁
  have hlog : (x.acceptEntries request).log.lastTerm =
      TermLog.lastTerm LogEntry.term (h₁.log n) := hx₂.lastTerm
  have hle : (x.acceptEntries request).log.lastTerm ≤ h.term n := by
    rw [hlog, ← hterm₁]
    rcases eq_or_ne (h₁.log n) [] with hnil | hne
    · rw [hnil]
      exact Nat.zero_le _
    · have hpos' := List.length_pos_of_ne_nil hne
      rw [lastTerm_eq_of_getElem? LogEntry.term (List.getElem?_eq_getElem (by omega))]
      exact hs₁.log_le n _ (List.getElem_mem _)
  by_cases heq : (x.acceptEntries request).log.lastTerm = h.term n
  · have hack : h₁.log n <+: h₁.leaderLog (h₁.term n) := by
      exact acknowledgeable hs₁ (by rw [← hlog, heq, hterm₁])
    have hstep : History.Step LogEntry.term M h₁ (h₁.acknowledge n) := .acknowledge n hack
    refine ⟨h₁.acknowledge n, hrun.tail hstep, haround.trans (.acknowledge n h₁), hterm₁, ?_, hle,
      fun _ => ?_⟩
    · exact hx₂.mono (hstep.extends hs₁) (hstep.safe hs₁) rfl rfl fun _ => rfl
    · rw [hx₂.window.lastIndex, History.acknowledge_acked, if_pos ⟨rfl, hterm₁.symm⟩]
      exact le_max_right _ _
  · exact ⟨h₁, hrun, haround, hterm₁, hx₂, hle, fun h' => absurd h' heq⟩

include hx in
/-- The node after a snapshot was restored, in terms of what compaction has left of the log. -/
theorem Mirrors.restored {h₁ : History N LogEntry} {r : ReplicatedLog} {metadata : SnapshotMetadata}
    (stateMachine : S) (size : ℕ) (hext : h.Extends h₁) (hterm : h₁.term n = h.term n)
    (hL : h.leaderLog (h.term n) ≠ []) (hleader : x.role = .leader → h₁ = h)
    (hpoint : Point M h (h.term n) metadata.lastIncludedIndex metadata.lastIncludedTerm)
    (hwin : r.Window (h₁.log n)) (hcommit : r.commitIndex = x.log.commitIndex)
    (hsnap : ∃ P, h₁.Chosen LogEntry.term M (h.term n) P ∧ P.length = r.snapshotIndex ∧
      TermLog.lastTerm LogEntry.term P = r.snapshotTerm ∧
      (P <+: h₁.log n ∨ r.snapshotIndex < (h₁.log n).length))
    (hkeep : ∀ P, P.length = x.log.commitIndex → r.snapshotIndex < x.log.commitIndex →
      (x.log.snapshotIndex < x.log.commitIndex → P <+: h.log n) → P <+: h₁.log n)
    (hle : metadata.lastIncludedIndex ≤ r.snapshotIndex)
    (hge : r.snapshotIndex ≤ max x.log.commitIndex metadata.lastIncludedIndex) :
    Mirrors M h₁ n
      { x with
        pendingSnapshot := none
        stateMachine
        log :=
          (r.setCommitIndex (max x.state.commitIndex metadata.lastIncludedIndex)).setLastApplied
            metadata.lastIncludedIndex
        state :=
          { x.state with
            commitIndex := max x.state.commitIndex metadata.lastIncludedIndex
            lastApplied := metadata.lastIncludedIndex }
        snapshotMetadata := some { metadata with size } } := by
  have hmax : max r.commitIndex (max x.state.commitIndex metadata.lastIncludedIndex) =
      max x.log.commitIndex metadata.lastIncludedIndex := by
    have := hx.commit_le
    omega
  rw [ReplicatedLog.setCommitIndex_eq, hmax]
  refine
    { term := hx.term.trans hterm.symm
      window := ⟨hwin.first, hwin.entries, hwin.bound⟩
      snapshot := by rw [hterm]; exact hsnap
      commit := ?_
      snapshot_le := hge
      commit_le := ?_
      applied := rfl
      applied_le := le_max_right _ _
      metadata := fun m hm => ?_
      pending := fun p hp => by cases hp
      leader := fun hr => by rw [hleader hr]; exact hx.leader hr
      reported := fun hr p m hm => ?_
      committed := fun hr c hc hown => ?_
      candidate := fun hr hnil => ?_
      positive := fun hr => by rw [hterm]; exact hx.positive hr }
  · rw [hterm]
    show ∃ P, h₁.Chosen LogEntry.term M (h.term n) P ∧
      P.length = max x.log.commitIndex metadata.lastIncludedIndex ∧
      (r.snapshotIndex < max x.log.commitIndex metadata.lastIncludedIndex → P <+: h₁.log n)
    rcases Nat.le_total metadata.lastIncludedIndex x.log.commitIndex with hcle | hcle
    · obtain ⟨P, hP, hlen, hpre⟩ := hx.commit
      rw [max_eq_left hcle]
      exact ⟨P, hP.mono hext, hlen, fun hlt => hkeep P hlen hlt hpre⟩
    · obtain ⟨P, hP, hlen, -⟩ := hpoint
      rw [max_eq_right hcle]
      exact ⟨P, hP.mono hext, hlen, fun hlt => absurd hlt (by omega)⟩
  · show max x.state.commitIndex metadata.lastIncludedIndex ≤
      max x.log.commitIndex metadata.lastIncludedIndex
    have := hx.commit_le
    omega
  · obtain rfl := Option.some.inj hm
    rw [hterm]
    exact ⟨hpoint.mono hext, le_max_right _ _⟩
  · have heq := hleader hr
    subst heq
    exact (hx.reported hr p m hm).imp_right fun hrep c hc hown =>
      (hrep c hc hown).imp_right fun hle => hle.trans (le_max_left _ _)
  · have heq := hleader hr
    subst heq
    rcases le_max_iff.mp hc with hc | hc
    · exact (hx.committed hr c hc hown).trans (le_max_left _ _)
    · exact hc.trans (le_max_right _ _)
  · rw [hterm] at hnil
    exact absurd (List.prefix_nil.mp (hnil ▸ hext.leaderLog (h.term n))) hL

include hx hs in
/-- Installing a snapshot that the author of the node's term has keeps the node in place. -/
theorem Mirrors.installSnapshot (B : StateMachineBackend S C Snap)
    (hL : h.leaderLog (h.term n) ≠ []) {metadata : SnapshotMetadata}
    (hpoint : Point M h (h.term n) metadata.lastIncludedIndex metadata.lastIncludedTerm)
    (data : Bytes) (checksum : Option UInt32) :
    ∃ h', History.Steps LogEntry.term M h h' ∧ Around n h h' ∧ h'.term n = h.term n ∧
      Mirrors M h' n (x.installSnapshot B metadata data checksum) := by
  have hdrop : Mirrors M h n { x with pendingSnapshot := none } :=
    hx.congr rfl rfl rfl (.inl rfl) (.inr ⟨rfl, rfl⟩)
  unfold RaftNode.installSnapshot
  dsimp only
  split
  · exact ⟨h, .refl, .refl n h, rfl, hdrop⟩
  split
  · exact ⟨h, .refl, .refl n h, rfl, hdrop⟩
  obtain ⟨P, hP, hlen, hPterm⟩ := hpoint
  have hPL := hP.prefix_leaderLog hs hL
  have hfirst := hx.window.first
  have hsnap_le := hx.snapshot_le
  by_cases hbefore : metadata.lastIncludedIndex < x.log.firstIndex
  · -- the log is compacted that far already
    have hcompact : x.log.compact metadata.lastIncludedIndex metadata.lastIncludedTerm = x.log := by
      rw [ReplicatedLog.compact, if_pos hbefore]
    rw [hcompact]
    exact ⟨h, .refl, .refl n h, rfl, hx.restored _ _ (.refl h) rfl hL (fun _ => rfl)
      ⟨P, hP, hlen, hPterm⟩ hx.window rfl hx.snapshot (fun _ _ hlt hpre => hpre hlt) (by omega)
      (by omega)⟩
  have hcompact : x.log.compact metadata.lastIncludedIndex metadata.lastIncludedTerm =
      { x.log with
        entries := x.log.entries.drop (metadata.lastIncludedIndex - x.log.firstIndex + 1)
        firstIndex := metadata.lastIncludedIndex + 1
        snapshotIndex := metadata.lastIncludedIndex
        snapshotTerm := metadata.lastIncludedTerm } := by
    rw [ReplicatedLog.compact, if_neg hbefore]
  by_cases hkeep : metadata.lastIncludedIndex < (h.log n).length ∨ P <+: h.log n
  · -- the suffix behind the snapshot stays
    have hle : metadata.lastIncludedIndex ≤ (h.log n).length := by
      rcases hkeep with hlt | hpre
      · exact hlt.le
      · exact hlen ▸ hpre.length_le
    have hwin := hx.window.compact hle metadata.lastIncludedTerm
    rw [hcompact] at hwin ⊢
    refine ⟨h, .refl, .refl n h, rfl, hx.restored _ _ (.refl h) rfl hL (fun _ => rfl)
      ⟨P, hP, hlen, hPterm⟩ hwin rfl ⟨P, hP, hlen, hPterm, hkeep.symm⟩
      (fun _ _ hlt hpre => hpre ?_) le_rfl (le_max_right _ _)⟩
    have hlt' : metadata.lastIncludedIndex < x.log.commitIndex := hlt
    omega
  · -- nothing stays, and the log is the one the snapshot ends
    push Not at hkeep
    obtain ⟨hshort, hnew⟩ := hkeep
    have hleader : x.role ≠ .leader := by
      intro hr
      exact hnew ((hx.leader hr).1 ▸ hPL)
    have hlogP : (h.takeOver n P).log n = P := by simp [History.takeOver, Logs.adopt]
    have hwin := hx.window.compact_of_le (P := P) (by omega) (by omega) metadata.lastIncludedTerm
    rw [hlen, hcompact] at hwin
    rw [hcompact]
    refine ⟨h.takeOver n P, .single (.takeOver n P hPL hnew), .takeOver n h P, rfl,
      hx.restored _ _ History.takeOver_extends rfl hL (fun hr => absurd hr hleader)
        ⟨P, hP, hlen, hPterm⟩ ?_ rfl ⟨P, hP.mono History.takeOver_extends, hlen, hPterm, ?_⟩
        (fun Q hQ hlt hpre => ?_) le_rfl (le_max_right _ _)⟩
    · rw [hlogP]
      exact hwin
    · rw [hlogP]
      exact .inl List.prefix_rfl
    · -- a commit index behind the snapshot would be behind the end of the old log
      have hlt' : metadata.lastIncludedIndex < x.log.commitIndex := hlt
      have := (hpre (by omega)).length_le
      omega

include hx hs in
/-- A chunk of a snapshot from the author of the node's term keeps the node in place. -/
theorem Mirrors.receiveChunk (B : StateMachineBackend S C Snap)
    (hL : h.leaderLog (h.term n) ≠ []) {request : InstallSnapshotRequest N}
    (hpoint : Point M h (h.term n) request.lastIncludedIndex request.lastIncludedTerm) :
    ∃ h', History.Steps LogEntry.term M h h' ∧ Around n h h' ∧ h'.term n = h.term n ∧
      Mirrors M h' n (x.receiveChunk B request) := by
  have hdrop : Mirrors M h n { x with pendingSnapshot := none } :=
    hx.congr rfl rfl rfl (.inl rfl) (.inr ⟨rfl, rfl⟩)
  have hpending (p : PendingSnapshot) (hp : x.pendingFor request = some p) :
      Point M h (h.term n) p.metadata.lastIncludedIndex p.metadata.lastIncludedTerm := by
    unfold RaftNode.pendingFor at hp
    split_ifs at hp
    · obtain rfl := Option.some.inj hp
      exact hpoint
    · exact hx.pending p hp
  unfold RaftNode.receiveChunk
  split
  · exact ⟨h, .refl, .refl n h, rfl, hdrop⟩
  · next snapshot hsnapshot =>
    split
    · exact ⟨h, .refl, .refl n h, rfl, hdrop⟩
    · dsimp only
      split
      · exact hx.installSnapshot hs B hL (hpending snapshot hsnapshot) _ _
      · refine ⟨h, .refl, .refl n h, rfl, { hx with pending := fun p hp => ?_ }⟩
        obtain rfl := Option.some.inj hp
        exact hpending snapshot hsnapshot

end Accept

end Replication

end AegisDB
