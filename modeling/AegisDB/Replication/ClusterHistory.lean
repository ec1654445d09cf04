import AegisDB.Replication.CommitRule

/-!
# Runs of the cluster and their histories

Every step of the cluster is matched by steps of its history, as long as each reply that a leader
counts reports an index at which the leader's log agrees with the follower's
(`Deployment.Truthful`).  A follower that accepts a request reports its own last index, and its log
may go on behind what the request covers with entries the leader never had; `Truthful` leaves out
exactly the replies in which that is so.
-/

namespace AegisDB

namespace Replication

open TermLog

variable {N S C Snap : Type*} [DecidableEq N]

section Author

variable {M : Finset N} {h : History N LogEntry} {n : N} {x y : RaftNode N S} {e : LogEntry}

/-- The author of a term after it has appended an entry of the term. -/
theorem Mirrors.author (hx : Mirrors M h n x) (hs : h.Safe LogEntry.term M)
    (hs' : (h.author LogEntry.term n e).Safe LogEntry.term M) (hterm : e.term = h.term n)
    (hpre : h.leaderLog e.term <+: h.log n) (hpos : 0 < h.term n)
    (hnew : x.role = .leader ∨ h.leaderLog (h.term n) = [])
    (hlog : y.log = (x.log.append e).2) (hstate : y.state = x.state)
    (hmeta : y.snapshotMetadata = x.snapshotMetadata)
    (hpend : y.pendingSnapshot = x.pendingSnapshot) (hrole : y.role = .leader)
    (hreported : ∀ p m, y.matchIndex.lookup p = some m →
      m = 0 ∨ (x.role = .leader ∧ x.matchIndex.lookup p = some m)) :
    Mirrors M (h.author LogEntry.term n e) n y := by
  have hext : h.Extends (h.author LogEntry.term n e) := History.author_extends hs hterm hpre
  have hlogn : (h.author LogEntry.term n e).log n = h.log n ++ [e] := by
    simp [History.author, Logs.extend]
  have hL : (h.author LogEntry.term n e).leaderLog (h.term n) = h.log n ++ [e] := by
    simp [History.author, Logs.extend, hterm]
  have hgrow : h.log n <+: h.log n ++ [e] := List.prefix_append _ _
  refine
    { term := hstate ▸ hx.term
      window := by rw [hlog, hlogn]; exact hx.window.append e
      snapshot := ?_
      commit := ?_
      snapshot_le := by rw [hlog]; exact hx.snapshot_le
      commit_le := by rw [hlog, hstate]; exact hx.commit_le
      applied := by rw [hlog, hstate]; exact hx.applied
      applied_le := by rw [hlog]; exact hx.applied_le
      metadata := fun m hm => ?_
      pending := fun p hp => (hx.pending p (hpend ▸ hp)).mono hext
      leader := fun _ => ⟨hL.trans hlogn.symm, by rw [hlogn]; simp, ?_⟩
      reported := fun _ p m hm => ?_
      committed := fun _ c hc hown => ?_
      candidate := fun hr => by rw [hrole] at hr; cases hr
      positive := fun _ => hpos }
  · obtain ⟨P, hP, hlen, hPterm, hsuffix⟩ := hx.snapshot
    rw [hlog, hlogn]
    refine ⟨P, hP.mono hext, hlen, hPterm, hsuffix.imp (fun hp => hp.trans hgrow) fun hlt => ?_⟩
    exact hlt.trans_le hgrow.length_le
  · obtain ⟨P, hP, hlen, hp⟩ := hx.commit
    rw [hlog, hlogn]
    exact ⟨P, hP.mono hext, hlen, fun hlt => (hp hlt).trans hgrow⟩
  · rw [hlog]
    exact ⟨(hx.metadata m (hmeta ▸ hm)).1.mono hext, (hx.metadata m (hmeta ▸ hm)).2⟩
  · show (h.author LogEntry.term n e).acked n (h.term n) = _
    rw [History.author_acked, if_pos ⟨rfl, hterm.symm⟩, hlogn, List.length_append]
    rfl
  · rw [hlogn, hlog]
    rcases hreported p m hm with rfl | ⟨hr, hm'⟩
    · exact ⟨Nat.zero_le _, fun c hc hown => absurd hown.pos (by omega)⟩
    · obtain ⟨hle, hrep⟩ := hx.reported hr p m hm'
      refine ⟨hle.trans hgrow.length_le, fun c hc hown => ?_⟩
      have hown' : Owns LogEntry.term h.leaderLog (h.term n) c := by
        refine hown.of_isPrefix (hext.leaderLog _) ?_
        show c ≤ (h.leaderLog (h.term n)).length
        rw [(hx.leader hr).1]
        exact hc.trans hle
      exact (hrep c hc hown').imp_left fun hack => hack.trans (hext.acked _ _)
  · rw [hlog] at hc
    rw [hstate]
    have hc' : c ≤ x.log.commitIndex := hc
    have hown' : Owns LogEntry.term (h.author LogEntry.term n e).leaderLog (h.term n) c := hown
    obtain ⟨P, hP, hlen, -⟩ := hx.commit
    have hPL : P <+: h.log n ++ [e] :=
      hL ▸ (hP.mono hext).prefix_leaderLog hs' (by rw [hL]; simp)
    -- the new entry was not committed when it did not exist
    have hle : c ≤ (h.log n).length := by
      by_contra hgt
      have hPeq : P = h.log n ++ [e] := by
        refine hPL.eq_of_length ?_
        have := hPL.length_le
        simp only [List.length_append, List.length_singleton] at this ⊢
        omega
      obtain ⟨T, hT, hPT⟩ := hP.exists_leaderLog
      have heT : e ∈ h.leaderLog T := hPT.subset (by rw [hPeq]; simp)
      have := hs.authored.bounded T e heT
      obtain rfl : T = h.term n := by omega
      have := (hterm ▸ hpre : h.leaderLog (h.term n) <+: h.log n).length_le
      have := hPT.length_le
      rw [hPeq, List.length_append, List.length_singleton] at this
      omega
    rw [Owns, hL] at hown'
    obtain ⟨k, f, rfl, hf, hft⟩ := hown'
    rw [List.getElem?_append_left (by omega)] at hf
    have hfL := authored_getElem? hs hf
    rw [hft] at hfL
    rcases hnew with hr | hnil
    · exact hx.committed hr _ hc' ⟨k, f, rfl, hfL, hft⟩
    · rw [hnil] at hfL
      cases hfL

theorem Mirrors.stand (hx : Mirrors M h n x) :
    Mirrors M (h.stand n (h.term n + 1)) n x.startElection.1 := by
  have hfollow : Mirrors M (h.raise n (h.term n + 1)) n
      { x.startElection.1 with role := .follower } :=
    hx.enter (Nat.le_succ _) rfl (congrArg (· + 1) hx.term) rfl rfl rfl (.inr rfl) (.inl rfl)
  exact
    { term := hfollow.term
      window := hfollow.window
      snapshot := hfollow.snapshot
      commit := hfollow.commit
      snapshot_le := hfollow.snapshot_le
      commit_le := hfollow.commit_le
      applied := hfollow.applied
      applied_le := hfollow.applied_le
      metadata := hfollow.metadata
      pending := hfollow.pending
      leader := fun hr => by cases hr
      reported := fun hr => by cases hr
      committed := fun hr => by cases hr
      candidate := fun _ _ => by
        have hterm : (h.stand n (h.term n + 1)).term n = h.term n + 1 := if_pos rfl
        rw [hterm, History.stand_cand, if_pos ⟨rfl, rfl⟩]
        rfl
      positive := fun _ => by
        have hterm : (h.stand n (h.term n + 1)).term n = h.term n + 1 := if_pos rfl
        rw [hterm]
        exact Nat.succ_pos _ }

theorem Mirrors.createAppendEntries {members : List N} (hx : Mirrors M h n x)
    (hs : h.Safe LogEntry.term M) (hw : x.Wired members n) {peer : N}
    {request : AppendEntriesRequest N} (hreq : x.createAppendEntries peer = some request) :
    Message.Refines M h ⟨n, peer, .appendEntries request⟩ := by
  unfold RaftNode.createAppendEntries at hreq
  split_ifs at hreq with hleader
  obtain ⟨next, hnext, rfl⟩ := Option.map_eq_some_iff.mp hreq
  have hrole : x.role = .leader := by
    simpa [RaftNode.isLeader] using hleader
  obtain ⟨hL, hne, -⟩ := hx.leader hrole
  have hnextpos := (hw.nextIndex peer next hnext).1
  have hbound := hx.window.bound
  refine ⟨?_, ?_, ?_⟩
  · simp only [hx.term, hL]
    exact hne
  · obtain ⟨P, hP, hlen, -⟩ := hx.commit
    have hle := hx.commit_le
    refine ⟨P.take x.state.commitIndex, ?_, by simp only [List.length_take]; omega⟩
    simp only [hx.term]
    exact hP.of_isPrefix (List.take_prefix _ _)
  · -- the part of the log behind an index that the log reaches
    have behind (hsnap : x.log.snapshotIndex ≤ next - 1) (hle : next - 1 ≤ (h.log n).length)
        {t : ℕ} (ht : ReplicatedLog.termOf (h.log n) (next - 1) = some t) :
        ∃ P, P <+: h.log n ∧ next - 1 ≤ P.length ∧
          ReplicatedLog.termOf P (next - 1) = some t ∧
          (x.log.getRange next (x.log.lastIndex + 1)).take x.config.maxEntriesPerRequest =
            P.drop (next - 1) := by
      rw [hx.window.getRange (by omega), List.take_take]
      refine ⟨(h.log n).take (next - 1 + min x.config.maxEntriesPerRequest
        (x.log.lastIndex + 1 - next)), List.take_prefix _ _, ?_, ?_, ?_⟩
      · simp only [List.length_take]
        omega
      · rw [← termOf_of_isPrefix (List.take_prefix _ _)
          (by simp only [List.length_take]; omega), ht]
      · rw [List.drop_take, Nat.add_sub_cancel_left]
    unfold AppendEntriesRequest.Refines
    simp only [hx.term, hL]
    rcases Nat.eq_zero_or_pos (next - 1) with h0 | hpos
    · right
      rcases Nat.eq_zero_or_pos x.log.snapshotIndex with hsnap | hsnap
      · obtain ⟨P, hP, hle, ht, hdrop⟩ := behind (by omega) (by omega)
          (t := 0) (by rw [h0]; rfl)
        refine ⟨P, hP, hle, ?_, hdrop⟩
        rw [ht, h0]
        rfl
      · -- the first entries are compacted, and nothing is sent
        refine ⟨[], List.nil_prefix, by omega, ?_, ?_⟩
        · rw [h0]
          rfl
        · have hfirst := hx.window.first
          rw [ReplicatedLog.getRange, if_pos (by omega)]
          simp
    · rcases Nat.lt_trichotomy x.log.snapshotIndex (next - 1) with hlt | heq | hgt
      · rw [hx.window.termAt_of_lt hlt]
        cases he : (h.log n)[next - 1 - 1]? with
        | none => exact .inl ⟨hpos, rfl⟩
        | some e =>
          right
          have hlen := (List.getElem?_eq_some_iff.mp he).1
          exact behind hlt.le (by omega)
            (by rw [ReplicatedLog.termOf, if_neg (by omega), he]; rfl)
      · right
        obtain ⟨P, -, hPL, hlen, hPterm⟩ := hx.snapshot_leaderLog hs (hL ▸ hne)
        rw [hL] at hPL
        rw [← heq, ReplicatedLog.termAt_snapshotIndex _ (by omega), heq]
        refine behind heq.le (by omega) ?_
        rw [termOf_of_isPrefix hPL (by omega), show next - 1 = P.length by omega,
          termOf_length (List.ne_nil_of_length_pos (by omega)), hPterm]
        rfl
      · rw [hx.window.termAt_of_gt (by omega) hgt]
        exact .inl ⟨hpos, rfl⟩

end Author

namespace Deployment

variable {D : Deployment N S C Snap}

/-- A reply that a leader counts reports an index that the leader has compacted, or one at which
the leader's log has the term in which the follower's log ended. -/
def Truthful (s : Cluster N S C) (a : ClusterAction N C) : Prop :=
  ∀ r ∈ s.countedReply a, r.matchIndex ≤ (s.nodes r.leader).log.snapshotIndex ∨
    (s.nodes r.leader).log.termAt r.matchIndex = some r.lastTerm

instance (s : Cluster N S C) (a : ClusterAction N C) : Decidable (Truthful s a) :=
  inferInstanceAs (Decidable (∀ r ∈ s.countedReply a, _))

/-! ## Recording an event -/

section Record

variable {s : Cluster N S C} {h h' : History N LogEntry} {n : N} {o : Outcome N S C}

theorem refines_record (hr : Refines D h s)
    (hrun : History.Steps LogEntry.term D.members.toFinset h h')
    (hlog : ∀ p ≠ n, h'.log p = h.log p) (hterm : ∀ p ≠ n, h'.term p = h.term p)
    (hlead : ∀ p ≠ n, (s.nodes p).role = .leader →
      h'.leaderLog (h.term p) = h.leaderLog (h.term p))
    (hvote : ∀ p T x, h'.vote p T x ↔ (p, T, x) ∈ (s.record n o).votes)
    (hauthor : ∀ T, h'.leaderLog T ≠ [] ↔ ∃ x, (T, x) ∈ (s.record n o).elected)
    (hidx : ∀ T, ReplicatedLog.Indexed (h'.leaderLog T))
    (hpos : ∀ T, ∀ e ∈ h'.leaderLog T, 0 < e.term)
    (hnode : Mirrors D.members.toFinset h' n o.node)
    (hsent : ∀ m ∈ o.sent, m.Refines D.members.toFinset h')
    (happlied : ∀ a ∈ o.applied,
      ChosenCommand D.members.toFinset h' D.backend.commandFromBytes a.1 a.2) :
    Refines D h' (s.record n o) := by
  obtain ⟨hsafe, hext⟩ := hrun.safe_extends hr.safe
  refine
    { safe := hsafe
      node := fun p => ?_
      vote := hvote
      author := hauthor
      indexed := hidx
      positive := hpos
      sent := fun m hm => ?_
      applied := fun p i c ha => ?_ }
  · by_cases hp : p = n
    · subst hp
      rw [record_nodes_self]
      exact hnode
    · rw [record_nodes_ne hp]
      exact (hr.node p).mono hext hsafe (hlog p hp) (hterm p hp) (hlead p hp)
  · rcases List.mem_append.mp hm with hm | hm
    · exact (hr.sent m hm).mono hext
    · exact hsent m hm
  · rcases List.mem_append.mp ha with ha | ha
    · exact (hr.applied p i c ha).mono hext
    · obtain ⟨⟨i', c'⟩, ha', heq⟩ := List.mem_map.mp ha
      obtain ⟨-, rfl, rfl⟩ : n = p ∧ i' = i ∧ c' = c := by simpa using heq
      exact happlied _ ha'

/-- An event in which nobody votes, wins an election or appends as an author. -/
theorem refines_around (hr : Refines D h s)
    (hrun : History.Steps LogEntry.term D.members.toFinset h h') (haround : Around n h h')
    (hvotes : o.votes = []) (helected : o.elected = [])
    (hnode : Mirrors D.members.toFinset h' n o.node)
    (hsent : ∀ m ∈ o.sent, m.Refines D.members.toFinset h')
    (happlied : ∀ a ∈ o.applied,
      ChosenCommand D.members.toFinset h' D.backend.commandFromBytes a.1 a.2) :
    Refines D h' (s.record n o) := by
  have hv : (s.record n o).votes = s.votes := by simp [Cluster.record, hvotes]
  have he : (s.record n o).elected = s.elected := by simp [Cluster.record, helected]
  refine refines_record hr hrun haround.log haround.term
    (fun _ _ _ => by rw [haround.leaderLog]) ?_ ?_ ?_ ?_ hnode hsent happlied
  · rw [haround.vote, hv]
    exact hr.vote
  · rw [haround.leaderLog, he]
    exact hr.author
  · rw [haround.leaderLog]
    exact hr.indexed
  · rw [haround.leaderLog]
    exact hr.positive

theorem refines_quiet (hr : Refines D h s) (hvotes : o.votes = []) (helected : o.elected = [])
    (hnode : Mirrors D.members.toFinset h n o.node)
    (hsent : ∀ m ∈ o.sent, m.Refines D.members.toFinset h)
    (happlied : ∀ a ∈ o.applied,
      ChosenCommand D.members.toFinset h D.backend.commandFromBytes a.1 a.2) :
    ∃ h', History.Steps LogEntry.term D.members.toFinset h h' ∧ Refines D h' (s.record n o) :=
  ⟨h, .refl, refines_around hr .refl (.refl n h) hvotes helected hnode hsent happlied⟩

end Record

/-! ## Steps -/

section Step

variable {s : Cluster N S C} {h : History N LogEntry} {n : N}

/-- The history goes on so that it matches the cluster after an event. -/
def Matched (D : Deployment N S C Snap) (h : History N LogEntry) (s : Cluster N S C) (n : N)
    (o : Outcome N S C) : Prop :=
  ∃ h', History.Steps LogEntry.term D.members.toFinset h h' ∧ Refines D h' (s.record n o)

theorem matched_stepDown (hr : Refines D h s) {term : ℕ}
    (hlt : (s.nodes n).state.currentTerm < term) {o : Outcome N S C}
    (hnode : o.node = (s.nodes n).stepDown term) (hvotes : o.votes = [])
    (helected : o.elected = []) (hsent : o.sent = []) (happlied : o.applied = []) :
    Matched D h s n o := by
  have hle : h.term n ≤ term := by
    have := (hr.node n).term
    omega
  refine ⟨h.raise n term, .single (.raise n term hle), ?_⟩
  refine refines_around hr (.single (.raise n term hle)) (.raise n h term) hvotes helected ?_
    (by simp [hsent]) (by simp [happlied])
  rw [hnode]
  exact (hr.node n).enter hle rfl rfl rfl rfl rfl (.inr rfl) (.inl rfl)

theorem matched_author (hr : Refines D h s) {e : LogEntry} {o : Outcome N S C}
    (hstep : History.Step LogEntry.term D.members.toFinset h (h.author LogEntry.term n e))
    (hterm : e.term = h.term n) (hpos : 0 < h.term n)
    (hindex : e.index = (h.log n).length + 1)
    (hother : ∀ p ≠ n, (s.nodes p).role = .leader → h.term p ≠ h.term n)
    (hnode : Mirrors D.members.toFinset (h.author LogEntry.term n e) n o.node)
    (hvotes : o.votes = [])
    (helected : ∀ T, (∃ x, (T, x) ∈ (s.record n o).elected) ↔
      T = h.term n ∨ ∃ x, (T, x) ∈ s.elected)
    (hsent : o.sent = []) (happlied : o.applied = []) : Matched D h s n o := by
  have hself : (h.author LogEntry.term n e).leaderLog (h.term n) = h.log n ++ [e] := by
    simp [History.author, Logs.extend, hterm]
  have hne {T : ℕ} (hT : T ≠ h.term n) :
      (h.author LogEntry.term n e).leaderLog T = h.leaderLog T := by
    simp [History.author, Logs.extend, hterm, hT]
  refine ⟨_, .single hstep, refines_record hr (.single hstep) (fun p hp => ?_) (fun _ _ => rfl)
    (fun p hp hl => hne (hother p hp hl)) ?_ (fun T => ?_) (fun T => ?_) (fun T => ?_) hnode
    (by simp [hsent]) (by simp [happlied])⟩
  · simp [History.author, Logs.extend, hp]
  · intro p T x
    have hv : (s.record n o).votes = s.votes := by simp [Cluster.record, hvotes]
    rw [hv]
    exact hr.vote p T x
  · rw [helected]
    by_cases hT : T = h.term n
    · subst hT
      simp [hself]
    · simp [hne hT, hT, hr.author]
  · by_cases hT : T = h.term n
    · subst hT
      rw [hself]
      intro k x hk
      rcases Nat.lt_trichotomy k (h.log n).length with hlt | heq | hgt
      · rw [List.getElem?_append_left hlt] at hk
        exact indexed_log hr.safe hr.indexed n k x hk
      · rw [heq, List.getElem?_concat_length, Option.some.injEq] at hk
        rw [← hk, hindex, heq]
      · rw [List.getElem?_eq_none (by simp; omega)] at hk
        cases hk
    · rw [hne hT]
      exact hr.indexed T
  · by_cases hT : T = h.term n
    · subst hT
      rw [hself]
      intro x hx
      rcases List.mem_append.mp hx with hx | hx
      · obtain ⟨k, hk⟩ := List.mem_iff_getElem?.mp hx
        exact hr.positive _ x (List.mem_of_getElem? (authored_getElem? hr.safe hk))
      · rw [List.mem_singleton.mp hx, hterm]
        exact hpos
    · rw [hne hT]
      exact hr.positive T

theorem leaders_term_ne (hr : Refines D h s) (he : D.ElectionInv s)
    (hn : (h.term n, n) ∈ s.elected) {p : N} (hp : p ≠ n) (hl : (s.nodes p).role = .leader) :
    h.term p ≠ h.term n := by
  intro heq
  have hpe := he.leader p hl
  rw [(hr.node p).term, heq] at hpe
  exact hp (he.elected_unique hpe hn)

theorem matched_propose (hr : Refines D h s) (he : D.ElectionInv s) (command : C) :
    Matched D h s n { node := ((s.nodes n).propose D.backend command).1 } := by
  have hx := hr.node n
  by_cases hl : (s.nodes n).isLeader = true
  · have hrole : (s.nodes n).role = .leader := by simpa [RaftNode.isLeader] using hl
    obtain ⟨hL, hne, -⟩ := hx.leader hrole
    have hlen := hx.window.lastIndex
    generalize hentry : LogEntry.command ((s.nodes n).log.lastIndex + 1)
      (s.nodes n).state.currentTerm (D.backend.commandToBytes command) = entry
    have hterm : entry.term = h.term n := by
      rw [← hentry]
      exact hx.term
    have hpre : h.leaderLog entry.term <+: h.log n := by rw [hterm, hL]
    have hpos := hx.positive (by rw [hrole]; decide)
    have helected := he.leader n hrole
    rw [hx.term] at helected
    have hstep : History.Step LogEntry.term D.members.toFinset h
        (h.author LogEntry.term n entry) :=
      .append n entry hterm (by rw [hterm, hL]; exact hne) (by rw [hterm, hL])
    refine matched_author hr hstep hterm hpos (by rw [← hentry, ← hlen]; rfl)
      (fun p hp hlp => leaders_term_ne hr he helected hp hlp) ?_ rfl (fun T => ?_) rfl rfl
    · refine hx.author hr.safe (hstep.safe hr.safe) hterm hpre hpos (.inl hrole) ?_ ?_ ?_ ?_ ?_
        fun p m hm => .inr ⟨hrole, ?_⟩
      · simp [RaftNode.propose, hl, hentry]
      · simp [RaftNode.propose, hl]
      · simp [RaftNode.propose, hl]
      · simp [RaftNode.propose, hl]
      · simp [RaftNode.propose, hl, hrole]
      · simpa [RaftNode.propose, hl] using hm
    · simp only [Cluster.record, List.map_nil, List.append_nil]
      refine ⟨.inr, fun hT => hT.elim (fun heq => ?_) fun h' => h'⟩
      exact ⟨n, heq ▸ helected⟩
  · have hsame : ((s.nodes n).propose D.backend command).1 = s.nodes n := by
      simp [RaftNode.propose, hl]
    exact refines_quiet hr rfl rfl (by rw [hsame]; exact hx) (by simp) (by simp)

theorem matched_electionTimeout (hr : Refines D h s) :
    Matched D h s n
      { node := (s.nodes n).startElection.1
        sent := (s.nodes n).startElection.1.peers.map fun peer =>
          ⟨n, peer, .voteRequest (s.nodes n).startElection.2⟩
        votes := [((s.nodes n).startElection.2.term, n)] } := by
  have hx := hr.node n
  have hstep : History.Step LogEntry.term D.members.toFinset h (h.stand n (h.term n + 1)) :=
    .stand n _ (Nat.lt_succ_self _)
  have hnew : (h.stand n (h.term n + 1)).term n = h.term n + 1 := if_pos rfl
  have hterm : (s.nodes n).startElection.2.term = h.term n + 1 := congrArg (· + 1) hx.term
  refine ⟨_, .single hstep, refines_record hr (.single hstep) (fun _ _ => rfl)
    (fun p hp => if_neg hp) (fun _ _ _ => rfl) (fun p T y => ?_) (fun T => ?_) hr.indexed
    hr.positive hx.stand (fun m hm => ?_) (by simp)⟩
  · show (h.vote p T y ∨ (p = n ∧ T = h.term n + 1 ∧ y = n)) ↔ _
    rw [hr.vote, ← hterm]
    simp [Cluster.record]
  · show h.leaderLog T ≠ [] ↔ _
    rw [hr.author]
    simp [Cluster.record]
  · obtain ⟨peer, -, rfl⟩ := List.mem_map.mp hm
    show _ ≤ (h.stand n (h.term n + 1)).term n ∧ _
    have hcand : (h.stand n (h.term n + 1)).cand n (s.nodes n).startElection.2.term = h.log n := by
      rw [hterm, History.stand_cand, if_pos ⟨rfl, rfl⟩]
    rw [hcand]
    refine ⟨by rw [hterm, hnew], hx.window.lastIndex, hx.lastTerm⟩

theorem mirrors_noticeTerm {M : Finset N} {x : RaftNode N S} (hx : Mirrors M h n x) (term : ℕ) :
    Mirrors M (h.raise n (max (h.term n) term)) n (x.noticeTerm term) := by
  have hterm := hx.term
  unfold RaftNode.noticeTerm
  split
  · next hlt =>
    exact hx.enter (le_max_left _ _) rfl (by simp only [RaftNode.stepDown]; omega) rfl rfl rfl
      (.inr rfl) (.inl rfl)
  · next hge =>
    exact hx.enter (le_max_left _ _) rfl (by omega) rfl rfl rfl (.inr rfl)
      (.inr ⟨by omega, rfl, rfl⟩)

theorem matched_voteRequest (hr : Refines D h s) {source : N} {request : VoteRequest N}
    (hid : request.candidateId = source)
    (hreq : Message.Refines D.members.toFinset h ⟨source, n, .voteRequest request⟩) :
    Matched D h s n
      ((s.nodes n).processMessage D.backend n source (.voteRequest request)) := by
  obtain ⟨hsource, hlen, hlast⟩ := hreq
  simp only at hsource hlen hlast
  have hx := mirrors_noticeTerm (hr.node n) request.term
  have hraise : History.Step LogEntry.term D.members.toFinset h
      (h.raise n (max (h.term n) request.term)) := .raise n _ (le_max_left _ _)
  have hnew : (h.raise n (max (h.term n) request.term)).term n = max (h.term n) request.term :=
    if_pos rfl
  by_cases hg : ((s.nodes n).noticeTerm request.term).grantsVote request = true
  · obtain ⟨hterm, -, hup⟩ := RaftNode.grantsVote_eq_true hg
    rw [hx.term, hnew] at hterm
    have hterm' : (h.raise n (max (h.term n) request.term)).term n = request.term :=
      hnew.trans hterm.symm
    have hgrant : History.Step LogEntry.term D.members.toFinset
        (h.raise n (max (h.term n) request.term))
        ((h.raise n (max (h.term n) request.term)).grant n source) := by
      refine .grant n source ?_ ?_
      · rw [hterm']
        exact hsource.trans ((History.raise_extends (le_max_left _ _)).term source)
      · rw [hterm']
        refine (hr.node n).upToDate ?_
        show (s.nodes n).log.isUpToDate (h.cand source request.term).length
          (lastTerm LogEntry.term (h.cand source request.term)) = true
        rw [← hlen, ← hlast]
        exact hup
    have hrun := (Relation.ReflTransGen.single hraise).tail hgrant
    refine ⟨_, hrun, refines_record hr hrun (fun _ _ => rfl) (fun p hp => if_neg hp)
      (fun _ _ _ => rfl) (fun p T y => ?_) (fun T => ?_) hr.indexed hr.positive ?_
      (fun m hm => ?_) ?_⟩
    · show (h.vote p T y ∨ (p = n ∧ T = (h.raise n (max (h.term n) request.term)).term n ∧
        y = source)) ↔ _
      rw [hr.vote, ← hx.term]
      simp [Cluster.record, RaftNode.processMessage, RaftNode.handleVoteRequest, hg, hid]
    · show h.leaderLog T ≠ [] ↔ _
      rw [hr.author]
      simp [Cluster.record, RaftNode.processMessage]
    · have hsafe := hraise.safe hr.safe
      have hx' : Mirrors D.members.toFinset
          ((h.raise n (max (h.term n) request.term)).grant n source) n
          ((s.nodes n).noticeTerm request.term) :=
        hx.mono (hgrant.extends hsafe) (hgrant.safe hsafe) rfl rfl fun _ => rfl
      have hnode : (RaftNode.processMessage D.backend (s.nodes n) n source
          (.voteRequest request)).node =
          { (s.nodes n).noticeTerm request.term with
            state := { ((s.nodes n).noticeTerm request.term).state with
              votedFor := some request.candidateId } } := by
        simp [RaftNode.processMessage, RaftNode.handleVoteRequest, hg]
      rw [hnode]
      exact { hx' with }
    · simp only [RaftNode.processMessage, List.mem_singleton] at hm
      subst hm
      trivial
    · simp [RaftNode.processMessage]
  · rw [Bool.not_eq_true] at hg
    refine ⟨_, .single hraise, refines_around hr (.single hraise) (.raise n h _) ?_ rfl ?_
      (fun m hm => ?_) ?_⟩
    · simp [RaftNode.processMessage, RaftNode.handleVoteRequest, hg]
    · simpa [RaftNode.processMessage, RaftNode.handleVoteRequest, hg] using hx
    · simp only [RaftNode.processMessage, List.mem_singleton] at hm
      subst hm
      trivial
    · simp [RaftNode.processMessage]

theorem matched_elected (hr : Refines D h s) (he : D.ElectionInv s)
    {source : N} {response : VoteResponse N}
    (he' : D.ElectionInv (s.record n
      ((s.nodes n).processMessage D.backend n source (.voteResponse response))))
    (hw : (s.nodes n).Wired D.members n) (hrole : (s.nodes n).role = .candidate)
    {votes : Finset N}
    (heq : (s.nodes n).handleVoteResponse response =
      (RaftNode.becomeLeaderWithTerm { s.nodes n with votesReceived := votes }
        (s.nodes n).state.currentTerm, true)) :
    Matched D h s n
      ((s.nodes n).processMessage D.backend n source (.voteResponse response)) := by
  have hx := hr.node n
  generalize ho : (s.nodes n).processMessage D.backend n source (.voteResponse response) =
    o at he' ⊢
  have honode : o.node = RaftNode.becomeLeaderWithTerm { s.nodes n with votesReceived := votes }
      (s.nodes n).state.currentTerm := by
    rw [← ho]
    simp only [RaftNode.processMessage, heq]
  have hovotes : o.votes = [] := by
    rw [← ho]
    rfl
  have hoelected : o.elected = [h.term n] := by
    rw [← ho, ← hx.term]
    simp only [RaftNode.processMessage, heq, if_true]
    rfl
  have hsent : o.sent = [] := by
    rw [← ho]
    rfl
  have happlied : o.applied = [] := by
    rw [← ho]
    rfl
  have helected (T : ℕ) (y : N) : (T, y) ∈ (s.record n o).elected ↔
      (T, y) ∈ s.elected ∨ (T = h.term n ∧ y = n) := by
    simp [Cluster.record, hoelected]
  -- nobody else was elected in the term, and the candidate itself has not been
  have hnone (y : N) : (h.term n, y) ∉ s.elected := by
    intro hy
    have hyn := he'.elected_unique ((helected _ _).mpr (.inl hy))
      ((helected (h.term n) n).mpr (.inr ⟨rfl, rfl⟩))
    have := he.candidate n hrole
    rw [hx.term] at this
    exact this (hyn ▸ hy)
  have hnil : h.leaderLog (h.term n) = [] := by
    by_contra hne
    obtain ⟨y, hy⟩ := (hr.author _).mp hne
    exact hnone y hy
  have hquorum : ∃ W, Majority D.members.toFinset W ∧ ∀ q ∈ W, h.vote q (h.term n) n := by
    obtain ⟨W, hW, hv⟩ := he'.elected (h.term n) n ((helected _ _).mpr (.inr ⟨rfl, rfl⟩))
    refine ⟨W, hW, fun q hq => (hr.vote q _ n).mpr ?_⟩
    simpa [Cluster.record, hovotes] using hv q hq
  have hpos := hx.positive (by rw [hrole]; decide)
  have hlen := hx.window.lastIndex
  generalize hentry : LogEntry.noop ((s.nodes n).log.lastIndex + 1)
    (s.nodes n).state.currentTerm = entry
  have hterm : entry.term = h.term n := by
    rw [← hentry]
    exact hx.term
  have hstep : History.Step LogEntry.term D.members.toFinset h
      (h.author LogEntry.term n entry) :=
    .elect n entry hterm (hterm ▸ hnil) (hterm ▸ hx.candidate hrole hnil) (hterm ▸ hquorum)
  refine matched_author hr hstep hterm hpos (by rw [← hentry, ← hlen]; rfl)
    (fun p _ hl hpn => ?_) ?_ hovotes (fun T => ?_) hsent happlied
  · have hp := he.leader p hl
    rw [(hr.node p).term, hpn] at hp
    exact hnone p hp
  · refine hx.author hr.safe (hstep.safe hr.safe) hterm
      (by rw [hterm, hnil]; exact List.nil_prefix) hpos (.inr hnil) ?_ ?_ ?_ ?_ ?_
      fun p m hm => .inl ?_
    · rw [honode, ← hentry]
      rfl
    · rw [honode]
      rfl
    · rw [honode]
      rfl
    · rw [honode]
      rfl
    · rw [honode]
      rfl
    · rw [honode] at hm
      simp only [RaftNode.becomeLeaderWithTerm, RaftNode.lookup_foldl_insert] at hm
      split at hm
      · exact (Option.some.inj hm).symm
      · next hp =>
        have hmem : p ∈ (s.nodes n).matchIndex := by
          rw [← AList.lookup_isSome, hm]
          rfl
        exact absurd ((hw.matchIndex p).mp hmem) hp
  · constructor
    · rintro ⟨y, hy⟩
      rcases (helected T y).mp hy with hy | ⟨rfl, -⟩
      · exact .inr ⟨y, hy⟩
      · exact .inl rfl
    · rintro (rfl | ⟨y, hy⟩)
      · exact ⟨n, (helected _ n).mpr (.inr ⟨rfl, rfl⟩)⟩
      · exact ⟨y, (helected T y).mpr (.inl hy)⟩

/-- An answer to a request for a vote.  `s'` is the cluster afterwards, whose votes are in order. -/
theorem matched_voteResponse (hr : Refines D h s) (he : D.ElectionInv s)
    (hw : (s.nodes n).Wired D.members n) {source : N} {response : VoteResponse N}
    (he' : D.ElectionInv (s.record n
      ((s.nodes n).processMessage D.backend n source (.voteResponse response)))) :
    Matched D h s n
      ((s.nodes n).processMessage D.backend n source (.voteResponse response)) := by
  have hx := hr.node n
  by_cases hlt : (s.nodes n).state.currentTerm < response.term
  · have heq : (s.nodes n).handleVoteResponse response =
        ((s.nodes n).stepDown response.term, false) := by
      rw [RaftNode.handleVoteResponse, if_pos hlt]
    exact matched_stepDown hr hlt (by simp only [RaftNode.processMessage, heq]) rfl
      (by simp only [RaftNode.processMessage, heq]; rfl) rfl rfl
  by_cases hstale : (s.nodes n).role ≠ .candidate ∨ response.term ≠ (s.nodes n).state.currentTerm
  · have heq : (s.nodes n).handleVoteResponse response = (s.nodes n, false) := by
      rw [RaftNode.handleVoteResponse, if_neg hlt, if_pos hstale]
    refine refines_quiet hr rfl (by simp only [RaftNode.processMessage, heq]; rfl) ?_
      (fun m hm => by cases hm) (fun a ha => by cases ha)
    simpa only [RaftNode.processMessage, heq] using hx
  push Not at hstale
  obtain ⟨hrole, hterm⟩ := hstale
  obtain ⟨votes, hvotes, -⟩ := RaftNode.countVote_eq (s.nodes n) response
  have heq := RaftNode.handleVoteResponse_of_candidate hrole hterm
  rw [hvotes] at heq
  split_ifs at heq with hq
  · exact matched_elected hr he he' hw hrole heq
  · refine refines_quiet hr rfl (by simp only [RaftNode.processMessage, heq]; rfl) ?_
      (fun m hm => by cases hm) (fun a ha => by cases ha)
    simp only [RaftNode.processMessage, heq]
    exact hx.congr rfl rfl rfl (.inr rfl) (.inr ⟨rfl, rfl⟩)

omit [DecidableEq N] in
theorem refines_of_refused {M : Finset N} {source target : N} {response : AppendEntriesResponse}
    {lastTerm : ℕ} (hfail : response.success = false) :
    Message.Refines M h ⟨source, target, .appendEntriesResponse response lastTerm⟩ := by
  intro hsucc
  rw [hfail] at hsucc
  cases hsucc

theorem matched_appendEntries (hr : Refines D h s) {source : N} {request : AppendEntriesRequest N}
    (hreq : Message.Refines D.members.toFinset h ⟨source, n, .appendEntries request⟩) :
    Matched D h s n
      ((s.nodes n).processMessage D.backend n source (.appendEntries request)) := by
  have hx := hr.node n
  by_cases hlt : request.term < (s.nodes n).state.currentTerm
  · have hnode : ((s.nodes n).handleAppendEntries request).1 = s.nodes n := by
      rw [RaftNode.handleAppendEntries, if_pos hlt]
    have hfail : ((s.nodes n).handleAppendEntries request).2.success = false := by
      rw [RaftNode.handleAppendEntries, if_pos hlt]
    refine refines_quiet hr rfl rfl (by simpa only [RaftNode.processMessage, hnode] using hx)
      (fun m hm => ?_) (fun a ha => by cases ha)
    rw [List.mem_singleton.mp hm]
    exact refines_of_refused hfail
  -- the node follows the sender in the sender's term
  obtain ⟨hL, hcommit, hentries⟩ := hreq
  have hle : h.term n ≤ request.term := by
    have := hx.term
    omega
  have hraise : History.Step LogEntry.term D.members.toFinset h (h.raise n request.term) :=
    .raise n _ hle
  have hnew : (h.raise n request.term).term n = request.term := if_pos rfl
  have hsafe := hraise.safe hr.safe
  have hy : Mirrors D.members.toFinset (h.raise n request.term) n
      ((s.nodes n).followLeader request.term request.leaderId) := by
    have hterm := hx.term
    refine hx.enter hle rfl ?_ ?_ ?_ rfl (.inr rfl) (.inl rfl)
    · simp only [RaftNode.followLeader]
      split
      · rfl
      · omega
    · simp only [RaftNode.followLeader]
      split <;> rfl
    · simp only [RaftNode.followLeader]
      split <;> rfl
  generalize hyy : (s.nodes n).followLeader request.term request.leaderId = y at hy
  have hyrole : y.role = .follower := by
    rw [← hyy]
    rfl
  cases hcheck : y.refusal request with
  | some response =>
    have heq : (s.nodes n).handleAppendEntries request = (y, response) := by
      rw [RaftNode.handleAppendEntries, if_neg hlt]
      simp only [hyy, hcheck]
    have hfail : response.success = false := by
      unfold RaftNode.refusal at hcheck
      split_ifs at hcheck
      split at hcheck
      · obtain rfl := Option.some.inj hcheck
        rfl
      · split_ifs at hcheck
        obtain rfl := Option.some.inj hcheck
        rfl
    refine ⟨_, .single hraise, refines_around hr (.single hraise) (.raise n h _) rfl rfl
      (by simpa only [RaftNode.processMessage, heq] using hy) (fun m hm => ?_)
      (fun a ha => by cases ha)⟩
    simp only [RaftNode.processMessage, heq, List.mem_singleton] at hm
    subst hm
    exact refines_of_refused hfail
  | none =>
    have heq : (s.nodes n).handleAppendEntries request =
        (y.acceptEntries request,
          { term := (y.acceptEntries request).state.currentTerm
            success := true
            matchIndex := (y.acceptEntries request).log.lastIndex
            conflictIndex := none
            conflictTerm := none }) := by
      rw [RaftNode.handleAppendEntries, if_neg hlt]
      simp only [hyy, hcheck]
    obtain ⟨h', hrun, haround, hterm', hz, hlast, hack⟩ :=
      hy.acceptEntries hsafe hr.indexed hr.positive hyrole (by rw [hnew]; exact hL) hnew.symm
        (by rw [hnew]; exact hcommit) hentries hcheck
    refine ⟨h', .head hraise hrun, refines_around hr (.head hraise hrun)
      ((Around.raise n h _).trans haround) rfl rfl
      (by simpa only [RaftNode.processMessage, heq] using hz) (fun m hm => ?_)
      (fun a ha => by cases ha)⟩
    simp only [RaftNode.processMessage, heq, List.mem_singleton] at hm
    subst hm
    intro _
    simp only [hz.term, hterm']
    exact ⟨hlast, hack⟩

theorem mirrors_recordMatch (hr : Refines D h s) {source : N} {response : AppendEntriesResponse}
    {lastTerm : ℕ} (hresp : Message.Refines D.members.toFinset h
      ⟨source, n, .appendEntriesResponse response lastTerm⟩)
    (hrole : (s.nodes n).role = .leader) (hsucc : response.success = true)
    (hle : response.term ≤ (s.nodes n).state.currentTerm)
    (htruthful : response.matchIndex ≤ (s.nodes n).log.snapshotIndex ∨
      (s.nodes n).log.termAt response.matchIndex = some lastTerm) :
    Mirrors D.members.toFinset h n ((s.nodes n).recordMatch source response.matchIndex) := by
  have hx := hr.node n
  obtain ⟨hlast, hack⟩ := hresp hsucc
  exact hx.note hrole
    (hx.reported_of_truthful hr.safe hrole htruthful hlast (hx.term ▸ hle) hack)
    rfl rfl rfl rfl rfl rfl

/-- The answer to a request to append entries, when it is truthful. -/
theorem matched_appendEntriesResponse (hr : Refines D h s)
    (hw : (s.nodes n).Wired D.members n) (hn : n ∈ D.members) {source : N}
    {response : AppendEntriesResponse} {lastTerm : ℕ} (hsource : source ∈ (s.nodes n).peers)
    (hresp : Message.Refines D.members.toFinset h
      ⟨source, n, .appendEntriesResponse response lastTerm⟩)
    (htruthful : (s.nodes n).role = .leader → response.success = true →
      response.term ≤ (s.nodes n).state.currentTerm →
      response.matchIndex ≤ (s.nodes n).log.snapshotIndex ∨
        (s.nodes n).log.termAt response.matchIndex = some lastTerm) :
    Matched D h s n
      ((s.nodes n).processMessage D.backend n source
        (.appendEntriesResponse response lastTerm)) := by
  have hx := hr.node n
  by_cases hlt : (s.nodes n).state.currentTerm < response.term
  · exact matched_stepDown hr hlt
      (by simp only [RaftNode.processMessage, RaftNode.handleAppendEntriesResponse, if_pos hlt])
      rfl rfl rfl rfl
  refine refines_quiet hr rfl rfl ?_ (fun m hm => by cases hm) (fun a ha => by cases ha)
  show Mirrors D.members.toFinset h n ((s.nodes n).handleAppendEntriesResponse source response)
  rw [RaftNode.handleAppendEntriesResponse, if_neg hlt]
  split
  · exact hx
  · next hleader =>
    have hrole : (s.nodes n).role = .leader := by simpa [RaftNode.isLeader] using hleader
    split
    · next hsucc =>
      have hle : response.term ≤ (s.nodes n).state.currentTerm := Nat.le_of_not_lt hlt
      have hy := mirrors_recordMatch hr hresp hrole hsucc hle (htruthful hrole hsucc hle)
      have hwy : ((s.nodes n).recordMatch source response.matchIndex).Wired D.members n :=
        hw.insert hsource (Nat.succ_pos _) rfl rfl (.inr ⟨_, rfl⟩) rfl
      exact hy.tryAdvanceCommitIndex hr.safe hrole rfl hwy hn
    · unfold RaftNode.retryFrom
      split <;> exact hx.congr rfl rfl rfl (.inr rfl) (.inr ⟨rfl, rfl⟩)

theorem matched_installSnapshot (hr : Refines D h s) {source : N}
    {request : InstallSnapshotRequest N}
    (hreq : Message.Refines D.members.toFinset h ⟨source, n, .installSnapshot request⟩) :
    Matched D h s n
      ((s.nodes n).processMessage D.backend n source (.installSnapshot request)) := by
  have hx := hr.node n
  by_cases hlt : request.term < (s.nodes n).state.currentTerm
  · have hnode : ((s.nodes n).handleInstallSnapshot D.backend request).1 = s.nodes n := by
      rw [RaftNode.handleInstallSnapshot, if_pos hlt]
    refine refines_quiet hr rfl rfl (by simpa only [RaftNode.processMessage, hnode] using hx)
      (fun m hm => ?_) (fun a ha => by cases ha)
    rw [List.mem_singleton.mp hm]
    trivial
  obtain ⟨hL, hpoint⟩ := hreq
  have hle : h.term n ≤ request.term := by
    have := hx.term
    omega
  have hraise : History.Step LogEntry.term D.members.toFinset h (h.raise n request.term) :=
    .raise n _ hle
  have hnew : (h.raise n request.term).term n = request.term := if_pos rfl
  have hsafe := hraise.safe hr.safe
  have hy : Mirrors D.members.toFinset (h.raise n request.term) n
      ((s.nodes n).followSnapshot request.term request.leaderId) := by
    have hterm := hx.term
    refine hx.enter hle rfl ?_ ?_ ?_ rfl (.inr rfl) ?_
    · simp only [RaftNode.followSnapshot]
      split
      · rfl
      · omega
    · simp only [RaftNode.followSnapshot]
      split <;> rfl
    · simp only [RaftNode.followSnapshot]
      split <;> rfl
    · simp only [RaftNode.followSnapshot]
      split
      · exact .inl rfl
      · exact .inr ⟨by omega, rfl, trivial⟩
  have hpoint' : Point D.members.toFinset (h.raise n request.term)
      ((h.raise n request.term).term n) request.lastIncludedIndex
      request.lastIncludedTerm := by
    rw [hnew]
    exact hpoint.mono (hraise.extends hr.safe)
  obtain ⟨h', hrun, haround, hterm', hz⟩ := hy.receiveChunk hsafe D.backend
    (by rw [hnew]; exact hL) hpoint'
  have heq : ((s.nodes n).handleInstallSnapshot D.backend request).1 =
      ((s.nodes n).followSnapshot request.term request.leaderId).receiveChunk D.backend
        request := by
    rw [RaftNode.handleInstallSnapshot, if_neg hlt]
  refine ⟨h', .head hraise hrun, refines_around hr (.head hraise hrun)
    ((Around.raise n h _).trans haround) rfl rfl
    (by simpa only [RaftNode.processMessage, heq] using hz) (fun m hm => ?_)
    (fun a ha => by cases ha)⟩
  rw [List.mem_singleton.mp hm]
  trivial

theorem matched_installSnapshotResponse (hr : Refines D h s) {source : N}
    {response : InstallSnapshotResponse} {wasLastChunk : Bool} :
    Matched D h s n
      ((s.nodes n).processMessage D.backend n source
        (.installSnapshotResponse response wasLastChunk)) := by
  have hx := hr.node n
  by_cases hlt : (s.nodes n).state.currentTerm < response.term
  · exact matched_stepDown hr hlt
      (by simp only [RaftNode.processMessage, RaftNode.handleInstallSnapshotResponse, if_pos hlt])
      rfl rfl rfl rfl
  refine refines_quiet hr rfl rfl ?_ (fun m hm => by cases hm) (fun a ha => by cases ha)
  show Mirrors D.members.toFinset h n
    ((s.nodes n).handleInstallSnapshotResponse source response wasLastChunk)
  rw [RaftNode.handleInstallSnapshotResponse, if_neg hlt]
  split
  · exact hx
  · next hleader =>
    have hrole : (s.nodes n).role = .leader := by simpa [RaftNode.isLeader] using hleader
    split
    · split
      · next metadata hmeta =>
        have hle := (hx.metadata metadata hmeta).2
        have hlen := hx.commitIndex_le_length hr.safe hrole
        exact hx.note hrole ⟨hle.trans hlen, fun c hc _ => .inr (hc.trans hle)⟩ rfl rfl rfl rfl
          rfl rfl
      · exact hx
    · exact hx

theorem refines_createInstallSnapshot (hr : Refines D h s) {peer : N} {offset : ℕ}
    {request : InstallSnapshotRequest N}
    (hreq : (s.nodes n).createInstallSnapshot D.backend peer offset = some request) :
    Message.Refines D.members.toFinset h ⟨n, peer, .installSnapshot request⟩ := by
  have hx := hr.node n
  unfold RaftNode.createInstallSnapshot at hreq
  split_ifs at hreq with hleader
  have hrole : (s.nodes n).role = .leader := by simpa [RaftNode.isLeader] using hleader
  obtain ⟨hL, hne, -⟩ := hx.leader hrole
  split at hreq
  · next next metadata data hnext hdata =>
    split_ifs at hreq
    obtain rfl := Option.some.inj hreq
    obtain ⟨metadata', hmeta, heq⟩ := Option.map_eq_some_iff.mp hdata
    obtain ⟨rfl, -⟩ := Prod.mk.inj heq
    have hpoint := (hx.metadata metadata' hmeta).1
    rw [← hx.term] at hpoint
    refine ⟨?_, hpoint⟩
    simp only [hx.term, hL]
    exact hne
  · cases hreq

end Step

/-- Every step whose counted replies are truthful is matched by the history. -/
theorem refines_step {s s' : Cluster N S C} {a : ClusterAction N C} {h : History N LogEntry}
    (hr : Refines D h s) (hw : D.ClusterWired s) (he : D.ElectionInv s)
    (htruthful : Truthful s a) (hstep : D.system.step s a = some s') :
    ∃ h', History.Steps LogEntry.term D.members.toFinset h h' ∧ Refines D h' s' := by
  have he' := electionInv_step hw he hstep
  obtain ⟨n, o, ho, hn, rfl⟩ := D.step_eq_some hstep
  cases a with
  | electionTimeout p =>
    obtain ⟨rfl, rfl⟩ := Prod.mk.inj (Option.some.inj ho)
    exact matched_electionTimeout hr
  | checkLease p =>
    obtain ⟨rfl, rfl⟩ := Prod.mk.inj (Option.some.inj ho)
    refine refines_quiet hr rfl rfl ?_ (fun m hm => by cases hm) (fun a ha => by cases ha)
    unfold RaftNode.checkLease
    split
    · exact (hr.node p).congr rfl rfl rfl (.inr rfl) (.inl rfl)
    · exact hr.node p
  | propose p command =>
    obtain ⟨rfl, rfl⟩ := Prod.mk.inj (Option.some.inj ho)
    exact matched_propose hr he command
  | sendAppendEntries p peer =>
    obtain ⟨request, hreq, ho⟩ := Option.map_eq_some_iff.mp ho
    obtain ⟨rfl, rfl⟩ := Prod.mk.inj ho
    refine refines_quiet hr rfl rfl (hr.node p) (fun m hm => ?_) (fun a ha => by cases ha)
    rw [List.mem_singleton.mp hm]
    exact (hr.node p).createAppendEntries hr.safe (hw.nodes p) hreq
  | applyCommitted p turns =>
    obtain ⟨rfl, rfl⟩ := Prod.mk.inj (Option.some.inj ho)
    obtain ⟨hnode, happlied⟩ := (hr.node p).applyCommitted D.backend turns
      (indexed_log hr.safe hr.indexed p)
    refine refines_quiet hr rfl rfl hnode (fun m hm => by cases hm) (fun a ha => ?_)
    obtain ⟨r, hmem, rfl⟩ := List.mem_map.mp ha
    exact happlied r hmem
  | takeSnapshot p =>
    obtain ⟨rfl, rfl⟩ := Prod.mk.inj (Option.some.inj ho)
    exact refines_quiet hr rfl rfl ((hr.node p).takeSnapshot D.backend)
      (fun m hm => by cases hm) (fun a ha => by cases ha)
  | sendInstallSnapshot p peer offset =>
    obtain ⟨request, hreq, ho⟩ := Option.map_eq_some_iff.mp ho
    obtain ⟨rfl, rfl⟩ := Prod.mk.inj ho
    refine refines_quiet hr rfl rfl (hr.node p) (fun m hm => ?_) (fun a ha => by cases ha)
    rw [List.mem_singleton.mp hm]
    exact refines_createInstallSnapshot hr hreq
  | deliver position =>
    obtain ⟨⟨source, target, payload⟩, hm, ho⟩ := Option.map_eq_some_iff.mp ho
    obtain ⟨rfl, rfl⟩ := Prod.mk.inj ho
    have hmem := List.mem_of_getElem? hm
    have hmsg := hr.sent _ hmem
    obtain ⟨hsource, -, hne, hpayload⟩ := hw.sent _ hmem
    cases payload with
    | voteRequest request => exact matched_voteRequest hr hpayload hmsg
    | voteResponse response => exact matched_voteResponse hr he (hw.nodes _) he'
    | appendEntries request => exact matched_appendEntries hr hmsg
    | appendEntriesResponse response lastTerm =>
      refine matched_appendEntriesResponse hr (hw.nodes _) hn
        (((hw.nodes _).peers _).mpr ⟨hsource, hne⟩) hmsg fun hrole hsucc hle => ?_
      exact htruthful _ (countedReply_deliver hm hrole hsucc hle)
    | installSnapshot request => exact matched_installSnapshot hr hmsg
    | installSnapshotResponse response wasLastChunk => exact matched_installSnapshotResponse hr

theorem refines_init : Refines D History.initial (D.system.init : Cluster N S C) where
  safe := History.initial_safe
  node n := by
    obtain ⟨peers, next, mtch, heq, -⟩ := D.initialNode_spec n
    show Mirrors D.members.toFinset History.initial n (D.initialNode n)
    rw [heq]
    exact
      { term := rfl
        window := ReplicatedLog.Window.empty
        snapshot := ⟨[], .nil _, rfl, rfl, .inl List.prefix_rfl⟩
        commit := ⟨[], .nil _, rfl, fun _ => List.nil_prefix⟩
        snapshot_le := le_rfl
        commit_le := le_rfl
        applied := rfl
        applied_le := le_rfl
        metadata := fun m hm => by cases hm
        pending := fun p hp => by cases hp
        leader := fun hr => by cases hr
        reported := fun hr => by cases hr
        committed := fun hr => by cases hr
        candidate := fun hr => by cases hr
        positive := fun hr => absurd rfl hr }
  vote p T x := ⟨fun hv => hv.elim, fun hv => by cases hv⟩
  author T := ⟨fun hne => absurd rfl hne, fun ⟨x, hx⟩ => by cases hx⟩
  indexed T k e hk := by simp [History.initial, Logs.empty] at hk
  positive T e he := by simp [History.initial, Logs.empty] at he
  sent m hm := by cases hm
  applied n i c hc := by cases hc

theorem exists_refines {s : Cluster N S C} (hs : D.system.Reach Truthful s) :
    ∃ h, Refines D h s := by
  refine System.Reach.invariant (P := fun s => ∃ h, Refines D h s) ⟨_, refines_init⟩ ?_ hs
  rintro s a s' hreach ⟨h, hr⟩ htruthful hstep
  obtain ⟨h', -, hr'⟩ := refines_step hr (wired hreach) (electionInv hreach) htruthful hstep
  exact ⟨h', hr'⟩

end Deployment

end Replication

end AegisDB
