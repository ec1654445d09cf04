import AegisDB.Replication.Raft

/-!
# Where a node stands in its log

A node's log and its state count three indices twice: what is committed, what has been applied, and
where the log ends.  `Position` holds these with what has been handed to the state machine, and
`Position.Moves` lists the ways in which a step of a node changes them, once for all handlers.
Every move keeps a position `Position.InOrder`.

Two moves need a message that is orderly.  Nothing checks that the entries of an append request are
numbered, nor that a truncation keeps what is committed, nor that a snapshot is not older than what
has been applied.
-/

namespace AegisDB

namespace Replication

variable {N S C Snap : Type*}

/-! ## Logs that are numbered -/

namespace ReplicatedLog

variable {r : ReplicatedLog} {ℓ P : List LogEntry}

/-- The log holds the end of a log whose entries carry their positions. -/
def Numbered (r : ReplicatedLog) : Prop :=
  ∃ ℓ, Indexed ℓ ∧ r.Window ℓ

theorem Indexed.splice (hℓ : Indexed ℓ) (hP : Indexed P) {m : ℕ} (hm : m ≤ ℓ.length) :
    Indexed (ℓ.take m ++ P.drop m) := by
  have hlen : (ℓ.take m).length = m := by rw [List.length_take, min_eq_left hm]
  intro k e he
  rcases Nat.lt_or_ge k m with hk | hk
  · rw [List.getElem?_append_left (by omega), List.getElem?_take_of_lt hk] at he
    exact hℓ k e he
  · rw [List.getElem?_append_right (by omega), hlen, List.getElem?_drop,
      Nat.add_sub_cancel' hk] at he
    exact hP k e he

theorem Indexed.extend (hℓ : Indexed ℓ) {prev : ℕ} (hprev : prev ≤ ℓ.length)
    {entries : List LogEntry}
    (hentries : entries.map LogEntry.index = List.range' (prev + 1) entries.length) :
    Indexed (ℓ.take prev ++ entries) := by
  have hlen : (ℓ.take prev).length = prev := by rw [List.length_take, min_eq_left hprev]
  intro k e he
  rcases Nat.lt_or_ge k prev with hk | hk
  · rw [List.getElem?_append_left (by omega), List.getElem?_take_of_lt hk] at he
    exact hℓ k e he
  · rw [List.getElem?_append_right (by omega), hlen] at he
    have hlt : k - prev < entries.length := (List.getElem?_eq_some_iff.mp he).1
    have hindex : (entries.map LogEntry.index)[k - prev]? = some e.index := by
      rw [List.getElem?_map, he, Option.map_some]
    rw [hentries, List.getElem?_range' hlt, Option.some.injEq] at hindex
    omega

theorem indexed_noops (n : ℕ) :
    Indexed ((List.range n).map fun k => LogEntry.noop (k + 1) 0) := by
  intro k e he
  rw [List.getElem?_map] at he
  obtain ⟨i, hi, rfl⟩ := Option.map_eq_some_iff.mp he
  have hk : k < n := by
    have := (List.getElem?_eq_some_iff.mp hi).1
    rwa [List.length_range] at this
  rw [List.getElem?_range hk, Option.some.injEq] at hi
  rw [← hi]
  rfl

theorem Window.le_of_termAt (h : r.Window ℓ) {k t : ℕ} (ht : r.termAt k = some t) :
    k ≤ ℓ.length := by
  rcases Nat.lt_or_ge r.snapshotIndex k with hk | hk
  · rw [h.termAt_of_lt hk, Option.map_eq_some_iff] at ht
    obtain ⟨e, he, -⟩ := ht
    have := (List.getElem?_eq_some_iff.mp he).1
    omega
  · exact hk.trans h.bound

theorem Window.ge_of_termAt (h : r.Window ℓ) {k t : ℕ} (h0 : k ≠ 0) (ht : r.termAt k = some t) :
    r.snapshotIndex ≤ k := by
  by_contra hlt
  rw [h.termAt_of_gt h0 (not_le.mp hlt)] at ht
  cases ht

theorem Window.truncate (h : r.Window ℓ) {c : ℕ} (hs : r.snapshotIndex ≤ c) (hc : c ≤ ℓ.length) :
    ∃ m, m = max r.snapshotIndex (c - 1) ∧ (r.truncateFrom c).Window (ℓ.take m) := by
  refine ⟨_, rfl, ?_⟩
  rcases Nat.eq_or_lt_of_le hs with heq | hlt
  · have htruncate : r.truncateFrom c = { r with entries := [] } := by
      rw [ReplicatedLog.truncateFrom, if_pos (by rw [h.first]; omega)]
    have hdrop : (ℓ.take (max r.snapshotIndex (c - 1))).drop r.snapshotIndex = [] := by
      rw [List.drop_eq_nil_iff, List.length_take]
      omega
    rw [htruncate]
    refine ⟨h.first, hdrop.symm, ?_⟩
    rw [List.length_take]
    exact le_min (le_max_left _ _) h.bound
  · rw [max_eq_right (by omega)]
    exact (h.truncateFrom hlt hc).2

theorem Window.appendNew (h : r.Window ℓ) (hP : Indexed P) {prev : ℕ} (hprev : prev ≤ ℓ.length) :
    let newEntries := (P.drop prev).filter fun e => r.lastIndex < e.index
    (if newEntries.isEmpty then r else (r.appendEntries newEntries).2).Window
      (ℓ ++ P.drop ℓ.length) := by
  have hfilter : (P.drop prev).filter (fun e => r.lastIndex < e.index) = P.drop ℓ.length := by
    rw [h.lastIndex, hP.filter_drop, max_eq_right hprev]
  have hwindow : ({ r with entries := r.entries ++ P.drop ℓ.length } : ReplicatedLog).Window
      (ℓ ++ P.drop ℓ.length) := by
    refine ⟨h.first, ?_, h.bound.trans (by simp)⟩
    rw [List.drop_append_of_le_length h.bound, ← h.entries]
  have happend : (if (P.drop ℓ.length).isEmpty then r
      else (r.appendEntries (P.drop ℓ.length)).2) =
        { r with entries := r.entries ++ P.drop ℓ.length } := by
    split_ifs with hempty
    · rw [List.isEmpty_iff.mp hempty, List.append_nil]
    · rfl
  dsimp only
  rw [hfilter, happend]
  exact hwindow

/-- Taking over entries changes nothing but the entries held. -/
theorem reconcile_eq (r : ReplicatedLog) (entries : List LogEntry) :
    r.reconcile entries = { r with entries := (r.reconcile entries).entries } := by
  have hnew (q : ReplicatedLog) (newEntries : List LogEntry) :
      (if newEntries.isEmpty then q else (q.appendEntries newEntries).2) =
        { q with entries :=
          (if newEntries.isEmpty then q else (q.appendEntries newEntries).2).entries } := by
    split_ifs <;> rfl
  have htruncate (c : ℕ) : r.truncateFrom c = { r with entries := (r.truncateFrom c).entries } := by
    rw [truncateFrom]
    split_ifs <;> rfl
  rw [reconcile]
  split_ifs
  · rfl
  · cases r.findConflict entries with
    | none => exact hnew _ _
    | some c =>
      dsimp only
      rw [hnew, htruncate]

@[simp] theorem reconcile_commitIndex (r : ReplicatedLog) (entries : List LogEntry) :
    (r.reconcile entries).commitIndex = r.commitIndex := by
  rw [reconcile_eq]

@[simp] theorem reconcile_lastApplied (r : ReplicatedLog) (entries : List LogEntry) :
    (r.reconcile entries).lastApplied = r.lastApplied := by
  rw [reconcile_eq]

@[simp] theorem reconcile_snapshotIndex (r : ReplicatedLog) (entries : List LogEntry) :
    (r.reconcile entries).snapshotIndex = r.snapshotIndex := by
  rw [reconcile_eq]

/-- What taking over numbered entries leaves: a numbered log that reaches the last of them, and
that has not lost its end when no entry conflicts with it. -/
theorem Window.reconcile_numbered (h : r.Window ℓ) (hℓ : Indexed ℓ) {prev : ℕ}
    (hprev : prev ≤ ℓ.length) {entries : List LogEntry}
    (hentries : entries.map LogEntry.index = List.range' (prev + 1) entries.length) :
    ∃ ℓ', Indexed ℓ' ∧ (r.reconcile entries).Window ℓ' ∧ prev + entries.length ≤ ℓ'.length ∧
      ℓ'.length ≤ max ℓ.length (prev + entries.length) ∧
      (r.findConflict entries = none → ℓ.length ≤ ℓ'.length) := by
  obtain ⟨P, hP, hlen, rfl⟩ : ∃ P, Indexed P ∧ P.length = prev + entries.length ∧
      entries = P.drop prev := by
    have htake : (ℓ.take prev).length = prev := by rw [List.length_take, min_eq_left hprev]
    refine ⟨ℓ.take prev ++ entries, hℓ.extend hprev hentries, ?_, ?_⟩
    · rw [List.length_append, htake]
    · rw [List.drop_append, htake, Nat.sub_self, List.drop_zero,
        List.drop_eq_nil_of_le htake.le, List.nil_append]
  rw [← hlen]
  by_cases hempty : (P.drop prev).isEmpty = true
  · have hreconcile : r.reconcile (P.drop prev) = r := if_pos hempty
    rw [hreconcile]
    refine ⟨ℓ, hℓ, h, ?_, le_max_left _ _, fun _ => le_rfl⟩
    have := List.drop_eq_nil_iff.mp (List.isEmpty_iff.mp hempty)
    omega
  · rw [ReplicatedLog.reconcile, if_neg hempty]
    cases hconflict : r.findConflict (P.drop prev) with
    | none =>
      have hwindow := h.appendNew hP hprev
      have hsplice := hℓ.splice hP le_rfl
      rw [List.take_length] at hsplice
      refine ⟨_, hsplice, hwindow, ?_, ?_, fun _ => ?_⟩
      · rw [List.length_append, List.length_drop]
        omega
      · rw [List.length_append, List.length_drop]
        omega
      · rw [List.length_append]
        omega
    | some c =>
      obtain ⟨hpc, hcP, ⟨t, ht, -⟩, -⟩ := findConflict_drop_eq_some hP hconflict
      have hcℓ := h.le_of_termAt ht
      have hsc := h.ge_of_termAt (by omega) ht
      have hbound := h.bound
      obtain ⟨m, hm, htruncated⟩ := h.truncate hsc hcℓ
      have hmℓ : (ℓ.take m).length = m := by
        rw [List.length_take]
        omega
      have hprevm : prev ≤ (ℓ.take m).length := by
        omega
      have hwindow := htruncated.appendNew hP hprevm
      have hsplice := hℓ.splice hP (m := m) (by omega)
      rw [hmℓ] at hwindow
      refine ⟨_, hsplice, hwindow, ?_, ?_, fun hnone => absurd hnone (Option.some_ne_none _)⟩
      · rw [List.length_append, List.length_drop]
        omega
      · rw [List.length_append, List.length_drop]
        omega

theorem Indexed.concat (hℓ : Indexed ℓ) {entry : LogEntry} (hentry : entry.index = ℓ.length + 1) :
    Indexed (ℓ ++ [entry]) := by
  have hextend : Indexed (ℓ.take ℓ.length ++ [entry]) :=
    hℓ.extend le_rfl (by simp [hentry])
  rwa [List.take_length] at hextend

@[simp] theorem compact_commitIndex (r : ReplicatedLog) (upTo term : ℕ) :
    (r.compact upTo term).commitIndex = r.commitIndex := by
  rw [compact]
  split_ifs <;> rfl

@[simp] theorem compact_lastApplied (r : ReplicatedLog) (upTo term : ℕ) :
    (r.compact upTo term).lastApplied = r.lastApplied := by
  rw [compact]
  split_ifs <;> rfl

theorem compact_snapshotIndex_le (r : ReplicatedLog) (upTo term : ℕ) :
    (r.compact upTo term).snapshotIndex ≤ max r.snapshotIndex upTo := by
  rw [compact]
  split_ifs
  · exact le_max_left _ _
  · exact le_max_right _ _

theorem Window.compact_numbered (h : r.Window ℓ) (hℓ : Indexed ℓ) (upTo term : ℕ) :
    ∃ ℓ', Indexed ℓ' ∧ (r.compact upTo term).Window ℓ' ∧ ℓ'.length = max ℓ.length upTo := by
  rcases Nat.lt_or_ge ℓ.length upTo with hlt | hle
  · have hfirst := h.first
    have hbound := h.bound
    have hnoops := h.compact_of_le (P := (List.range upTo).map fun k => LogEntry.noop (k + 1) 0)
      (by simp; omega) (by simp; omega) term
    rw [List.length_map, List.length_range] at hnoops
    refine ⟨_, indexed_noops upTo, hnoops, ?_⟩
    rw [List.length_map, List.length_range, max_eq_right hlt.le]
  · exact ⟨ℓ, hℓ, h.compact hle term, (max_eq_left hle).symm⟩

end ReplicatedLog

/-! ## Orderly messages -/

/-- An append request is orderly for a log that accepts it: its entries are numbered behind the
previous index, and it reaches what is committed when an entry conflicts with the log. -/
structure AppendEntriesRequest.Orderly (request : AppendEntriesRequest N) (r : ReplicatedLog) :
    Prop where
  numbered : request.entries.map LogEntry.index =
    List.range' (request.prevLogIndex + 1) request.entries.length
  reaches : (r.findConflict request.entries).isSome = true → r.commitIndex ≤ request.lastNewIndex

theorem AppendEntriesRequest.Orderly.lastNewIndex_eq {request : AppendEntriesRequest N}
    {r : ReplicatedLog} (h : request.Orderly r) :
    request.lastNewIndex = request.prevLogIndex + request.entries.length := by
  rw [AppendEntriesRequest.lastNewIndex, List.getLast?_eq_getElem?]
  cases hlen : request.entries.length with
  | zero =>
    rw [List.length_eq_zero_iff.mp hlen]
    rfl
  | succ n =>
    obtain ⟨e, he⟩ : ∃ e, request.entries[n]? = some e :=
      ⟨_, List.getElem?_eq_getElem (by omega)⟩
    have hindex : (request.entries.map LogEntry.index)[n]? = some e.index := by
      rw [List.getElem?_map, he, Option.map_some]
    rw [h.numbered, List.getElem?_range' (by omega), Option.some.injEq] at hindex
    rw [Nat.add_sub_cancel, he]
    dsimp only
    omega

instance (request : AppendEntriesRequest N) (r : ReplicatedLog) : Decidable (request.Orderly r) :=
  decidable_of_iff
    ((request.entries.map LogEntry.index =
        List.range' (request.prevLogIndex + 1) request.entries.length) ∧
      ((r.findConflict request.entries).isSome = true → r.commitIndex ≤ request.lastNewIndex))
    ⟨fun h => ⟨h.1, h.2⟩, fun h => ⟨h.numbered, h.reaches⟩⟩

/-! ## Positions -/

/-- Where a node stands: its log with the indices kept there, the two indices of its state, and
what has been handed to the state machine. -/
structure Position where
  log : ReplicatedLog
  commitIndex : ℕ
  lastApplied : ℕ
  /-- The index of the last snapshot that was installed. -/
  installed : ℕ
  /-- The indices of the entries that were handed over, in this order. -/
  handed : List ℕ

namespace Position

/-- What an append request that is accepted does. -/
def accept (p : Position) (request : AppendEntriesRequest N) : Position :=
  let log := p.log.reconcile request.entries
  if p.commitIndex < request.leaderCommit then
    let commitIndex := min request.leaderCommit request.lastNewIndex
    { p with log := log.setCommitIndex commitIndex, commitIndex := commitIndex }
  else { p with log := log }

/-- What a snapshot that is installed does. -/
def install (p : Position) (index term : ℕ) : Position :=
  let commitIndex := max p.commitIndex index
  { p with
    log := ((p.log.compact index term).setCommitIndex commitIndex).setLastApplied index
    commitIndex := commitIndex
    lastApplied := index
    installed := index }

/-- The ways in which a step changes where a node stands, when the append requests that are accepted
satisfy `R`. -/
inductive Moves (R : AppendEntriesRequest N → Prop) (p : Position) : Position → Prop
  | stay : Moves R p p
  | append (entry : LogEntry) (hindex : entry.index = p.log.lastIndex + 1) :
      Moves R p { p with log := (p.log.append entry).2 }
  | accept (request : AppendEntriesRequest N)
      (hprev : request.prevLogIndex = 0 ∨ ∃ term, p.log.termAt request.prevLogIndex = some term)
      (hR : R request) : Moves R p (p.accept request)
  | commit (index term : ℕ) (hlt : p.commitIndex < index)
      (hterm : p.log.termAt index = some term) :
      Moves R p { p with log := p.log.setCommitIndex index, commitIndex := index }
  | apply (entry : LogEntry) (hnext : p.log.nextToApply = some entry) :
      Moves R p
        { p with
          log := p.log.setLastApplied entry.index
          lastApplied := entry.index
          handed := p.handed ++ [entry.index] }
  | snapshot (term : ℕ) :
      Moves R p { p with log := p.log.compact p.lastApplied term }
  | install (index term : ℕ) (hle : p.lastApplied ≤ index) : Moves R p (p.install index term)

/-- The indices are in order, and what was handed over is what lies between the last snapshot
installed and the last applied index, and perhaps something before, in increasing order. -/
structure InOrder (p : Position) : Prop where
  numbered : p.log.Numbered
  snapshot_le : p.log.snapshotIndex ≤ p.log.lastApplied
  applied_le : p.log.lastApplied ≤ p.log.commitIndex
  commit_le : p.log.commitIndex ≤ p.log.lastIndex
  applied_eq : p.lastApplied = p.log.lastApplied
  state_le : p.commitIndex ≤ p.log.commitIndex
  /-- What was handed over was handed over in increasing order. -/
  increasing : p.handed.Pairwise (· < ·)
  handed_le : ∀ i ∈ p.handed, i ≤ p.log.lastApplied
  /-- What was applied since the last snapshot was installed was handed over. -/
  complete : ∀ i, p.installed < i → i ≤ p.log.lastApplied → i ∈ p.handed

variable {R : AppendEntriesRequest N → Prop} {p q : Position}

theorem InOrder.nextToApply_index (h : p.InOrder) {entry : LogEntry}
    (hnext : p.log.nextToApply = some entry) :
    p.log.lastApplied < p.log.commitIndex ∧ entry.index = p.log.lastApplied + 1 := by
  obtain ⟨ℓ, hℓ, hwindow⟩ := h.numbered
  rw [ReplicatedLog.nextToApply] at hnext
  split_ifs at hnext with hlt
  refine ⟨hlt, ?_⟩
  obtain ⟨-, hget⟩ := hwindow.get_eq_some hnext
  rw [hℓ _ _ hget]
  omega

theorem InOrder.exists_nextToApply (h : p.InOrder) (hlt : p.log.lastApplied < p.log.commitIndex) :
    ∃ entry, p.log.nextToApply = some entry := by
  obtain ⟨ℓ, hℓ, hwindow⟩ := h.numbered
  have hsnapshot := h.snapshot_le
  have hcommit := h.commit_le
  rw [hwindow.lastIndex] at hcommit
  rw [ReplicatedLog.nextToApply, if_pos hlt, hwindow.get_of_lt (by omega)]
  exact ⟨_, List.getElem?_eq_getElem (by omega)⟩

theorem InOrder.changeLog (h : p.InOrder) {r : ReplicatedLog} {ℓ : List LogEntry}
    (hℓ : ReplicatedLog.Indexed ℓ) (hwindow : r.Window ℓ)
    (hcommit : r.commitIndex = p.log.commitIndex) (happlied : r.lastApplied = p.log.lastApplied)
    (hsnapshot : r.snapshotIndex ≤ p.log.lastApplied) (hle : p.log.commitIndex ≤ ℓ.length) :
    ({ p with log := r } : Position).InOrder where
  numbered := ⟨ℓ, hℓ, hwindow⟩
  snapshot_le := happlied.symm ▸ hsnapshot
  applied_le := hcommit.symm ▸ happlied.symm ▸ h.applied_le
  commit_le := by
    rw [hwindow.lastIndex]
    exact hcommit.symm ▸ hle
  applied_eq := h.applied_eq.trans happlied.symm
  state_le := hcommit.symm ▸ h.state_le
  increasing := h.increasing
  handed_le := happlied.symm ▸ h.handed_le
  complete := happlied.symm ▸ h.complete

theorem InOrder.setCommitIndex (h : p.InOrder) {index : ℕ} (hle : index ≤ p.log.lastIndex) :
    ({ p with log := p.log.setCommitIndex index, commitIndex := index } : Position).InOrder := by
  obtain ⟨ℓ, hℓ, hwindow⟩ := h.numbered
  rw [ReplicatedLog.setCommitIndex_eq]
  exact
    { h with
      numbered := ⟨ℓ, hℓ, hwindow.first, hwindow.entries, hwindow.bound⟩
      applied_le := h.applied_le.trans (le_max_left _ _)
      commit_le := max_le h.commit_le hle
      state_le := le_max_right _ _ }

/-- An append request that is accepted keeps the indices in order. -/
theorem InOrder.accept (h : p.InOrder) {request : AppendEntriesRequest N}
    (hprev : request.prevLogIndex = 0 ∨ ∃ term, p.log.termAt request.prevLogIndex = some term)
    (horderly : request.Orderly p.log) : (p.accept request).InOrder := by
  obtain ⟨ℓ, hℓ, hwindow⟩ := h.numbered
  have hprevℓ : request.prevLogIndex ≤ ℓ.length := by
    rcases hprev with hzero | ⟨term, hterm⟩
    · omega
    · exact hwindow.le_of_termAt hterm
  obtain ⟨ℓ', hℓ', hwindow', hreach, -, hkeep⟩ :=
    hwindow.reconcile_numbered hℓ hprevℓ horderly.numbered
  have hlast := horderly.lastNewIndex_eq
  have hcommit : p.log.commitIndex ≤ ℓ'.length := by
    cases hconflict : p.log.findConflict request.entries with
    | none =>
      have hle := h.commit_le
      rw [hwindow.lastIndex] at hle
      exact hle.trans (hkeep hconflict)
    | some c =>
      have hreaches := horderly.reaches (by rw [hconflict]; rfl)
      omega
  have hlog : ({ p with log := p.log.reconcile request.entries } : Position).InOrder := by
    refine h.changeLog hℓ' hwindow' (by simp) (by simp) ?_ hcommit
    rw [ReplicatedLog.reconcile_snapshotIndex]
    exact h.snapshot_le
  rw [Position.accept]
  split_ifs with hlt
  · refine hlog.setCommitIndex ?_
    dsimp only
    rw [hwindow'.lastIndex]
    exact (min_le_right _ _).trans (hlast.le.trans hreach)
  · exact hlog

/-- A snapshot that is not older than what was applied keeps the indices in order. -/
theorem InOrder.install (h : p.InOrder) {index : ℕ} (hle : p.lastApplied ≤ index) (term : ℕ) :
    (p.install index term).InOrder := by
  obtain ⟨ℓ, hℓ, hwindow⟩ := h.numbered
  obtain ⟨ℓ', hℓ', hwindow', hlen⟩ := hwindow.compact_numbered hℓ index term
  have hsnapshot := p.log.compact_snapshotIndex_le index term
  have happlied := h.applied_eq
  have hsnapshot_le := h.snapshot_le
  have happlied_le := h.applied_le
  have hcommit := h.commit_le
  have hstate := h.state_le
  rw [hwindow.lastIndex] at hcommit
  rw [Position.install, ReplicatedLog.setCommitIndex_eq]
  refine
    { numbered := ⟨ℓ', hℓ', hwindow'.first, hwindow'.entries, hwindow'.bound⟩
      snapshot_le := ?_
      applied_le := ?_
      commit_le := ?_
      applied_eq := rfl
      state_le := le_max_right _ _
      increasing := h.increasing
      handed_le := ?_
      complete := fun i hi hi' => absurd (hi.trans_le hi') (lt_irrefl _) }
  · change (p.log.compact index term).snapshotIndex ≤ index
    omega
  · exact (le_max_right _ _).trans (le_max_right _ _)
  · change max (p.log.compact index term).commitIndex (max p.commitIndex index) ≤
      (p.log.compact index term).lastIndex
    rw [hwindow'.lastIndex, ReplicatedLog.compact_commitIndex]
    omega
  · intro i hi
    have := h.handed_le i hi
    change i ≤ index
    omega

theorem InOrder.apply (h : p.InOrder) {entry : LogEntry}
    (hnext : p.log.nextToApply = some entry) :
    ({ p with
        log := p.log.setLastApplied entry.index
        lastApplied := entry.index
        handed := p.handed ++ [entry.index] } : Position).InOrder := by
  obtain ⟨ℓ, hℓ, hwindow⟩ := h.numbered
  obtain ⟨hlt, hindex⟩ := h.nextToApply_index hnext
  rw [hindex]
  refine
    { numbered := ⟨ℓ, hℓ, hwindow.first, hwindow.entries, hwindow.bound⟩
      snapshot_le := h.snapshot_le.trans (Nat.le_succ _)
      applied_le := hlt
      commit_le := h.commit_le
      applied_eq := rfl
      state_le := h.state_le
      increasing := ?_
      handed_le := ?_
      complete := ?_ }
  · refine List.pairwise_append.mpr ⟨h.increasing, List.pairwise_singleton _ _, fun i hi j hj => ?_⟩
    have := h.handed_le i hi
    rw [List.mem_singleton] at hj
    omega
  · intro i hi
    change i ≤ p.log.lastApplied + 1
    rcases List.mem_append.mp hi with hi | hi
    · exact (h.handed_le i hi).trans (Nat.le_succ _)
    · exact (List.mem_singleton.mp hi).le
  · intro i hi hle
    change i ≤ p.log.lastApplied + 1 at hle
    rcases Nat.eq_or_lt_of_le hle with rfl | hlt'
    · exact List.mem_append_right _ (List.mem_singleton.mpr rfl)
    · exact List.mem_append_left _ (h.complete i hi (Nat.le_of_lt_succ hlt'))

/-- Every move keeps the indices in order, when the requests are orderly. -/
theorem InOrder.moves (h : p.InOrder) (hmoves : Moves R p q)
    (hR : ∀ request, R request → request.Orderly p.log) : q.InOrder := by
  cases hmoves with
  | stay => exact h
  | append entry hindex =>
    obtain ⟨ℓ, hℓ, hwindow⟩ := h.numbered
    have hcommit := h.commit_le
    rw [hwindow.lastIndex] at hindex hcommit
    refine h.changeLog (hℓ.concat hindex) (hwindow.append entry) rfl rfl h.snapshot_le ?_
    rw [List.length_append]
    omega
  | accept request hprev hrequest => exact h.accept hprev (hR request hrequest)
  | commit index term hlt hterm =>
    obtain ⟨ℓ, hℓ, hwindow⟩ := h.numbered
    exact h.setCommitIndex (hwindow.lastIndex ▸ hwindow.le_of_termAt hterm)
  | apply entry hnext => exact h.apply hnext
  | snapshot term =>
    obtain ⟨ℓ, hℓ, hwindow⟩ := h.numbered
    have hcommit := h.commit_le
    rw [hwindow.lastIndex] at hcommit
    have happlied : p.lastApplied ≤ ℓ.length :=
      h.applied_eq.le.trans (h.applied_le.trans hcommit)
    refine h.changeLog hℓ (hwindow.compact happlied term) (by simp) (by simp) ?_ hcommit
    exact (p.log.compact_snapshotIndex_le _ _).trans (max_le h.snapshot_le h.applied_eq.le)
  | install index term hle => exact h.install hle term

/-! ## What moves do to the indices -/

theorem Moves.log_le (h : p.InOrder) (hmoves : Moves R p q) :
    p.log.commitIndex ≤ q.log.commitIndex ∧ p.log.lastApplied ≤ q.log.lastApplied := by
  cases hmoves with
  | stay => exact ⟨le_rfl, le_rfl⟩
  | append entry hindex => exact ⟨le_rfl, le_rfl⟩
  | accept request hprev hrequest =>
    rw [Position.accept]
    split_ifs
    · dsimp only
      rw [ReplicatedLog.setCommitIndex_eq]
      simp
    · simp
  | commit index term hlt hterm =>
    rw [ReplicatedLog.setCommitIndex_eq]
    exact ⟨le_max_left _ _, le_rfl⟩
  | apply entry hnext =>
    obtain ⟨hlt, hindex⟩ := h.nextToApply_index hnext
    exact ⟨le_rfl, hindex ▸ Nat.le_succ _⟩
  | snapshot term => simp
  | install index term hle =>
    rw [Position.install, ReplicatedLog.setCommitIndex_eq]
    refine ⟨?_, h.applied_eq ▸ hle⟩
    change p.log.commitIndex ≤ max (p.log.compact index term).commitIndex _
    rw [ReplicatedLog.compact_commitIndex]
    exact le_max_left _ _

/-- A move does not take the end of the log past what a message brings, or one entry further. -/
theorem Moves.lastIndex_le (h : p.InOrder) (hmoves : Moves R p q) {n : ℕ}
    (hlast : p.log.lastIndex + 1 ≤ n)
    (hR : ∀ request, R request → request.Orderly p.log ∧ request.lastNewIndex ≤ n)
    (hinstalled : q.installed ≤ n) : q.log.lastIndex ≤ n := by
  obtain ⟨ℓ, hℓ, hwindow⟩ := h.numbered
  have hlength := hwindow.lastIndex
  have hset (r : ReplicatedLog) (index : ℕ) : (r.setCommitIndex index).lastIndex = r.lastIndex := by
    rw [ReplicatedLog.setCommitIndex_eq]
    rfl
  cases hmoves with
  | stay => omega
  | append entry hindex =>
    dsimp only
    rw [(hwindow.append entry).lastIndex, List.length_append, List.length_singleton]
    omega
  | accept request hprev hrequest =>
    obtain ⟨horderly, hnew⟩ := hR request hrequest
    have hprevℓ : request.prevLogIndex ≤ ℓ.length := by
      rcases hprev with hzero | ⟨term, hterm⟩
      · omega
      · exact hwindow.le_of_termAt hterm
    obtain ⟨ℓ', -, hwindow', -, hle, -⟩ :=
      hwindow.reconcile_numbered hℓ hprevℓ horderly.numbered
    rw [← horderly.lastNewIndex_eq, ← hwindow'.lastIndex] at hle
    rw [Position.accept]
    split_ifs
    · dsimp only
      rw [hset]
      omega
    · dsimp only
      omega
  | commit index term hlt hterm =>
    dsimp only
    rw [hset]
    omega
  | apply entry hnext => exact (Nat.le_succ _).trans hlast
  | snapshot term =>
    obtain ⟨ℓ', -, hwindow', hlen⟩ := hwindow.compact_numbered hℓ p.lastApplied term
    have happlied := h.applied_eq.le.trans (h.applied_le.trans h.commit_le)
    dsimp only
    rw [hwindow'.lastIndex]
    omega
  | install index term hle =>
    obtain ⟨ℓ', -, hwindow', hlen⟩ := hwindow.compact_numbered hℓ index term
    have hinstall : (p.install index term).log.lastIndex = ℓ'.length :=
      (hset (p.log.compact index term) _).trans hwindow'.lastIndex
    have hindex : index ≤ n := hinstalled
    rw [hinstall]
    omega

/-- An append request reaches the commit index that it would change. -/
def Reaches (p : Position) (request : AppendEntriesRequest N) : Prop :=
  p.commitIndex < request.leaderCommit → p.commitIndex ≤ request.lastNewIndex

/-- When the requests reach the commit index, the one of the state does not decrease, and it stays
the one of the log. -/
theorem Moves.commitIndex_le (hmoves : Moves R p q) (hR : ∀ request, R request → p.Reaches request)
    (h : p.commitIndex = p.log.commitIndex) :
    p.commitIndex ≤ q.commitIndex ∧ q.commitIndex = q.log.commitIndex := by
  have hset (r : ReplicatedLog) (hr : r.commitIndex = p.log.commitIndex) (index : ℕ)
      (hindex : p.commitIndex ≤ index) :
      p.commitIndex ≤ index ∧ index = (r.setCommitIndex index).commitIndex := by
    rw [ReplicatedLog.setCommitIndex_eq, hr]
    exact ⟨hindex, (max_eq_right (h ▸ hindex)).symm⟩
  cases hmoves with
  | stay => exact ⟨le_rfl, h⟩
  | append entry hindex => exact ⟨le_rfl, h⟩
  | accept request hprev hrequest =>
    rw [Position.accept]
    split_ifs with hlt
    · exact hset _ (by simp) _ (le_min hlt.le (hR request hrequest hlt))
    · exact ⟨le_rfl, by simpa using h⟩
  | commit index term hlt hterm => exact hset _ rfl _ hlt.le
  | apply entry hnext => exact ⟨le_rfl, h⟩
  | snapshot term => exact ⟨le_rfl, by simpa using h⟩
  | install index term hle' => exact hset _ (by simp) _ (le_max_left _ _)

end Position

end Replication

end AegisDB
