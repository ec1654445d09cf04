import AegisDB.Replication.NodeRun

/-!
# Applying what is committed

The loop of `apply_committed` goes on as long as the log has entries to apply, whether or not it
finds the next one.  With orderly messages the next entry is always there, every turn hands over the
entry behind the last applied index, and the loop ends when there are no entries left.  Otherwise
it may look for an entry that has been removed from the log, over and over again.
-/

namespace AegisDB

namespace Replication

variable {N S C Snap : Type*}

namespace RaftNode

theorem applyCommitted_of_none {B : StateMachineBackend S C Snap} {x : RaftNode N S}
    (h : x.log.nextToApply = none) (turns : ℕ) : x.applyCommitted B turns = (x, []) := by
  have hturn : x.applyNext B = (x, []) := by
    rw [applyNext, h]
  induction turns with
  | zero => rfl
  | succ turns ih =>
    rw [applyCommitted]
    split_ifs
    · rw [hturn]
      dsimp only
      rw [ih]
      rfl
    · rfl

theorem applyNext_sublist (B : StateMachineBackend S C Snap) (x : RaftNode N S) :
    (((x.applyNext B).2.map fun r => (r.1, r.2.1)).map Prod.fst).Sublist
      (x.log.nextToApply.map LogEntry.index).toList := by
  rw [applyNext]
  cases x.log.nextToApply with
  | none => exact List.Sublist.refl _
  | some entry =>
    cases hcommand : B.commandFromBytes entry.data with
    | none =>
      simp only [hcommand, List.map_nil]
      exact List.nil_sublist _
    | some command =>
      simp only [hcommand, List.map_cons, List.map_nil]
      exact List.Sublist.refl _

end RaftNode

namespace NodeRun

variable [DecidableEq N] {B : StateMachineBackend S C Snap} {id : N} {config : RaftConfig}
  {s s' : NodeRun N S C} {a : NodeAction N C}

theorem applied_sublist {Φ : NodeRun N S C → NodeAction N C → Prop}
    (h : (system B id config).Reach Φ s) : (s.applied.map Prod.fst).Sublist s.handed := by
  refine h.invariant (P := fun s => (s.applied.map Prod.fst).Sublist s.handed) (List.Sublist.refl _) ?_
  intro s a s' _ hsub _ hstep
  cases a with
  | applyNext =>
    change step B s .applyNext = some s' at hstep
    rw [step] at hstep
    split_ifs at hstep
    obtain rfl := Option.some.inj hstep
    dsimp only
    rw [List.map_append]
    exact hsub.append (RaftNode.applyNext_sublist B s.node)
  | _ =>
    obtain rfl := Option.some.inj hstep
    exact hsub

/-- As long as there are entries to apply, a turn of the loop hands over the next index. -/
theorem applyNext_step (h : s.position.InOrder)
    (hlt : s.node.log.lastApplied < s.node.log.commitIndex) :
    ∃ s', step B s .applyNext = some s' ∧ s'.node = (s.node.applyNext B).1 ∧
      s'.node.log.lastApplied = s.node.log.lastApplied + 1 ∧
      s'.node.log.commitIndex = s.node.log.commitIndex ∧
      s'.handed = s.handed ++ [s.node.log.lastApplied + 1] ∧ s'.installed = s.installed := by
  obtain ⟨entry, hnext⟩ := h.exists_nextToApply hlt
  obtain ⟨-, hindex⟩ := h.nextToApply_index hnext
  change s.node.log.nextToApply = some entry at hnext
  change entry.index = s.node.log.lastApplied + 1 at hindex
  have hlog : (s.node.applyNext B).1.log = s.node.log.setLastApplied entry.index := by
    rw [RaftNode.applyNext, hnext]
  have hentries : s.node.log.hasEntriesToApply = true := decide_eq_true hlt
  refine ⟨_, if_pos hentries, rfl, ?_, ?_, ?_, rfl⟩
  · rw [hlog, ← hindex]
    rfl
  · rw [hlog]
    rfl
  · rw [hnext, ← hindex]
    rfl

/-- The whole loop: it ends, and it hands over what lies between the last applied index and the
commit index. -/
theorem exists_applyCommitted (h : (system B id config).Reach (Orderly B) s) :
    ∃ turns s', ({ system B id config with init := s } : System _ _).Reach (Orderly B) s' ∧
      s'.node = (s.node.applyCommitted B turns).1 ∧
      s'.node.log.lastApplied = s.node.log.commitIndex ∧
      s'.node.log.commitIndex = s.node.log.commitIndex ∧ s'.installed = s.installed ∧
      s'.handed = s.handed ++ List.range' (s.node.log.lastApplied + 1)
        (s.node.log.commitIndex - s.node.log.lastApplied) := by
  -- the induction is on how far the last applied index is behind
  obtain ⟨gap, hgap⟩ : ∃ gap, s.node.log.commitIndex - s.node.log.lastApplied = gap := ⟨_, rfl⟩
  have happlied := (position_inOrder h).applied_le
  change s.node.log.lastApplied ≤ s.node.log.commitIndex at happlied
  rw [hgap]
  induction gap generalizing s with
  | zero =>
    refine ⟨0, s, .init, rfl, ?_, rfl, rfl, ?_⟩
    · omega
    · rw [List.range'_zero, List.append_nil]
  | succ gap ih =>
    have hlt : s.node.log.lastApplied < s.node.log.commitIndex := by omega
    obtain ⟨s₁, hstep, hnode, hlast, hcommit, hhanded, hinstalled⟩ :=
      applyNext_step (B := B) (position_inOrder h) hlt
    obtain ⟨turns, s', hreach, hnode', hlast', hcommit', hinstalled', hhanded'⟩ :=
      ih (h.step (a := .applyNext) trivial hstep) (by omega) (by omega)
    have hfirst : ({ system B id config with init := s } : System _ _).Reach (Orderly B) s₁ :=
      .step (a := .applyNext) .init trivial hstep
    refine ⟨turns + 1, s', hfirst.append hreach, ?_, ?_, ?_, ?_, ?_⟩
    · have hentries : s.node.log.hasEntriesToApply = true := decide_eq_true hlt
      rw [hnode', hnode, RaftNode.applyCommitted, if_pos hentries]
    · rw [hlast', hcommit]
    · rw [hcommit', hcommit]
    · rw [hinstalled', hinstalled]
    · rw [hhanded', hhanded, hlast, List.append_assoc, List.range'_succ]
      rfl

/-- **Applying is exact**: as long as every append request that is accepted numbers its entries
behind its previous index and reaches the commit index of the log when one of its entries conflicts
with the log, and no snapshot that is installed is older than what has been applied, the loop of
`apply_committed` ends, and what is handed over in the whole run is in increasing order and holds,
once the loop has ended, every committed index above the last snapshot installed. -/
theorem applyCommitted_exact (h : (system B id config).Reach (Orderly B) s) :
    s.handed.Pairwise (· < ·) ∧ (s.applied.map Prod.fst).Sublist s.handed ∧
      ∃ turns s', ({ system B id config with init := s } : System _ _).Reach (Orderly B) s' ∧
        s'.node = (s.node.applyCommitted B turns).1 ∧
        s'.node.log.hasEntriesToApply = false ∧
        s'.node.log.commitIndex = s.node.log.commitIndex ∧
        s'.handed = s.handed ++ List.range' (s.node.log.lastApplied + 1)
          (s.node.log.commitIndex - s.node.log.lastApplied) ∧
        ∀ i, s.installed < i → i ≤ s.node.log.commitIndex → i ∈ s'.handed := by
  refine ⟨(position_inOrder h).increasing, applied_sublist h, ?_⟩
  obtain ⟨turns, s', hreach, hnode, hlast, hcommit, hinstalled, hhanded⟩ :=
    exists_applyCommitted h
  refine ⟨turns, s', hreach, hnode, ?_, hcommit, hhanded, fun i hi hle => ?_⟩
  · rw [ReplicatedLog.hasEntriesToApply, hlast, hcommit]
    exact decide_eq_false (lt_irrefl _)
  · refine (position_inOrder (h.append hreach)).complete i ?_ ?_
    · exact hinstalled.le.trans_lt hi
    · exact hle.trans hlast.ge

/-- A follower that applies entries, takes a snapshot and installs that of the leader. -/
theorem applyCommitted_exact_snapshot :
    ∃ s, logNode.Reach (Orderly commandLog) s ∧ s.handed = [1, 2, 5] ∧ s.installed = 4 ∧
      s.handed.Pairwise (· < ·) := by
  have hrun : (logNode.run (Orderly commandLog) steadyScript).any
      (fun s => decide (s.handed = [1, 2, 5] ∧ s.installed = 4)) = true := by
    decide +kernel
  obtain ⟨s, -, hreach, hs⟩ := System.exists_reach_of_any hrun
  obtain ⟨hhanded, hinstalled⟩ := of_decide_eq_true hs
  exact ⟨s, hreach, hhanded, hinstalled, (applyCommitted_exact hreach).1⟩

/-- **A loop that does not end**: a follower has applied three entries and removed them from its log
when the snapshot that it started with arrives once more.  It has entries to apply again, the first
of which is gone, however many turns the loop makes. -/
theorem applyCommitted_not_exact :
    ∃ s, logNode.Reachable s ∧
      ∀ turns, (s.node.applyCommitted commandLog turns).1.log.hasEntriesToApply = true := by
  have hrun : (logNode.run (fun _ _ => True)
      [snapshotMessage 1 [7], appendMessage 1 [8, 9] 3, .applyNext, .applyNext, .takeSnapshot,
        snapshotMessage 1 [7]]).any
      (fun s => decide (s.node.log.nextToApply = none ∧
        s.node.log.hasEntriesToApply = true)) = true := by
    decide +kernel
  obtain ⟨s, -, hreach, hs⟩ := System.exists_reach_of_any hrun
  obtain ⟨hnone, hentries⟩ := of_decide_eq_true hs
  refine ⟨s, hreach, fun turns => ?_⟩
  rw [RaftNode.applyCommitted_of_none hnone]
  exact hentries

end NodeRun

end Replication

end AegisDB
