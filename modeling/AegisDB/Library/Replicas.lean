import AegisDB.Library.Transition

/-!
# Replicas that exchange whole states

A state-based replicated type has a new state, updates, and a merge of two states.  Any number of
replicas hold one state each; a replica updates its own state, sends a copy of it, or merges a copy
that was sent earlier, so that copies may arrive late, in any order, and more than once.

Every update is an event at the end of one log, which also has the copy it was made on.  A copy
carries the positions of the updates it has received, directly or through merges.  These are
history and nothing reads them; what a type promises is said in terms of them.
`Replicas.copies_invariant` is the induction over all such runs, and
`Replicas.view_eq_of_received_eq` is convergence for the types whose states form a semilattice.
-/

namespace AegisDB

/-- A state-based replicated type. -/
structure ReplicatedType (σ U : Type*) where
  new : σ
  update : σ → U → σ
  /-- The state after another state has been merged into it. -/
  merge : σ → σ → σ

/-- A state with the positions of the updates it has received. -/
structure Copy (σ : Type*) where
  state : σ
  /-- The positions, in the log, of the updates that have arrived here. -/
  received : Finset ℕ

/-- An update and the copy it was made on. -/
structure UpdateEvent (σ U : Type*) where
  origin : Copy σ
  update : U

/-- The replicas, what they have sent, and all updates so far. -/
structure Replicas (N σ U : Type*) where
  replica : N → Copy σ
  /-- All copies that have been sent; they stay, so each may arrive any number of times. -/
  sent : List (Copy σ)
  /-- All updates, in the order in which they were made. -/
  log : List (UpdateEvent σ U)

/-- What a replica may do. -/
inductive ReplicaAction (N U : Type*) where
  | update (r : N) (u : U)
  | send (r : N)
  /-- Merge the copy with this number among those sent. -/
  | merge (r : N) (i : ℕ)

namespace ReplicatedType

variable {N σ U : Type*} (D : ReplicatedType σ U)

def newCopy : Copy σ :=
  ⟨D.new, ∅⟩

/-- An update is received where it is made; it is the next one of the log. -/
def updateCopy (n : ℕ) (c : Copy σ) (u : U) : Copy σ :=
  ⟨D.update c.state u, insert n c.received⟩

/-- A merge receives everything the other copy has received. -/
def mergeCopy (c m : Copy σ) : Copy σ :=
  ⟨D.merge c.state m.state, c.received ∪ m.received⟩

variable [DecidableEq N]

/-- One action of one replica. -/
def act (w : Replicas N σ U) : ReplicaAction N U → Option (Replicas N σ U)
  | .update r u =>
    some { w with
      replica := Function.update w.replica r (D.updateCopy w.log.length (w.replica r) u)
      log := w.log ++ [⟨w.replica r, u⟩] }
  | .send r => some { w with sent := w.sent ++ [w.replica r] }
  | .merge r i => w.sent[i]?.map fun m =>
    { w with replica := Function.update w.replica r (D.mergeCopy (w.replica r) m) }

def replicas : System (Replicas N σ U) (ReplicaAction N U) where
  init := ⟨fun _ => D.newCopy, [], []⟩
  step := D.act

end ReplicatedType

namespace Replicas

variable {N σ U : Type*}

def Has (w : Replicas N σ U) (c : Copy σ) : Prop :=
  (∃ r, w.replica r = c) ∨ c ∈ w.sent

/-- A condition on the updates and on the merges of a run, each given the log, the copy at the
replica, and the update made there or the copy merged into it. -/
def Meets (Φ : List (UpdateEvent σ U) → Copy σ → U → Prop)
    (Ψ : List (UpdateEvent σ U) → Copy σ → Copy σ → Prop) (w : Replicas N σ U) :
    ReplicaAction N U → Prop
  | .update r u => Φ w.log (w.replica r) u
  | .send _ => True
  | .merge r i => ∀ m, w.sent[i]? = some m → Ψ w.log (w.replica r) m

def Within (log : List (UpdateEvent σ U)) (c : Copy σ) : Prop :=
  ∀ i ∈ c.received, i < log.length

/-- An update was made on a copy that had received earlier updates only. -/
def Ordered (log : List (UpdateEvent σ U)) : Prop :=
  ∀ (j : ℕ) (e : UpdateEvent σ U), log[j]? = some e → ∀ i ∈ e.origin.received, i < j

theorem Ordered.append {log : List (UpdateEvent σ U)} (h : Ordered log) {c : Copy σ}
    (hc : Within log c) (u : U) : Ordered (log ++ [⟨c, u⟩]) := by
  intro j e he i hi
  rcases Nat.lt_or_ge j log.length with hlt | hge
  · rw [List.getElem?_append_left hlt] at he
    exact h j e he i hi
  · obtain ⟨rfl, rfl⟩ : j = log.length ∧ e = ⟨c, u⟩ := by
      rw [List.getElem?_append_right hge, List.getElem?_singleton] at he
      split_ifs at he with hj
      exact ⟨by omega, (Option.some.inj he).symm⟩
    exact hc i hi

theorem Within.append {log : List (UpdateEvent σ U)} {c : Copy σ} (h : Within log c)
    (e : UpdateEvent σ U) : Within (log ++ [e]) c := by
  intro i hi
  have hlt := h i hi
  rw [List.length_append]
  omega

theorem Within.getElem?_append {log : List (UpdateEvent σ U)} {c : Copy σ} (h : Within log c)
    (e : UpdateEvent σ U) {i : ℕ} (hi : i ∈ c.received) : (log ++ [e])[i]? = log[i]? :=
  List.getElem?_append_left (h i hi)

variable [DecidableEq N] {D : ReplicatedType σ U} {w : Replicas N σ U}

theorem reach_of_reachable (h : (D.replicas (N := N)).Reachable w) :
    (D.replicas (N := N)).Reach (Meets (fun _ _ _ => True) fun _ _ _ => True) w := by
  refine h.mono ?_
  rintro w (⟨r, u⟩ | r | ⟨r, i⟩) _
  · trivial
  · trivial
  · exact fun _ _ => trivial

section Invariant

variable {P : List (UpdateEvent σ U) → Copy σ → Prop}
  {Φ : List (UpdateEvent σ U) → Copy σ → U → Prop}
  {Ψ : List (UpdateEvent σ U) → Copy σ → Copy σ → Prop}

/-- A property of copies that new ones have, that the growth of the log keeps, and that updates
and merges under their conditions keep, holds of every copy in every such run. -/
theorem copies_invariant (hnew : P [] D.newCopy)
    (hgrow : ∀ log c e, Within log c → P log c → P (log ++ [e]) c)
    (hupdate : ∀ log c u, Ordered log → Within log c → P log c → Φ log c u →
      P (log ++ [⟨c, u⟩]) (D.updateCopy log.length c u))
    (hmerge : ∀ log c m, Within log c → Within log m → P log c → P log m → Ψ log c m →
      P log (D.mergeCopy c m))
    (h : (D.replicas (N := N)).Reach (Meets Φ Ψ) w) :
    Ordered w.log ∧ ∀ c, w.Has c → Within w.log c ∧ P w.log c := by
  induction h with
  | init =>
    refine ⟨fun j e he => ?_, ?_⟩
    · cases he
    rintro c (⟨r, rfl⟩ | hc)
    · exact ⟨fun i hi => absurd hi (Finset.notMem_empty i), hnew⟩
    · cases hc
  | @step w w' a _ hΦ hstep ih =>
    obtain ⟨hordered, ih⟩ := ih
    -- the copy at a replica, before the step
    have hat (r : N) : Within w.log (w.replica r) ∧ P w.log (w.replica r) :=
      ih _ (Or.inl ⟨r, rfl⟩)
    cases a with
    | update r u =>
      obtain rfl := Option.some.inj hstep
      have hold (c : Copy σ) (hc : w.Has c) :
          Within (w.log ++ [⟨w.replica r, u⟩]) c ∧ P (w.log ++ [⟨w.replica r, u⟩]) c :=
        ⟨(ih c hc).1.append _, hgrow _ _ _ (ih c hc).1 (ih c hc).2⟩
      refine ⟨hordered.append (hat r).1 u, ?_⟩
      rintro c (⟨q, rfl⟩ | hc)
      · by_cases hq : q = r
        · subst hq
          simp only [Function.update_self]
          refine ⟨fun i hi => ?_, hupdate _ _ _ hordered (hat q).1 (hat q).2 hΦ⟩
          rw [List.length_append, List.length_singleton]
          rcases Finset.mem_insert.mp hi with rfl | hi
          · exact Nat.lt_succ_self _
          · exact Nat.lt_succ_of_lt ((hat q).1 i hi)
        · simp only [Function.update_of_ne hq]
          exact hold _ (Or.inl ⟨q, rfl⟩)
      · exact hold c (Or.inr hc)
    | send r =>
      obtain rfl := Option.some.inj hstep
      refine ⟨hordered, ?_⟩
      rintro c (⟨q, rfl⟩ | hc)
      · exact ih _ (Or.inl ⟨q, rfl⟩)
      · rcases List.mem_append.mp hc with hc | hc
        · exact ih c (Or.inr hc)
        · rw [List.mem_singleton.mp hc]
          exact hat r
    | merge r i =>
      obtain ⟨m, hm, rfl⟩ := Option.map_eq_some_iff.mp hstep
      have hsent : Within w.log m ∧ P w.log m :=
        ih m (Or.inr (List.mem_of_getElem? hm))
      refine ⟨hordered, ?_⟩
      rintro c (⟨q, rfl⟩ | hc)
      · by_cases hq : q = r
        · subst hq
          simp only [Function.update_self]
          refine ⟨fun j hj => ?_,
            hmerge _ _ _ (hat q).1 hsent.1 (hat q).2 hsent.2 (hΦ m hm)⟩
          rcases Finset.mem_union.mp hj with hj | hj
          · exact (hat q).1 j hj
          · exact hsent.1 j hj
        · simp only [Function.update_of_ne hq]
          exact ih _ (Or.inl ⟨q, rfl⟩)
      · exact ih c (Or.inr hc)

end Invariant

/-- A step keeps what all replicas have, if it does so for the copy that it makes. -/
theorem forall_step_iff {P : List (UpdateEvent σ U) → Copy σ → Prop}
    (hgrow : ∀ r e, P w.log (w.replica r) → P (w.log ++ [e]) (w.replica r))
    (hall : ∀ r, P w.log (w.replica r)) {a : ReplicaAction N U} {w' : Replicas N σ U}
    (hstep : D.replicas.step w a = some w') :
    (∀ r, P w'.log (w'.replica r)) ↔
      Meets (fun log c u => P (log ++ [⟨c, u⟩]) (D.updateCopy log.length c u))
        (fun log c m => P log (D.mergeCopy c m)) w a := by
  cases a with
  | update r u =>
    obtain rfl := Option.some.inj hstep
    have hsplit := Function.forall_update_iff w.replica (a := r)
      (b := D.updateCopy w.log.length (w.replica r) u)
      fun _ c => P (w.log ++ [⟨w.replica r, u⟩]) c
    exact hsplit.trans (and_iff_left fun q _ => hgrow q _ (hall q))
  | send r =>
    obtain rfl := Option.some.inj hstep
    exact iff_of_true hall trivial
  | merge r i =>
    obtain ⟨m, hm, rfl⟩ := Option.map_eq_some_iff.mp hstep
    have hsplit := Function.forall_update_iff w.replica (a := r)
      (b := D.mergeCopy (w.replica r) m) fun _ c => P w.log c
    refine (hsplit.trans (and_iff_left fun q _ => hall q)).trans ⟨fun h m' hm' => ?_, fun h => ?_⟩
    · rw [hm] at hm'
      exact Option.some.inj hm' ▸ h
    · exact h m hm

omit [DecidableEq N] in
theorem meets_congr {Φ Φ' : List (UpdateEvent σ U) → Copy σ → U → Prop}
    {Ψ Ψ' : List (UpdateEvent σ U) → Copy σ → Copy σ → Prop}
    (hΦ : ∀ r u, Φ w.log (w.replica r) u ↔ Φ' w.log (w.replica r) u)
    (hΨ : ∀ r, ∀ m ∈ w.sent, Ψ w.log (w.replica r) m ↔ Ψ' w.log (w.replica r) m)
    (a : ReplicaAction N U) : Meets Φ Ψ w a ↔ Meets Φ' Ψ' w a := by
  cases a with
  | update r u => exact hΦ r u
  | send r => exact Iff.rfl
  | merge r i =>
    exact forall₂_congr fun m hm => hΨ r m (List.mem_of_getElem? hm)

/-! ## Convergence -/

section Semilattice

variable {L : Type*} [SemilatticeSup L] [OrderBot L] {view : σ → L}

/-- What the update at a position of the log left behind where it was made. -/
def contribution (D : ReplicatedType σ U) (view : σ → L) (log : List (UpdateEvent σ U)) (i : ℕ) :
    L :=
  log[i]?.elim ⊥ fun e => view (D.update e.origin.state e.update)

/-- Where updates only add to what is seen of a state, and a merge joins it, a copy shows the join
of what the updates it has received have left behind. -/
theorem view_eq_sup (hnew : view D.new = ⊥)
    (hmerge : ∀ a b, view (D.merge a b) = view a ⊔ view b)
    (h : (D.replicas (N := N)).Reach
      (Meets (fun _ c u => view c.state ≤ view (D.update c.state u)) fun _ _ _ => True) w)
    {c : Copy σ} (hc : w.Has c) :
    view c.state = c.received.sup (contribution D view w.log) := by
  refine (copies_invariant
    (P := fun log c => view c.state = c.received.sup (contribution D view log))
    hnew ?_ ?_ ?_ h).2 c hc |>.2
  · intro log c e hwithin hview
    rw [hview]
    refine Finset.sup_congr rfl fun i hi => ?_
    rw [contribution, contribution, hwithin.getElem?_append e hi]
  · intro log c u _ hwithin hview hle
    have hnewest : contribution D view (log ++ [⟨c, u⟩]) log.length =
        view (D.update c.state u) := by
      rw [contribution, List.getElem?_concat_length]
      rfl
    have hrest : c.received.sup (contribution D view (log ++ [⟨c, u⟩])) = view c.state := by
      rw [hview]
      refine Finset.sup_congr rfl fun i hi => ?_
      rw [contribution, contribution, hwithin.getElem?_append _ hi]
    rw [ReplicatedType.updateCopy, Finset.sup_insert, hnewest, hrest]
    exact (sup_eq_left.mpr hle).symm
  · intro log c m _ _ hc hm _
    rw [ReplicatedType.mergeCopy, Finset.sup_union, hmerge, hc, hm]

theorem view_eq_of_received_eq (hnew : view D.new = ⊥)
    (hmerge : ∀ a b, view (D.merge a b) = view a ⊔ view b)
    (h : (D.replicas (N := N)).Reach
      (Meets (fun _ c u => view c.state ≤ view (D.update c.state u)) fun _ _ _ => True) w)
    {c c' : Copy σ} (hc : w.Has c) (hc' : w.Has c') (hsame : c.received = c'.received) :
    view c.state = view c'.state := by
  rw [view_eq_sup hnew hmerge h hc, view_eq_sup hnew hmerge h hc', hsame]

end Semilattice

end Replicas

end AegisDB
