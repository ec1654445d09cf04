import AegisDB.Library.Transition
import AegisDB.Updates.Orchestrator

/-!
# One update at a time

Executions of plans run side by side, section by section.  Whether another plan is being executed is
seen in one section and the own plan is put into `Staging` in the next, and the check lets a plan
through that is already being executed, so two plans can be executed at once.  An execution that
cannot download, read or stage the binary returns at once and leaves its plan in `Staging`, and no
other plan is executed from then on.  Apart from these, an execution has the last word on its plan.
-/

namespace AegisDB.Updates

/-- The binary is downloaded, read and staged here; its digest may be another. -/
def Outcomes.stagesLocally (outcomes : Outcomes) : Bool :=
  match outcomes.downloadBinary, outcomes.verifySha256, outcomes.stageBinary with
  | .ok _, .ok false, _ => true
  | .ok _, .ok true, .ok _ => true
  | _, _, _ => false

/-- An execution that was asked for, what is left of it, and how many of its sections have run. -/
structure UpdateCall where
  planId : String
  prog : UpdateProg UpdateResult
  steps : ℕ := 0

/-- Whether an execution of a plan is between its check and its end. -/
def UpdateCall.underway (c : UpdateCall) (s : UpdateOrchestrator) : Bool :=
  decide (0 < c.steps) && !c.prog.isDone && (s.getPlan c.planId).isSome

/-- The orchestrator and the executions that were asked for. -/
structure UpdateSession where
  state : UpdateOrchestrator := {}
  calls : List UpdateCall := []

/-- What is asked of the orchestrator, or the next section of an execution. -/
inductive UpdateEvent where
  | setClusterNodes (nodes : List ClusterNode)
  | addNode (node : ClusterNode)
  | createPlan (id version binaryUrl sha256 : String)
  | executePlan (planId : String) (outcomes : Outcomes)
  | resume (i : ℕ)

namespace UpdateSession

/-- The calls when one of them has run its next section. -/
def advance (calls : List UpdateCall) (i : ℕ) (c : UpdateCall) (prog : UpdateProg UpdateResult) :
    List UpdateCall :=
  calls.set i { c with prog, steps := c.steps + 1 }

def step (w : UpdateSession) : UpdateEvent → Option UpdateSession
  | .setClusterNodes nodes => some { w with state := w.state.setClusterNodes nodes }
  | .addNode node => some { w with state := w.state.addNode node }
  | .createPlan id version binaryUrl sha256 =>
    -- an identifier is drawn that nobody has used
    if (w.state.getPlan id).isNone ∧ ∀ c ∈ w.calls, c.planId ≠ id then
      some { w with state := w.state.createPlan id version binaryUrl sha256 }
    else none
  | .executePlan planId outcomes =>
    some { w with calls := w.calls ++ [{ planId, prog := executePlan planId outcomes }] }
  | .resume i => w.calls[i]?.bind fun c =>
      match c.prog with
      | .done _ => none
      | .atom next rest =>
        some { state := next w.state, calls := advance w.calls i c (rest w.state) }

def system : System UpdateSession UpdateEvent where
  init := {}
  step := step

/-- At most one plan is in `Staging` or `InProgress`, and none while nothing is executed, so every
plan can be. -/
def OneAtATime (w : UpdateSession) : Prop :=
  (w.state.plans.filter fun p => p.status.active).length ≤ 1 ∧
    ((∀ c ∈ w.calls, c.prog.isDone = true) →
      (∀ p ∈ w.state.plans, p.status.active = false) ∧
      ∀ planId, w.state.otherActive planId = false)

/-- Every execution can download, read and stage the binary, and none gets through its check while
that of another plan is between its check and its end. -/
def Unraced (w : UpdateSession) : UpdateEvent → Prop
  | .executePlan _ outcomes => outcomes.stagesLocally = true
  | .resume i => ∀ c ∈ w.calls[i]?, c.steps = 0 → w.state.otherActive c.planId = false →
      ∀ d ∈ w.calls, d.underway w.state = true → d.planId = c.planId
  | _ => True

instance (w : UpdateSession) (e : UpdateEvent) : Decidable (Unraced w e) :=
  match e with
  | .setClusterNodes _ | .addNode _ | .createPlan _ _ _ _ => isTrue trivial
  | .executePlan _ outcomes => inferInstanceAs (Decidable (outcomes.stagesLocally = true))
  | .resume i => inferInstanceAs (Decidable (∀ c ∈ w.calls[i]?, _))

end UpdateSession

/-! ## Plans -/

namespace UpdateOrchestrator

variable {planId : String} {f : UpdatePlan → UpdatePlan}

theorem getPlan_modifyPlan (hf : ∀ p, (f p).id = p.id) (s : UpdateOrchestrator) (id : String) :
    ({ s with plans := modifyPlan planId f s.plans } : UpdateOrchestrator).getPlan id =
      if id = planId then (s.getPlan id).map f else s.getPlan id := by
  rw [getPlan, getPlan]
  dsimp only
  induction s.plans with
  | nil =>
    rw [modifyPlan]
    split_ifs <;> rfl
  | cons p plans ih =>
    rw [modifyPlan]
    by_cases hp : p.id = planId
    · rw [if_pos hp]
      by_cases hid : p.id = id
      · rw [if_pos (hid.symm.trans hp)]
        simp only [List.find?_cons, hf, decide_eq_true hid, Option.map_some]
      · have hne : id ≠ planId := fun h => hid (hp.trans h.symm)
        rw [if_neg hne]
        simp only [List.find?_cons, hf, decide_eq_false hid]
    · rw [if_neg hp]
      by_cases hid : p.id = id
      · have hne : id ≠ planId := fun h => hp (hid.trans h)
        rw [if_neg hne]
        simp only [List.find?_cons, decide_eq_true hid]
      · simp only [List.find?_cons, decide_eq_false hid, ih]

theorem map_id_modifyPlan (hf : ∀ p, (f p).id = p.id) (plans : List UpdatePlan) :
    (modifyPlan planId f plans).map UpdatePlan.id = plans.map UpdatePlan.id := by
  induction plans with
  | nil => rfl
  | cons p plans ih =>
    rw [modifyPlan]
    split_ifs
    · rw [List.map_cons, List.map_cons, hf]
    · rw [List.map_cons, List.map_cons, ih]

theorem getPlan_of_mem {s : UpdateOrchestrator} (hids : (s.plans.map UpdatePlan.id).Nodup)
    {p : UpdatePlan} (hp : p ∈ s.plans) : s.getPlan p.id = some p := by
  rw [getPlan]
  cases hfound : s.plans.find? fun q => q.id = p.id with
  | none => exact absurd (decide_eq_true rfl) (List.find?_eq_none.mp hfound p hp)
  | some q =>
    have hid : q.id = p.id := of_decide_eq_true (List.find?_some hfound :)
    rw [List.inj_on_of_nodup_map hids (List.mem_of_find?_eq_some hfound) hp hid]

theorem mem_of_getPlan {s : UpdateOrchestrator} {id : String} {p : UpdatePlan}
    (h : s.getPlan id = some p) : p ∈ s.plans ∧ p.id = id :=
  ⟨List.mem_of_find?_eq_some h, of_decide_eq_true (List.find?_some h :)⟩

theorem isSome_getPlan (s : UpdateOrchestrator) (id : String) :
    (s.getPlan id).isSome = true ↔ id ∈ s.plans.map UpdatePlan.id := by
  rw [getPlan, List.find?_isSome, List.mem_map]
  exact exists_congr fun p => and_congr_right' decide_eq_true_iff

end UpdateOrchestrator

/-! ## Sections -/

/-- The plan is not being executed, as far as its status says. -/
def Settled (planId : String) (s : UpdateOrchestrator) : Prop :=
  ∀ p, s.getPlan planId = some p → p.status.active = false

def OthersKept (planId : String) (s s' : UpdateOrchestrator) : Prop :=
  s'.plans.map UpdatePlan.id = s.plans.map UpdatePlan.id ∧
    ∀ id, id ≠ planId → s'.getPlan id = s.getPlan id

/-- When there is an error, the plan is settled. -/
def ErrorsSettle {ρ : Type} (planId : String) : Except UpdateError ρ → UpdateOrchestrator → Prop
  | .ok _, _ => True
  | .error _, s => Settled planId s

section Sections

open Prog

variable {planId : String} {ρ : Type}

theorem othersKept_refl (s : UpdateOrchestrator) : OthersKept planId s s :=
  ⟨rfl, fun _ _ => rfl⟩

theorem last_changePlan {f : UpdatePlan → UpdatePlan} (hf : ∀ p, (f p).id = p.id)
    {Q : UpdateResult → UpdateOrchestrator → Prop}
    (hok : ∀ s : UpdateOrchestrator, (∀ p, s.getPlan planId = some p → ∃ q, p = f q) →
      Q (.ok ()) s)
    (herror : ∀ s : UpdateOrchestrator, Settled planId s → Q (.error (.planNotFound planId)) s) :
    (changePlan planId f).Last (OthersKept planId) Q := by
  intro s
  refine ⟨⟨UpdateOrchestrator.map_id_modifyPlan hf s.plans, fun id hid => ?_⟩, fun r hr => ?_,
    trivial⟩
  · rw [UpdateOrchestrator.getPlan_modifyPlan hf, if_neg hid]
  · obtain rfl := Option.some.inj hr
    have hfound := @UpdateOrchestrator.getPlan_modifyPlan planId f hf s planId
    rw [if_pos rfl] at hfound
    cases hplan : s.getPlan planId with
    | none =>
      rw [hplan] at hfound
      exact herror _ fun p hp => (nomatch hfound.symm.trans hp)
    | some q =>
      rw [hplan] at hfound
      exact hok _ fun p hp => ⟨q, Option.some.inj (hp.symm.trans hfound)⟩

theorem last_setNodeStatus (nodeId : String) (status : NodeUpdateStatus) :
    (setNodeStatus planId nodeId status).Last (OthersKept planId) (ErrorsSettle planId) := by
  refine last_changePlan ?_ (fun _ _ => trivial) fun _ h => h
  exact fun _ => rfl

theorem last_setPlanStatus (status : UpdateStatus) :
    (setPlanStatus planId status).Last (OthersKept planId) (ErrorsSettle planId) := by
  refine last_changePlan ?_ (fun _ _ => trivial) fun _ h => h
  exact fun _ => rfl

theorem last_setPlanStatus_settled {status : UpdateStatus} (h : status.active = false) :
    (setPlanStatus planId status).Last (OthersKept planId) fun _ s => Settled planId s := by
  refine last_changePlan ?_ (fun s hplan p hp => ?_) fun _ h => h
  · exact fun _ => rfl
  · obtain ⟨q, rfl⟩ := hplan p hp
    exact h

theorem last_requirePlan : (requirePlan planId).Last (OthersKept planId) (ErrorsSettle planId) := by
  refine last_read othersKept_refl fun s => ?_
  cases hplan : s.getPlan planId with
  | none => exact fun p hp => (nomatch hplan.symm.trans hp)
  | some plan => trivial

theorem last_outside {Q : ρ → UpdateOrchestrator → Prop} {answer : ρ} (h : ∀ s, Q answer s) :
    (outside answer).Last (OthersKept planId) Q :=
  last_read othersKept_refl h

theorem last_outside_ok {α β : Type} {Q : Except UpdateError β → UpdateOrchestrator → Prop} {a : α}
    {f : α → UpdateProg (Except UpdateError β)} (h : (f a).Last (OthersKept planId) Q)
    (hgo : (f a).result? = none) : ((outside (.ok a)).orReturn f).Last (OthersKept planId) Q := by
  refine fun s => ⟨othersKept_refl s, fun r hr => ?_, h⟩
  exact nomatch hgo.symm.trans hr

/-! ## Phases -/

variable {outcomes : Outcomes}

theorem last_stageOnNode (i : ℕ) :
    (stageOnNode planId outcomes i).Last (OthersKept planId) fun _ _ => True :=
  last_requirePlan.orReturn (fun _ => last_outside fun _ => trivial)
    (fun _ _ _ _ _ => trivial) fun _ _ _ => trivial

theorem last_stageOnNodes (i : ℕ) (nodes : List ClusterNode) :
    (stageOnNodes planId outcomes i nodes).Last (OthersKept planId) (ErrorsSettle planId) := by
  induction nodes generalizing i with
  | nil => exact last_pure _
  | cons node nodes ih =>
    refine (last_setNodeStatus _ _).orReturn (fun _ => ?_) (fun _ _ _ h => (nomatch h))
      fun _ _ h => h
    refine (last_stageOnNode i).bind (fun r => ?_) fun r _ _ h => ?_
    · cases r with
      | ok _ =>
        refine (last_setNodeStatus _ _).orReturn (fun _ => ih (i + 1)) (fun _ r s h _ => ?_)
          fun _ _ h => h
        -- without further nodes it ends here, with no error
        cases nodes with
        | nil =>
          obtain rfl := Option.some.inj h
          trivial
        | cons => cases h
      | error e =>
        refine (last_setNodeStatus _ _).orReturn (fun _ => ?_) (fun _ _ _ h => (nomatch h))
          fun _ _ h => h
        refine (last_setPlanStatus_settled rfl).orReturn (fun _ => last_pure _)
          (fun _ r s h hsettled => ?_) fun _ _ h => h
        obtain rfl := Option.some.inj h
        exact hsettled
    · cases r <;> cases h

theorem last_markRolledBack (entries : List RollbackEntry) :
    (markRolledBack planId entries).Last (OthersKept planId) fun _ _ => True := by
  induction entries with
  | nil => exact last_pure _
  | cons entry entries ih =>
    refine (last_read (Q := fun _ _ => True) othersKept_refl fun _ => trivial).bind (fun r => ?_)
      fun _ _ _ _ _ => trivial
    cases r with
    | none => exact ih
    | some node =>
      exact (last_setNodeStatus _ _).bind (fun _ => ih) fun _ _ _ _ _ => trivial

theorem last_rollbackUpdatedNodes (entries : List RollbackEntry) :
    (rollbackUpdatedNodes planId entries).Last (OthersKept planId) fun _ _ => True := by
  rw [rollbackUpdatedNodes]
  split_ifs
  · exact last_pure _
  · exact (last_outside (Q := fun _ _ => True) fun _ => trivial).bind
      (fun _ => last_markRolledBack entries) fun _ _ _ _ _ => trivial

theorem last_rollBack (nodeId message : String) (entries : List RollbackEntry) (e : UpdateError) :
    (rollBack planId nodeId message entries e).Last (OthersKept planId)
      fun _ s => Settled planId s := by
  refine (last_setNodeStatus _ _).orReturn (fun _ => ?_) (fun _ r s h _ => ?_) fun _ _ h => h
  · refine (last_rollbackUpdatedNodes entries).bind (fun _ => ?_) fun _ _ _ h => (nomatch h)
    exact (last_setPlanStatus_settled rfl).orReturn (fun _ => last_pure _)
      (fun _ _ _ _ hsettled => hsettled) fun _ _ h => h
  · rw [rollbackUpdatedNodes] at h
    split_ifs at h <;> cases h

theorem last_updateNodes (i : ℕ) (nodes : List ClusterNode) (entries : List RollbackEntry) :
    (updateNodes planId outcomes i nodes entries).Last (OthersKept planId)
      (ErrorsSettle planId) := by
  have hrollBack (nodeId message : String) (entries : List RollbackEntry) (e : UpdateError) :
      (rollBack planId nodeId message entries e).Last (OthersKept planId)
        (ErrorsSettle planId) := by
    refine (last_rollBack nodeId message entries e).imp fun r s hsettled => ?_
    cases r with
    | ok _ => trivial
    | error _ => exact hsettled
  induction nodes generalizing i entries with
  | nil => exact last_pure _
  | cons node nodes ih =>
    refine (last_outside (Q := fun _ _ => True) fun _ => trivial).bind (fun backup => ?_)
      fun backup _ _ h => ?_
    · cases backup with
      | error e => exact hrollBack _ _ _ _
      | ok backupPath =>
        refine (last_setNodeStatus _ _).orReturn (fun _ => ?_) (fun _ _ _ h => (nomatch h))
          fun _ _ h => h
        refine (last_outside (Q := fun _ _ => True) fun _ => trivial).bind (fun _ => ?_)
          fun _ _ _ h => (nomatch h)
        refine (last_setNodeStatus _ _).orReturn (fun _ => ?_) (fun _ _ _ h => (nomatch h))
          fun _ _ h => h
        refine (last_outside (Q := fun _ _ => True) fun _ => trivial).bind (fun applied => ?_)
          fun applied _ _ h => ?_
        · cases applied with
          | error e => exact hrollBack _ _ _ _
          | ok _ =>
            refine (last_setNodeStatus _ _).orReturn (fun _ => ?_) (fun _ _ _ h => (nomatch h))
              fun _ _ h => h
            refine (last_outside (Q := fun _ _ => True) fun _ => trivial).bind
              (fun healthy => ?_) fun healthy _ _ h => ?_
            · rcases healthy with e | _ | _
              · exact hrollBack _ _ _ _
              · exact hrollBack _ _ _ _
              · refine (last_setNodeStatus _ _).orReturn (fun _ => ih _ _) (fun _ r s h _ => ?_)
                  fun _ _ h => h
                -- without further nodes it ends here, with no error
                cases nodes with
                | nil =>
                  obtain rfl := Option.some.inj h
                  trivial
                | cons => cases h
            · rcases healthy with e | _ | _ <;> cases h
        · cases applied <;> cases h
    · cases backup <;> cases h

theorem last_rollOut : (rollOut planId outcomes).Last (OthersKept planId)
    fun _ s => Settled planId s := by
  refine (last_read (Q := fun _ _ => True) othersKept_refl fun _ => trivial).bind
    (fun nodes => ?_) fun nodes _ _ h => ?_
  · refine (last_stageOnNodes 0 nodes).orReturn (fun _ => ?_) (fun _ _ _ h => (nomatch h))
      fun _ _ h => h
    refine (last_setPlanStatus .inProgress).orReturn (fun _ => ?_) (fun _ r s h _ => ?_)
      fun _ _ h => h
    · exact (last_updateNodes 0 (orderedNodes nodes) []).orReturn
        (fun _ => last_setPlanStatus_settled rfl) (fun _ _ _ h => (nomatch h)) fun _ _ h => h
    · cases hnodes : orderedNodes nodes with
      | nil =>
        rw [hnodes] at h
        cases h
      | cons =>
        rw [hnodes] at h
        cases h
  · cases nodes <;> cases h

/-- If the binary can be downloaded, read and staged here, an execution has the last word on its
plan, and settles it. -/
theorem last_executeChecked (h : outcomes.stagesLocally = true) :
    (executeChecked planId outcomes).Last (OthersKept planId) fun _ s => Settled planId s := by
  refine (last_setPlanStatus .staging).orReturn (fun _ => ?_) (fun _ _ _ h => (nomatch h))
    fun _ _ h => h
  refine last_requirePlan.orReturn (fun plan => ?_) (fun _ _ _ h => (nomatch h)) fun _ _ h => h
  rw [Outcomes.stagesLocally] at h
  obtain ⟨downloadBinary, verifySha256, stageBinary, _, _, _, _⟩ := outcomes
  dsimp only at h ⊢
  cases downloadBinary with
  | error e => cases h
  | ok path =>
    refine last_outside_ok ?_ rfl
    cases verifySha256 with
    | error e => cases h
    | ok verified =>
      refine last_outside_ok ?_ (by cases verified <;> rfl)
      cases verified with
      | false =>
        exact (last_setPlanStatus_settled rfl).orReturn (fun _ => last_pure _)
          (fun _ _ _ _ hsettled => hsettled) fun _ _ h => h
      | true =>
        cases stageBinary with
        | error e => cases h
        | ok _ => exact last_outside_ok last_rollOut rfl

end Sections

/-! ## Runs -/

/-- What is left of an execution: all of it, or what settles the plan at its end. -/
def UpdateCall.Orderly (c : UpdateCall) : Prop :=
  (c.steps = 0 ∧ ∃ outcomes : Outcomes, outcomes.stagesLocally = true ∧
    c.prog = executePlan c.planId outcomes) ∨
  (0 < c.steps ∧ c.prog.Last (OthersKept c.planId) fun _ s => Settled c.planId s)

theorem UpdateCall.underway_iff {c : UpdateCall} {s : UpdateOrchestrator} :
    c.underway s = true ↔
      0 < c.steps ∧ c.prog.isDone = false ∧ c.planId ∈ s.plans.map UpdatePlan.id := by
  rw [underway, Bool.and_eq_true, Bool.and_eq_true, decide_eq_true_eq, Bool.not_eq_true',
    UpdateOrchestrator.isSome_getPlan, and_assoc]

theorem UpdateCall.underway_congr {c : UpdateCall} {s s' : UpdateOrchestrator}
    (h : s'.plans.map UpdatePlan.id = s.plans.map UpdatePlan.id) :
    c.underway s' = c.underway s := by
  rw [Bool.eq_iff_iff, underway_iff, underway_iff, h]

/-- The executions underway are all of one plan, and every plan that is in `Staging` or `InProgress`
has one. -/
structure UpdateSession.Covered (w : UpdateSession) : Prop where
  ids : (w.state.plans.map UpdatePlan.id).Nodup
  orderly : ∀ c ∈ w.calls, c.Orderly
  same : ∀ c ∈ w.calls, ∀ d ∈ w.calls, c.underway w.state = true → d.underway w.state = true →
    c.planId = d.planId
  covered : ∀ id p, w.state.getPlan id = some p → p.status.active = true →
    ∃ c ∈ w.calls, c.underway w.state = true ∧ c.planId = id

namespace UpdateSession

open UpdateOrchestrator

variable {w : UpdateSession}

theorem length_le_one_of_keys {α κ : Type} {key : α → κ} {l : List α} (h : (l.map key).Nodup)
    (hsame : ∀ a ∈ l, ∀ b ∈ l, key a = key b) : l.length ≤ 1 := by
  match l with
  | [] => exact Nat.zero_le _
  | [a] => exact le_rfl
  | a :: b :: rest =>
    have hab := hsame a List.mem_cons_self b (List.mem_cons_of_mem _ List.mem_cons_self)
    rw [List.map_cons, List.map_cons, hab] at h
    exact absurd List.mem_cons_self (List.nodup_cons.mp h).1

theorem Covered.oneAtATime (h : w.Covered) : w.OneAtATime := by
  refine ⟨length_le_one_of_keys ((List.filter_sublist.map _).nodup h.ids) ?_, fun hdone => ?_⟩
  · intro p hp q hq
    obtain ⟨hp, hpactive⟩ := List.mem_filter.mp hp
    obtain ⟨hq, hqactive⟩ := List.mem_filter.mp hq
    obtain ⟨c, hc, hcunderway, hcid⟩ := h.covered p.id p (getPlan_of_mem h.ids hp) hpactive
    obtain ⟨d, hd, hdunderway, hdid⟩ := h.covered q.id q (getPlan_of_mem h.ids hq) hqactive
    rw [← hcid, ← hdid]
    exact h.same c hc d hd hcunderway hdunderway
  · have hquiet : ∀ p ∈ w.state.plans, p.status.active = false := by
      intro p hp
      by_contra hactive
      rw [Bool.not_eq_false] at hactive
      obtain ⟨c, hc, hunderway, -⟩ := h.covered p.id p (getPlan_of_mem h.ids hp) hactive
      have hbusy := (UpdateCall.underway_iff.mp hunderway).2.1
      rw [hdone c hc] at hbusy
      cases hbusy
    refine ⟨hquiet, fun planId => ?_⟩
    rw [otherActive, List.any_eq_false]
    intro p hp
    rw [hquiet p hp, Bool.and_false]
    exact Bool.false_ne_true

/-! ## One section -/

section Advance

variable {i : ℕ} {c : UpdateCall} (hc : w.calls[i]? = some c) (prog : UpdateProg UpdateResult)

theorem mem_advance_self (hc : w.calls[i]? = some c) :
    { c with prog, steps := c.steps + 1 } ∈ advance w.calls i c prog := by
  obtain ⟨hi, -⟩ := List.getElem?_eq_some_iff.mp hc
  exact List.mem_iff_getElem?.mpr ⟨i, List.getElem?_set_self hi⟩

theorem mem_advance_of_ne (hc : w.calls[i]? = some c) {d : UpdateCall} (hd : d ∈ w.calls)
    (hne : d ≠ c) : d ∈ advance w.calls i c prog := by
  obtain ⟨j, hj⟩ := List.mem_iff_getElem?.mp hd
  refine List.mem_iff_getElem?.mpr ⟨j, ?_⟩
  have hij : i ≠ j := by
    rintro rfl
    exact hne (Option.some.inj (hj.symm.trans hc))
  rw [advance, List.getElem?_set_ne hij, hj]

end Advance

/-- A section of an execution that is underway behind it only if no other plan is, and that settles
its plan if it is the last. -/
theorem Covered.advance (h : w.Covered) {i : ℕ} {c : UpdateCall} (hc : w.calls[i]? = some c)
    {s : UpdateOrchestrator} {prog : UpdateProg UpdateResult}
    (hkept : OthersKept c.planId w.state s)
    (horderly : ({ c with prog, steps := c.steps + 1 } : UpdateCall).Orderly)
    (hsame : prog.isDone = false → c.planId ∈ s.plans.map UpdatePlan.id →
      ∀ d ∈ w.calls, d.underway w.state = true → d.planId = c.planId)
    (hsettled : prog.isDone = true → Settled c.planId s ∨
      c.underway w.state = false ∧ s.getPlan c.planId = w.state.getPlan c.planId) :
    Covered { state := s, calls := UpdateSession.advance w.calls i c prog } := by
  have hmem : ∀ d ∈ UpdateSession.advance w.calls i c prog,
      d ∈ w.calls ∨ d = { c with prog, steps := c.steps + 1 } :=
    fun d hd => List.mem_or_eq_of_mem_set hd
  -- whatever is underway behind the section is of the plan of any that was underway before it
  have hunder : ∀ d ∈ UpdateSession.advance w.calls i c prog, d.underway s = true →
      (d ∈ w.calls ∧ d.underway w.state = true) ∨
      ((∀ e ∈ w.calls, e.underway w.state = true → e.planId = c.planId) ∧
        d.planId = c.planId) := by
    intro d hd hunderway
    rcases hmem d hd with hold | rfl
    · rw [UpdateCall.underway_congr hkept.1] at hunderway
      exact Or.inl ⟨hold, hunderway⟩
    · obtain ⟨-, hgoes, hplan⟩ := UpdateCall.underway_iff.mp hunderway
      exact Or.inr ⟨hsame hgoes hplan, rfl⟩
  refine ⟨?_, fun d hd => ?_, fun d hd e he hdunder heunder => ?_, fun id p hp hactive => ?_⟩
  · rw [hkept.1]
    exact h.ids
  · rcases hmem d hd with hold | rfl
    · exact h.orderly d hold
    · exact horderly
  · rcases hunder d hd hdunder with ⟨hdold, hdunder⟩ | ⟨hall, hdid⟩
    · rcases hunder e he heunder with ⟨heold, heunder⟩ | ⟨hall, heid⟩
      · exact h.same d hdold e heold hdunder heunder
      · rw [heid]
        exact hall d hdold hdunder
    · rcases hunder e he heunder with ⟨heold, heunder⟩ | ⟨-, heid⟩
      · rw [hdid]
        exact (hall e heold heunder).symm
      · rw [hdid, heid]
  · dsimp only at hp ⊢
    -- an execution that covers the plan, and is not the one that has run a section
    have hother : ∀ d ∈ w.calls, d ≠ c → d.underway w.state = true → d.planId = id →
        ∃ d ∈ UpdateSession.advance w.calls i c prog, d.underway s = true ∧ d.planId = id := by
      intro d hd hne hunderway hdid
      refine ⟨d, mem_advance_of_ne prog hc hd hne, ?_, hdid⟩
      rw [UpdateCall.underway_congr hkept.1]
      exact hunderway
    by_cases hid : id = c.planId
    · cases hdone : prog.isDone with
      | false =>
        refine ⟨_, mem_advance_self prog hc, UpdateCall.underway_iff.mpr
          ⟨Nat.succ_pos _, hdone, ?_⟩, hid.symm⟩
        rw [← isSome_getPlan, ← hid, hp]
        rfl
      | true =>
        rcases hsettled hdone with hsettled | ⟨hidle, hstate⟩
        · rw [hsettled p (hid ▸ hp)] at hactive
          cases hactive
        · rw [hid, hstate, ← hid] at hp
          obtain ⟨d, hd, hunderway, hdid⟩ := h.covered id p hp hactive
          refine hother d hd ?_ hunderway hdid
          rintro rfl
          rw [hidle] at hunderway
          cases hunderway
    · rw [hkept.2 id hid] at hp
      obtain ⟨d, hd, hunderway, hdid⟩ := h.covered id p hp hactive
      refine hother d hd ?_ hunderway hdid
      rintro rfl
      exact hid hdid.symm

theorem Covered.resume (h : w.Covered) {i : ℕ} {w' : UpdateSession}
    (hunraced : w.Unraced (.resume i)) (hstep : w.step (.resume i) = some w') : w'.Covered := by
  rw [step] at hstep
  obtain ⟨c, hc, hnext⟩ := Option.bind_eq_some_iff.mp hstep
  cases hprog : c.prog with
  | done r =>
    rw [hprog] at hnext
    cases hnext
  | atom next rest =>
    rw [hprog] at hnext
    obtain rfl := Option.some.inj hnext
    rcases h.orderly c (List.mem_of_getElem? hc) with ⟨hfirst, outcomes, houtcomes, hall⟩ |
      ⟨hstarted, hlast⟩
    · -- the check
      rw [hprog] at hall
      obtain ⟨rfl, rfl⟩ := Prog.atom.inj hall
      have hother (hgoes : (if w.state.otherActive c.planId = true then
          pure (.error .updateInProgress) else executeChecked c.planId outcomes :
            UpdateProg UpdateResult).isDone = false) : w.state.otherActive c.planId = false := by
        by_contra hactive
        rw [Bool.not_eq_false] at hactive
        rw [if_pos hactive] at hgoes
        cases hgoes
      refine h.advance hc (othersKept_refl _) (Or.inr ⟨Nat.succ_pos _, ?_⟩)
        (fun hgoes _ d hd hunderway => hunraced c hc hfirst (hother hgoes) d hd hunderway)
        fun _ => Or.inr ⟨?_, rfl⟩
      · change (if w.state.otherActive c.planId = true then
          pure (.error .updateInProgress) else executeChecked c.planId outcomes :
            UpdateProg UpdateResult).Last (OthersKept c.planId) fun _ s => Settled c.planId s
        split_ifs
        · exact Prog.last_pure _
        · exact last_executeChecked houtcomes
      · rw [UpdateCall.underway, hfirst]
        rfl
    · obtain ⟨hkept, hend, hrest⟩ := hlast.of_atom hprog w.state
      refine h.advance hc hkept (Or.inr ⟨Nat.succ_pos _, hrest⟩)
        (fun _ hplan d hd hunderway => ?_) fun hdone => ?_
      · rw [hkept.1] at hplan
        have hbusy : c.underway w.state = true :=
          UpdateCall.underway_iff.mpr ⟨hstarted, by rw [hprog]; rfl, hplan⟩
        exact h.same d hd c (List.mem_of_getElem? hc) hunderway hbusy
      · cases hr : rest w.state with
        | done r => exact Or.inl (hend r (by rw [hr]; rfl))
        | atom =>
          rw [hr] at hdone
          cases hdone

theorem mem_of_started {planId : String} {prog : UpdateProg UpdateResult}
    {s : UpdateOrchestrator} {c : UpdateCall} (hc : c ∈ w.calls ++ [⟨planId, prog, 0⟩])
    (hunderway : c.underway s = true) : c ∈ w.calls := by
  rcases List.mem_append.mp hc with hold | hnew
  · exact hold
  · obtain rfl := List.mem_singleton.mp hnew
    exact absurd (UpdateCall.underway_iff.mp hunderway).1 (Nat.lt_irrefl 0)

/-- A new plan is not being executed, and no execution has asked for it. -/
theorem Covered.createPlan (h : w.Covered) {id : String} (hnone : (w.state.getPlan id).isNone)
    (hunused : ∀ c ∈ w.calls, c.planId ≠ id) (version binaryUrl sha256 : String) :
    Covered { w with state := w.state.createPlan id version binaryUrl sha256 } := by
  have hids : (w.state.createPlan id version binaryUrl sha256).plans.map UpdatePlan.id =
      w.state.plans.map UpdatePlan.id ++ [id] := List.map_append
  have hnew : id ∉ w.state.plans.map UpdatePlan.id := by
    rw [← isSome_getPlan, Option.isNone_iff_eq_none.mp hnone]
    exact Bool.false_ne_true
  have hunder : ∀ c ∈ w.calls, c.underway (w.state.createPlan id version binaryUrl sha256) =
      c.underway w.state := by
    intro c hc
    rw [Bool.eq_iff_iff, UpdateCall.underway_iff, UpdateCall.underway_iff, hids, List.mem_append,
      List.mem_singleton, or_iff_left (hunused c hc)]
  refine ⟨?_, h.orderly, fun c hc d hd hcunder hdunder => ?_, fun id' p hp hactive => ?_⟩
  · dsimp only
    rw [hids]
    exact List.nodup_append.mpr ⟨h.ids, List.nodup_singleton _, fun a ha b hb => by
      rw [List.mem_singleton.mp hb]
      exact fun hab => hnew (hab ▸ ha)⟩
  · dsimp only at hcunder hdunder
    rw [hunder c hc] at hcunder
    rw [hunder d hd] at hdunder
    exact h.same c hc d hd hcunder hdunder
  · obtain ⟨hmem, hid⟩ := mem_of_getPlan hp
    rcases List.mem_append.mp hmem with hold | hlast
    · obtain ⟨c, hc, hcunder, hcid⟩ :=
        h.covered id' p (hid ▸ getPlan_of_mem h.ids hold) hactive
      refine ⟨c, hc, ?_, hcid⟩
      dsimp only
      rw [hunder c hc]
      exact hcunder
    · rw [List.mem_singleton.mp hlast] at hactive
      cases hactive

/-- What is asked of the orchestrator apart from executions changes no plan that there is. -/
theorem Covered.step (h : w.Covered) {e : UpdateEvent} {w' : UpdateSession}
    (hunraced : w.Unraced e) (hstep : w.step e = some w') : w'.Covered := by
  cases e with
  | setClusterNodes nodes =>
    obtain rfl := Option.some.inj hstep
    exact ⟨h.ids, h.orderly, h.same, h.covered⟩
  | addNode node =>
    obtain rfl := Option.some.inj hstep
    exact ⟨h.ids, h.orderly, h.same, h.covered⟩
  | createPlan id version binaryUrl sha256 =>
    rw [UpdateSession.step] at hstep
    split_ifs at hstep with hfresh
    obtain rfl := Option.some.inj hstep
    obtain ⟨hnone, hunused⟩ := hfresh
    exact h.createPlan hnone hunused version binaryUrl sha256
  | executePlan planId outcomes =>
    obtain rfl := Option.some.inj hstep
    refine ⟨h.ids, fun c hc => ?_, fun c hc d hd => ?_, fun id p hp hactive => ?_⟩
    · rcases List.mem_append.mp hc with hold | hnew
      · exact h.orderly c hold
      · obtain rfl := List.mem_singleton.mp hnew
        exact Or.inl ⟨rfl, outcomes, hunraced, rfl⟩
    · intro hcunder hdunder
      exact h.same c (mem_of_started hc hcunder) d (mem_of_started hd hdunder) hcunder hdunder
    · obtain ⟨c, hc, hcovers⟩ := h.covered id p hp hactive
      exact ⟨c, List.mem_append_left _ hc, hcovers⟩
  | resume i => exact h.resume hunraced hstep

/-! ## The result -/

/-- In every run in which each execution can download, read and stage the binary, and none gets
through its check while that of another plan is between its check and its end, at most one plan is
in `Staging` or `InProgress`, and none while nothing is executed. -/
theorem oneAtATime_of_reach {w : UpdateSession} (h : system.Reach Unraced w) : w.OneAtATime := by
  refine (System.Reach.invariant (P := Covered) ?_ (fun s e s' _ ih hΦ hs => ih.step hΦ hs)
    h).oneAtATime
  exact ⟨List.nodup_nil, fun _ h => (nomatch h), fun _ h => (nomatch h), fun _ _ h => (nomatch h)⟩

/-- Answers of the outside to an execution of which everything succeeds but maybe the download and
the health check. -/
def answers (download healthy : Bool) : Outcomes where
  downloadBinary :=
    if download then .ok "aegis-server" else .error (.downloadFailed "HTTP request failed")
  verifySha256 := .ok true
  stageBinary := .ok ()
  stageOnNode _ := .ok ()
  backupCurrentBinary _ := .ok "aegis-server.backup"
  applyOnNode _ := .ok ()
  waitForHealthy _ := .ok healthy

def twoPlans : List UpdateEvent :=
  [.addNode { nodeId := "n", name := "Node", address := "http://n", role := "leader" },
    .createPlan "a" "1" "http://a" "00", .createPlan "b" "2" "http://b" "01"]

/-- An execution that is rolled back while that of another plan is refused, and then the other. -/
def inTurn : List UpdateEvent :=
  twoPlans ++ [.executePlan "a" (answers true false), .resume 0, .resume 0,
    .executePlan "b" (answers true true), .resume 1] ++ List.replicate 22 (.resume 0) ++
    [.executePlan "b" (answers true true), .resume 2, .resume 2]

/-- The first execution rolls its plan back, and the other plan is executed. -/
theorem oneAtATime_of_reach_inTurn : ∃ w, system.run Unraced inTurn = some w ∧
    w.state.plans.map UpdatePlan.status = [.rolledBack, .staging] ∧ w.OneAtATime := by
  have hrun : ((system.run Unraced inTurn).any fun w => decide
      (w.state.plans.map UpdatePlan.status = [.rolledBack, .staging])) = true := by
    decide +kernel
  obtain ⟨w, hw, hreach, hstatus⟩ := System.exists_reach_of_any hrun
  exact ⟨w, hw, of_decide_eq_true hstatus, oneAtATime_of_reach hreach⟩

/-- Two executions that both get through their checks before they put their plans into `Staging`. -/
def sideBySide : List UpdateEvent :=
  twoPlans ++ [.executePlan "a" (answers true true), .executePlan "b" (answers true true),
    .resume 0, .resume 1, .resume 0, .resume 1]

/-- An execution whose download fails, and one of another plan that is refused. -/
def noDownload : List UpdateEvent :=
  twoPlans ++ [.executePlan "a" (answers false true), .resume 0, .resume 0, .resume 0, .resume 0,
    .executePlan "b" (answers true true), .resume 1]

/-- Two plans are in `Staging`; and when a download has failed, a plan is although nothing is
executed. -/
theorem not_oneAtATime :
    (∃ w, system.Reachable w ∧ (w.state.plans.filter fun p => p.status.active).length = 2) ∧
      ∃ w, system.Reachable w ∧ (∀ c ∈ w.calls, c.prog.isDone = true) ∧
        w.state.otherActive "b" = true := by
  constructor
  · have hrun : ((system.run (fun _ _ => True) sideBySide).any fun w =>
        decide ((w.state.plans.filter fun p => p.status.active).length = 2)) = true := by
      decide +kernel
    obtain ⟨w, -, hreach, htwo⟩ := System.exists_reach_of_any hrun
    exact ⟨w, hreach, of_decide_eq_true htwo⟩
  · have hrun : ((system.run (fun _ _ => True) noDownload).any fun w =>
        decide ((∀ c ∈ w.calls, c.prog.isDone = true) ∧ w.state.otherActive "b" = true)) =
        true := by
      decide +kernel
    obtain ⟨w, -, hreach, hstuck⟩ := System.exists_reach_of_any hrun
    exact ⟨w, hreach, of_decide_eq_true hstuck⟩

end UpdateSession

end AegisDB.Updates
