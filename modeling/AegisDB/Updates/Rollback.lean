import AegisDB.Updates.Exclusion

/-!
# Rolling back

What an execution of a plan does to the nodes and their binaries: when the binary is backed up, to
which nodes it sends the signal to apply the new one, which are healthy with it, and which are rolled
back, in that order.  The programs are those of the orchestrator, with what they have done beside
their results.  While plans are not removed, an execution does what `updateTrace` says.

Every backup is one of the orchestrator's own binary, and every rollback copies a backup over it, for
which node ever.  So a node with a binary of its own keeps the new one, and of the nodes that run
that of the orchestrator only the first has a backup of what it ran before
(`FleetSession.rolledBack_iff`).  A leader gets the signal only when all followers are healthy.
-/

namespace AegisDB.Updates

/-- What becomes of a request to a node. -/
inductive Response where
  | noClient (message : String)
  | status (success : Bool)
  | failed (message : String)
deriving DecidableEq

/-- What the outside answers during the rollback of a node. -/
structure RollbackOutcomes where
  backupExists : Bool
  copy : Except String Unit
  setPermissions : Except String Unit
  restart : Response
  waitForHealthy : Except UpdateError Bool
deriving DecidableEq

/-- What the outside answers during an execution: for the nodes by their places in the order in which
they are tried. -/
structure FleetOutcomes where
  downloadBinary : Except UpdateError String
  verifySha256 : Except UpdateError Bool
  stageBinary : Except UpdateError Unit
  stageOnNode : ℕ → Except UpdateError Unit
  backupCurrentBinary : ℕ → Except UpdateError String
  applyUpdate : ℕ → Response
  waitForHealthy : ℕ → Except UpdateError Bool
  /-- The rollback of a node, by its place among those that are rolled back. -/
  rollback : ℕ → RollbackOutcomes

/-- What an execution does to the nodes. -/
inductive NodeEvent where
  /-- The update of the nodes that were read begins. -/
  | begun (nodes : List ClusterNode)
  /-- The binary of the orchestrator is copied to a path. -/
  | backedUp (path : String)
  /-- The signal to apply the binary is sent to a node. -/
  | applied (node : ClusterNode)
  | verified (node : ClusterNode)
  /-- A rollback, whether it has copied the backup over the binary of the orchestrator, and what it
  returns. -/
  | rolledBack (entry : RollbackEntry) (restored : Bool) (result : UpdateResult)
deriving DecidableEq

/-- What an execution returns, and what it has done to the nodes. -/
abbrev Traced := UpdateResult × List NodeEvent

/-! ## Requests to a node -/

/-- Signal a node to apply the staged binary and exit: once the request is sent, there is no
error. -/
def applyOnNode : Response → UpdateResult
  | .noClient message => .error (.nodeUnreachable ("Client error: " ++ message))
  | .status _ | .failed _ => .ok ()

/-- Whether a request was sent. -/
def Response.isSent : Response → Bool
  | .noClient _ => false
  | .status _ | .failed _ => true

/-- What a node is told by the request to apply the binary. -/
def signalled (node : ClusterNode) (response : Response) : List NodeEvent :=
  if response.isSent then [.applied node] else []

/-- Whether the backup is copied to the target path. -/
def RollbackOutcomes.restores (outcomes : RollbackOutcomes) : Bool :=
  outcomes.backupExists && outcomes.copy = .ok ()

/-- Restore a backed-up binary to the target path. -/
def restoreBackup (backupPath target : String) (outcomes : RollbackOutcomes) : UpdateResult :=
  if outcomes.backupExists then
    match outcomes.copy with
    | .error e =>
      .error (.rollbackFailed
        ("Failed to restore " ++ backupPath ++ " -> " ++ target ++ ": " ++ e))
    | .ok _ =>
      match outcomes.setPermissions with
      | .error e => .error (.rollbackFailed ("Failed to set permissions: " ++ e))
      | .ok _ => .ok ()
  else .error (.rollbackFailed ("Backup file not found: " ++ backupPath))

/-- Roll back a single node by restoring its backup binary and waiting for it to recover. -/
def rollbackNode (nodeAddress backupPath targetBinary : String) (outcomes : RollbackOutcomes) :
    UpdateResult := do
  restoreBackup backupPath targetBinary outcomes
  match outcomes.restart with
  | .noClient message =>
    .error (.rollbackFailed ("Failed to build HTTP client: " ++ message))
  | .status _ | .failed _ =>
    -- without an answer the node may be down already
    match outcomes.waitForHealthy with
    | .ok true => .ok ()
    | .ok false =>
      .error (.rollbackFailed ("Node " ++ nodeAddress ++ " did not recover after rollback"))
    | .error e =>
      .error (.rollbackFailed
        ("Health check failed during rollback of " ++ nodeAddress ++ ": " ++ e.toText))

/-- Roll back multiple nodes, each independently of the others. -/
def rollbackNodes (targetBinary : String) (outcomes : ℕ → RollbackOutcomes) :
    ℕ → List RollbackEntry → List NodeEvent
  | _, [] => []
  | j, entry :: entries =>
    .rolledBack entry (outcomes j).restores
        (rollbackNode entry.nodeAddress entry.backupPath targetBinary (outcomes j)) ::
      rollbackNodes targetBinary outcomes (j + 1) entries

/-- What the execution sees of the answers. -/
def FleetOutcomes.toOutcomes (outcomes : FleetOutcomes) : Outcomes where
  downloadBinary := outcomes.downloadBinary
  verifySha256 := outcomes.verifySha256
  stageBinary := outcomes.stageBinary
  stageOnNode := outcomes.stageOnNode
  backupCurrentBinary := outcomes.backupCurrentBinary
  applyOnNode i := applyOnNode (outcomes.applyUpdate i)
  waitForHealthy := outcomes.waitForHealthy

/-! ## The execution of a plan -/

namespace Fleet

/-- Go on with the result of a program, unless it is an error, with what was done so far. -/
def orReturn {α : Type} (events : List NodeEvent) (f : α → UpdateProg Traced)
    (p : UpdateProg (Except UpdateError α)) : UpdateProg Traced :=
  p >>= fun result =>
    match result with
    | .ok a => f a
    | .error e => pure (.error e, events)

section Execution

variable (planId currentBinaryPath : String) (outcomes : FleetOutcomes)

/-- Roll back a list of already-updated nodes; what goes wrong is only noted. -/
def rollbackUpdatedNodes (entries : List RollbackEntry) : UpdateProg (List NodeEvent) :=
  if entries = [] then pure []
  else do
    let events ← outside (rollbackNodes currentBinaryPath outcomes.rollback 0 entries)
    markRolledBack planId entries
    pure events

/-- What follows when a node cannot be updated. -/
def rollBack (nodeId message : String) (entries : List RollbackEntry) (e : UpdateError)
    (events : List NodeEvent) : UpdateProg Traced :=
  orReturn events (p := setNodeStatus planId nodeId (.failed message)) fun _ => do
    let rolledBack ← rollbackUpdatedNodes planId currentBinaryPath outcomes entries
    orReturn (events ++ rolledBack) (p := setPlanStatus planId .rolledBack) fun _ =>
      pure (.error e, events ++ rolledBack)

/-- Phase 3: update the nodes one after the other. -/
def updateNodes : ℕ → List ClusterNode → List RollbackEntry → List NodeEvent → UpdateProg Traced
  | _, [], _, events => pure (.ok (), events)
  | i, node :: nodes, entries, events => do
    match ← outside (outcomes.backupCurrentBinary i) with
    | .error e =>
      rollBack planId currentBinaryPath outcomes node.nodeId e.toText entries e events
    | .ok backupPath =>
      let events := events ++ [.backedUp backupPath]
      orReturn events (p := setNodeStatus planId node.nodeId .draining) fun _ => do
        outside ()
        orReturn events (p := setNodeStatus planId node.nodeId .updating) fun _ => do
          let response ← outside (outcomes.applyUpdate i)
          let events := events ++ signalled node response
          match applyOnNode response with
          | .error e =>
            rollBack planId currentBinaryPath outcomes node.nodeId e.toText entries e events
          | .ok _ =>
            orReturn events (p := setNodeStatus planId node.nodeId .restarting) fun _ => do
              match ← outside (outcomes.waitForHealthy i) with
              | .ok true =>
                let events := events ++ [.verified node]
                orReturn events (p := setNodeStatus planId node.nodeId .verified) fun _ =>
                  updateNodes (i + 1) nodes (entries ++ [⟨node.address, backupPath⟩]) events
              | _ =>
                rollBack planId currentBinaryPath outcomes node.nodeId
                  "Health check failed after restart" (entries ++ [⟨node.address, backupPath⟩])
                  (.healthCheckFailed
                    ("Node " ++ node.name ++ " failed health check after update")) events

/-- Phases 2 to 4, once the binary is staged here. -/
def rollOut : UpdateProg Traced := do
  let nodes ← Prog.read UpdateOrchestrator.clusterNodes
  orReturn [] (p := stageOnNodes planId outcomes.toOutcomes 0 nodes) fun _ =>
    orReturn [] (p := setPlanStatus planId .inProgress) fun _ => do
      match ← updateNodes planId currentBinaryPath outcomes 0 (orderedNodes nodes) []
          [.begun nodes] with
      | (.ok _, events) =>
        orReturn events (p := setPlanStatus planId .completed) fun _ => pure (.ok (), events)
      | (.error e, events) => pure (.error e, events)

/-- What follows once the plan is in the status `Staging`. -/
def executeStaging : UpdateProg Traced :=
  orReturn [] (p := requirePlan planId) fun plan =>
    orReturn [] (p := outside outcomes.downloadBinary) fun _ =>
      orReturn [] (p := outside outcomes.verifySha256) fun verified =>
        if verified then
          orReturn [] (p := outside outcomes.stageBinary) fun _ =>
            rollOut planId currentBinaryPath outcomes
        else
          orReturn [] (p := setPlanStatus planId .failed) fun _ =>
            pure (.error (.checksumMismatch plan.sha256 "computed-hash-differs"), [])

/-- What follows once no other plan was being executed. -/
def executeChecked : UpdateProg Traced :=
  orReturn [] (p := setPlanStatus planId .staging) fun _ =>
    executeStaging planId currentBinaryPath outcomes

/-- Execute an update plan using rolling deployment. -/
def executePlan : UpdateProg Traced := do
  if ← Prog.read fun s => s.otherActive planId then pure (.error .updateInProgress, [])
  else executeChecked planId currentBinaryPath outcomes

end Execution

end Fleet

/-! ## Binaries -/

abbrev Binary := List UInt8

/-- The binaries: that of the orchestrator, those of nodes that have one of their own, by their
addresses, and the backups, by their paths. -/
structure Binaries where
  own : Binary
  nodes : String → Binary
  backups : String → Binary

namespace Binaries

variable (shares : String → Bool) (new : Binary) (b : Binaries)

/-- The binary of a node, which may be the file of the orchestrator. -/
def binary (address : String) : Binary :=
  if shares address then b.own else b.nodes address

/-- What becomes of the binaries. -/
def after : NodeEvent → Binaries
  | .begun _ | .verified _ => b
  | .backedUp path => { b with backups := Function.update b.backups path b.own }
  | .applied node =>
    if shares node.address then { b with own := new }
    else { b with nodes := Function.update b.nodes node.address new }
  | .rolledBack entry restored _ =>
    if restored then { b with own := b.backups entry.backupPath } else b

def afterAll (events : List NodeEvent) : Binaries :=
  events.foldl (after shares new) b

end Binaries

/-- A rollback that does all it has to. -/
structure RollbackOutcomes.Succeeds (outcomes : RollbackOutcomes) : Prop where
  backupExists : outcomes.backupExists = true
  copy : outcomes.copy = .ok ()
  setPermissions : outcomes.setPermissions = .ok ()
  restart : outcomes.restart.isSent = true
  waitForHealthy : outcomes.waitForHealthy = .ok true

theorem RollbackOutcomes.Succeeds.restores {outcomes : RollbackOutcomes} (h : outcomes.Succeeds) :
    outcomes.restores = true := by
  simp [RollbackOutcomes.restores, h.backupExists, h.copy]

theorem rollbackNode_eq_ok_iff {address backupPath target : String} {outcomes : RollbackOutcomes} :
    rollbackNode address backupPath target outcomes = .ok () ↔ outcomes.Succeeds := by
  obtain ⟨backupExists, copy, setPermissions, restart, waitForHealthy⟩ := outcomes
  constructor
  · intro h
    cases backupExists with
    | false => cases h
    | true =>
      rcases copy with _ | ⟨⟩
      · cases h
      rcases setPermissions with _ | ⟨⟩
      · cases h
      cases restart with
      | noClient message => cases h
      | _ =>
        rcases waitForHealthy with _ | _ | _
        · cases h
        · cases h
        · exact ⟨rfl, rfl, rfl, rfl, rfl⟩
  · rintro ⟨rfl, rfl, rfl, hrestart, rfl⟩
    cases restart with
    | noClient message => cases hrestart
    | _ => rfl

/-! ## Sessions -/

/-- An execution that was asked for, what is left of it, and how many of its sections have run. -/
structure FleetCall where
  planId : String
  outcomes : FleetOutcomes
  prog : UpdateProg Traced
  steps : ℕ := 0

/-- The orchestrator and the executions that were asked for. -/
structure FleetSession where
  state : UpdateOrchestrator := {}
  calls : List FleetCall := []

/-- What is asked of the orchestrator, or the next section of an execution. -/
inductive FleetEvent where
  | setClusterNodes (nodes : List ClusterNode)
  | addNode (node : ClusterNode)
  | createPlan (id version binaryUrl sha256 : String)
  | executePlan (planId : String) (outcomes : FleetOutcomes)
  | resume (i : ℕ)

namespace FleetSession

/-- The calls when one of them has run its next section. -/
def advance (calls : List FleetCall) (i : ℕ) (c : FleetCall) (prog : UpdateProg Traced) :
    List FleetCall :=
  calls.set i { c with prog, steps := c.steps + 1 }

def step (currentBinaryPath : String) (w : FleetSession) : FleetEvent → Option FleetSession
  | .setClusterNodes nodes => some { w with state := w.state.setClusterNodes nodes }
  | .addNode node => some { w with state := w.state.addNode node }
  | .createPlan id version binaryUrl sha256 =>
    if (w.state.getPlan id).isNone ∧ ∀ c ∈ w.calls, c.planId ≠ id then
      some { w with state := w.state.createPlan id version binaryUrl sha256 }
    else none
  | .executePlan planId outcomes =>
    some { w with calls :=
      w.calls ++ [{ planId, outcomes, prog := Fleet.executePlan planId currentBinaryPath outcomes }] }
  | .resume i => w.calls[i]?.bind fun c =>
      match c.prog with
      | .done _ => none
      | .atom next rest =>
        some { state := next w.state, calls := advance w.calls i c (rest w.state) }

def system (currentBinaryPath : String) : System FleetSession FleetEvent where
  init := {}
  step := step currentBinaryPath

/-- Every node to which the signal to apply the binary was sent has its rollback tried afterwards. -/
def RollbackTried (events : List NodeEvent) : Prop :=
  ∀ before node after, events = before ++ .applied node :: after →
    ∃ backupPath restored result, .rolledBack ⟨node.address, backupPath⟩ restored result ∈ after

/-- The nodes were read, this is one of them, and the followers among them are healthy with the new
binary. -/
def Led (before : List NodeEvent) (leader : ClusterNode) : Prop :=
  ∃ nodes rest, before = .begun nodes :: rest ∧ leader ∈ nodes ∧
    ∀ follower ∈ nodes, follower.isLeader = false → .verified follower ∈ rest

/-- No leader gets the signal to apply the binary before all followers are healthy with it. -/
def LeadersLast (events : List NodeEvent) : Prop :=
  ∀ before leader after, events = before ++ .applied leader :: after → leader.isLeader = true →
    Led before leader

/-- Every rollback has succeeded, and each node to which the signal to apply the binary was sent has
the binary that it had before. -/
structure Restored (shares : String → Bool) (events : List NodeEvent) : Prop where
  succeeded : ∀ entry restored result, .rolledBack entry restored result ∈ events → result = .ok ()
  binary : ∀ node, .applied node ∈ events → ∀ (b : Binaries) (new : Binary),
    (b.afterAll shares new events).binary shares node.address = b.binary shares node.address

/-- Every node to which the signal to apply the binary was sent has been rolled back. -/
structure RolledBack (shares : String → Bool) (events : List NodeEvent) : Prop
    extends Restored shares events where
  tried : RollbackTried events

/-- Nothing is sent to the first of the nodes; or this node runs the binary of the orchestrator, its
rollback succeeds, and if it is healthy with the new one, nothing is sent to the second either, and
no second backup takes the place of the first. -/
def Restorable (shares : String → Bool) (outcomes : FleetOutcomes) (nodes : List ClusterNode) :
    Prop :=
  (∀ path, outcomes.backupCurrentBinary 0 = .ok path → (outcomes.applyUpdate 0).isSent = false) ∨
    (∀ node ∈ nodes.head?, shares node.address = true) ∧ (outcomes.rollback 0).Succeeds ∧
      (outcomes.waitForHealthy 0 = .ok true → ∀ path, outcomes.backupCurrentBinary 1 = .ok path →
        outcomes.backupCurrentBinary 0 ≠ .ok path ∧ (outcomes.applyUpdate 1).isSent = false)

/-! ## Events -/

/-- Every node to which the signal was sent has an entry. -/
def Covered (entries : List RollbackEntry) (events : List NodeEvent) : Prop :=
  ∀ node, .applied node ∈ events → ∃ entry ∈ entries, entry.nodeAddress = node.address

/-- What is known while the nodes are updated: those that are done are healthy. -/
structure Underway (nodes done : List ClusterNode) (events : List NodeEvent) : Prop where
  leadersLast : LeadersLast events
  read : ∃ rest, events = .begun nodes :: rest ∧ ∀ node ∈ done, .verified node ∈ rest

section Events

variable {nodes done : List ClusterNode} {entries : List RollbackEntry}
  {events more : List NodeEvent}

theorem append_eq_applied {before after : List NodeEvent} {node : ClusterNode}
    (h : events ++ more = before ++ .applied node :: after) :
    (∃ rest, events = before ++ .applied node :: rest ∧ after = rest ++ more) ∨
      ∃ rest, before = events ++ rest ∧ more = rest ++ .applied node :: after := by
  rcases List.append_eq_append_iff.mp h with ⟨rest, hbefore, hmore⟩ | ⟨rest, hevents, hrest⟩
  · exact Or.inr ⟨rest, hbefore, hmore⟩
  · cases rest with
    | nil =>
      rw [List.append_nil] at hevents
      exact Or.inr ⟨[], by rw [hevents, List.append_nil], hrest.symm⟩
    | cons e rest =>
      obtain ⟨rfl, rfl⟩ := List.cons.inj hrest
      exact Or.inl ⟨rest, hevents, rfl⟩

theorem LeadersLast.append (h : LeadersLast events)
    (hmore : ∀ before leader after, more = before ++ .applied leader :: after →
      leader.isLeader = true → Led (events ++ before) leader) : LeadersLast (events ++ more) := by
  intro before leader after heq hleader
  rcases append_eq_applied heq with ⟨rest, hevents, -⟩ | ⟨rest, rfl, hrest⟩
  · exact h before leader rest hevents hleader
  · exact hmore rest leader after hrest hleader

theorem LeadersLast.append_quiet (h : LeadersLast events) (hmore : ∀ node, .applied node ∉ more) :
    LeadersLast (events ++ more) :=
  h.append fun _ leader _ heq _ => absurd (heq ▸ List.mem_append_right _ List.mem_cons_self)
    (hmore leader)

theorem leadersLast_of_quiet (h : ∀ node, .applied node ∉ events) : LeadersLast events :=
  fun _ leader _ heq _ => absurd (heq ▸ List.mem_append_right _ List.mem_cons_self) (h leader)

theorem Underway.append_quiet (h : Underway nodes done events)
    (hmore : ∀ node, .applied node ∉ more) : Underway nodes done (events ++ more) := by
  obtain ⟨rest, hread, hverified⟩ := h.read
  refine ⟨h.leadersLast.append_quiet hmore, rest ++ more, by rw [hread]; rfl, fun node hnode => ?_⟩
  exact List.mem_append_left _ (hverified node hnode)

/-! ### Rolling back -/

theorem applied_notMem_rollbackNodes (targetBinary : String) (outcomes : ℕ → RollbackOutcomes)
    (j : ℕ) (entries : List RollbackEntry) (node : ClusterNode) :
    .applied node ∉ rollbackNodes targetBinary outcomes j entries := by
  induction entries generalizing j with
  | nil => exact List.not_mem_nil
  | cons entry entries ih =>
    rw [rollbackNodes, List.mem_cons, not_or]
    exact ⟨NodeEvent.noConfusion, ih (j + 1)⟩

theorem exists_mem_rollbackNodes (targetBinary : String) (outcomes : ℕ → RollbackOutcomes) (j : ℕ)
    {entry : RollbackEntry} (h : entry ∈ entries) : ∃ restored result,
      .rolledBack entry restored result ∈ rollbackNodes targetBinary outcomes j entries := by
  induction entries generalizing j with
  | nil => cases h
  | cons first entries ih =>
    rw [rollbackNodes]
    rcases List.mem_cons.mp h with rfl | hrest
    · exact ⟨_, _, List.mem_cons_self⟩
    · obtain ⟨restored, result, hresult⟩ := ih (j + 1) hrest
      exact ⟨restored, result, List.mem_cons_of_mem _ hresult⟩

theorem tried_rollbackNodes (targetBinary : String) (outcomes : ℕ → RollbackOutcomes)
    (hcovered : Covered entries events) :
    RollbackTried (events ++ rollbackNodes targetBinary outcomes 0 entries) := by
  intro before node after heq
  rcases append_eq_applied heq with ⟨rest, hevents, rfl⟩ | ⟨rest, -, hrest⟩
  · obtain ⟨entry, hentry, haddress⟩ :=
      hcovered node (hevents ▸ List.mem_append_right _ List.mem_cons_self)
    obtain ⟨restored, result, hresult⟩ := exists_mem_rollbackNodes targetBinary outcomes 0 hentry
    refine ⟨entry.backupPath, restored, result, List.mem_append_right _ ?_⟩
    rw [← haddress]
    exact hresult
  · exact absurd (hrest ▸ List.mem_append_right _ List.mem_cons_self)
      (applied_notMem_rollbackNodes targetBinary outcomes 0 entries node)

/-! ### The nodes, one after the other -/

/-- When it is a leader's turn, all followers have had theirs. -/
theorem mem_done_of_isLeader {leader : ClusterNode} {rest : List ClusterNode}
    (horder : orderedNodes nodes = done ++ leader :: rest) (hleader : leader.isLeader = true)
    {follower : ClusterNode} (hmem : follower ∈ nodes) (hfollower : follower.isLeader = false) :
    follower ∈ done := by
  have hfollowers : follower ∈ nodes.filter fun node => !node.isLeader :=
    List.mem_filter.mpr ⟨hmem, by rw [hfollower]; rfl⟩
  rw [orderedNodes] at horder
  rcases List.append_eq_append_iff.mp horder with ⟨more, hdone, -⟩ | ⟨more, hdone, hmore⟩
  · rw [hdone]
    exact List.mem_append_left _ hfollowers
  · -- otherwise the leader is the first of those behind, or one of the followers
    cases more with
    | nil =>
      rw [List.append_nil] at hdone
      exact hdone ▸ hfollowers
    | cons first more =>
      obtain ⟨rfl, -⟩ := List.cons.inj hmore
      have hleaders : leader ∈ nodes.filter fun node => !node.isLeader :=
        hdone ▸ List.mem_append_right _ List.mem_cons_self
      rw [List.mem_filter, hleader] at hleaders
      exact absurd hleaders.2 Bool.false_ne_true

theorem mem_of_orderedNodes {node : ClusterNode} (h : node ∈ orderedNodes nodes) : node ∈ nodes :=
  (List.mem_append.mp h).elim (fun h => (List.mem_filter.mp h).1) fun h => (List.mem_filter.mp h).1

theorem Underway.applied {node : ClusterNode} {rest : List ClusterNode}
    (h : Underway nodes done events) (horder : orderedNodes nodes = done ++ node :: rest) :
    LeadersLast (events ++ [.applied node]) := by
  refine h.leadersLast.append fun before leader after heq hleader => ?_
  obtain ⟨hbefore, hsame⟩ := List.append_eq_singleton_iff.mp heq.symm |>.resolve_right fun h =>
    List.cons_ne_nil _ _ h.2
  obtain ⟨hnode, -⟩ := List.cons.inj hsame
  obtain rfl := NodeEvent.applied.inj hnode
  rw [hbefore, List.append_nil]
  obtain ⟨read, hread, hverified⟩ := h.read
  have hmem : leader ∈ orderedNodes nodes := horder ▸ List.mem_append_right _ List.mem_cons_self
  exact ⟨nodes, read, hread, mem_of_orderedNodes hmem, fun follower hmem hfollower =>
    hverified follower (mem_done_of_isLeader horder hleader hmem hfollower)⟩

theorem Underway.verified {node : ClusterNode} {rest : List ClusterNode}
    (h : Underway nodes done events) (horder : orderedNodes nodes = done ++ node :: rest) :
    Underway nodes (done ++ [node]) (events ++ [.applied node] ++ [.verified node]) := by
  refine ⟨(h.applied horder).append_quiet fun _ hmem => ?_, ?_⟩
  · cases List.mem_singleton.mp hmem
  · obtain ⟨read, hread, hverified⟩ := h.read
    refine ⟨read ++ [.applied node] ++ [.verified node], by rw [hread]; rfl, fun n hn => ?_⟩
    rcases List.mem_append.mp hn with hold | hnew
    · rw [List.append_assoc]
      exact List.mem_append_left _ (hverified n hold)
    · rw [List.mem_singleton.mp hnew]
      exact List.mem_append_right _ (List.mem_singleton_self _)

theorem Covered.append_quiet (h : Covered entries events) (hmore : ∀ node, .applied node ∉ more) :
    Covered entries (events ++ more) :=
  fun node hnode => h node ((List.mem_append.mp hnode).resolve_right (hmore node))

theorem Covered.applied (h : Covered entries events) (node : ClusterNode) (backupPath : String) :
    Covered (entries ++ [⟨node.address, backupPath⟩]) (events ++ [.applied node]) := by
  intro applied happlied
  rcases List.mem_append.mp happlied with hold | hnew
  · obtain ⟨entry, hentry, haddress⟩ := h applied hold
    exact ⟨entry, List.mem_append_left _ hentry, haddress⟩
  · obtain rfl := NodeEvent.applied.inj (List.mem_singleton.mp hnew)
    exact ⟨_, List.mem_append_right _ (List.mem_singleton_self _), rfl⟩

section Trace

variable (currentBinaryPath : String) (outcomes : FleetOutcomes)

/-- What updating the nodes returns and does while the plan stays. -/
def updateTrace : ℕ → List ClusterNode → List RollbackEntry → Traced
  | _, [], _ => (.ok (), [])
  | i, node :: nodes, entries =>
    match outcomes.backupCurrentBinary i with
    | .error e => (.error e, rollbackNodes currentBinaryPath outcomes.rollback 0 entries)
    | .ok backupPath =>
      match applyOnNode (outcomes.applyUpdate i) with
      | .error e =>
        (.error e,
          .backedUp backupPath :: rollbackNodes currentBinaryPath outcomes.rollback 0 entries)
      | .ok _ =>
        let entries := entries ++ [⟨node.address, backupPath⟩]
        match outcomes.waitForHealthy i with
        | .ok true =>
          let done := updateTrace (i + 1) nodes entries
          (done.1, .backedUp backupPath :: .applied node :: .verified node :: done.2)
        | _ =>
          (.error (.healthCheckFailed
              ("Node " ++ node.name ++ " failed health check after update")),
            .backedUp backupPath :: .applied node ::
              rollbackNodes currentBinaryPath outcomes.rollback 0 entries)

variable {currentBinaryPath} {outcomes}

theorem applied_notMem_backedUp (backupPath : String) (node : ClusterNode) :
    .applied node ∉ [NodeEvent.backedUp backupPath] :=
  fun h => NodeEvent.noConfusion (List.mem_singleton.mp h)

theorem leadersLast_updateTrace (i : ℕ) {rest : List ClusterNode} (entries : List RollbackEntry)
    (h : Underway nodes done events) (horder : orderedNodes nodes = done ++ rest) :
    LeadersLast (events ++ (updateTrace currentBinaryPath outcomes i rest entries).2) := by
  have hquiet (entries : List RollbackEntry) {events : List NodeEvent} (h : LeadersLast events) :
      LeadersLast (events ++ rollbackNodes currentBinaryPath outcomes.rollback 0 entries) :=
    h.append_quiet (applied_notMem_rollbackNodes currentBinaryPath outcomes.rollback 0 entries)
  induction rest generalizing i done entries events with
  | nil => simpa [updateTrace] using h.leadersLast
  | cons node rest ih =>
    rw [updateTrace]
    cases outcomes.backupCurrentBinary i with
    | error e => exact hquiet entries h.leadersLast
    | ok backupPath =>
      have hbacked := h.append_quiet (applied_notMem_backedUp backupPath)
      dsimp only
      cases applyOnNode (outcomes.applyUpdate i) with
      | error e => simpa using hquiet entries hbacked.leadersLast
      | ok _ =>
        have hfailed := hquiet (entries ++ [⟨node.address, backupPath⟩]) (hbacked.applied horder)
        rcases outcomes.waitForHealthy i with e | _ | _
        · simpa using hfailed
        · simpa using hfailed
        · have hverified := hbacked.verified horder
          simpa using ih (i + 1) (entries ++ [⟨node.address, backupPath⟩]) hverified
            (by rw [horder, List.append_assoc]; rfl)

theorem tried_updateTrace (i : ℕ) (rest : List ClusterNode) (h : Covered entries events)
    {e : UpdateError} :
    (updateTrace currentBinaryPath outcomes i rest entries).1 = .error e →
      RollbackTried (events ++ (updateTrace currentBinaryPath outcomes i rest entries).2) := by
  induction rest generalizing i entries events with
  | nil => exact fun herror => by cases herror
  | cons node rest ih =>
    rw [updateTrace]
    cases outcomes.backupCurrentBinary i with
    | error e => exact fun _ => tried_rollbackNodes _ _ h
    | ok backupPath =>
      have hbacked := h.append_quiet (applied_notMem_backedUp backupPath)
      dsimp only
      cases applyOnNode (outcomes.applyUpdate i) with
      | error e =>
        exact fun _ => by simpa using tried_rollbackNodes currentBinaryPath outcomes.rollback hbacked
      | ok _ =>
        have happlied := hbacked.applied node backupPath
        have hfailed := tried_rollbackNodes currentBinaryPath outcomes.rollback happlied
        rcases outcomes.waitForHealthy i with e | _ | _
        · exact fun _ => by simpa using hfailed
        · exact fun _ => by simpa using hfailed
        · have hquiet (n : ClusterNode) : .applied n ∉ [NodeEvent.verified node] :=
            fun hmem => NodeEvent.noConfusion (List.mem_singleton.mp hmem)
          simpa using ih (i + 1) (happlied.append_quiet hquiet)

end Trace

end Events

/-! ## Sections -/

def HasPlan (planId : String) (s : UpdateOrchestrator) : Prop :=
  planId ∈ s.plans.map UpdatePlan.id

def PlansKept (s s' : UpdateOrchestrator) : Prop :=
  ∀ id, HasPlan id s → HasPlan id s'

theorem plansKept_refl (s : UpdateOrchestrator) : PlansKept s s :=
  fun _ h => h

theorem PlansKept.trans {s s' s'' : UpdateOrchestrator} (h : PlansKept s s')
    (h' : PlansKept s' s'') : PlansKept s s'' :=
  fun id hid => h' id (h id hid)

theorem plansKept_of_othersKept {planId : String} {s s' : UpdateOrchestrator}
    (h : OthersKept planId s s') : PlansKept s s' := by
  intro id hid
  rw [HasPlan, h.1]
  exact hid

section Sections

open Prog

variable {planId currentBinaryPath : String} {outcomes : FleetOutcomes} {ρ : Type}
  {s : UpdateOrchestrator}

theorem relies_of_last {id : String} {p : UpdateProg ρ} {Q : ρ → UpdateOrchestrator → Prop}
    (h : p.Last (OthersKept planId) Q) (hplan : HasPlan id s) :
    p.Relies PlansKept (fun _ s => HasPlan id s) s :=
  h.relies (fun _ _ => plansKept_of_othersKept) (fun _ _ hkept => hkept id) hplan

theorem relies_changePlan {f : UpdatePlan → UpdatePlan} (hf : ∀ p, (f p).id = p.id)
    (s : UpdateOrchestrator) : (changePlan planId f).Relies PlansKept
      (fun r s' => (HasPlan planId s → r = .ok ()) ∧ (r = .ok () → HasPlan planId s')) s := by
  intro s' hs
  have hids := @UpdateOrchestrator.map_id_modifyPlan planId f hf s'.plans
  refine ⟨fun id hid => ?_, fun hplan => ?_, fun hok => ?_⟩
  · rw [HasPlan, hids]
    exact hid
  · exact if_pos ((UpdateOrchestrator.isSome_getPlan s' planId).mpr (hs planId hplan))
  · rw [HasPlan, hids, ← UpdateOrchestrator.isSome_getPlan]
    by_contra hnone
    rw [if_neg hnone] at hok
    cases hok

theorem relies_setPlanStatus (status : UpdateStatus) (h : HasPlan planId s) :
    (setPlanStatus planId status).Relies PlansKept
      (fun r s => r = .ok () ∧ HasPlan planId s) s := by
  refine (relies_changePlan ?_ s).imp fun r s' hr => ⟨hr.1 h, hr.2 (hr.1 h)⟩
  exact fun _ => rfl

theorem relies_setNodeStatus (nodeId : String) (status : NodeUpdateStatus)
    (h : HasPlan planId s) : (setNodeStatus planId nodeId status).Relies PlansKept
      (fun r s => r = .ok () ∧ HasPlan planId s) s := by
  refine (relies_changePlan ?_ s).imp fun r s' hr => ⟨hr.1 h, hr.2 (hr.1 h)⟩
  exact fun _ => rfl

theorem relies_outside (answer : ρ) (h : HasPlan planId s) :
    (outside answer).Relies PlansKept (fun r s => r = answer ∧ HasPlan planId s) s :=
  relies_read plansKept_refl fun _ hs => ⟨rfl, hs planId h⟩

theorem relies_orReturn {α : Type} {Q : Traced → UpdateOrchestrator → Prop}
    {Q' : Except UpdateError α → UpdateOrchestrator → Prop} {events : List NodeEvent}
    {p : UpdateProg (Except UpdateError α)} {f : α → UpdateProg Traced}
    (hp : p.Relies PlansKept Q' s) (hok : ∀ a s, Q' (.ok a) s → (f a).Relies PlansKept Q s)
    (herror : ∀ e s, Q' (.error e) s → Q (.error e, events) s) :
    (Fleet.orReturn events f p).Relies PlansKept Q s := by
  refine hp.bind fun r s hr => ?_
  cases r with
  | ok a => exact hok a s hr
  | error e => exact herror e s hr

theorem relies_orReturn_ok {Q : Traced → UpdateOrchestrator → Prop} {events : List NodeEvent}
    {p : UpdateProg UpdateResult} {f : Unit → UpdateProg Traced}
    (hp : p.Relies PlansKept (fun r s => r = .ok () ∧ HasPlan planId s) s)
    (hok : ∀ s, HasPlan planId s → (f ()).Relies PlansKept Q s) :
    (Fleet.orReturn events f p).Relies PlansKept Q s :=
  relies_orReturn hp (fun _ s hs => hok s hs.2) fun _ _ h => (nomatch h.1)

/-! ## Phases -/

variable {nodes : List ClusterNode} {entries : List RollbackEntry} {events : List NodeEvent}

theorem relies_rollbackUpdatedNodes (h : HasPlan planId s) :
    (Fleet.rollbackUpdatedNodes planId currentBinaryPath outcomes entries).Relies PlansKept
      (fun r s => r = rollbackNodes currentBinaryPath outcomes.rollback 0 entries ∧
        HasPlan planId s) s := by
  rw [Fleet.rollbackUpdatedNodes]
  split_ifs with hentries
  · rw [hentries]
    exact relies_pure ⟨rfl, h⟩
  · refine (relies_outside _ h).bind fun rolledBack s hs => ?_
    refine (relies_of_last (last_markRolledBack entries) hs.2).bind fun _ s' hs' => ?_
    exact relies_pure ⟨hs.1, hs'⟩

theorem relies_rollBack (nodeId message : String) (e : UpdateError) (h : HasPlan planId s) :
    (Fleet.rollBack planId currentBinaryPath outcomes nodeId message entries e events).Relies
      PlansKept (fun t s => t = (.error e,
        events ++ rollbackNodes currentBinaryPath outcomes.rollback 0 entries) ∧
          HasPlan planId s) s := by
  refine relies_orReturn_ok (relies_setNodeStatus _ _ h) fun s hs => ?_
  refine (relies_rollbackUpdatedNodes hs).bind fun rolledBack s hs => ?_
  obtain ⟨rfl, hs⟩ := hs
  refine relies_orReturn_ok (relies_setPlanStatus _ hs) fun s hs => ?_
  exact relies_pure ⟨rfl, hs⟩

/-- Updating the nodes, while the plan stays. -/
theorem relies_updateNodes (i : ℕ) (rest : List ClusterNode) (hplan : HasPlan planId s) :
    (Fleet.updateNodes planId currentBinaryPath outcomes i rest entries events).Relies PlansKept
      (fun t s => t = ((updateTrace currentBinaryPath outcomes i rest entries).1,
        events ++ (updateTrace currentBinaryPath outcomes i rest entries).2) ∧
          HasPlan planId s) s := by
  induction rest generalizing i entries events s with
  | nil => exact relies_pure ⟨by rw [updateTrace, List.append_nil], hplan⟩
  | cons node rest ih =>
    rw [Fleet.updateNodes, updateTrace]
    refine (relies_outside _ hplan).bind fun backup s hs => ?_
    rw [← hs.1]
    cases backup with
    | error e => exact relies_rollBack _ _ _ hs.2
    | ok backupPath =>
      refine relies_orReturn_ok (relies_setNodeStatus _ _ hs.2) fun s hs => ?_
      refine (relies_outside _ hs).bind fun _ s hs => ?_
      refine relies_orReturn_ok (relies_setNodeStatus _ _ hs.2) fun s hs => ?_
      refine (relies_outside _ hs).bind fun response s hs => ?_
      rw [← hs.1]
      cases response with
      | noClient message =>
        refine (relies_rollBack _ _ _ hs.2).imp fun t s ht => ⟨ht.1.trans ?_, ht.2⟩
        simp [signalled, Response.isSent, applyOnNode]
      | _ =>
        -- the request was sent
        refine relies_orReturn_ok (relies_setNodeStatus _ _ hs.2) fun s hs => ?_
        refine (relies_outside _ hs).bind fun healthy s hs => ?_
        dsimp only [applyOnNode]
        rw [← hs.1]
        rcases healthy with e | _ | _
        · refine (relies_rollBack _ _ _ hs.2).imp fun t s ht => ⟨ht.1.trans ?_, ht.2⟩
          simp [signalled, Response.isSent]
        · refine (relies_rollBack _ _ _ hs.2).imp fun t s ht => ⟨ht.1.trans ?_, ht.2⟩
          simp [signalled, Response.isSent]
        · refine relies_orReturn_ok (relies_setNodeStatus _ _ hs.2) fun s hs => ?_
          refine (ih (i + 1) hs).imp fun t s ht => ⟨ht.1.trans ?_, ht.2⟩
          simp [signalled, Response.isSent]

/-- What an execution returns and does: it fails before it begins to update the nodes, or does that as
if it were alone. -/
def Traces (currentBinaryPath : String) (outcomes : FleetOutcomes) (t : Traced) : Prop :=
  (∃ e, t = (.error e, [])) ∨
    ∃ nodes, t = ((updateTrace currentBinaryPath outcomes 0 (orderedNodes nodes) []).1,
      .begun nodes :: (updateTrace currentBinaryPath outcomes 0 (orderedNodes nodes) []).2)

theorem relies_rollOut (hplan : HasPlan planId s) :
    (Fleet.rollOut planId currentBinaryPath outcomes).Relies PlansKept
      (fun t _ => Traces currentBinaryPath outcomes t) s := by
  have hread : (Prog.read UpdateOrchestrator.clusterNodes).Relies PlansKept
      (fun _ s => HasPlan planId s) s := relies_read plansKept_refl fun _ hs => hs planId hplan
  refine hread.bind fun nodes s hs => ?_
  refine relies_orReturn (relies_of_last (last_stageOnNodes 0 nodes) hs) (fun _ s hs => ?_)
    fun e _ _ => .inl ⟨e, rfl⟩
  refine relies_orReturn_ok (relies_setPlanStatus _ hs) fun s hs => ?_
  refine (relies_updateNodes 0 (orderedNodes nodes) hs).bind fun t s ht => ?_
  obtain ⟨r, events⟩ := t
  obtain ⟨ht, hs⟩ := ht
  cases r with
  | error e => exact relies_pure (.inr ⟨nodes, ht⟩)
  | ok _ =>
    refine relies_orReturn_ok (relies_setPlanStatus _ hs) fun s _ => ?_
    exact relies_pure (.inr ⟨nodes, ht⟩)

/-- An execution does what it would do alone, whatever others do to the plans meanwhile. -/
theorem relies_executePlan (planId currentBinaryPath : String) (outcomes : FleetOutcomes)
    (s : UpdateOrchestrator) : (Fleet.executePlan planId currentBinaryPath outcomes).Relies
      PlansKept (fun t _ => Traces currentBinaryPath outcomes t) s := by
  refine Relies.bind (Q := fun _ _ => True) (relies_read plansKept_refl fun _ _ => trivial)
    fun active s _ => ?_
  cases active with
  | true => exact relies_pure (.inl ⟨_, rfl⟩)
  | false =>
    refine relies_orReturn (relies_changePlan ?_ s) (fun _ s hs => ?_) fun e _ _ => .inl ⟨e, rfl⟩
    · exact fun _ => rfl
    have hplan := hs.2 rfl
    refine relies_orReturn (relies_of_last last_requirePlan hplan) (fun plan s hs => ?_)
      fun e _ _ => .inl ⟨e, rfl⟩
    refine relies_orReturn (relies_outside _ hs) (fun _ s hs => ?_) fun e _ _ => .inl ⟨e, rfl⟩
    refine relies_orReturn (relies_outside _ hs.2) (fun verified s hs => ?_)
      fun e _ _ => .inl ⟨e, rfl⟩
    cases verified with
    | true =>
      refine relies_orReturn (relies_outside _ hs.2) (fun _ s hs => ?_)
        fun e _ _ => .inl ⟨e, rfl⟩
      exact relies_rollOut hs.2
    | false =>
      refine relies_orReturn_ok (relies_setPlanStatus _ hs.2) fun s _ => ?_
      exact relies_pure (.inl ⟨_, rfl⟩)

end Sections

/-! ## The result -/

theorem traces_of_reach {currentBinaryPath : String} {w : FleetSession}
    (h : (system currentBinaryPath).Reachable w) : ∀ c ∈ w.calls,
      c.prog.Relies PlansKept (fun t _ => Traces currentBinaryPath c.outcomes t) w.state := by
  refine System.Reach.invariant
    (P := fun w => ∀ c ∈ w.calls,
      c.prog.Relies PlansKept (fun t _ => Traces currentBinaryPath c.outcomes t) w.state)
    (fun _ h => (nomatch h)) (fun w e w' _ ih _ hstep => ?_) h
  -- the others have not noticed what was done in between
  have hcompany {s : UpdateOrchestrator} (hs : PlansKept w.state s) : ∀ c ∈ w.calls,
      c.prog.Relies PlansKept (fun t _ => Traces currentBinaryPath c.outcomes t) s :=
    fun c hc => (ih c hc).of_kept PlansKept.trans hs
  cases e with
  | setClusterNodes nodes =>
    obtain rfl := Option.some.inj hstep
    exact hcompany fun _ hid => hid
  | addNode node =>
    obtain rfl := Option.some.inj hstep
    exact hcompany fun _ hid => hid
  | createPlan id version binaryUrl sha256 =>
    simp only [system, step] at hstep
    split_ifs at hstep
    obtain rfl := Option.some.inj hstep
    refine hcompany fun planId hid => ?_
    rw [HasPlan, UpdateOrchestrator.createPlan, List.map_append]
    exact List.mem_append_left _ hid
  | executePlan planId outcomes =>
    obtain rfl := Option.some.inj hstep
    intro c hc
    rcases List.mem_append.mp hc with hold | hnew
    · exact ih c hold
    · rw [List.mem_singleton.mp hnew]
      exact relies_executePlan planId currentBinaryPath outcomes w.state
  | resume i =>
    simp only [system, step] at hstep
    obtain ⟨c, hc, hnext⟩ := Option.bind_eq_some_iff.mp hstep
    cases hprog : c.prog with
    | done t =>
      rw [hprog] at hnext
      cases hnext
    | atom next rest =>
      rw [hprog] at hnext
      obtain rfl := Option.some.inj hnext
      obtain ⟨hkept, hrest⟩ :=
        (ih c (List.mem_of_getElem? hc)).of_atom hprog (plansKept_refl w.state)
      intro d hd
      rcases List.mem_or_eq_of_mem_set hd with hold | rfl
      · exact hcompany hkept d hold
      · exact hrest

/-! ### Binaries -/

section Rollback

variable {shares : String → Bool} {new : Binary} {currentBinaryPath : String}
  {outcomes : FleetOutcomes}

theorem applyOnNode_of_isSent {response : Response} (h : response.isSent = true) :
    applyOnNode response = .ok () := by
  cases response with
  | noClient message => cases h
  | _ => rfl

theorem applyOnNode_of_not_isSent {response : Response} (h : response.isSent = false) :
    ∃ e, applyOnNode response = .error e := by
  cases response with
  | noClient message => exact ⟨_, rfl⟩
  | _ => cases h

/-- Once a node with a binary of its own has the new one, it keeps it. -/
theorem nodes_afterAll {events : List NodeEvent} {address : String} (b : Binaries)
    (h : b.nodes address = new) : (b.afterAll shares new events).nodes address = new := by
  induction events generalizing b with
  | nil => exact h
  | cons e events ih =>
    refine ih _ ?_
    cases e with
    | applied node =>
      rw [Binaries.after]
      split_ifs
      · exact h
      · by_cases hnode : address = node.address
        · simp [hnode]
        · simp [hnode, h]
    | rolledBack entry restored result =>
      rw [Binaries.after]
      split_ifs <;> exact h
    | _ => exact h

theorem nodes_of_applied {events : List NodeEvent} {node : ClusterNode}
    (h : .applied node ∈ events) (hshares : shares node.address = false) (b : Binaries) :
    (b.afterAll shares new events).nodes node.address = new := by
  obtain ⟨before, after, rfl⟩ := List.append_of_mem h
  rw [Binaries.afterAll, List.foldl_append, List.foldl_cons]
  refine nodes_afterAll _ ?_
  simp [Binaries.after, hshares]

/-- After rollbacks that have succeeded, the orchestrator has the last of the backups. -/
theorem own_rollbackNodes (entries : List RollbackEntry) (j : ℕ) (b : Binaries)
    (h : ∀ entry restored result, .rolledBack entry restored result ∈
      rollbackNodes currentBinaryPath outcomes.rollback j entries → result = .ok ()) :
    (b.afterAll shares new (rollbackNodes currentBinaryPath outcomes.rollback j entries)).own =
      (entries.getLast?.map fun entry => b.backups entry.backupPath).getD b.own := by
  induction entries generalizing j b with
  | nil => rfl
  | cons entry entries ih =>
    rw [rollbackNodes] at h ⊢
    have hrestores : (outcomes.rollback j).restores = true :=
      (rollbackNode_eq_ok_iff.mp (h _ _ _ List.mem_cons_self)).restores
    rw [Binaries.afterAll, List.foldl_cons]
    refine (ih (j + 1) _ fun entry restored result hmem =>
      h entry restored result (List.mem_cons_of_mem _ hmem)).trans ?_
    rw [Binaries.after, if_pos hrestores, List.getLast?_cons]
    cases entries.getLast? <;> rfl

/-- Where the orchestrator has the new binary, and the last backup is one of it or the next takes its
place, rollbacks that succeed leave it there. -/
theorem own_updateTrace (i : ℕ) (nodes : List ClusterNode) {entries : List RollbackEntry}
    {b : Binaries} (hown : b.own = new) {entry : RollbackEntry}
    (hlast : entries.getLast? = some entry)
    (hbackup : b.backups entry.backupPath = new ∨ ∃ path, outcomes.backupCurrentBinary i = .ok path ∧
      (path = entry.backupPath ∨ (outcomes.applyUpdate i).isSent = true))
    (h : ∀ entry restored result, .rolledBack entry restored result ∈
      (updateTrace currentBinaryPath outcomes i nodes entries).2 → result = .ok ()) :
    (b.afterAll shares new (updateTrace currentBinaryPath outcomes i nodes entries).2).own = new := by
  induction nodes generalizing i entries b entry with
  | nil => exact hown
  | cons node nodes ih =>
    rw [updateTrace] at h ⊢
    cases hpath : outcomes.backupCurrentBinary i with
    | error e =>
      rw [hpath] at h hbackup
      rw [own_rollbackNodes entries 0 b h, hlast]
      refine hbackup.resolve_right ?_
      rintro ⟨path, hnone, -⟩
      cases hnone
    | ok path =>
      rw [hpath] at h hbackup
      dsimp only at h ⊢
      -- every backup from here on is one of the new binary
      let b₁ := b.after shares new (.backedUp path)
      have hnew : b₁.backups path = new := (Function.update_self _ _ _).trans hown
      cases hsent : (outcomes.applyUpdate i).isSent with
      | false =>
        obtain ⟨e, he⟩ := applyOnNode_of_not_isSent hsent
        rw [he] at h ⊢
        change (b₁.afterAll shares new (rollbackNodes _ _ 0 entries)).own = new
        rw [own_rollbackNodes entries 0 b₁ fun entry restored result hmem =>
          h entry restored result (List.mem_cons_of_mem _ hmem), hlast]
        change b₁.backups entry.backupPath = new
        by_cases hsame : entry.backupPath = path
        · rw [hsame, hnew]
        · refine (Function.update_of_ne hsame _ _).trans (hbackup.resolve_right ?_)
          rintro ⟨path', hpath', hsame' | hsent'⟩
          · exact hsame (hsame'.symm.trans (Except.ok.inj hpath').symm)
          · rw [hsent] at hsent'
            cases hsent'
      | true =>
        rw [applyOnNode_of_isSent hsent] at h ⊢
        dsimp only at h ⊢
        let b₂ := b₁.after shares new (.applied node)
        have hbackups : b₂.backups = b₁.backups := by
          simp only [b₂, Binaries.after]
          split_ifs <;> rfl
        have hown₂ : b₂.own = new := by
          simp only [b₂, Binaries.after]
          split_ifs
          · rfl
          · exact hown
        let entry₂ : RollbackEntry := ⟨node.address, path⟩
        have hlast₂ : (entries ++ [entry₂]).getLast? = some entry₂ := List.getLast?_concat
        have hback {events : List NodeEvent} (hevents : events = rollbackNodes currentBinaryPath
            outcomes.rollback 0 (entries ++ [entry₂]))
            (h : ∀ entry restored result, .rolledBack entry restored result ∈ events →
              result = .ok ()) : (b₂.afterAll shares new events).own = new := by
          rw [hevents] at h ⊢
          rw [own_rollbackNodes _ 0 b₂ h, hlast₂, hbackups]
          exact hnew
        cases hhealthy : outcomes.waitForHealthy i with
        | error e =>
          rw [hhealthy] at h
          exact hback rfl fun entry restored result hmem => h entry restored result
            (List.mem_cons_of_mem _ (List.mem_cons_of_mem _ hmem))
        | ok healthy =>
          rw [hhealthy] at h
          cases healthy with
          | false =>
            exact hback rfl fun entry restored result hmem => h entry restored result
              (List.mem_cons_of_mem _ (List.mem_cons_of_mem _ hmem))
          | true =>
            refine ih (i + 1) (b := b₂) hown₂ hlast₂ (.inl (hbackups ▸ hnew)) ?_
            exact fun entry restored result hmem => h entry restored result
              (List.mem_cons_of_mem _ (List.mem_cons_of_mem _ (List.mem_cons_of_mem _ hmem)))

theorem mem_updateTrace (i : ℕ) (nodes : List ClusterNode) {first : RollbackEntry}
    {entries : List RollbackEntry} {e : UpdateError} :
    (updateTrace currentBinaryPath outcomes i nodes (first :: entries)).1 = .error e →
      .rolledBack first (outcomes.rollback 0).restores (rollbackNode first.nodeAddress
        first.backupPath currentBinaryPath (outcomes.rollback 0)) ∈
          (updateTrace currentBinaryPath outcomes i nodes (first :: entries)).2 := by
  induction nodes generalizing i entries with
  | nil => exact fun herror => by cases herror
  | cons node nodes ih =>
    rw [updateTrace]
    cases outcomes.backupCurrentBinary i with
    | error e => exact fun _ => List.mem_cons_self
    | ok path =>
      dsimp only
      cases applyOnNode (outcomes.applyUpdate i) with
      | error e => exact fun _ => List.mem_cons_of_mem _ List.mem_cons_self
      | ok _ =>
        rcases outcomes.waitForHealthy i with e | _ | _
        · exact fun _ => by simp [rollbackNodes]
        · exact fun _ => by simp [rollbackNodes]
        · exact fun herror => by simpa using ih (i + 1) herror

/-- A node that has its old binary again runs that of the orchestrator, which has the old one too. -/
theorem Restored.own_kept {events : List NodeEvent} (h : Restored shares events) {node : ClusterNode}
    (hmem : .applied node ∈ events) : shares node.address = true ∧
      ∀ b new, ((b : Binaries).afterAll shares new events).own = b.own := by
  have hshares : shares node.address = true := by
    by_contra hother
    have hold := h.binary node hmem ⟨[], fun _ => [], fun _ => []⟩ [0]
    rw [Binaries.binary, if_neg hother, nodes_of_applied hmem (Bool.eq_false_iff.mpr hother)] at hold
    simp [Binaries.binary, hother] at hold
  refine ⟨hshares, fun b new => ?_⟩
  simpa [Binaries.binary, hshares] using h.binary node hmem b new

/-- An event that keeps the backup at a path, and of which no node notices anything. -/
def Passes (path : String) (e : NodeEvent) : Prop :=
  (∃ node, e = .verified node) ∨ ∃ path', path' ≠ path ∧ e = .backedUp path'

theorem backups_of_passes {path : String} {events : List NodeEvent}
    (h : ∀ e ∈ events, Passes path e) (b : Binaries) :
    (b.afterAll shares new events).backups path = b.backups path := by
  induction events generalizing b with
  | nil => rfl
  | cons e events ih =>
    refine (ih (fun e he => h e (List.mem_cons_of_mem _ he)) _).trans ?_
    rcases h e List.mem_cons_self with ⟨node, rfl⟩ | ⟨path', hne, rfl⟩
    · rfl
    · exact Function.update_of_ne hne.symm _ _

/-- A node that runs the orchestrator's binary is rolled back with the backup made before. -/
theorem restored_of_passes {path : String} {node : ClusterNode} {events : List NodeEvent}
    (hshares : shares node.address = true) (h : ∀ e ∈ events, Passes path e) :
    Restored shares (.backedUp path :: .applied node ::
      (events ++ [.rolledBack ⟨node.address, path⟩ true (.ok ())])) := by
  have hquiet {e : NodeEvent} (he : e ∈ events) : (∀ n, e ≠ .applied n) ∧
      ∀ entry restored result, e ≠ .rolledBack entry restored result := by
    rcases h e he with ⟨node, rfl⟩ | ⟨path', -, rfl⟩ <;> simp
  refine ⟨fun entry restored result hmem => ?_, fun n hmem b new => ?_⟩
  · simp only [List.mem_cons, reduceCtorEq, false_or, List.mem_append, NodeEvent.rolledBack.injEq,
      List.not_mem_nil, or_false] at hmem
    rcases hmem with hmem | ⟨-, -, hresult⟩
    · exact absurd rfl ((hquiet hmem).2 _ _ _)
    · exact hresult
  · simp only [List.mem_cons, reduceCtorEq, false_or, List.mem_append, NodeEvent.applied.injEq,
      List.not_mem_nil, or_false] at hmem
    obtain rfl := hmem.resolve_right fun hmem => (hquiet hmem).1 _ rfl
    have hown : (b.afterAll shares new (.backedUp path :: .applied n ::
        (events ++ [.rolledBack ⟨n.address, path⟩ true (.ok ())]))).own = b.own := by
      simp only [Binaries.afterAll, List.foldl_cons, List.foldl_append, List.foldl_nil]
      refine (backups_of_passes h _).trans ?_
      simp [Binaries.after, hshares]
    simp only [Binaries.binary, hshares, if_true]
    exact hown

theorem rollbackNodes_singleton (h : (outcomes.rollback 0).Succeeds) (entry : RollbackEntry) :
    rollbackNodes currentBinaryPath outcomes.rollback 0 [entry] =
      [.rolledBack entry true (.ok ())] := by
  simp [rollbackNodes, h.restores, rollbackNode_eq_ok_iff.mpr h]

/-- Where the first node is healthy and another fails, the first is restored if and only if nothing is
sent to the second, and its own backup stays. -/
theorem restored_second_iff {path : String} (node : ClusterNode) (nodes : List ClusterNode)
    {e : UpdateError} (herror : (updateTrace currentBinaryPath outcomes 1 nodes
      [⟨node.address, path⟩]).1 = .error e) :
    Restored shares (.backedUp path :: .applied node :: .verified node ::
        (updateTrace currentBinaryPath outcomes 1 nodes [⟨node.address, path⟩]).2) ↔
      shares node.address = true ∧ (outcomes.rollback 0).Succeeds ∧
        ∀ path', outcomes.backupCurrentBinary 1 = .ok path' →
          path ≠ path' ∧ (outcomes.applyUpdate 1).isSent = false := by
  constructor
  · intro h
    obtain ⟨hshares, hown⟩ := h.own_kept (List.mem_cons_of_mem _ List.mem_cons_self)
    refine ⟨hshares, rollbackNode_eq_ok_iff.mp (h.succeeded _ _ _ (List.mem_cons_of_mem _
      (List.mem_cons_of_mem _ (List.mem_cons_of_mem _ (mem_updateTrace 1 nodes herror))))),
      fun path' hpath' => ?_⟩
    by_contra hnot
    -- otherwise the backup that is copied last is one of the new binary
    let b : Binaries := ⟨[], fun _ => [], fun _ => []⟩
    have hnew : (b.afterAll shares [0] (.backedUp path :: .applied node :: .verified node ::
        (updateTrace currentBinaryPath outcomes 1 nodes [⟨node.address, path⟩]).2)).own = [0] := by
      refine own_updateTrace 1 nodes (b := (b.after shares [0] (.backedUp path)).after shares [0]
        (.applied node)) ?_ rfl (.inr ⟨path', hpath', ?_⟩) fun entry restored result hmem => ?_
      · simp [Binaries.after, hshares]
      · by_cases hsame : path = path'
        · exact .inl hsame.symm
        · exact .inr (by simpa [hsame] using hnot)
      · exact h.succeeded entry restored result (List.mem_cons_of_mem _
          (List.mem_cons_of_mem _ (List.mem_cons_of_mem _ hmem)))
    rw [hown] at hnew
    cases hnew
  · rintro ⟨hshares, hrollback, hsecond⟩
    cases nodes with
    | nil => cases herror
    | cons second nodes =>
      rw [updateTrace]
      cases hpath' : outcomes.backupCurrentBinary 1 with
      | error e' =>
        rw [rollbackNodes_singleton hrollback]
        have hpasses (e : NodeEvent) (he : e ∈ [NodeEvent.verified node]) : Passes path e :=
          .inl ⟨node, List.mem_singleton.mp he⟩
        exact restored_of_passes hshares hpasses
      | ok path' =>
        obtain ⟨hne, hsent⟩ := hsecond path' hpath'
        obtain ⟨e', he'⟩ := applyOnNode_of_not_isSent hsent
        dsimp only
        rw [he', rollbackNodes_singleton hrollback]
        have hpasses (e : NodeEvent) (he : e ∈ [.verified node, .backedUp path']) :
            Passes path e := by
          rcases List.mem_cons.mp he with rfl | he
          · exact .inl ⟨node, rfl⟩
          · exact .inr ⟨path', hne.symm, List.mem_singleton.mp he⟩
        exact restored_of_passes hshares hpasses

/-- An update that fails leaves the nodes as they were if and only if they can be rolled back. -/
theorem restored_updateTrace_iff (nodes : List ClusterNode) {e : UpdateError} :
    (updateTrace currentBinaryPath outcomes 0 nodes []).1 = .error e →
      (Restored shares (updateTrace currentBinaryPath outcomes 0 nodes []).2 ↔
        Restorable shares outcomes nodes) := by
  cases nodes with
  | nil => exact fun herror => by cases herror
  | cons node rest =>
    rw [updateTrace]
    cases hpath : outcomes.backupCurrentBinary 0 with
    | error e' =>
      refine fun _ => iff_of_true ⟨fun _ _ _ hmem => ?_, fun _ hmem => ?_⟩ (.inl fun path hnone => ?_)
      · cases hmem
      · cases hmem
      · rw [hpath] at hnone
        cases hnone
    | ok path =>
      dsimp only
      cases hsent : (outcomes.applyUpdate 0).isSent with
      | false =>
        obtain ⟨e', he'⟩ := applyOnNode_of_not_isSent hsent
        rw [he']
        refine fun _ => iff_of_true ⟨fun _ _ _ hmem => ?_, fun _ hmem => ?_⟩ (.inl fun _ _ => hsent)
        · cases List.mem_singleton.mp hmem
        · cases List.mem_singleton.mp hmem
      | true =>
        rw [applyOnNode_of_isSent hsent]
        have hleft : ¬∀ path, outcomes.backupCurrentBinary 0 = .ok path →
            (outcomes.applyUpdate 0).isSent = false := fun h => by simp [h path hpath] at hsent
        have hfirst : (∀ n ∈ (node :: rest).head?, shares n.address = true) ↔
            shares node.address = true := by simp
        rw [Restorable, or_iff_right hleft, hfirst, hpath]
        -- the first node fails
        have hunhealthy : Restored shares (.backedUp path :: .applied node ::
            rollbackNodes currentBinaryPath outcomes.rollback 0 [⟨node.address, path⟩]) ↔
              shares node.address = true ∧ (outcomes.rollback 0).Succeeds := by
          refine ⟨fun h => ?_, fun ⟨hshares, hrollback⟩ => ?_⟩
          · refine ⟨(h.own_kept (List.mem_cons_of_mem _ List.mem_cons_self)).1,
              rollbackNode_eq_ok_iff.mp (h.succeeded _ _ _ (List.mem_cons_of_mem _
                (List.mem_cons_of_mem _ List.mem_cons_self)))⟩
          · rw [rollbackNodes_singleton hrollback]
            have hpasses (e : NodeEvent) (he : e ∈ []) : Passes path e :=
              absurd he List.not_mem_nil
            exact restored_of_passes hshares hpasses
        rcases outcomes.waitForHealthy 0 with e' | _ | _
        · exact fun _ => hunhealthy.trans (by simp)
        · exact fun _ => hunhealthy.trans (by simp)
        · exact fun herror => (restored_second_iff node rest herror).trans (by simp)

end Rollback

/-- No leader gets the signal to apply the binary before all followers are healthy with it.  When an
execution that has begun to update the nodes returns an error, the rollback of every node to which it
had sent the signal, that whose health check failed included, is tried; and the nodes are rolled back
if and only if nothing was sent, or only to one node that runs the orchestrator's own binary and whose
rollback succeeds, with the backup made before. -/
theorem rolledBack_iff {currentBinaryPath : String} {w : FleetSession}
    (h : (system currentBinaryPath).Reachable w) {c : FleetCall} (hc : c ∈ w.calls)
    {r : UpdateResult} {events : List NodeEvent} (hr : c.prog.result? = some (r, events)) :
    LeadersLast events ∧ ∀ e nodes, r = .error e → events.head? = some (.begun nodes) →
      RollbackTried events ∧ ∀ shares, RolledBack shares events ↔
        Restorable shares c.outcomes (orderedNodes nodes) := by
  have htraces : Traces currentBinaryPath c.outcomes (r, events) :=
    (traces_of_reach h c hc).of_result hr
  rcases htraces with ⟨e, hnone⟩ | ⟨nodes, htrace⟩
  · obtain ⟨rfl, rfl⟩ := Prod.mk.inj hnone
    refine ⟨leadersLast_of_quiet fun _ => List.not_mem_nil, fun _ nodes _ hhead => ?_⟩
    cases hhead
  · obtain ⟨rfl, rfl⟩ := Prod.mk.inj htrace
    have hquiet (node : ClusterNode) : .applied node ∉ [NodeEvent.begun nodes] :=
      fun h => NodeEvent.noConfusion (List.mem_singleton.mp h)
    have hbegin : Underway nodes [] [.begun nodes] :=
      ⟨leadersLast_of_quiet hquiet, [], rfl, fun _ h => absurd h List.not_mem_nil⟩
    refine ⟨leadersLast_updateTrace 0 [] hbegin rfl, fun e nodes' herror hhead => ?_⟩
    obtain rfl := NodeEvent.begun.inj (Option.some.inj hhead)
    have hcovered : Covered [] [.begun nodes] := fun node h => absurd h (hquiet node)
    have htried := tried_updateTrace 0 (orderedNodes nodes) hcovered herror
    refine ⟨htried, fun shares => ?_⟩
    rw [← restored_updateTrace_iff (orderedNodes nodes) herror]
    refine ⟨fun h => ⟨fun entry restored result hmem => ?_, fun node hmem => ?_⟩, fun h =>
      ⟨⟨fun entry restored result hmem => ?_, fun node hmem => ?_⟩, htried⟩⟩
    · exact h.succeeded _ _ _ (List.mem_cons_of_mem _ hmem)
    · exact h.binary node (List.mem_cons_of_mem _ hmem)
    · rcases List.mem_cons.mp hmem with hfirst | hmem
      · cases hfirst
      · exact h.succeeded entry restored result hmem
    · rcases List.mem_cons.mp hmem with hfirst | hmem
      · cases hfirst
      · exact h.binary node hmem

def rollbackAnswers : RollbackOutcomes where
  backupExists := true
  copy := .ok ()
  setPermissions := .ok ()
  restart := .status true
  waitForHealthy := .ok true

/-- Answers of the outside to an execution of which everything succeeds but maybe backups and health
checks. -/
def fleetAnswers (backups : ℕ → Except UpdateError String) (healthy : ℕ → Bool) : FleetOutcomes where
  downloadBinary := .ok "aegis-server.new"
  verifySha256 := .ok true
  stageBinary := .ok ()
  stageOnNode _ := .ok ()
  backupCurrentBinary := backups
  applyUpdate _ := .status true
  waitForHealthy i := .ok (healthy i)
  rollback _ := rollbackAnswers

def leaderNode : ClusterNode :=
  { nodeId := "l", name := "Leader", address := "http://l", role := "leader" }

def followerNode : ClusterNode :=
  { nodeId := "f", name := "Follower", address := "http://f", role := "follower" }

/-- An execution of a plan for a follower and a leader, up to its end. -/
def execution (answers : FleetOutcomes) (sections : ℕ) : List FleetEvent :=
  [.addNode leaderNode, .addNode followerNode, .createPlan "a" "1" "http://a" "00",
    .executePlan "a" answers] ++ List.replicate sections (.resume 0)

/-- The backup before the leader's turn fails. -/
def leaderFails : FleetOutcomes :=
  fleetAnswers (fun i => if i = 0 then .ok "aegis-server.backup" else .error (.io "No space left"))
    fun _ => true

def leaderFailsEvents : List NodeEvent :=
  [.begun [leaderNode, followerNode], .backedUp "aegis-server.backup", .applied followerNode,
    .verified followerNode, .rolledBack ⟨"http://f", "aegis-server.backup"⟩ true (.ok ())]

/-- The follower runs the orchestrator's binary; it is updated, and then rolled back. -/
theorem rolledBack_iff_leaderFails : ∃ w, (system "aegis-server").run (fun _ _ => True)
      (execution leaderFails 30) = some w ∧
    (∃ c ∈ w.calls, c.prog.result? = some (.error (.io "No space left"), leaderFailsEvents)) ∧
      LeadersLast leaderFailsEvents ∧
        RolledBack (fun address => address = "http://f") leaderFailsEvents := by
  have hrun : (((system "aegis-server").run (fun _ _ => True) (execution leaderFails 30)).any
      fun w => w.calls[0]?.any fun c => decide (
        c.prog.result? = some (.error (.io "No space left"), leaderFailsEvents) ∧
          c.outcomes.backupCurrentBinary 1 = .error (.io "No space left") ∧
            c.outcomes.rollback 0 = rollbackAnswers)) = true := by
    decide +kernel
  obtain ⟨w, hw, hreach, hended⟩ := System.exists_reach_of_any hrun
  obtain ⟨c, hc, hanswers⟩ := (Option.any_eq_true _ _).mp hended
  obtain ⟨hr, hbackup, hrollback⟩ := of_decide_eq_true hanswers
  have hmem := List.mem_of_getElem? hc
  obtain ⟨hlast, hiff⟩ := rolledBack_iff hreach hmem hr
  refine ⟨w, hw, ⟨c, hmem, hr⟩, hlast, ((hiff _ _ rfl rfl).2 _).mpr (.inr ⟨?_, ?_, ?_⟩)⟩
  · decide +kernel
  · rw [hrollback]
    exact ⟨rfl, rfl, rfl, rfl, rfl⟩
  · intro _ path hpath
    rw [hbackup] at hpath
    cases hpath

/-- The follower does not become healthy with the new binary. -/
def followerFails : FleetOutcomes :=
  fleetAnswers (fun _ => .ok "aegis-server.backup") fun _ => false

def followerFailsEvents : List NodeEvent :=
  [.begun [leaderNode, followerNode], .backedUp "aegis-server.backup", .applied followerNode,
    .rolledBack ⟨"http://f", "aegis-server.backup"⟩ true (.ok ())]

/-- A follower with a binary of its own keeps the new one, though its rollback succeeds. -/
theorem not_rolledBack : ∃ w, (system "aegis-server").Reachable w ∧ ∃ c ∈ w.calls, ∃ e events,
    c.prog.result? = some (.error e, events) ∧ ¬RolledBack (fun _ => false) events := by
  have hrun : (((system "aegis-server").run (fun _ _ => True) (execution followerFails 28)).any
      fun w => decide ((w.calls[0]?.bind fun c => c.prog.result?) =
        some (.error (.healthCheckFailed "Node Follower failed health check after update"),
          followerFailsEvents))) = true := by
    decide +kernel
  obtain ⟨w, -, hreach, hended⟩ := System.exists_reach_of_any hrun
  obtain ⟨c, hc, hr⟩ := Option.bind_eq_some_iff.mp (of_decide_eq_true hended)
  refine ⟨w, hreach, c, List.mem_of_getElem? hc, _, _, hr, fun h => ?_⟩
  have hbinary := h.binary followerNode (by simp [followerFailsEvents])
    ⟨[], fun _ => [], fun _ => []⟩ [0]
  simp [followerFailsEvents, Binaries.afterAll, Binaries.after, Binaries.binary] at hbinary

end FleetSession

end AegisDB.Updates
