import AegisDB.Library.Interleaving
import AegisDB.Library.Table

/-!
# The update orchestrator

Update plans, and the execution of one: the binary is downloaded and staged, first here and then on
every node, and then the nodes are updated one after the other, the leader last.  An execution is a
sequence of sections: those under the lock of the plans or of the nodes, and those that wait for the
outside, whose answers are given.
-/

namespace AegisDB.Updates

/-- Errors that can occur during the update process. -/
inductive UpdateError where
  | downloadFailed (message : String)
  | checksumMismatch (expected actual : String)
  | stagingFailed (message : String)
  | nodeUnreachable (message : String)
  | healthCheckFailed (message : String)
  | rollbackFailed (message : String)
  | planNotFound (planId : String)
  | updateInProgress
  | io (message : String)
deriving DecidableEq

/-- The text of an error. -/
def UpdateError.toText : UpdateError → String
  | .downloadFailed message => "Download failed: " ++ message
  | .checksumMismatch expected actual =>
    "Checksum mismatch: expected " ++ expected ++ ", got " ++ actual
  | .stagingFailed message => "Staging failed: " ++ message
  | .nodeUnreachable message => "Node unreachable: " ++ message
  | .healthCheckFailed message => "Health check failed: " ++ message
  | .rollbackFailed message => "Rollback failed: " ++ message
  | .planNotFound planId => "Plan not found: " ++ planId
  | .updateInProgress => "Update in progress"
  | .io message => "IO error: " ++ message

/-- Overall status of an update plan. -/
inductive UpdateStatus where
  | created
  | staging
  | inProgress
  | completed
  | failed
  | rolledBack
deriving DecidableEq

/-- Per-node status within an update plan. -/
inductive NodeUpdateStatus where
  | pending
  | staging
  | staged
  | draining
  | updating
  | restarting
  | verified
  | failed (message : String)
  | rolledBack
deriving DecidableEq

/-- A node in the cluster that participates in updates. -/
structure ClusterNode where
  nodeId : String
  name : String
  address : String
  role : String
deriving DecidableEq

/-- A plan describing a cluster-wide binary update. -/
structure UpdatePlan where
  id : String
  version : String
  binaryUrl : String
  sha256 : String
  status : UpdateStatus
  nodeStatuses : Table String NodeUpdateStatus

/-- What was backed up of a node that was updated. -/
structure RollbackEntry where
  nodeAddress : String
  backupPath : String
deriving DecidableEq

/-- The plans, and the nodes that they are for. -/
structure UpdateOrchestrator where
  plans : List UpdatePlan := []
  clusterNodes : List ClusterNode := []

/-- Whether a plan is being executed, as far as its status says. -/
def UpdateStatus.active : UpdateStatus → Bool
  | .staging | .inProgress => true
  | _ => false

/-! ## Sections -/

namespace UpdateOrchestrator

def setClusterNodes (self : UpdateOrchestrator) (nodes : List ClusterNode) : UpdateOrchestrator :=
  { self with clusterNodes := nodes }

def addNode (self : UpdateOrchestrator) (node : ClusterNode) : UpdateOrchestrator :=
  { self with clusterNodes := self.clusterNodes ++ [node] }

/-- Create a new update plan, with an identifier that is drawn. -/
def createPlan (self : UpdateOrchestrator) (id version binaryUrl sha256 : String) :
    UpdateOrchestrator :=
  let nodeStatuses := self.clusterNodes.foldl (fun statuses node =>
    statuses.insert node.nodeId .pending) (∅ : Table String NodeUpdateStatus)
  { self with plans :=
      self.plans ++ [{ id, version, binaryUrl, sha256, status := .created, nodeStatuses }] }

def getPlan (self : UpdateOrchestrator) (planId : String) : Option UpdatePlan :=
  self.plans.find? fun p => p.id = planId

def modifyPlan (planId : String) (f : UpdatePlan → UpdatePlan) :
    List UpdatePlan → List UpdatePlan
  | [] => []
  | p :: plans => if p.id = planId then f p :: plans else p :: modifyPlan planId f plans

def otherActive (self : UpdateOrchestrator) (planId : String) : Bool :=
  self.plans.any fun p => decide (p.id ≠ planId) && p.status.active

end UpdateOrchestrator

abbrev UpdateProg := Prog UpdateOrchestrator

abbrev UpdateResult := Except UpdateError Unit

/-- Change a plan, if there is one with the identifier. -/
def changePlan (planId : String) (f : UpdatePlan → UpdatePlan) : UpdateProg UpdateResult :=
  .atom (fun s => { s with plans := UpdateOrchestrator.modifyPlan planId f s.plans }) fun s =>
    .done (if (s.getPlan planId).isSome then .ok () else .error (.planNotFound planId))

def setPlanStatus (planId : String) (status : UpdateStatus) : UpdateProg UpdateResult :=
  changePlan planId fun plan => { plan with status }

/-- Update the status of a specific node within a plan. -/
def setNodeStatus (planId nodeId : String) (status : NodeUpdateStatus) : UpdateProg UpdateResult :=
  changePlan planId fun plan =>
    { plan with nodeStatuses := plan.nodeStatuses.insert nodeId status }

/-- Get a plan, or the error that there is none. -/
def requirePlan (planId : String) : UpdateProg (Except UpdateError UpdatePlan) :=
  Prog.read fun s =>
    match s.getPlan planId with
    | some plan => .ok plan
    | none => .error (.planNotFound planId)

def outside {ρ : Type} (answer : ρ) : UpdateProg ρ :=
  Prog.read fun _ => answer

/-! ## The execution of a plan -/

/-- What the outside answers during an execution: for the nodes by their places in the order in which
they are tried. -/
structure Outcomes where
  downloadBinary : Except UpdateError String
  verifySha256 : Except UpdateError Bool
  stageBinary : Except UpdateError Unit
  stageOnNode : ℕ → Except UpdateError Unit
  backupCurrentBinary : ℕ → Except UpdateError String
  applyOnNode : ℕ → Except UpdateError Unit
  waitForHealthy : ℕ → Except UpdateError Bool

section Execution

variable (planId : String) (outcomes : Outcomes)

def stageOnNode (i : ℕ) : UpdateProg UpdateResult :=
  (requirePlan planId).orReturn fun _ => outside (outcomes.stageOnNode i)

/-- Phase 2: stage on all nodes; one that fails makes the plan fail. -/
def stageOnNodes : ℕ → List ClusterNode → UpdateProg UpdateResult
  | _, [] => pure (.ok ())
  | i, node :: nodes =>
    (setNodeStatus planId node.nodeId .staging).orReturn fun _ => do
      match ← stageOnNode planId outcomes i with
      | .ok _ =>
        (setNodeStatus planId node.nodeId .staged).orReturn fun _ => stageOnNodes (i + 1) nodes
      | .error e =>
        (setNodeStatus planId node.nodeId (.failed e.toText)).orReturn fun _ =>
          (setPlanStatus planId .failed).orReturn fun _ => pure (.error e)

/-- Mark the nodes that were rolled back, as far as they are still known. -/
def markRolledBack : List RollbackEntry → UpdateProg Unit
  | [] => pure ()
  | entry :: entries => do
    match ← Prog.read fun s => s.clusterNodes.find? fun n => n.address = entry.nodeAddress with
    | none => markRolledBack entries
    | some node =>
      let _ ← setNodeStatus planId node.nodeId .rolledBack
      markRolledBack entries

/-- Roll back a list of already-updated nodes; what goes wrong is only noted. -/
def rollbackUpdatedNodes (entries : List RollbackEntry) : UpdateProg Unit :=
  if entries = [] then pure ()
  else do
    outside ()
    markRolledBack planId entries

/-- What follows when a node cannot be updated: the node has failed, the others are rolled back, and
so is the plan. -/
def rollBack (nodeId message : String) (entries : List RollbackEntry) (e : UpdateError) :
    UpdateProg UpdateResult :=
  (setNodeStatus planId nodeId (.failed message)).orReturn fun _ => do
    rollbackUpdatedNodes planId entries
    (setPlanStatus planId .rolledBack).orReturn fun _ => pure (.error e)

/-- Phase 3: update the nodes one after the other. -/
def updateNodes : ℕ → List ClusterNode → List RollbackEntry → UpdateProg UpdateResult
  | _, [], _ => pure (.ok ())
  | i, node :: nodes, entries => do
    match ← outside (outcomes.backupCurrentBinary i) with
    | .error e => rollBack planId node.nodeId e.toText entries e
    | .ok backupPath =>
      (setNodeStatus planId node.nodeId .draining).orReturn fun _ => do
        -- a node that does not drain is updated all the same
        outside ()
        (setNodeStatus planId node.nodeId .updating).orReturn fun _ => do
          match ← outside (outcomes.applyOnNode i) with
          | .error e => rollBack planId node.nodeId e.toText entries e
          | .ok _ =>
            (setNodeStatus planId node.nodeId .restarting).orReturn fun _ => do
              match ← outside (outcomes.waitForHealthy i) with
              | .ok true =>
                (setNodeStatus planId node.nodeId .verified).orReturn fun _ =>
                  updateNodes (i + 1) nodes (entries ++ [⟨node.address, backupPath⟩])
              | _ =>
                rollBack planId node.nodeId "Health check failed after restart"
                  (entries ++ [⟨node.address, backupPath⟩])
                  (.healthCheckFailed
                    ("Node " ++ node.name ++ " failed health check after update"))

def ClusterNode.isLeader (node : ClusterNode) : Bool :=
  decide (node.role.toLower = "leader")

/-- The nodes in the order in which they are updated: followers first, leader last. -/
def orderedNodes (nodes : List ClusterNode) : List ClusterNode :=
  nodes.filter (fun node => !node.isLeader) ++ nodes.filter ClusterNode.isLeader

/-- Phases 2 to 4, once the binary is staged here. -/
def rollOut : UpdateProg UpdateResult := do
  let nodes ← Prog.read UpdateOrchestrator.clusterNodes
  (stageOnNodes planId outcomes 0 nodes).orReturn fun _ =>
    (setPlanStatus planId .inProgress).orReturn fun _ =>
      (updateNodes planId outcomes 0 (orderedNodes nodes) []).orReturn fun _ =>
        setPlanStatus planId .completed

/-- What follows once the plan is in the status `Staging`. -/
def executeStaging : UpdateProg UpdateResult :=
  (requirePlan planId).orReturn fun plan =>
    (outside outcomes.downloadBinary).orReturn fun _ =>
      (outside outcomes.verifySha256).orReturn fun verified =>
        if verified then
          (outside outcomes.stageBinary).orReturn fun _ => rollOut planId outcomes
        else
          (setPlanStatus planId .failed).orReturn fun _ =>
            pure (.error (.checksumMismatch plan.sha256 "computed-hash-differs"))

/-- What follows once no other plan was being executed. -/
def executeChecked : UpdateProg UpdateResult :=
  (setPlanStatus planId .staging).orReturn fun _ => executeStaging planId outcomes

/-- Execute an update plan using rolling deployment. -/
def executePlan : UpdateProg UpdateResult := do
  if ← Prog.read fun s => s.otherActive planId then pure (.error .updateInProgress)
  else executeChecked planId outcomes

end Execution

end AegisDB.Updates
