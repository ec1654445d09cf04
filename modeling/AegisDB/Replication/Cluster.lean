import AegisDB.Library.Crc32
import AegisDB.Library.Transition
import AegisDB.Replication.Raft

/-!
# A cluster of Raft nodes and its network

The members of a `Cluster` are fixed, and every node's peer list is the rest of them.  A message
stays in `sent` once it has been sent; a delivery hands any message of it to the target, so that
messages are lost, duplicated and reordered at will.  Elections start, leases expire, entries are
applied and snapshots are taken and sent at any moment.

`votes`, `elected` and `applied` only record what has happened: which votes were cast, which node
became the leader of which term, which command a node's state machine was given at which index.
For the same purpose the reply to an append request carries the last term of the follower's log at
the moment of the reply.  No handler reads any of these.
-/

namespace AegisDB

namespace Replication

/-- The content of a message in the Raft protocol. -/
inductive MessagePayload (N : Type*)
  | voteRequest (request : VoteRequest N)
  | voteResponse (response : VoteResponse N)
  | appendEntries (request : AppendEntriesRequest N)
  /-- The answer to a request to append entries, and the last term of the log that gave it. -/
  | appendEntriesResponse (response : AppendEntriesResponse) (lastTerm : ℕ)
  | installSnapshot (request : InstallSnapshotRequest N)
  /-- The answer to a chunk of a snapshot, and whether the chunk was the last one. -/
  | installSnapshotResponse (response : InstallSnapshotResponse) (wasLastChunk : Bool)

/-- A message in the Raft protocol. -/
structure Message (N : Type*) where
  source : N
  target : N
  payload : MessagePayload N

/-- The nodes of a cluster, with their configurations and the implementations they share. -/
structure Deployment (N S C Snap : Type*) where
  members : List N
  nodup : members.Nodup
  config : N → RaftConfig
  backend : StateMachineBackend S C Snap

/-- The state of the cluster and of its network. -/
structure Cluster (N S C : Type*) where
  nodes : N → RaftNode N S
  sent : List (Message N) := []
  /-- Every vote ever cast: the voter, the term and the candidate. -/
  votes : List (N × ℕ × N) := []
  /-- Every election ever won: the term and the leader. -/
  elected : List (ℕ × N) := []
  /-- Every command ever given to a state machine: the node, the index and the command. -/
  applied : List (N × ℕ × C) := []

/-- What can happen in a cluster. -/
inductive ClusterAction (N C : Type*)
  | electionTimeout (node : N)
  | checkLease (node : N)
  | propose (node : N) (command : C)
  /-- A leader sends a peer the entries it lacks, or a heartbeat. -/
  | sendAppendEntries (node peer : N)
  /-- A node applies committed entries for some turns of the loop. -/
  | applyCommitted (node : N) (turns : ℕ)
  | takeSnapshot (node : N)
  | sendInstallSnapshot (node peer : N) (offset : ℕ)
  | deliver (position : ℕ)

/-- What an event does: it changes one node, sends messages and is put on record. -/
structure Outcome (N S C : Type*) where
  node : RaftNode N S
  sent : List (Message N) := []
  /-- The candidates the node voted for, with the term. -/
  votes : List (ℕ × N) := []
  elected : List ℕ := []
  /-- The commands given to the state machine, with their indices. -/
  applied : List (ℕ × C) := []

variable {N S C Snap : Type*}

/-- Record an event at node `n`. -/
def Cluster.record [DecidableEq N] (s : Cluster N S C) (n : N) (o : Outcome N S C) :
    Cluster N S C where
  nodes := Function.update s.nodes n o.node
  sent := s.sent ++ o.sent
  votes := s.votes ++ o.votes.map fun v => (n, v)
  elected := s.elected ++ o.elected.map fun term => (term, n)
  applied := s.applied ++ o.applied.map fun a => (n, a)

variable [DecidableEq N]

/-- Process an incoming message: the node's handler for it, and the reply to the sender. -/
def RaftNode.processMessage (B : StateMachineBackend S C Snap) (x : RaftNode N S) (n source : N) :
    MessagePayload N → Outcome N S C
  | .voteRequest request =>
    let (x, response) := x.handleVoteRequest request
    { node := x
      sent := [⟨n, source, .voteResponse response⟩]
      votes := if response.voteGranted then [(response.term, request.candidateId)] else [] }
  | .voteResponse response =>
    let (x, becameLeader) := x.handleVoteResponse response
    { node := x, elected := if becameLeader then [x.state.currentTerm] else [] }
  | .appendEntries request =>
    let (x, response) := x.handleAppendEntries request
    { node := x, sent := [⟨n, source, .appendEntriesResponse response x.log.lastTerm⟩] }
  | .appendEntriesResponse response _ =>
    { node := x.handleAppendEntriesResponse source response }
  | .installSnapshot request =>
    let (x, response) := x.handleInstallSnapshot B request
    { node := x, sent := [⟨n, source, .installSnapshotResponse response request.done⟩] }
  | .installSnapshotResponse response wasLastChunk =>
    { node := x.handleInstallSnapshotResponse source response wasLastChunk }

/-- The node an action happens at and what it does there. -/
def Cluster.outcome (B : StateMachineBackend S C Snap) (s : Cluster N S C) :
    ClusterAction N C → Option (N × Outcome N S C)
  | .electionTimeout n =>
    let (x, request) := (s.nodes n).startElection
    some (n,
      { node := x
        sent := x.peers.map fun peer => ⟨n, peer, .voteRequest request⟩
        votes := [(request.term, n)] })
  | .checkLease n => some (n, { node := (s.nodes n).checkLease })
  | .propose n command => some (n, { node := ((s.nodes n).propose B command).1 })
  | .sendAppendEntries n peer =>
    ((s.nodes n).createAppendEntries peer).map fun request =>
      (n, { node := s.nodes n, sent := [⟨n, peer, .appendEntries request⟩] })
  | .applyCommitted n turns =>
    let (x, results) := (s.nodes n).applyCommitted B turns
    some (n, { node := x, applied := results.map fun r => (r.1, r.2.1) })
  | .takeSnapshot n => some (n, { node := ((s.nodes n).takeSnapshot B).1 })
  | .sendInstallSnapshot n peer offset =>
    ((s.nodes n).createInstallSnapshot B peer offset).map fun request =>
      (n, { node := s.nodes n, sent := [⟨n, peer, .installSnapshot request⟩] })
  | .deliver position =>
    s.sent[position]?.map fun message =>
      (message.target,
        (s.nodes message.target).processMessage B message.target message.source message.payload)

/-- A success reply to an append request, as the leader that counts it sees it. -/
structure CountedReply (N : Type*) where
  leader : N
  follower : N
  matchIndex : ℕ
  /-- The term in which the follower's log ended when it replied. -/
  lastTerm : ℕ

/-- The success reply that an action makes a leader count. -/
def Cluster.countedReply (s : Cluster N S C) : ClusterAction N C → Option (CountedReply N)
  | .deliver position =>
    s.sent[position]?.bind fun message =>
      match message.payload with
      | .appendEntriesResponse response lastTerm =>
        let x := s.nodes message.target
        if x.role = .leader ∧ response.success = true ∧ response.term ≤ x.state.currentTerm then
          some ⟨message.target, message.source, response.matchIndex, lastTerm⟩
        else none
      | _ => none
  | _ => none

omit [DecidableEq N] in
theorem countedReply_deliver {s : Cluster N S C} {position : ℕ} {source target : N}
    {response : AppendEntriesResponse} {lastTerm : ℕ}
    (hm : s.sent[position]? = some ⟨source, target, .appendEntriesResponse response lastTerm⟩)
    (hrole : (s.nodes target).role = .leader) (hsucc : response.success = true)
    (hle : response.term ≤ (s.nodes target).state.currentTerm) :
    ⟨target, source, response.matchIndex, lastTerm⟩ ∈ s.countedReply (.deliver position) := by
  simp [Cluster.countedReply, hm, hrole, hsucc, hle]

namespace Deployment

variable (D : Deployment N S C Snap)

/-- A node before anything has happened: its peers are the other members. -/
def initialNode (n : N) : RaftNode N S :=
  (D.members.filter (· ≠ n)).foldl RaftNode.addPeer
    (RaftNode.withStateMachine n (D.config n) D.backend.new)

/-- The cluster as a transition system.  Only members act. -/
def system : System (Cluster N S C) (ClusterAction N C) where
  init := { nodes := D.initialNode }
  step s a :=
    match s.outcome D.backend a with
    | some (n, o) => if n ∈ D.members then some (s.record n o) else none
    | none => none

theorem step_eq_some {s s' : Cluster N S C} {a : ClusterAction N C}
    (h : D.system.step s a = some s') :
    ∃ n o, s.outcome D.backend a = some (n, o) ∧ n ∈ D.members ∧ s' = s.record n o := by
  simp only [system] at h
  split at h
  · next n o ho =>
    split_ifs at h with hn
    exact ⟨n, o, ho, hn, (Option.some.inj h).symm⟩
  · cases h

end Deployment

/-- A state machine that keeps the commands it was given, each of them one byte. -/
def commandLog : StateMachineBackend Bytes UInt8 Bytes where
  new := []
  apply s c i := (s ++ [c], { success := true, value := none, error := none, appliedIndex := i })
  snapshot s := s
  restore _ s := s
  commandToBytes c := [c]
  commandFromBytes
    | [c] => some c
    | _ => none
  snapshotToBytes s := s
  snapshotFromBytes := some
  crc32 := Crc32.hash

/-- A cluster of the nodes `0`, …, `k - 1` that replicate a command log. -/
def commandLogCluster (k : ℕ) : Deployment ℕ Bytes UInt8 Bytes where
  members := List.range k
  nodup := List.nodup_range
  config _ := {}
  backend := commandLog

end Replication

end AegisDB
