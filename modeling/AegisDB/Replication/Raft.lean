import AegisDB.Replication.Log
import Mathlib.Data.List.AList
import Mathlib.Data.Finset.Card
import Mathlib.Data.List.Sort

/-!
# A node of the Raft cluster

`RaftNode` is the node of `raft.rs`, and each handler of the source is one definition here.  The
handlers take the node and return it changed, with their reply.

The clocks are left out: `last_heartbeat` only decides when an election starts, and `lease_expiry`
only when a leader steps down, so both are events that may happen at any moment.  Hash maps are
`AList`s, hash sets are `Finset`s or duplicate-free lists, and the `u64` counters are natural
numbers.  The state machine, the serialisation of commands and snapshots, and the checksum come
from other crates; they are the parameters gathered in `StateMachineBackend`.
-/

namespace AegisDB

namespace Replication

/-- Result of applying a command. -/
structure CommandResult where
  success : Bool
  value : Option Bytes
  error : Option String
  appliedIndex : ℕ

/-- A replicated state machine with states `S`, its commands `C` and their serialisation. -/
structure StateMachineBackend (S C Snap : Type*) where
  new : S
  apply : S → C → ℕ → S × CommandResult
  snapshot : S → Snap
  restore : S → Snap → S
  commandToBytes : C → Bytes
  commandFromBytes : Bytes → Option C
  snapshotToBytes : Snap → Bytes
  snapshotFromBytes : Bytes → Option Snap
  crc32 : Bytes → UInt32

/-- Default chunk size for snapshot transfers (64KB). -/
def snapshotChunkSize : ℕ := 64 * 1024

/-- Configuration for the Raft consensus algorithm. -/
structure RaftConfig where
  /-- The largest number of entries in one append request. -/
  maxEntriesPerRequest : ℕ := 100

/-- Role of a node in the cluster. -/
inductive NodeRole
  | follower
  | candidate
  | leader
deriving DecidableEq, Repr

/-- Persistent state for Raft consensus. -/
structure RaftState (N : Type*) where
  currentTerm : ℕ := 0
  votedFor : Option N := none
  commitIndex : ℕ := 0
  lastApplied : ℕ := 0

/-- Request for a vote during leader election. -/
structure VoteRequest (N : Type*) where
  term : ℕ
  candidateId : N
  lastLogIndex : ℕ
  lastLogTerm : ℕ

/-- Response to a vote request. -/
structure VoteResponse (N : Type*) where
  term : ℕ
  voteGranted : Bool
  voterId : N

/-- Request to append entries to the log. -/
structure AppendEntriesRequest (N : Type*) where
  term : ℕ
  leaderId : N
  prevLogIndex : ℕ
  prevLogTerm : ℕ
  entries : List LogEntry
  leaderCommit : ℕ

/-- Response to an append entries request. -/
structure AppendEntriesResponse where
  term : ℕ
  success : Bool
  matchIndex : ℕ
  /-- Where the leader should continue after a refusal. -/
  conflictIndex : Option ℕ
  conflictTerm : Option ℕ

/-- Request to install a snapshot. -/
structure InstallSnapshotRequest (N : Type*) where
  term : ℕ
  leaderId : N
  lastIncludedIndex : ℕ
  lastIncludedTerm : ℕ
  offset : ℕ
  data : Bytes
  done : Bool
  /-- The checksum of the whole snapshot, sent with the last chunk. -/
  checksum : Option UInt32

/-- Response to an install snapshot request. -/
structure InstallSnapshotResponse where
  term : ℕ

/-- Snapshot metadata for tracking snapshot state. -/
structure SnapshotMetadata where
  lastIncludedIndex : ℕ
  lastIncludedTerm : ℕ
  size : ℕ

/-- In-progress snapshot being received from leader. -/
structure PendingSnapshot where
  metadata : SnapshotMetadata
  data : Bytes
  offset : ℕ

/-- A node in the Raft cluster. -/
structure RaftNode (N S : Type*) where
  id : N
  config : RaftConfig
  state : RaftState N := {}
  role : NodeRole := .follower
  log : ReplicatedLog := {}
  stateMachine : S
  peers : List N := []
  leaderId : Option N := none
  nextIndex : AList (fun _ : N => ℕ) := ∅
  matchIndex : AList (fun _ : N => ℕ) := ∅
  votesReceived : Finset N := ∅
  snapshotMetadata : Option SnapshotMetadata := none
  pendingSnapshot : Option PendingSnapshot := none

/-- The loop of `find_first_index_of_term`, entered with `index`. -/
def ReplicatedLog.findFirstIndexOfTermFrom (r : ReplicatedLog) (term : ℕ) : ℕ → ℕ
  | 0 => 1
  | index + 1 =>
    match r.termAt (index + 1) with
    | some t => if t ≠ term then index + 2 else r.findFirstIndexOfTermFrom term index
    | none => r.findFirstIndexOfTermFrom term index

/-- The index of the last entry an append request vouches for. -/
def AppendEntriesRequest.lastNewIndex {N : Type*} (request : AppendEntriesRequest N) : ℕ :=
  match request.entries.getLast? with
  | some entry => entry.index
  | none => request.prevLogIndex

namespace RaftNode

variable {N S C Snap : Type*}

/-- Create a new Raft node with a custom state machine backend. -/
def withStateMachine (id : N) (config : RaftConfig) (stateMachine : S) : RaftNode N S :=
  { id, config, stateMachine }

def isLeader (x : RaftNode N S) : Bool := x.role = .leader

def clusterSize (x : RaftNode N S) : ℕ := x.peers.length + 1

def quorumSize (x : RaftNode N S) : ℕ := x.clusterSize / 2 + 1

/-- The step down of the reply handlers: a later term was seen, its leader is not known. -/
def stepDown (x : RaftNode N S) (term : ℕ) : RaftNode N S :=
  { x with
    state := { x.state with currentTerm := term, votedFor := none }
    role := .follower
    leaderId := none }

/-- The effect of an expired leader lease: the leader becomes a follower of nobody. -/
def checkLease (x : RaftNode N S) : RaftNode N S :=
  if x.isLeader then { x with role := .follower, leaderId := none } else x

variable [DecidableEq N]

/-- Add a peer to the cluster. -/
def addPeer (x : RaftNode N S) (peerId : N) : RaftNode N S :=
  { x with
    peers := x.peers.insert peerId
    nextIndex := x.nextIndex.insert peerId (x.log.lastIndex + 1)
    matchIndex := x.matchIndex.insert peerId 0 }

/-! ## Leader election -/

/-- Start an election as a candidate. -/
def startElection (x : RaftNode N S) : RaftNode N S × VoteRequest N :=
  let term := x.state.currentTerm + 1
  ({ x with
      state := { x.state with currentTerm := term, votedFor := some x.id }
      role := .candidate
      leaderId := none
      votesReceived := {x.id} },
    { term
      candidateId := x.id
      lastLogIndex := x.log.lastIndex
      lastLogTerm := x.log.lastTerm })

/-- A request for a vote in a later term makes the node step down. -/
def noticeTerm (x : RaftNode N S) (term : ℕ) : RaftNode N S :=
  if x.state.currentTerm < term then x.stepDown term else x

/-- Whether a node gives its vote, once it has noticed the term of the request. -/
def grantsVote (x : RaftNode N S) (request : VoteRequest N) : Bool :=
  x.state.currentTerm ≤ request.term ∧
    (x.state.votedFor = none ∨ x.state.votedFor = some request.candidateId) ∧
    x.log.isUpToDate request.lastLogIndex request.lastLogTerm

/-- Handle a vote request. -/
def handleVoteRequest (x : RaftNode N S) (request : VoteRequest N) :
    RaftNode N S × VoteResponse N :=
  let x := x.noticeTerm request.term
  let voteGranted := x.grantsVote request
  let response : VoteResponse N :=
    { term := x.state.currentTerm, voteGranted, voterId := x.id }
  if voteGranted then
    ({ x with state := { x.state with votedFor := some request.candidateId } }, response)
  else (x, response)

/-- Become the leader with a specific term. -/
def becomeLeaderWithTerm (x : RaftNode N S) (term : ℕ) : RaftNode N S :=
  let lastLog := x.log.lastIndex
  { x with
    role := .leader
    leaderId := some x.id
    nextIndex := x.peers.foldl (fun m peer => m.insert peer (lastLog + 1)) x.nextIndex
    matchIndex := x.peers.foldl (fun m peer => m.insert peer 0) x.matchIndex
    log := (x.log.append (.noop (lastLog + 1) term)).2 }

/-- Count the vote of a response that grants it. -/
def countVote (x : RaftNode N S) (response : VoteResponse N) : RaftNode N S :=
  if response.voteGranted then
    { x with votesReceived := insert response.voterId x.votesReceived }
  else x

/-- Handle a vote response.  The Boolean says whether the node became the leader. -/
def handleVoteResponse (x : RaftNode N S) (response : VoteResponse N) : RaftNode N S × Bool :=
  if x.state.currentTerm < response.term then (x.stepDown response.term, false)
  else if x.role ≠ .candidate ∨ response.term ≠ x.state.currentTerm then (x, false)
  else
    let x := x.countVote response
    if x.quorumSize ≤ x.votesReceived.card then
      (x.becomeLeaderWithTerm x.state.currentTerm, true)
    else (x, false)

/-! ## Log replication -/

/-- Propose a command (leader only). -/
def propose (B : StateMachineBackend S C Snap) (x : RaftNode N S) (command : C) :
    RaftNode N S × Except String ℕ :=
  if ¬ x.isLeader then (x, .error "Not the leader")
  else
    let index := x.log.lastIndex + 1
    let entry := LogEntry.command index x.state.currentTerm (B.commandToBytes command)
    ({ x with log := (x.log.append entry).2 }, .ok index)

/-- Create an append entries request for a peer. -/
def createAppendEntries (x : RaftNode N S) (peerId : N) : Option (AppendEntriesRequest N) :=
  if ¬ x.isLeader then none
  else
    (x.nextIndex.lookup peerId).map fun nextIndex =>
      let prevLogIndex := nextIndex - 1
      { term := x.state.currentTerm
        leaderId := x.id
        prevLogIndex
        prevLogTerm := (x.log.termAt prevLogIndex).getD 0
        entries := (x.log.getRange nextIndex (x.log.lastIndex + 1)).take
          x.config.maxEntriesPerRequest
        leaderCommit := x.state.commitIndex }

/-- The first index of the run of entries of a term that ends at the last index. -/
def findFirstIndexOfTerm (x : RaftNode N S) (term : ℕ) : ℕ :=
  x.log.findFirstIndexOfTermFrom term x.log.lastIndex

/-- The refusal of an append request whose previous entry the log does not have. -/
def refusal (x : RaftNode N S) (request : AppendEntriesRequest N) :
    Option AppendEntriesResponse :=
  if request.prevLogIndex = 0 then none
  else
    match x.log.termAt request.prevLogIndex with
    | none =>
      some
        { term := x.state.currentTerm
          success := false
          matchIndex := x.log.lastIndex
          conflictIndex := some (x.log.lastIndex + 1)
          conflictTerm := none }
    | some term =>
      if term ≠ request.prevLogTerm then
        some
          { term := x.state.currentTerm
            success := false
            matchIndex := 0
            conflictIndex := some (x.findFirstIndexOfTerm term)
            conflictTerm := some term }
      else none

/-- The part of `handle_append_entries` that follows the leader's commit index. -/
def followCommit (x : RaftNode N S) (request : AppendEntriesRequest N) : RaftNode N S :=
  if x.state.commitIndex < request.leaderCommit then
    let commitIndex := min request.leaderCommit request.lastNewIndex
    { x with
      state := { x.state with commitIndex }
      log := x.log.setCommitIndex commitIndex }
  else x

/-- The start of `handle_append_entries`: the node follows the sender in the sender's term. -/
def followLeader (x : RaftNode N S) (term : ℕ) (leader : N) : RaftNode N S :=
  { x with
    state :=
      if x.state.currentTerm < term then
        { x.state with currentTerm := term, votedFor := none }
      else x.state
    role := .follower
    leaderId := some leader }

/-- The part of `handle_append_entries` behind the consistency check. -/
def acceptEntries (x : RaftNode N S) (request : AppendEntriesRequest N) : RaftNode N S :=
  followCommit { x with log := x.log.reconcile request.entries } request

/-- Handle an append entries request. -/
def handleAppendEntries (x : RaftNode N S) (request : AppendEntriesRequest N) :
    RaftNode N S × AppendEntriesResponse :=
  if request.term < x.state.currentTerm then
    (x,
      { term := x.state.currentTerm
        success := false
        matchIndex := 0
        conflictIndex := none
        conflictTerm := none })
  else
    let x := x.followLeader request.term request.leaderId
    match x.refusal request with
    | some response => (x, response)
    | none =>
      let x := x.acceptEntries request
      (x,
        { term := x.state.currentTerm
          success := true
          matchIndex := x.log.lastIndex
          conflictIndex := none
          conflictTerm := none })

/-- The reported indices and the node's own last index, in increasing order. -/
def matchIndices (x : RaftNode N S) : List ℕ :=
  (x.matchIndex.entries.map Sigma.snd ++ [x.log.lastIndex]).insertionSort (· ≤ ·)

/-- Try to advance the commit index based on match indices. -/
def tryAdvanceCommitIndex (x : RaftNode N S) : RaftNode N S :=
  let newCommit := x.matchIndices.getD (x.matchIndices.length / 2) 0
  if x.state.commitIndex < newCommit ∧ x.log.termAt newCommit = some x.state.currentTerm then
    { x with
      state := { x.state with commitIndex := newCommit }
      log := x.log.setCommitIndex newCommit }
  else x

/-- Note what a peer has reported after accepting a request. -/
def recordMatch (x : RaftNode N S) (peerId : N) (matchIndex : ℕ) : RaftNode N S :=
  { x with
    matchIndex := x.matchIndex.insert peerId matchIndex
    nextIndex := x.nextIndex.insert peerId (matchIndex + 1) }

/-- Continue elsewhere after a peer has refused a request. -/
def retryFrom (x : RaftNode N S) (peerId : N) (response : AppendEntriesResponse) : RaftNode N S :=
  match response.conflictIndex with
  | some conflictIndex => { x with nextIndex := x.nextIndex.insert peerId conflictIndex }
  | none =>
    let current := (x.nextIndex.lookup peerId).getD 1
    { x with nextIndex := x.nextIndex.insert peerId (max (current - 1) 1) }

/-- Handle an append entries response. -/
def handleAppendEntriesResponse (x : RaftNode N S) (peerId : N)
    (response : AppendEntriesResponse) : RaftNode N S :=
  if x.state.currentTerm < response.term then x.stepDown response.term
  else if ¬ x.isLeader then x
  else if response.success then (x.recordMatch peerId response.matchIndex).tryAdvanceCommitIndex
  else x.retryFrom peerId response

/-! ## State machine application -/

/-- One turn of the loop of `apply_committed`: the entry is handed to the state machine when it
holds a command.  The command and its index are returned with the result. -/
def applyNext (B : StateMachineBackend S C Snap) (x : RaftNode N S) :
    RaftNode N S × List (ℕ × C × CommandResult) :=
  match x.log.nextToApply with
  | none => (x, [])
  | some entry =>
    let (stateMachine, results) :=
      match B.commandFromBytes entry.data with
      | some command =>
        let (stateMachine, result) := B.apply x.stateMachine command entry.index
        (stateMachine, [(entry.index, command, result)])
      | none => (x.stateMachine, [])
    ({ x with
        stateMachine
        log := x.log.setLastApplied entry.index
        state := { x.state with lastApplied := entry.index } }, results)

/-- Apply committed entries to the state machine, for at most `turns` turns of the loop. -/
def applyCommitted (B : StateMachineBackend S C Snap) :
    ℕ → RaftNode N S → RaftNode N S × List (ℕ × C × CommandResult)
  | 0, x => (x, [])
  | turns + 1, x =>
    if x.log.hasEntriesToApply then
      let (x, results) := x.applyNext B
      let (x, later) := applyCommitted B turns x
      (x, results ++ later)
    else (x, [])

/-! ## Snapshot operations -/

/-- Take a snapshot of the current state and compact the log. -/
def takeSnapshot (B : StateMachineBackend S C Snap) (x : RaftNode N S) :
    RaftNode N S × Option SnapshotMetadata :=
  let lastApplied := x.state.lastApplied
  if lastApplied = 0 then (x, none)
  else
    match x.log.termAt lastApplied with
    | none => (x, none)
    | some lastAppliedTerm =>
      let metadata : SnapshotMetadata :=
        { lastIncludedIndex := lastApplied
          lastIncludedTerm := lastAppliedTerm
          size := (B.snapshotToBytes (B.snapshot x.stateMachine)).length }
      ({ x with
          log := x.log.compact lastApplied lastAppliedTerm
          snapshotMetadata := some metadata }, some metadata)

/-- Get the current snapshot data (for sending to followers). -/
def getSnapshotData (B : StateMachineBackend S C Snap) (x : RaftNode N S) :
    Option (SnapshotMetadata × Bytes) :=
  x.snapshotMetadata.map fun metadata =>
    (metadata, B.snapshotToBytes (B.snapshot x.stateMachine))

/-- Create an InstallSnapshot request for a lagging peer.  An offset past the end of the data is
out of range in the source, and no request results. -/
def createInstallSnapshot (B : StateMachineBackend S C Snap) (x : RaftNode N S) (peerId : N)
    (offset : ℕ) : Option (InstallSnapshotRequest N) :=
  if ¬ x.isLeader then none
  else
    match x.nextIndex.lookup peerId, x.getSnapshotData B with
    | some nextIndex, some (metadata, data) =>
      if metadata.lastIncludedIndex < nextIndex ∨ data.length < offset then none
      else
        let stop := min (offset + snapshotChunkSize) data.length
        let done : Bool := data.length ≤ stop
        some
          { term := x.state.currentTerm
            leaderId := x.id
            lastIncludedIndex := metadata.lastIncludedIndex
            lastIncludedTerm := metadata.lastIncludedTerm
            offset
            data := (data.drop offset).take (stop - offset)
            done
            checksum := if done then some (B.crc32 data) else none }
    | _, _ => none

/-- The part of `handle_install_snapshot` that follows the last chunk: a snapshot with the right
checksum is restored, and the log is compacted up to its last index. -/
def installSnapshot (B : StateMachineBackend S C Snap) (x : RaftNode N S)
    (metadata : SnapshotMetadata) (data : Bytes) (checksum : Option UInt32) : RaftNode N S :=
  let x := { x with pendingSnapshot := none }
  if checksum.any fun expected => B.crc32 data ≠ expected then x
  else
    match B.snapshotFromBytes data with
    | none => x
    | some restored =>
      let commitIndex := max x.state.commitIndex metadata.lastIncludedIndex
      let log := x.log.compact metadata.lastIncludedIndex metadata.lastIncludedTerm
      { x with
        stateMachine := B.restore x.stateMachine restored
        log := (log.setCommitIndex commitIndex).setLastApplied metadata.lastIncludedIndex
        state := { x.state with commitIndex, lastApplied := metadata.lastIncludedIndex }
        snapshotMetadata := some { metadata with size := data.length } }

/-- The snapshot a chunk belongs to: a chunk at offset `0` starts a new one. -/
def pendingFor (x : RaftNode N S) (request : InstallSnapshotRequest N) : Option PendingSnapshot :=
  if request.offset = 0 then
    some
      { metadata :=
          { lastIncludedIndex := request.lastIncludedIndex
            lastIncludedTerm := request.lastIncludedTerm
            size := 0 }
        data := []
        offset := 0 }
  else x.pendingSnapshot

/-- The start of `handle_install_snapshot`: unlike `followLeader` it leaves the role alone when
the term is the node's own. -/
def followSnapshot (x : RaftNode N S) (term : ℕ) (leader : N) : RaftNode N S :=
  { x with
    state :=
      if x.state.currentTerm < term then
        { x.state with currentTerm := term, votedFor := none }
      else x.state
    role := if x.state.currentTerm < term then .follower else x.role
    leaderId := some leader }

/-- The part of `handle_install_snapshot` that adds a chunk to the snapshot it belongs to. -/
def receiveChunk (B : StateMachineBackend S C Snap) (x : RaftNode N S)
    (request : InstallSnapshotRequest N) : RaftNode N S :=
  match x.pendingFor request with
  | none => { x with pendingSnapshot := none }
  | some snapshot =>
    if request.offset ≠ snapshot.offset then { x with pendingSnapshot := none }
    else
      let data := snapshot.data ++ request.data
      if request.done then x.installSnapshot B snapshot.metadata data request.checksum
      else
        { x with
          pendingSnapshot := some
            { snapshot with data, offset := snapshot.offset + request.data.length } }

/-- Handle an InstallSnapshot request from the leader. -/
def handleInstallSnapshot (B : StateMachineBackend S C Snap) (x : RaftNode N S)
    (request : InstallSnapshotRequest N) : RaftNode N S × InstallSnapshotResponse :=
  if request.term < x.state.currentTerm then (x, { term := x.state.currentTerm })
  else
    let x := x.followSnapshot request.term request.leaderId
    (x.receiveChunk B request, { term := x.state.currentTerm })

/-- Handle an InstallSnapshot response from a follower. -/
def handleInstallSnapshotResponse (x : RaftNode N S) (peerId : N)
    (response : InstallSnapshotResponse) (wasLastChunk : Bool) : RaftNode N S :=
  if x.state.currentTerm < response.term then x.stepDown response.term
  else if ¬ x.isLeader then x
  else if wasLastChunk then
    match x.snapshotMetadata with
    | some metadata =>
      { x with
        nextIndex := x.nextIndex.insert peerId (metadata.lastIncludedIndex + 1)
        matchIndex := x.matchIndex.insert peerId metadata.lastIncludedIndex }
    | none => x
  else x

end RaftNode

end Replication

end AegisDB
