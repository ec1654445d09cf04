import AegisDB.Replication.Handlers

/-!
# Chunked snapshot transfer

The cluster once more, with chunks of any size, the bounds of the chunk checked where the source
slices, and every snapshot that a node has ever had on record: what `getSnapshotData` returns after
a step of a run, as long as the node has applied nothing since it took its snapshot.

The leader serialises its state anew for each chunk, under the index of its last snapshot.  A chunk at an offset that was right before is
out of range when the state has become smaller.  What a follower puts together is what the last
chunk was cut from, since their checksums agree; but it installs that under the index and the term
that the first chunk named.
-/

namespace AegisDB

namespace Replication

variable {N S C Snap : Type*} [DecidableEq N]

/-! ## Chunks -/

/-- A slice beyond the end of the data. -/
inductive SliceError
  | outOfRange
  deriving DecidableEq

namespace RaftNode

/-- `create_install_snapshot` for chunks of any size. -/
def createChunk (chunkSize : ℕ) (B : StateMachineBackend S C Snap) (x : RaftNode N S) (peerId : N)
    (offset : ℕ) : Except SliceError (Option (InstallSnapshotRequest N)) :=
  if ¬ x.isLeader then .ok none
  else
    match x.nextIndex.lookup peerId, x.getSnapshotData B with
    | some nextIndex, some (metadata, data) =>
      if metadata.lastIncludedIndex < nextIndex then .ok none
      else
        let stop := min (offset + chunkSize) data.length
        if stop < offset then .error .outOfRange
        else
          let done : Bool := data.length ≤ stop
          .ok (some
            { term := x.state.currentTerm
              leaderId := x.id
              lastIncludedIndex := metadata.lastIncludedIndex
              lastIncludedTerm := metadata.lastIncludedTerm
              offset
              data := (data.drop offset).take (stop - offset)
              done
              checksum := if done then some (B.crc32 data) else none })
    | _, _ => .ok none

/-- A chunk that was built: it is cut from the snapshot that the node has. -/
theorem createChunk_eq_some {chunkSize : ℕ} {B : StateMachineBackend S C Snap} {x : RaftNode N S}
    {peerId : N} {offset : ℕ} {request : InstallSnapshotRequest N}
    (h : x.createChunk chunkSize B peerId offset = .ok (some request)) :
    ∃ metadata data, x.getSnapshotData B = some (metadata, data) ∧
      request.lastIncludedIndex = metadata.lastIncludedIndex ∧
      request.lastIncludedTerm = metadata.lastIncludedTerm ∧
      (request.done = true → request.checksum = some (B.crc32 data)) := by
  rw [createChunk] at h
  by_cases hleader : ¬ x.isLeader = true
  · rw [if_pos hleader] at h
    cases h
  · rw [if_neg hleader] at h
    cases hnext : x.nextIndex.lookup peerId with
    | none =>
      rw [hnext] at h
      cases h
    | some nextIndex =>
      rw [hnext] at h
      cases hdata : x.getSnapshotData B with
      | none =>
        rw [hdata] at h
        cases h
      | some p =>
        obtain ⟨metadata, data⟩ := p
        rw [hdata] at h
        dsimp only at h
        by_cases hindex : metadata.lastIncludedIndex < nextIndex
        · rw [if_pos hindex] at h
          cases h
        · rw [if_neg hindex] at h
          by_cases hstop : min (offset + chunkSize) data.length < offset
          · rw [if_pos hstop] at h
            cases h
          · rw [if_neg hstop] at h
            obtain rfl := Option.some.inj (Except.ok.inj h)
            exact ⟨metadata, data, rfl, rfl, rfl, fun hdone => if_pos hdone⟩

/-- A chunk at an offset within the data is not out of range. -/
theorem createChunk_ne_error {chunkSize : ℕ} {B : StateMachineBackend S C Snap} {x : RaftNode N S}
    {peerId : N} {offset : ℕ} (h : ∀ p ∈ x.getSnapshotData B, offset ≤ p.2.length) :
    x.createChunk chunkSize B peerId offset ≠ .error .outOfRange := by
  rw [createChunk]
  by_cases hleader : ¬ x.isLeader = true
  · rw [if_pos hleader]
    exact fun herror => (nomatch herror)
  · rw [if_neg hleader]
    cases x.nextIndex.lookup peerId with
    | none => exact fun herror => (nomatch herror)
    | some nextIndex =>
      cases hdata : x.getSnapshotData B with
      | none => exact fun herror => (nomatch herror)
      | some p =>
        have hoffset : ¬ min (offset + chunkSize) p.2.length < offset := by
          have hlen := h p hdata
          omega
        dsimp only
        by_cases hindex : p.1.lastIncludedIndex < nextIndex
        · rw [if_pos hindex]
          exact fun herror => (nomatch herror)
        · rw [if_neg hindex, if_neg hoffset]
          exact fun herror => (nomatch herror)

/-- The snapshot of a node whose state is still the one that the snapshot was taken of. -/
def ownSnapshot (B : StateMachineBackend S C Snap) (x : RaftNode N S) :
    Option (SnapshotMetadata × Bytes) :=
  (x.getSnapshotData B).filter fun p => x.state.lastApplied = p.1.lastIncludedIndex

/-- What a node has put together when it receives a chunk that it takes, if the chunk is the last
one. -/
def assembled (x : RaftNode N S) (request : InstallSnapshotRequest N) :
    Option (SnapshotMetadata × Bytes) :=
  (x.pendingFor request).bind fun snapshot =>
    if x.state.currentTerm ≤ request.term ∧ request.offset = snapshot.offset ∧
        request.done = true then
      some (snapshot.metadata, snapshot.data ++ request.data)
    else none

end RaftNode

/-- A snapshot that a node had. -/
structure HadSnapshot (N : Type*) where
  node : N
  metadata : SnapshotMetadata
  data : Bytes

/-- A node installs one of the snapshots that another node had, or nothing. -/
def InstallsOne (B : StateMachineBackend S C Snap) (had : List (HadSnapshot N)) (source : N)
    (x y : RaftNode N S) : Prop :=
  (y.stateMachine = x.stateMachine ∧ y.log = x.log ∧ y.snapshotMetadata = x.snapshotMetadata ∧
      y.state.commitIndex = x.state.commitIndex ∧ y.state.lastApplied = x.state.lastApplied) ∨
    ∃ h ∈ had, h.node = source ∧ ∃ restored, B.snapshotFromBytes h.data = some restored ∧
      y.stateMachine = B.restore x.stateMachine restored ∧
      y.state.lastApplied = h.metadata.lastIncludedIndex ∧
      y.snapshotMetadata = some { h.metadata with size := h.data.length }

omit [DecidableEq N] in
/-- The answer to a chunk: nothing is installed unless the chunk is the last one, its checksum is
that of what has been put together, and this can be deserialised. -/
theorem handleInstallSnapshot_installs {B : StateMachineBackend S C Snap} {x : RaftNode N S}
    {request : InstallSnapshotRequest N} {had : List (HadSnapshot N)} {source : N}
    (h : ∀ metadata data, x.assembled request = some (metadata, data) →
      (∀ expected ∈ request.checksum, B.crc32 data = expected) →
      ∃ h ∈ had, h.node = source ∧ h.data = data ∧
        h.metadata.lastIncludedIndex = metadata.lastIncludedIndex ∧
        h.metadata.lastIncludedTerm = metadata.lastIncludedTerm) :
    InstallsOne B had source x (x.handleInstallSnapshot B request).1 := by
  rw [RaftNode.handleInstallSnapshot]
  split_ifs with hterm
  · exact Or.inl ⟨rfl, rfl, rfl, rfl, rfl⟩
  · -- the term and the role do not matter for what is installed
    have hfollow : ∀ y : RaftNode N S, y = x.followSnapshot request.term request.leaderId →
        y.stateMachine = x.stateMachine ∧ y.log = x.log ∧
          y.snapshotMetadata = x.snapshotMetadata ∧
          y.state.commitIndex = x.state.commitIndex ∧
          y.state.lastApplied = x.state.lastApplied ∧ y.pendingFor request = x.pendingFor request := by
      rintro y rfl
      rw [RaftNode.followSnapshot]
      split_ifs
      · exact ⟨rfl, rfl, rfl, rfl, rfl, rfl⟩
      · exact ⟨rfl, rfl, rfl, rfl, rfl, rfl⟩
    dsimp only
    generalize x.followSnapshot request.term request.leaderId = y at hfollow
    obtain ⟨hmachine, hlog, hmeta, hcommit, hlast, hpending⟩ := hfollow y rfl
    rw [RaftNode.receiveChunk, hpending]
    cases hsnapshot : x.pendingFor request with
    | none => exact Or.inl ⟨hmachine, hlog, hmeta, hcommit, hlast⟩
    | some snapshot =>
      dsimp only
      split_ifs with hoffset hdone
      · exact Or.inl ⟨hmachine, hlog, hmeta, hcommit, hlast⟩
      · have hassembled : x.assembled request =
            some (snapshot.metadata, snapshot.data ++ request.data) := by
          rw [RaftNode.assembled, hsnapshot]
          exact if_pos ⟨not_lt.mp hterm, not_not.mp hoffset, hdone⟩
        rw [RaftNode.installSnapshot]
        dsimp only
        split_ifs with hchecksum
        · exact Or.inl ⟨hmachine, hlog, hmeta, hcommit, hlast⟩
        · cases hrestored : B.snapshotFromBytes (snapshot.data ++ request.data) with
          | none => exact Or.inl ⟨hmachine, hlog, hmeta, hcommit, hlast⟩
          | some restored =>
            have hequal : ∀ expected ∈ request.checksum,
                B.crc32 (snapshot.data ++ request.data) = expected := by
              intro expected hexpected
              rw [Option.mem_def] at hexpected
              rw [hexpected] at hchecksum
              simpa using hchecksum
            obtain ⟨had', hmem, hsource, hdata, hindex, hterm'⟩ := h _ _ hassembled hequal
            refine Or.inr ⟨had', hmem, hsource, restored, ?_, ?_, hindex.symm, ?_⟩
            · rw [hdata, hrestored]
            · rw [hmachine]
            · rw [hdata]
              simp only [hindex, hterm']
      · exact Or.inl ⟨hmachine, hlog, hmeta, hcommit, hlast⟩

/-! ## Runs -/

/-- The cluster and the snapshots that its nodes have had. -/
structure Transfer (N S C : Type*) where
  cluster : Cluster N S C
  had : List (HadSnapshot N) := []

/-- The node an action happens at and what it does there, with chunks of any size. -/
def Cluster.transferOutcome (chunkSize : ℕ) (B : StateMachineBackend S C Snap)
    (s : Cluster N S C) : ClusterAction N C → Option (N × Outcome N S C)
  | .sendInstallSnapshot n peer offset =>
    match (s.nodes n).createChunk chunkSize B peer offset with
    | .ok (some request) =>
      some (n, { node := s.nodes n, sent := [⟨n, peer, .installSnapshot request⟩] })
    | _ => none
  | a => s.outcome B a

namespace Deployment

variable (D : Deployment N S C Snap)

def snapshots (s : Cluster N S C) : List (HadSnapshot N) :=
  D.members.filterMap fun n =>
    ((s.nodes n).ownSnapshot D.backend).map fun p => ⟨n, p.1, p.2⟩

/-- The cluster with chunks of any size, and with a record of the snapshots. -/
def transferSystem (chunkSize : ℕ) : System (Transfer N S C) (ClusterAction N C) where
  init := { cluster := { nodes := D.initialNode } }
  step w a :=
    match w.cluster.transferOutcome chunkSize D.backend a with
    | some (n, o) =>
      if n ∈ D.members then
        some
          { cluster := w.cluster.record n o
            had := w.had ++ D.snapshots (w.cluster.record n o) }
      else none
    | none => none

/-- A step is safe: a chunk that is built is within the data, and a chunk that is delivered makes
the receiver install a snapshot that the sender had, or nothing. -/
def TransfersSafely (chunkSize : ℕ) (w : Transfer N S C) : ClusterAction N C → Prop
  | .sendInstallSnapshot n peer offset =>
    (w.cluster.nodes n).createChunk chunkSize D.backend peer offset ≠ .error .outOfRange
  | .deliver position =>
    ∀ message ∈ w.cluster.sent[position]?, ∀ request,
      message.payload = .installSnapshot request →
        InstallsOne D.backend w.had message.source (w.cluster.nodes message.target)
          ((w.cluster.nodes message.target).handleInstallSnapshot D.backend request).1
  | _ => True

/-- For a chunk that is delivered, the checksum tells what the receiver has put together from the
snapshots that the nodes have had. -/
def ChecksumTells (w : Transfer N S C) (message : Message N) : Prop :=
  match message.payload with
  | .installSnapshot request =>
    ∀ p ∈ (w.cluster.nodes message.target).assembled request, ∀ h ∈ w.had,
      D.backend.crc32 p.2 = D.backend.crc32 h.data → p.2 = h.data
  | _ => True

/-- A last chunk that is delivered names the index and the term that the first chunk has named. -/
def NamesSame (w : Transfer N S C) (message : Message N) : Prop :=
  match message.payload with
  | .installSnapshot request =>
    ∀ p ∈ (w.cluster.nodes message.target).assembled request,
      p.1.lastIncludedIndex = request.lastIncludedIndex ∧
        p.1.lastIncludedTerm = request.lastIncludedTerm
  | _ => True

def NoCollision (w : Transfer N S C) : ClusterAction N C → Prop
  | .deliver position => ∀ message ∈ w.cluster.sent[position]?, D.ChecksumTells w message
  | _ => True

/-- A chunk is built at an offset within the data by a node that has applied nothing since it took its
snapshot, and a last chunk names the index and the term that the first chunk has named. -/
def Steady (w : Transfer N S C) : ClusterAction N C → Prop
  | .sendInstallSnapshot n _ offset =>
    ∀ p ∈ (w.cluster.nodes n).getSnapshotData D.backend, offset ≤ p.2.length ∧
      (w.cluster.nodes n).state.lastApplied = p.1.lastIncludedIndex
  | .deliver position => ∀ message ∈ w.cluster.sent[position]?, NamesSame w message
  | _ => True

instance (w : Transfer N S C) (message : Message N) : Decidable (D.ChecksumTells w message) :=
  match message with
  | ⟨_, _, .installSnapshot _⟩ => inferInstanceAs (Decidable (∀ p ∈ _, ∀ h ∈ w.had, _ → _))
  | ⟨_, _, .voteRequest _⟩ | ⟨_, _, .voteResponse _⟩ | ⟨_, _, .appendEntries _⟩
  | ⟨_, _, .appendEntriesResponse _ _⟩ | ⟨_, _, .installSnapshotResponse _ _⟩ => .isTrue trivial

instance (w : Transfer N S C) (message : Message N) : Decidable (NamesSame w message) :=
  match message with
  | ⟨_, _, .installSnapshot _⟩ => inferInstanceAs (Decidable (∀ p ∈ _, _ ∧ _))
  | ⟨_, _, .voteRequest _⟩ | ⟨_, _, .voteResponse _⟩ | ⟨_, _, .appendEntries _⟩
  | ⟨_, _, .appendEntriesResponse _ _⟩ | ⟨_, _, .installSnapshotResponse _ _⟩ => .isTrue trivial

instance (w : Transfer N S C) : (a : ClusterAction N C) → Decidable (D.Steady w a)
  | .sendInstallSnapshot n _ _ => inferInstanceAs
    (Decidable (∀ p ∈ (w.cluster.nodes n).getSnapshotData D.backend, _ ∧ _))
  | .deliver _ => inferInstanceAs (Decidable (∀ message ∈ _, NamesSame w message))
  | .electionTimeout _ | .checkLease _ | .propose _ _ | .applyCommitted _ _ | .takeSnapshot _
  | .sendAppendEntries _ _ => .isTrue trivial

/-- What a chunk that was sent says about the snapshot that it was cut from. -/
def CutFrom (had : List (HadSnapshot N)) (message : Message N) : Prop :=
  ∀ request, message.payload = .installSnapshot request → ∃ h ∈ had, h.node = message.source ∧
    request.lastIncludedIndex = h.metadata.lastIncludedIndex ∧
      request.lastIncludedTerm = h.metadata.lastIncludedTerm ∧
      (request.done = true → request.checksum = some (D.backend.crc32 h.data))

/-- The snapshots of the nodes are on record, and every chunk was cut from one of them. -/
structure Recorded (w : Transfer N S C) : Prop where
  had : ∀ n ∈ D.members, ∀ p ∈ (w.cluster.nodes n).ownSnapshot D.backend,
    ⟨n, p.1, p.2⟩ ∈ w.had
  sent : ∀ message ∈ w.cluster.sent, D.CutFrom w.had message

variable {D} {chunkSize : ℕ}

omit [DecidableEq N] in
theorem CutFrom.mono {had had' : List (HadSnapshot N)} {message : Message N}
    (h : D.CutFrom had message) (hsub : had ⊆ had') : D.CutFrom had' message := by
  intro request hrequest
  obtain ⟨s, hs, hcut⟩ := h request hrequest
  exact ⟨s, hsub hs, hcut⟩

/-- A message that a node sends is a chunk of its snapshot, or no chunk. -/
theorem cutFrom_of_outcome {w : Transfer N S C} (hw : D.Recorded w) {a : ClusterAction N C} {n : N}
    (ha : D.Steady w a) {o : Outcome N S C} (ho : w.cluster.transferOutcome chunkSize D.backend a = some (n, o))
    (hn : n ∈ D.members) : ∀ message ∈ o.sent, D.CutFrom w.had message := by
  intro message hmessage request hrequest
  cases a with
  | sendInstallSnapshot n' peer offset =>
    rw [Cluster.transferOutcome] at ho
    cases hchunk : (w.cluster.nodes n').createChunk chunkSize D.backend peer offset with
    | error e =>
      rw [hchunk] at ho
      cases ho
    | ok built =>
      rw [hchunk] at ho
      cases built with
      | none => cases ho
      | some sent =>
        obtain ⟨rfl, rfl⟩ := Prod.mk.inj (Option.some.inj ho)
        obtain rfl := List.mem_singleton.mp hmessage
        obtain rfl := MessagePayload.installSnapshot.inj hrequest
        obtain ⟨metadata, data, hdata, hindex, hterm, hchecksum⟩ :=
          RaftNode.createChunk_eq_some hchunk
        have hown : (metadata, data) ∈ (w.cluster.nodes n').ownSnapshot D.backend :=
          Option.mem_filter_iff.mpr ⟨hdata, decide_eq_true (ha _ hdata).2⟩
        exact ⟨_, hw.had n' hn _ hown, rfl, hindex, hterm, hchecksum⟩
  | electionTimeout n' =>
    obtain ⟨rfl, rfl⟩ := Prod.mk.inj (Option.some.inj ho)
    obtain ⟨peer, -, rfl⟩ := List.mem_map.mp hmessage
    cases hrequest
  | sendAppendEntries n' peer =>
    obtain ⟨built, -, hsent⟩ := Option.map_eq_some_iff.mp ho
    obtain ⟨rfl, rfl⟩ := Prod.mk.inj hsent
    obtain rfl := List.mem_singleton.mp hmessage
    cases hrequest
  | deliver position =>
    -- a reply to a message is not a chunk
    obtain ⟨received, -, hsent⟩ := Option.map_eq_some_iff.mp ho
    obtain ⟨rfl, rfl⟩ := Prod.mk.inj hsent
    cases hpayload : received.payload
    all_goals
      rw [hpayload] at hmessage
      simp only [RaftNode.processMessage, List.mem_singleton, List.not_mem_nil] at hmessage
    all_goals
      rw [hmessage] at hrequest
      cases hrequest
  | checkLease n' =>
    obtain ⟨rfl, rfl⟩ := Prod.mk.inj (Option.some.inj ho)
    cases hmessage
  | propose n' command =>
    obtain ⟨rfl, rfl⟩ := Prod.mk.inj (Option.some.inj ho)
    cases hmessage
  | applyCommitted n' turns =>
    obtain ⟨rfl, rfl⟩ := Prod.mk.inj (Option.some.inj ho)
    cases hmessage
  | takeSnapshot n' =>
    obtain ⟨rfl, rfl⟩ := Prod.mk.inj (Option.some.inj ho)
    cases hmessage

theorem getSnapshotData_initialNode (n : N) :
    (D.initialNode n).getSnapshotData D.backend = none := by
  obtain ⟨peers, next, mtch, heq, -⟩ := D.initialNode_spec n
  rw [heq]
  rfl

theorem recorded_step {w w' : Transfer N S C} {a : ClusterAction N C} (hw : D.Recorded w)
    (ha : D.Steady w a) (hstep : (D.transferSystem chunkSize).step w a = some w') : D.Recorded w' := by
  rw [transferSystem] at hstep
  dsimp only at hstep
  cases ho : w.cluster.transferOutcome chunkSize D.backend a with
  | none =>
    rw [ho] at hstep
    cases hstep
  | some r =>
    obtain ⟨n, o⟩ := r
    rw [ho] at hstep
    dsimp only at hstep
    split_ifs at hstep with hn
    obtain rfl := Option.some.inj hstep
    constructor
    · intro n' hn' p hp
      refine List.mem_append_right _ (List.mem_filterMap.mpr ⟨n', hn', ?_⟩)
      rw [Option.mem_def] at hp
      rw [hp]
      rfl
    · intro message hmessage
      have hsub : w.had ⊆ w.had ++ D.snapshots (w.cluster.record n o) :=
        List.subset_append_left _ _
      rw [Cluster.record, List.mem_append] at hmessage
      obtain hold | hnew := hmessage
      · exact (hw.sent message hold).mono hsub
      · exact (cutFrom_of_outcome hw ha ho hn message hnew).mono hsub

/-- In every run whose chunks are built within the data, by nodes that have applied nothing since they
took their snapshots, and whose last chunks name what the first chunks have named, every step is safe,
as long as the checksum does not collide. -/
theorem transfersSafely {w : Transfer N S C} (h : (D.transferSystem chunkSize).Reach D.Steady w)
    {a : ClusterAction N C} (hcrc : D.NoCollision w a) (ha : D.Steady w a) :
    D.TransfersSafely chunkSize w a := by
  have hrecorded : D.Recorded w := by
    refine h.invariant (P := D.Recorded) ⟨?_, fun _ hm => absurd hm List.not_mem_nil⟩ ?_
    · intro n _ p hp
      have hinit : p ∈ (D.initialNode n).ownSnapshot D.backend := hp
      rw [RaftNode.ownSnapshot, getSnapshotData_initialNode] at hinit
      cases hinit
    · intro s a s' _ hs ha hstep
      exact recorded_step hs ha hstep
  cases a with
  | sendInstallSnapshot n peer offset =>
    exact RaftNode.createChunk_ne_error fun p hp => (ha p hp).1
  | deliver position =>
    intro message hmessage request hrequest
    refine handleInstallSnapshot_installs fun metadata data hassembled hexpected => ?_
    have hsent : message ∈ w.cluster.sent := List.mem_of_getElem? hmessage
    obtain ⟨had, hhad, hsource, hindex, hterm, hchecksum⟩ := hrecorded.sent message hsent request hrequest
    have hsame := ha message hmessage
    have hdiffer := hcrc message hmessage
    rw [NamesSame, hrequest] at hsame
    rw [ChecksumTells, hrequest] at hdiffer
    have hdone : request.done = true := by
      rw [RaftNode.assembled] at hassembled
      obtain ⟨snapshot, -, hsnapshot⟩ := Option.bind_eq_some_iff.mp hassembled
      split_ifs at hsnapshot with hif
      exact hif.2.2
    have hdata : data = had.data :=
      hdiffer _ hassembled had hhad (hexpected _ (hchecksum hdone))
    obtain ⟨hindex', hterm'⟩ := hsame _ hassembled
    refine ⟨had, hhad, hsource, hdata.symm, ?_, ?_⟩
    · rw [← hindex]
      exact hindex'.symm
    · rw [← hterm]
      exact hterm'.symm
  | _ => trivial

end Deployment

/-- Node `0` of three leads, replicates `7` and `8` to node `2`, takes a snapshot, and sends node
`1` the first chunk of it.  Two commands and a snapshot later it sends the other chunks. -/
def movedOnSchedule : List (ClusterAction ℕ UInt8) :=
  [.electionTimeout 0, .deliver 0, .deliver 2, .propose 0 7, .propose 0 8, .sendAppendEntries 0 2,
    .deliver 3, .deliver 4, .applyCommitted 0 3, .takeSnapshot 0, .sendInstallSnapshot 0 1 0,
    .propose 0 9, .sendAppendEntries 0 2, .deliver 6, .deliver 7, .applyCommitted 0 1,
    .takeSnapshot 0, .propose 0 10, .sendAppendEntries 0 2, .deliver 8, .deliver 9,
    .applyCommitted 0 1, .sendInstallSnapshot 0 1 1, .sendInstallSnapshot 0 1 2,
    .sendInstallSnapshot 0 1 3, .deliver 5, .deliver 10, .deliver 11]

/-- The transfer with chunks of one byte and a state that does not move on. -/
def steadySchedule : List (ClusterAction ℕ UInt8) :=
  [.electionTimeout 0, .deliver 0, .deliver 2, .propose 0 7, .propose 0 8, .sendAppendEntries 0 2,
    .deliver 3, .deliver 4, .applyCommitted 0 3, .takeSnapshot 0, .sendInstallSnapshot 0 1 0,
    .sendInstallSnapshot 0 1 1, .deliver 5]

theorem transfersSafely_steady :
    ∃ w, ((commandLogCluster 3).transferSystem 1).run (commandLogCluster 3).Steady steadySchedule =
        some w ∧ (commandLogCluster 3).TransfersSafely 1 w (.deliver 6) := by
  have hrun : (((commandLogCluster 3).transferSystem 1).run (commandLogCluster 3).Steady
      steadySchedule).any (fun w => decide (∀ message ∈ w.cluster.sent[6]?,
        (commandLogCluster 3).ChecksumTells w message ∧ Deployment.NamesSame w message)) =
          true := by
    decide +kernel
  cases hw : ((commandLogCluster 3).transferSystem 1).run (commandLogCluster 3).Steady
      steadySchedule with
  | none =>
    rw [hw] at hrun
    cases hrun
  | some w =>
    rw [hw, Option.any_some, decide_eq_true_eq] at hrun
    exact ⟨w, rfl, Deployment.transfersSafely (System.reach_of_run hw)
      (fun message hmessage => (hrun message hmessage).1)
      (fun message hmessage => (hrun message hmessage).2)⟩

/-- A chunk that is delivered makes the receiver change its state to one that no node had under
the index that the receiver goes by, though the checksum has no collision. -/
def installsUnseen (w : Transfer ℕ Bytes UInt8) (message : Message ℕ) : Bool :=
  match message.payload with
  | .installSnapshot request =>
    let x := w.cluster.nodes message.target
    let y := (x.handleInstallSnapshot commandLog request).1
    decide ((commandLogCluster 3).ChecksumTells w message) &&
      decide (y.stateMachine ≠ x.stateMachine) &&
      decide ((y.state.lastApplied, y.stateMachine) ∉
        w.had.map fun h => (h.metadata.lastIncludedIndex, h.data))
  | _ => false

/-- Node `1` installs what node `0` had after its second snapshot as if it was its first one. -/
theorem mixed_snapshot_installed :
    ¬ ∀ chunkSize w a, ((commandLogCluster 3).transferSystem chunkSize).Reachable w →
      (commandLogCluster 3).NoCollision w a →
        (commandLogCluster 3).TransfersSafely chunkSize w a := by
  intro hall
  have hrun : (((commandLogCluster 3).transferSystem 1).run (fun _ _ => True)
      movedOnSchedule).any (fun w => w.cluster.sent[12]?.any (installsUnseen w)) = true := by
    decide +kernel
  obtain ⟨w, hw, hunseen⟩ := (Option.any_eq_true _ _).mp hrun
  obtain ⟨message, hmessage, hunseen⟩ := (Option.any_eq_true _ _).mp hunseen
  rw [installsUnseen] at hunseen
  cases hpayload : message.payload with
  | installSnapshot request =>
    rw [hpayload] at hunseen
    simp only [Bool.and_eq_true, decide_eq_true_eq] at hunseen
    obtain ⟨⟨htells, hchanged⟩, hnew⟩ := hunseen
    have hcrc : (commandLogCluster 3).NoCollision w (.deliver 12) := by
      intro message' hsent
      obtain rfl := Option.some.inj (hmessage.symm.trans hsent)
      exact htells
    have hsafe := hall 1 w (.deliver 12) (System.reach_of_run hw) hcrc message hmessage request
      hpayload
    obtain ⟨hsame, -⟩ | ⟨h, hmem, -, restored, hrestored, hmachine, hindex, -⟩ := hsafe
    · exact hchanged hsame
    · refine hnew (List.mem_map.mpr ⟨h, hmem, ?_⟩)
      obtain rfl := Option.some.inj hrestored
      exact Prod.ext hindex.symm hmachine.symm
  | _ =>
    rw [hpayload] at hunseen
    cases hunseen

end Replication

end AegisDB
