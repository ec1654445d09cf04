import AegisDB.Library.Transition

/-!
# The connection pool of a client

Idle connections wait in a channel, from which calls of `get` take them under a lock.  Who holds a
permit may use a connection, so there are no more of them in use than permits.  But a handle that is
dropped gives its permit back before its connection, and has noted whether the pool was closed when
it was handed out.
-/

namespace AegisDB

namespace Client

structure PoolConfig where
  minConnections : UInt64
  maxConnections : UInt64

/-- A connection that a call hands out, by its id, with what it has seen of the closed flag. -/
structure PooledConnection where
  connection : ℕ
  closed : Bool
deriving DecidableEq

/-- What the holder of the lock of the channel does. -/
inductive Receiving where
  /-- A call of `get` is about to look into the channel. -/
  | looking
  | judging (connection : ℕ)
  | discarding (connection : ℕ)
  /-- A call of `close` is about to look into the channel. -/
  | draining
  | closing (connection : ℕ)
deriving DecidableEq

/-- A connection pool with the calls that are in progress. -/
structure ConnectionPool where
  channel : List ℕ
  receiving : Option Receiving
  availablePermits : ℕ
  currentSize : UInt64
  closed : Bool
  nextConnection : ℕ
  dead : Finset ℕ
  waiting : ℕ
  permitted : ℕ
  /-- How many have found no idle connection, and make one. -/
  creating : ℕ
  /-- The connections of those that are about to hand them out. -/
  acquired : List ℕ
  handles : List PooledConnection
  /-- Those whose handles have been dropped and have given their permits back. -/
  returning : List PooledConnection
  /-- The connections that are about to be sent to the channel. -/
  sending : List ℕ
  /-- Those that are about to be discarded when they return. -/
  discarded : List ℕ
  closers : ℕ
  hasClosed : Bool
  handedOutLate : Bool

/-- A step of a call, or what happens to a connection. -/
inductive PoolStep where
  | beginGet
  | acquirePermit
  | timeOut
  | lock
  | receive
  /-- Judge a connection, whose idle time is below the limit or not. -/
  | judge (fresh : Bool)
  | discardStale
  | create (connected : Bool)
  | handOut (connection : ℕ)
  /-- Drop a handle, which gives its permit back first. -/
  | dropHandle (handle : PooledConnection)
  | decideReturn (handle : PooledConnection)
  | send (connection : ℕ)
  | discard (connection : ℕ)
  | failConnection (connection : ℕ)
  | beginClose
  | lockToClose
  | closeConnection

namespace ConnectionPool

/-- A pool with its first connections. -/
def new (config : PoolConfig) : ConnectionPool where
  channel := List.range config.minConnections.toNat
  receiving := none
  availablePermits := config.maxConnections.toNat
  currentSize := config.minConnections
  closed := false
  nextConnection := config.minConnections.toNat
  dead := ∅
  waiting := 0
  permitted := 0
  creating := 0
  acquired := []
  handles := []
  returning := []
  sending := []
  discarded := []
  closers := 0
  hasClosed := false
  handedOutLate := false

/-- A step, if it can be made. -/
def step (s : ConnectionPool) : PoolStep → Option ConnectionPool
  | .beginGet =>
      if s.closed then none else some { s with waiting := s.waiting + 1 }
  | .acquirePermit =>
      if s.waiting = 0 ∨ s.availablePermits = 0 then none
      else some { s with
        waiting := s.waiting - 1
        availablePermits := s.availablePermits - 1
        permitted := s.permitted + 1 }
  | .timeOut =>
      if s.waiting = 0 then none else some { s with waiting := s.waiting - 1 }
  | .lock =>
      if s.permitted = 0 ∨ s.receiving ≠ none then none
      else some { s with permitted := s.permitted - 1, receiving := some .looking }
  | .receive =>
      match s.receiving, s.channel with
      | some .looking, c :: rest =>
          some { s with channel := rest, receiving := some (.judging c) }
      | some .looking, [] =>
          some { s with receiving := none, creating := s.creating + 1 }
      | some .draining, c :: rest =>
          some { s with channel := rest, receiving := some (.closing c) }
      | some .draining, [] =>
          some { s with receiving := none, hasClosed := true }
      | _, _ => none
  | .judge fresh =>
      match s.receiving with
      | some (.judging c) =>
          if c ∉ s.dead ∧ fresh = true then
            some { s with receiving := none, acquired := s.acquired ++ [c] }
          else some { s with receiving := some (.discarding c) }
      | _ => none
  | .discardStale =>
      match s.receiving with
      | some (.discarding _) =>
          some { s with receiving := some .looking, currentSize := s.currentSize - 1 }
      | _ => none
  | .create connected =>
      if s.creating = 0 then none
      else if connected then
        some { s with
          creating := s.creating - 1
          acquired := s.acquired ++ [s.nextConnection]
          nextConnection := s.nextConnection + 1
          currentSize := s.currentSize + 1 }
      else
        some { s with
          creating := s.creating - 1
          availablePermits := s.availablePermits + 1 }
  | .handOut c =>
      if c ∈ s.acquired then
        some { s with
          acquired := s.acquired.erase c
          handles := s.handles ++ [⟨c, s.closed⟩]
          handedOutLate := s.handedOutLate || s.hasClosed }
      else none
  | .dropHandle handle =>
      if handle ∈ s.handles then
        some { s with
          availablePermits := s.availablePermits + 1
          handles := s.handles.erase handle
          returning := s.returning ++ [handle] }
      else none
  | .decideReturn handle =>
      if handle ∈ s.returning then
        if !handle.closed ∧ handle.connection ∉ s.dead then
          some { s with
            returning := s.returning.erase handle
            sending := s.sending ++ [handle.connection] }
        else
          some { s with
            returning := s.returning.erase handle
            discarded := s.discarded ++ [handle.connection] }
      else none
  | .send c =>
      if c ∈ s.sending then
        some { s with sending := s.sending.erase c, channel := s.channel ++ [c] }
      else none
  | .discard c =>
      if c ∈ s.discarded then
        some { s with discarded := s.discarded.erase c, currentSize := s.currentSize - 1 }
      else none
  | .failConnection c => some { s with dead := insert c s.dead }
  | .beginClose => some { s with closed := true, closers := s.closers + 1 }
  | .lockToClose =>
      if s.closers = 0 ∨ s.receiving ≠ none then none
      else some { s with closers := s.closers - 1, receiving := some .draining }
  | .closeConnection =>
      match s.receiving with
      | some (.closing c) =>
          some { s with
            dead := insert c s.dead
            receiving := some .draining
            currentSize := s.currentSize - 1 }
      | _ => none

def system (config : PoolConfig) : System ConnectionPool PoolStep where
  init := new config
  step := step

/-! ## Connections that exist -/

end ConnectionPool

/-- How many connections the holder of the lock has received. -/
def Receiving.carried : Receiving → ℕ
  | .looking | .draining => 0
  | .judging _ | .discarding _ | .closing _ => 1

/-- Whether the holder of the lock is a call of `get`, with a permit. -/
def Receiving.gets : Receiving → ℕ
  | .looking | .judging _ | .discarding _ => 1
  | .draining | .closing _ => 0

namespace ConnectionPool

variable (s : ConnectionPool)

/-- How many connections calls in progress have in their hands. -/
def inTransit : ℕ :=
  (s.receiving.map Receiving.carried).getD 0 + s.acquired.length + s.returning.length +
    s.sending.length + s.discarded.length

/-- How many connections there are: idle, checked out or in the hands of a call in progress. -/
def existing : ℕ :=
  s.channel.length + s.handles.length + s.inTransit

/-- How many dropped handles have given their permit back, but not yet their connection. -/
def dropping : ℕ :=
  s.returning.length + s.sending.length + s.discarded.length

def usedPermits : ℕ :=
  s.permitted + (s.receiving.map Receiving.gets).getD 0 + s.creating + s.acquired.length +
    s.handles.length

/-- No call of `get` is in progress that has passed its check of the closed flag. -/
def NoGets : Prop :=
  s.waiting = 0 ∧ s.permitted = 0 ∧ (s.receiving.map Receiving.gets).getD 0 = 0 ∧
    s.creating = 0 ∧ s.acquired = []

def Quiet : Prop :=
  s.NoGets ∧ s.receiving = none ∧ s.dropping = 0 ∧ s.closers = 0

instance : Decidable s.NoGets :=
  inferInstanceAs (Decidable (_ ∧ _))

instance : Decidable s.Quiet :=
  inferInstanceAs (Decidable (_ ∧ _))

/-- The channel is found empty by a call of `get` only while there are at least as many permits as
dropped handles that have still to give their connections back, and by a call of `close` only while
no call of `get` is in progress; and no connection is given back to the channel after that. -/
def Orderly : PoolStep → Prop
  | .receive => s.channel = [] →
      (s.receiving = some .looking → s.dropping ≤ s.availablePermits) ∧
      (s.receiving = some .draining → s.NoGets)
  | .send _ => s.hasClosed = false
  | _ => True

instance (a : PoolStep) : Decidable (s.Orderly a) :=
  match a with
  | .receive => inferInstanceAs (Decidable (s.channel = [] →
      (s.receiving = some .looking → s.dropping ≤ s.availablePermits) ∧
      (s.receiving = some .draining → s.NoGets)))
  | .send _ => inferInstanceAs (Decidable (s.hasClosed = false))
  | .beginGet | .acquirePermit | .timeOut | .lock | .judge _ | .discardStale | .create _ |
    .handOut _ | .dropHandle _ | .decideReturn _ | .discard _ | .failConnection _ | .beginClose |
    .lockToClose | .closeConnection => inferInstanceAs (Decidable True)

/-- What a pool promises. -/
structure Bounded (config : PoolConfig) : Prop where
  /-- The size is the number of connections that exist. -/
  size : s.currentSize.toNat = s.existing
  /-- When no call is in progress, these are the idle ones and the ones checked out. -/
  quiet : s.Quiet → s.currentSize.toNat = s.channel.length + s.handles.length
  max : s.existing ≤ config.maxConnections.toNat
  /-- When the pool has been closed and all handles are dropped, no connection remains. -/
  closed : s.hasClosed = true → s.Quiet → s.handles = [] → s.existing = 0
  /-- When the pool has been closed, no connection is handed out. -/
  notLate : s.handedOutLate = false

/-- What holds of the pool in every orderly run. -/
structure Invariant (config : PoolConfig) : Prop where
  permits : s.availablePermits + s.usedPermits = config.maxConnections.toNat
  size : s.currentSize = UInt64.ofNat s.existing
  /-- There is room for the connections that are being made. -/
  max : s.existing + s.creating ≤ config.maxConnections.toNat
  closed : s.hasClosed = true → s.closed = true ∧ s.NoGets ∧ s.channel = []
  notLate : s.handedOutLate = false

theorem Invariant.init {config : PoolConfig}
    (hmin : config.minConnections ≤ config.maxConnections) :
    (system config).init.Invariant config where
  permits := rfl
  size := by simp [system, new, existing, inTransit]
  max := by
    have hle : config.minConnections.toNat ≤ config.maxConnections.toNat := hmin
    simpa [system, new, existing, inTransit] using hle
  closed h := by simp [system, new] at h
  notLate := rfl

/-! ## Steps -/

section Steps

variable {s} {s' : ConnectionPool} {config : PoolConfig}

/-- Before the closed flag is set, no call of `close` waits for the lock or has it. -/
def NotClosing (s : ConnectionPool) : Prop :=
  s.closed = false → s.closers = 0 ∧ ∀ r, s.receiving = some r → r.gets = 1

/-- Only a call of `close` that sets the flag waits for the lock, by cases on the step. -/
theorem NotClosing.step {a : PoolStep} (h : s.NotClosing) (hstep : s.step a = some s') :
    s'.NotClosing := by
  cases a with
  | beginGet | acquirePermit | timeOut =>
    obtain ⟨-, hs'⟩ := Option.ite_none_left_eq_some.1 hstep
    obtain rfl := Option.some.inj hs'
    exact h
  | lock =>
    obtain ⟨-, hs'⟩ := Option.ite_none_left_eq_some.1 hstep
    obtain rfl := Option.some.inj hs'
    exact fun hopen => ⟨(h hopen).1, fun r hr => Option.some.inj hr ▸ rfl⟩
  | receive =>
    simp only [ConnectionPool.step] at hstep
    split at hstep
    · obtain rfl := Option.some.inj hstep
      exact fun hopen => ⟨(h hopen).1, fun r hr => Option.some.inj hr ▸ rfl⟩
    · obtain rfl := Option.some.inj hstep
      exact fun hopen => ⟨(h hopen).1, fun r hr => nomatch hr⟩
    · rename_i hreceiving _
      obtain rfl := Option.some.inj hstep
      exact fun hopen => nomatch (h hopen).2 _ hreceiving
    · rename_i hreceiving _
      obtain rfl := Option.some.inj hstep
      exact fun hopen => nomatch (h hopen).2 _ hreceiving
    · cases hstep
  | judge fresh =>
    simp only [ConnectionPool.step] at hstep
    split at hstep
    · split_ifs at hstep
      · obtain rfl := Option.some.inj hstep
        exact fun hopen => ⟨(h hopen).1, fun r hr => nomatch hr⟩
      · obtain rfl := Option.some.inj hstep
        exact fun hopen => ⟨(h hopen).1, fun r hr => Option.some.inj hr ▸ rfl⟩
    · cases hstep
  | discardStale =>
    simp only [ConnectionPool.step] at hstep
    split at hstep
    · obtain rfl := Option.some.inj hstep
      exact fun hopen => ⟨(h hopen).1, fun r hr => Option.some.inj hr ▸ rfl⟩
    · cases hstep
  | create connected =>
    obtain ⟨-, hs'⟩ := Option.ite_none_left_eq_some.1 hstep
    split_ifs at hs'
    · obtain rfl := Option.some.inj hs'
      exact h
    · obtain rfl := Option.some.inj hs'
      exact h
  | handOut _ | dropHandle _ | send _ | discard _ =>
    obtain ⟨-, hs'⟩ := Option.ite_none_right_eq_some.1 hstep
    obtain rfl := Option.some.inj hs'
    exact h
  | decideReturn handle =>
    obtain ⟨-, hs'⟩ := Option.ite_none_right_eq_some.1 hstep
    split_ifs at hs'
    · obtain rfl := Option.some.inj hs'
      exact h
    · obtain rfl := Option.some.inj hs'
      exact h
  | failConnection c =>
    obtain rfl := Option.some.inj hstep
    exact h
  | beginClose =>
    obtain rfl := Option.some.inj hstep
    exact fun hopen => nomatch hopen
  | lockToClose =>
    obtain ⟨hsome, hs'⟩ := Option.ite_none_left_eq_some.1 hstep
    obtain rfl := Option.some.inj hs'
    exact fun hopen => absurd (h hopen).1 (not_or.1 hsome).1
  | closeConnection =>
    simp only [ConnectionPool.step] at hstep
    split at hstep
    · rename_i hreceiving
      obtain rfl := Option.some.inj hstep
      exact fun hopen => nomatch (h hopen).2 _ hreceiving
    · cases hstep

theorem Invariant.moved (h : s.Invariant config) (hsize : s'.currentSize = s.currentSize)
    (hexisting : s'.existing = s.existing) (hcreating : s'.creating ≤ s.creating)
    (hpermits : s'.availablePermits + s'.usedPermits = s.availablePermits + s.usedPermits)
    (hclosed : s'.hasClosed = true → s'.closed = true ∧ s'.NoGets ∧ s'.channel = [])
    (hlate : s'.handedOutLate = false) : s'.Invariant config where
  permits := hpermits.trans h.permits
  size := by rw [hsize, hexisting, h.size]
  max := by
    have hmax := h.max
    omega
  closed := hclosed
  notLate := hlate

theorem Invariant.discarded (h : s.Invariant config) (hsize : s'.currentSize = s.currentSize - 1)
    (hexisting : s.existing = s'.existing + 1) (hcreating : s'.creating = s.creating)
    (hpermits : s'.availablePermits + s'.usedPermits = s.availablePermits + s.usedPermits)
    (hclosed : s'.hasClosed = true → s'.closed = true ∧ s'.NoGets ∧ s'.channel = [])
    (hlate : s'.handedOutLate = false) : s'.Invariant config where
  permits := hpermits.trans h.permits
  size := by
    rw [hsize, h.size, hexisting, UInt64.ofNat_add]
    exact UInt64.add_sub_cancel _ _
  max := by
    have hmax := h.max
    omega
  closed := hclosed
  notLate := hlate

/-- The channel is locked for a call that has a permit. -/
theorem Invariant.step_lock (h : s.Invariant config)
    (hstep : s.step .lock = some s') : s'.Invariant config := by
  have hclosed := h.closed
  simp only [NoGets] at hclosed
  obtain ⟨hsome, hs'⟩ := Option.ite_none_left_eq_some.1 hstep
  obtain rfl := Option.some.inj hs'
  obtain ⟨hpermitted, hfree⟩ := not_or.1 hsome
  rw [not_not] at hfree
  refine h.moved rfl ?_ le_rfl ?_ (fun hc => ?_) h.notLate
  · simp [existing, inTransit, hfree, Receiving.carried]
  · simp only [usedPermits, hfree, Option.map_some, Option.map_none, Option.getD_some,
      Option.getD_none, Receiving.gets]
    omega
  · have := hclosed hc
    omega

/-- A connection is taken from the channel, or one is to be made. -/
theorem Invariant.step_receive (h : s.Invariant config) (hopen : s.NotClosing)
    (horderly : s.Orderly .receive) (hstep : s.step .receive = some s') : s'.Invariant config := by
  have hclosed := h.closed
  simp only [NoGets] at hclosed
  simp only [ConnectionPool.step] at hstep
  split at hstep
  · rename_i c rest hreceiving hchannel
    obtain rfl := Option.some.inj hstep
    refine h.moved rfl ?_ le_rfl ?_ (fun hc => ?_) h.notLate
    · simp [existing, inTransit, hreceiving, hchannel, Receiving.carried]
      omega
    · simp [usedPermits, hreceiving, Receiving.gets]
    · have := (hclosed hc).2.2
      simp [hchannel] at this
  · -- the drops that are in progress leave room for one more connection
    rename_i hreceiving hchannel
    obtain rfl := Option.some.inj hstep
    have hroom := (horderly hchannel).1 hreceiving
    have hpermits := h.permits
    refine ⟨?_, ?_, ?_, fun hc => ?_, h.notLate⟩
    · rw [← hpermits]
      simp only [usedPermits, hreceiving, Option.map_some, Option.map_none, Option.getD_some,
        Option.getD_none, Receiving.gets]
      omega
    · rw [h.size]
      simp [existing, inTransit, hreceiving, Receiving.carried]
    · simp only [usedPermits, hreceiving, Option.map_some, Option.getD_some,
        Receiving.gets] at hpermits
      simp only [dropping] at hroom
      simp only [existing, inTransit, hchannel, List.length_nil, Option.map_none,
        Option.getD_none]
      omega
    · have := (hclosed hc).2.1.2.2.1
      simp [hreceiving, Receiving.gets] at this
  · rename_i c rest hreceiving hchannel
    obtain rfl := Option.some.inj hstep
    refine h.moved rfl ?_ le_rfl ?_ (fun hc => ?_) h.notLate
    · simp [existing, inTransit, hreceiving, hchannel, Receiving.carried]
      omega
    · simp [usedPermits, hreceiving, Receiving.gets]
    · have := (hclosed hc).2.2
      simp [hchannel] at this
  · rename_i hreceiving hchannel
    obtain rfl := Option.some.inj hstep
    obtain ⟨hwaiting, hpermitted, -, hcreating, hacquired⟩ := (horderly hchannel).2 hreceiving
    refine h.moved rfl ?_ le_rfl ?_ (fun _ => ?_) h.notLate
    · simp [existing, inTransit, hreceiving, Receiving.carried]
    · simp [usedPermits, hreceiving, Receiving.gets]
    · refine ⟨?_, ⟨hwaiting, hpermitted, rfl, hcreating, hacquired⟩, hchannel⟩
      by_contra hc
      exact nomatch (hopen (Bool.of_not_eq_true hc)).2 _ hreceiving
  · cases hstep

/-- A connection from the channel is stale, or it is kept. -/
theorem Invariant.step_judge {fresh} (h : s.Invariant config)
    (hstep : s.step (.judge fresh) = some s') : s'.Invariant config := by
  have hclosed := h.closed
  simp only [NoGets] at hclosed
  simp only [ConnectionPool.step] at hstep
  split at hstep
  · rename_i c hreceiving
    have hget : s.hasClosed = true → False := fun hc => by
      have := (hclosed hc).2.1.2.2.1
      simp [hreceiving, Receiving.gets] at this
    split_ifs at hstep
    · obtain rfl := Option.some.inj hstep
      refine h.moved rfl ?_ le_rfl ?_ (fun hc => (hget hc).elim) h.notLate
      · simp [existing, inTransit, hreceiving, Receiving.carried]
        omega
      · simp [usedPermits, hreceiving, Receiving.gets]
        omega
    · obtain rfl := Option.some.inj hstep
      refine h.moved rfl ?_ le_rfl ?_ (fun hc => (hget hc).elim) h.notLate
      · simp [existing, inTransit, hreceiving, Receiving.carried]
      · simp [usedPermits, hreceiving, Receiving.gets]
  · cases hstep

/-- A connection is made, or the attempt fails. -/
theorem Invariant.step_create {connected} (h : s.Invariant config)
    (hstep : s.step (.create connected) = some s') : s'.Invariant config := by
  have hclosed := h.closed
  simp only [NoGets] at hclosed
  obtain ⟨hcreating, hs'⟩ := Option.ite_none_left_eq_some.1 hstep
  have hopen : s.hasClosed = true → False := fun hc => hcreating (hclosed hc).2.1.2.2.2.1
  split_ifs at hs' with hconnected
  · obtain rfl := Option.some.inj hs'
    have hpermits := h.permits
    have hmax := h.max
    refine ⟨?_, ?_, ?_, fun hc => (hopen hc).elim, h.notLate⟩
    · rw [← hpermits]
      simp only [usedPermits, List.length_append, List.length_singleton]
      omega
    · have hnew : s.existing + 1 = s.channel.length + s.handles.length +
          ((s.receiving.map Receiving.carried).getD 0 + (s.acquired.length + 1) +
            s.returning.length + s.sending.length + s.discarded.length) := by
        simp only [existing, inTransit]
        omega
      simp only [existing, inTransit, List.length_append, List.length_singleton]
      rw [← hnew, h.size, UInt64.ofNat_add]
      rfl
    · simp only [existing, inTransit, List.length_append, List.length_singleton] at hmax ⊢
      omega
  · obtain rfl := Option.some.inj hs'
    refine h.moved rfl rfl (Nat.sub_le _ _) ?_ (fun hc => (hopen hc).elim) h.notLate
    simp only [usedPermits]
    omega

/-- A connection is handed out. -/
theorem Invariant.step_handOut {c} (h : s.Invariant config)
    (hstep : s.step (.handOut c) = some s') : s'.Invariant config := by
  have hclosed := h.closed
  simp only [NoGets] at hclosed
  obtain ⟨hmem, hs'⟩ := Option.ite_none_right_eq_some.1 hstep
  obtain rfl := Option.some.inj hs'
  have hpos := List.length_pos_of_mem hmem
  have hopen : s.hasClosed = false := by
    by_contra hc
    rw [(hclosed (Bool.of_not_eq_false hc)).2.1.2.2.2.2] at hmem
    cases hmem
  refine h.moved rfl ?_ le_rfl ?_ (fun hc => ?_) ?_
  · simp only [existing, inTransit, List.length_append, List.length_erase_of_mem hmem,
      List.length_singleton]
    omega
  · simp only [usedPermits, List.length_append, List.length_erase_of_mem hmem,
      List.length_singleton]
    omega
  · rw [hopen] at hc
    cases hc
  · simp [h.notLate, hopen]

/-- A handle's connection is sent back, or discarded. -/
theorem Invariant.step_decideReturn {handle} (h : s.Invariant config)
    (hstep : s.step (.decideReturn handle) = some s') : s'.Invariant config := by
  obtain ⟨hmem, hs'⟩ := Option.ite_none_right_eq_some.1 hstep
  have hpos := List.length_pos_of_mem hmem
  split_ifs at hs'
  · obtain rfl := Option.some.inj hs'
    refine h.moved rfl ?_ le_rfl rfl h.closed h.notLate
    simp only [existing, inTransit, List.length_append, List.length_erase_of_mem hmem,
      List.length_singleton]
    omega
  · obtain rfl := Option.some.inj hs'
    refine h.moved rfl ?_ le_rfl rfl h.closed h.notLate
    simp only [existing, inTransit, List.length_append, List.length_erase_of_mem hmem,
      List.length_singleton]
    omega

/-- A connection is closed with the pool. -/
theorem Invariant.step_closeConnection (h : s.Invariant config)
    (hstep : s.step .closeConnection = some s') : s'.Invariant config := by
  have hclosed := h.closed
  simp only [NoGets] at hclosed
  simp only [ConnectionPool.step] at hstep
  split at hstep
  · rename_i c hreceiving
    obtain rfl := Option.some.inj hstep
    refine h.discarded rfl ?_ rfl ?_ (fun hc => ?_) h.notLate
    · simp [existing, inTransit, hreceiving, Receiving.carried]
      omega
    · simp [usedPermits, hreceiving, Receiving.gets]
    · obtain ⟨hclosed', ⟨hwaiting, hpermitted, -, hrest⟩, hchannel⟩ := hclosed hc
      exact ⟨hclosed', ⟨hwaiting, hpermitted, rfl, hrest⟩, hchannel⟩
  · cases hstep

/-- One step keeps the counts: by cases on the step, one lemma for each that has cases. -/
theorem Invariant.step {a : PoolStep} (h : s.Invariant config) (hopen : s.NotClosing)
    (horderly : s.Orderly a) (hstep : s.step a = some s') : s'.Invariant config := by
  have hclosed := h.closed
  simp only [NoGets] at hclosed
  cases a with
  | beginGet =>
    obtain ⟨hopen, hs'⟩ := Option.ite_none_left_eq_some.1 hstep
    obtain rfl := Option.some.inj hs'
    exact h.moved rfl rfl le_rfl rfl (fun hc => absurd (h.closed hc).1 hopen) h.notLate
  | acquirePermit =>
    obtain ⟨hsome, hs'⟩ := Option.ite_none_left_eq_some.1 hstep
    obtain rfl := Option.some.inj hs'
    refine h.moved rfl rfl le_rfl ?_ (fun hc => ?_) h.notLate
    · simp only [usedPermits]
      omega
    · have := hclosed hc
      omega
  | timeOut =>
    obtain ⟨hsome, hs'⟩ := Option.ite_none_left_eq_some.1 hstep
    obtain rfl := Option.some.inj hs'
    refine h.moved rfl rfl le_rfl rfl (fun hc => ?_) h.notLate
    have := hclosed hc
    omega
  | lock => exact h.step_lock hstep
  | receive => exact h.step_receive hopen horderly hstep
  | judge _ => exact h.step_judge hstep
  | discardStale =>
    simp only [ConnectionPool.step] at hstep
    split at hstep
    · rename_i c hreceiving
      obtain rfl := Option.some.inj hstep
      refine h.discarded rfl ?_ rfl ?_ (fun hc => ?_) h.notLate
      · simp [existing, inTransit, hreceiving, Receiving.carried]
        omega
      · simp [usedPermits, hreceiving, Receiving.gets]
      · have := (hclosed hc).2.1.2.2.1
        simp [hreceiving, Receiving.gets] at this
    · cases hstep
  | create _ => exact h.step_create hstep
  | handOut _ => exact h.step_handOut hstep
  | dropHandle handle =>
    obtain ⟨hmem, hs'⟩ := Option.ite_none_right_eq_some.1 hstep
    obtain rfl := Option.some.inj hs'
    have hpos := List.length_pos_of_mem hmem
    refine h.moved rfl ?_ le_rfl ?_ h.closed h.notLate
    · simp only [existing, inTransit, List.length_append, List.length_erase_of_mem hmem,
        List.length_singleton]
      omega
    · simp only [usedPermits, List.length_erase_of_mem hmem]
      omega
  | decideReturn _ => exact h.step_decideReturn hstep
  | send c =>
    obtain ⟨hmem, hs'⟩ := Option.ite_none_right_eq_some.1 hstep
    obtain rfl := Option.some.inj hs'
    have hpos := List.length_pos_of_mem hmem
    have hopen : s.hasClosed = false := horderly
    refine h.moved rfl ?_ le_rfl rfl (fun hc => ?_) h.notLate
    · simp only [existing, inTransit, List.length_append, List.length_erase_of_mem hmem,
        List.length_singleton]
      omega
    · rw [hopen] at hc
      cases hc
  | discard c =>
    obtain ⟨hmem, hs'⟩ := Option.ite_none_right_eq_some.1 hstep
    obtain rfl := Option.some.inj hs'
    have hpos := List.length_pos_of_mem hmem
    refine h.discarded rfl ?_ rfl rfl h.closed h.notLate
    simp only [existing, inTransit, List.length_erase_of_mem hmem]
    omega
  | failConnection c =>
    obtain rfl := Option.some.inj hstep
    exact h.moved rfl rfl le_rfl rfl h.closed h.notLate
  | beginClose =>
    obtain rfl := Option.some.inj hstep
    exact h.moved rfl rfl le_rfl rfl (fun hc => ⟨rfl, (h.closed hc).2⟩) h.notLate
  | lockToClose =>
    obtain ⟨hsome, hs'⟩ := Option.ite_none_left_eq_some.1 hstep
    obtain rfl := Option.some.inj hs'
    have hfree : s.receiving = none := not_not.1 (not_or.1 hsome).2
    refine h.moved rfl ?_ le_rfl ?_ (fun hc => ?_) h.notLate
    · simp [existing, inTransit, hfree, Receiving.carried]
    · simp [usedPermits, hfree, Receiving.gets]
    · obtain ⟨hclosed', ⟨hwaiting, hpermitted, -, hrest⟩, hchannel⟩ := hclosed hc
      exact ⟨hclosed', ⟨hwaiting, hpermitted, rfl, hrest⟩, hchannel⟩
  | closeConnection => exact h.step_closeConnection hstep

/-! ## Runs -/

theorem notClosing_of_reachable (h : (system config).Reachable s) : s.NotClosing :=
  h.invariant (fun _ => ⟨rfl, fun _ hr => nomatch hr⟩) fun _ _ _ _ ih _ hstep => ih.step hstep

theorem invariant_of_orderly (hmin : config.minConnections ≤ config.maxConnections)
    (h : (system config).Reach Orderly s) : s.Invariant config :=
  h.invariant (P := fun s => s.Invariant config) (.init hmin) fun _ _ _ hr ih horderly hstep =>
    ih.step (notClosing_of_reachable hr.reachable) horderly hstep

theorem inTransit_eq_zero (h : s.Quiet) : s.inTransit = 0 := by
  obtain ⟨⟨-, -, -, -, hacquired⟩, hreceiving, hdropping, -⟩ := h
  simp only [dropping] at hdropping
  simp only [inTransit, hacquired, hreceiving, List.length_nil, Option.map_none, Option.getD_none]
  omega

/-- In an orderly run, a pool keeps what it promises. -/
theorem bounded_of_orderly (hmin : config.minConnections ≤ config.maxConnections)
    (h : (system config).Reach Orderly s) : s.Bounded config := by
  have hinv := invariant_of_orderly hmin h
  have hmax : s.existing ≤ config.maxConnections.toNat := by
    have hroom := hinv.max
    omega
  have hsize : s.currentSize.toNat = s.existing := by
    have hword : s.existing < UInt64.size := lt_of_le_of_lt hmax config.maxConnections.toNat_lt
    rw [hinv.size, UInt64.toNat_ofNat_of_lt' hword]
  refine ⟨hsize, fun hquiet => ?_, hmax, fun hc hquiet hhandles => ?_, hinv.notLate⟩
  · rw [hsize, existing, inTransit_eq_zero hquiet, Nat.add_zero]
  · rw [existing, inTransit_eq_zero hquiet, hhandles, (hinv.closed hc).2.2]
    rfl

end Steps

/-- A connection is used twice, fails, is replaced, and the pool is closed. -/
def orderlyCalls : List PoolStep :=
  [.beginGet, .acquirePermit, .lock, .receive, .judge true, .handOut 0, .dropHandle ⟨0, false⟩,
    .decideReturn ⟨0, false⟩, .send 0, .failConnection 0, .beginGet, .acquirePermit, .lock,
    .receive, .judge true, .discardStale, .receive, .create true, .handOut 1,
    .dropHandle ⟨1, false⟩, .decideReturn ⟨1, false⟩, .send 1, .beginClose, .lockToClose, .receive,
    .closeConnection, .receive]

theorem bounded_of_orderly_calls :
    ∃ s, (system ⟨1, 1⟩).run Orderly orderlyCalls = some s ∧ s.hasClosed = true ∧
      s.Bounded ⟨1, 1⟩ := by
  have hrun : ((system ⟨1, 1⟩).run Orderly orderlyCalls).isSome = true := by decide +kernel
  obtain ⟨s, hs⟩ := Option.isSome_iff_exists.1 hrun
  have hclosed : ((system ⟨1, 1⟩).run Orderly orderlyCalls).all ConnectionPool.hasClosed = true := by
    decide +kernel
  rw [hs, Option.all_some] at hclosed
  exact ⟨s, hs, hclosed, bounded_of_orderly (by decide) (System.reach_of_run hs)⟩

/-- A call of `get` takes the permit of a dropped handle, finds the channel empty and makes a second
connection, before the first one returns. -/
def earlyPermit : List PoolStep :=
  [.beginGet, .acquirePermit, .lock, .receive, .create true, .handOut 0, .dropHandle ⟨0, false⟩,
    .beginGet, .acquirePermit, .lock, .receive, .create true, .decideReturn ⟨0, false⟩, .send 0]

theorem not_bounded :
    ∃ s, (system ⟨0, 1⟩).Reachable s ∧ ¬s.Bounded ⟨0, 1⟩ := by
  have hrun : ((system ⟨0, 1⟩).run (fun _ _ => True) earlyPermit).isSome = true := by
    decide +kernel
  obtain ⟨s, hs⟩ := Option.isSome_iff_exists.1 hrun
  have htwo : ((system ⟨0, 1⟩).run (fun _ _ => True) earlyPermit).all
      (fun s => decide (s.existing = 2)) = true := by
    decide +kernel
  rw [hs, Option.all_some, decide_eq_true_eq] at htwo
  refine ⟨s, System.reach_of_run hs, fun h => ?_⟩
  have hmax := h.max
  rw [htwo] at hmax
  exact absurd hmax (by decide)

end ConnectionPool

end Client

end AegisDB
