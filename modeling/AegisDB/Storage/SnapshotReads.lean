import AegisDB.Library.SnapshotHistory
import AegisDB.Library.Transition
import AegisDB.Storage.Transaction

/-!
# Snapshot reads

The transaction manager run by any number of transactions, together with the history of what they
have done.  Garbage collection, commits and aborts rewrite the version chains; a reader always
finds, under every key, the version that was the last one committed when it began.  It does not
find its own writes, and it takes a deletion for an empty value.
-/

namespace AegisDB

namespace Storage

open SnapshotHistory

abbrev Event := SnapshotEvent ℕ VersionKey Bytes

/-- The transaction manager and what has happened to it. -/
structure TransactionRun where
  manager : TransactionManager := {}
  /-- The calls that have succeeded, the last one first. -/
  history : List Event := []

/-- A call of the transaction manager. -/
inductive TransactionAction
  | begin (isolationLevel : IsolationLevel)
  | read (txId : ℕ) (key : VersionKey)
  | write (txId : ℕ) (key : VersionKey) (data : Bytes)
  | delete (txId : ℕ) (key : VersionKey)
  | commit (txId : ℕ)
  | abort (txId : ℕ)
  | runGc

def TransactionAction.caller : TransactionAction → Option ℕ
  | .read txId _ | .write txId _ _ | .delete txId _ | .commit txId | .abort txId => some txId
  | .begin _ | .runGc => none

def TransactionAction.aborts : TransactionAction → Option ℕ
  | .abort txId => some txId
  | _ => none

namespace TransactionRun

/-- Record a call that has changed the manager. -/
def record (s : TransactionRun) (event : Event)
    (done : TransactionManager × Except TransactionError Unit) : TransactionRun where
  manager := done.1
  history :=
    match done.2 with
    | .ok () => event :: s.history
    | .error _ => s.history

/-- One call. -/
def step (s : TransactionRun) : TransactionAction → Option TransactionRun
  | .begin isolationLevel =>
    some
      { manager := (s.manager.begin isolationLevel).1
        history := .begin (s.manager.begin isolationLevel).2 :: s.history }
  | .read _ _ => some s
  | .write txId key data =>
    some (s.record (.write txId key (some data)) (s.manager.write txId key data))
  | .delete txId key => some (s.record (.write txId key none) (s.manager.delete txId key))
  | .commit txId => (s.manager.commit txId).map (s.record (.commit txId))
  | .abort txId => some (s.record (.abort txId) (s.manager.abort txId))
  | .runGc => some { s with manager := s.manager.runGc.1 }

/-- A new transaction manager and the calls that can be made. -/
def system : System TransactionRun TransactionAction where
  init := {}
  step := step

def IsActive (s : TransactionRun) (txId : ℕ) : Prop :=
  ∃ tx, s.manager.transactions.lookup txId = some tx ∧ tx.isActive = true

instance (s : TransactionRun) (txId : ℕ) : Decidable (s.IsActive txId) :=
  decidable_of_iff ((s.manager.transactions.lookup txId).any Transaction.isActive = true) (by
    cases h : s.manager.transactions.lookup txId <;> simp [IsActive, h])

/-- Only transactions that are running are aborted. -/
def AbortsActive (s : TransactionRun) (a : TransactionAction) : Prop :=
  ∀ txId ∈ a.aborts, s.IsActive txId

instance (s : TransactionRun) (a : TransactionAction) : Decidable (s.AbortsActive a) :=
  inferInstanceAs (Decidable (∀ txId ∈ a.aborts, _))

end TransactionRun

/-! ## Chains -/

/-- The bytes that a write leaves in its version. -/
def bytes (v : Option Bytes) : Bytes :=
  v.getD []

def Version.committedBy (version : Version) (time : ℕ) : Bool :=
  match version.state with
  | .committed commitTs => commitTs ≤ time
  | _ => false

/-- The bytes of the newest version committed by a time. -/
def visibleAt (time : ℕ) (chain : List Version) : Option Bytes :=
  (chain.find? fun v => v.committedBy time).map fun v => v.data

theorem visibleAt_cons (time : ℕ) (v : Version) (older : List Version) :
    visibleAt time (v :: older) =
      if v.committedBy time then some v.data else visibleAt time older := by
  unfold visibleAt
  rw [List.find?_cons]
  cases v.committedBy time <;> rfl

theorem mem_markHead {txId : ℕ} {state : VersionState} {chain : List Version} {v : Version}
    (h : v ∈ markHead txId state chain) :
    v ∈ chain ∨ (v.state = state ∧ ∃ u ∈ chain, u.createdBy = txId ∧ v.createdBy = txId) := by
  cases chain with
  | nil => exact .inl h
  | cons u older =>
    rw [markHead] at h
    split_ifs at h with hu
    · rcases List.mem_cons.mp h with rfl | h
      · exact .inr ⟨rfl, u, List.mem_cons_self, hu, hu⟩
      · exact .inl (List.mem_cons_of_mem _ h)
    · exact .inl h

theorem markHead_of_ne {txId : ℕ} (state : VersionState) {chain : List Version}
    (h : ∀ v ∈ chain, v.createdBy ≠ txId) : markHead txId state chain = chain := by
  cases chain with
  | nil => rfl
  | cons v older => rw [markHead, if_neg (h v List.mem_cons_self)]

/-- To change the state of a version that is not committed, into one that is not committed by the
given time, does not change what is visible. -/
theorem visibleAt_markHead {time txId : ℕ} {state : VersionState} {chain : List Version}
    (hold : ∀ v ∈ chain, v.createdBy = txId → v.state = .active)
    (hnew : ∀ commitTs, state = .committed commitTs → time < commitTs) :
    visibleAt time (markHead txId state chain) = visibleAt time chain := by
  cases chain with
  | nil => rfl
  | cons v older =>
    rw [markHead]
    split_ifs with hv
    · have hbefore : v.committedBy time = false := by
        simp [Version.committedBy, hold v List.mem_cons_self hv]
      have hafter : ({ v with state := state } : Version).committedBy time = false := by
        cases hstate : state with
        | committed commitTs => simpa [Version.committedBy] using hnew commitTs hstate
        | active | aborted => rfl
      rw [visibleAt_cons, visibleAt_cons, hbefore, hafter]
    · rfl

/-- The chains after the newest versions of a transaction, under the keys `keys`, got a state. -/
def marked (chain : VersionKey → List Version) (keys : Finset VersionKey) (txId : ℕ)
    (state : VersionState) (key : VersionKey) : List Version :=
  if key ∈ keys then markHead txId state (chain key) else chain key

section Marked

variable {chain : VersionKey → List Version} {keys : Finset VersionKey} {txId : ℕ}
  {state : VersionState} {k : VersionKey}

theorem mem_marked {v : Version} (h : v ∈ marked chain keys txId state k) :
    v ∈ chain k ∨ (v.state = state ∧ ∃ u ∈ chain k, u.createdBy = txId ∧ v.createdBy = txId) := by
  unfold marked at h
  split_ifs at h
  · exact mem_markHead h
  · exact .inl h

theorem marked_of_ne (h : ∀ v ∈ chain k, v.createdBy ≠ txId) :
    marked chain keys txId state k = chain k := by
  unfold marked
  split_ifs
  · exact markHead_of_ne state h
  · rfl

theorem visibleAt_marked {time : ℕ} (hold : ∀ v ∈ chain k, v.createdBy = txId → v.state = .active)
    (hnew : ∀ commitTs, state = .committed commitTs → time < commitTs) :
    visibleAt time (marked chain keys txId state k) = visibleAt time (chain k) := by
  unfold marked
  split_ifs
  · exact visibleAt_markHead hold hnew
  · rfl

end Marked

/-! ## Garbage collection -/

/-- Garbage collection leaves the newest version and some of those behind it. -/
theorem gcVersionChain_cons (minTs : ℕ) (v : Version) (older : List Version) :
    ∃ rest, (gcVersionChain minTs (v :: older)).1 = v :: rest ∧
      rest.Sublist (gcVersionChain minTs older).1 := by
  rw [gcVersionChain]
  generalize gcVersionChain minTs older = collected
  obtain ⟨chain, n⟩ := collected
  cases chain with
  | nil => exact ⟨[], rfl, List.Sublist.refl _⟩
  | cons prev behind =>
    dsimp only
    split_ifs with haborted
    · exact ⟨behind, rfl, List.sublist_cons_self _ _⟩
    · split
      · split_ifs
        · exact ⟨[], rfl, List.nil_sublist _⟩
        · exact ⟨prev :: behind, rfl, List.Sublist.refl _⟩
      · exact ⟨prev :: behind, rfl, List.Sublist.refl _⟩

theorem gcVersionChain_sublist (minTs : ℕ) (chain : List Version) :
    (gcVersionChain minTs chain).1.Sublist chain := by
  induction chain with
  | nil => exact List.Sublist.refl _
  | cons v older ih =>
    obtain ⟨rest, heq, hsub⟩ := gcVersionChain_cons minTs v older
    rw [heq]
    exact (hsub.trans ih).cons_cons v

/-- Garbage collection does not change what is visible at a time by which every version older than
the low watermark is committed. -/
theorem visibleAt_gcVersionChain {minTs time : ℕ} {chain : List Version}
    (h : ∀ v ∈ chain, ∀ commitTs, v.state = .committed commitTs → commitTs < minTs →
      commitTs ≤ time) :
    visibleAt time (gcVersionChain minTs chain).1 = visibleAt time chain := by
  induction chain with
  | nil => rfl
  | cons v older ih =>
    have hih := ih fun u hu => h u (List.mem_cons_of_mem _ hu)
    rw [gcVersionChain, visibleAt_cons, ← hih]
    generalize gcVersionChain minTs older = collected
    obtain ⟨kept, n⟩ := collected
    cases kept with
    | nil => exact visibleAt_cons _ _ _
    | cons prev behind =>
      dsimp only
      split_ifs with haborted hv hv
      · rw [visibleAt_cons, if_pos hv]
      · rw [visibleAt_cons, if_neg hv, visibleAt_cons time prev,
          if_neg (by simp [Version.committedBy, haborted])]
      · split
        · split_ifs
          · rw [visibleAt_cons, if_pos hv]
          · rw [visibleAt_cons, if_pos hv]
        · rw [visibleAt_cons, if_pos hv]
      · split
        · next currCommitTs prevCommitTs hcurr hprev =>
          split_ifs with hcut
          · -- the version that hides what is cut off is visible itself
            have := h v List.mem_cons_self currCommitTs hcurr hcut.2
            simp [Version.committedBy, hcurr, this] at hv
          · rw [visibleAt_cons, if_neg hv]
        · rw [visibleAt_cons, if_neg hv]

/-! ## What the calls do to chains and locks -/

def TransactionManager.holders (m : TransactionManager) (key : VersionKey) : List LockRequest :=
  (m.lockManager.entry key).holders

/-- An exclusive lock is granted only if nobody else holds a lock. -/
theorem LockManager.acquire_exclusive (lm : LockManager) (txId : ℕ) (key : VersionKey) :
    (∃ e, (lm.acquire { txId := txId, key := key, mode := .exclusive }).2 = .error e ∧
      ∀ k, ((lm.acquire { txId := txId, key := key, mode := .exclusive }).1.entry k).holders =
        (lm.entry k).holders) ∨
    ((lm.acquire { txId := txId, key := key, mode := .exclusive }).2 = .ok () ∧
      (∀ h ∈ (lm.entry key).holders, h.txId = txId) ∧
      ∀ k, ((lm.acquire { txId := txId, key := key, mode := .exclusive }).1.entry k).holders =
        if k = key then (lm.entry key).holders ++
          [{ txId := txId, key := key, mode := .exclusive, granted := true }]
        else (lm.entry k).holders) := by
  unfold acquire
  dsimp only
  split_ifs with hgrant
  · refine .inr ⟨rfl, fun h hh => ?_, fun k => ?_⟩
    · have hcompatible := List.all_eq_true.mp hgrant h hh
      rcases Bool.or_eq_true_iff.mp hcompatible with heq | hmode
      · exact of_decide_eq_true heq
      · cases hm : h.mode <;> simp [hm, LockMode.isCompatible] at hmode
    · simp only [entry, Table.lookup_insert]
      split_ifs <;> rfl
  · refine .inl ⟨_, rfl, fun k => ?_⟩
    simp only [entry, Table.lookup_insert]
    split_ifs with hk
    · rw [hk]
      rfl
    · rfl

theorem LockManager.entry_releaseAll (lm : LockManager) (txId : ℕ) (key : VersionKey) :
    (lm.releaseAll txId).entry key =
      { holders := (lm.entry key).holders.filter fun h => h.txId ≠ txId
        waiters := (lm.entry key).waiters.filter fun w => w.txId ≠ txId } := by
  simp only [entry, releaseAll, Table.lookup_filterValues, Table.lookup_mapValues]
  cases lm.locks.lookup key with
  | none => rfl
  | some e =>
    simp only [Option.map_some, Option.filter_some]
    split_ifs with hkeep
    · rfl
    · simp only [Bool.not_eq_true', Bool.not_eq_false, Bool.and_eq_true,
        List.isEmpty_iff] at hkeep
      rw [Option.getD_none, Option.getD_some, hkeep.1, hkeep.2]

theorem LockManager.holders_releaseAll (lm : LockManager) (txId : ℕ) (key : VersionKey) :
    ((lm.releaseAll txId).entry key).holders =
      (lm.entry key).holders.filter fun h => h.txId ≠ txId :=
  congrArg LockEntry.holders (lm.entry_releaseAll txId key)

namespace TransactionManager

variable (m : TransactionManager)

theorem chain_markVersions (txId : ℕ) (tx : Transaction) (state : VersionState)
    (key : VersionKey) :
    ((m.markVersions txId tx state).lookup key).getD [] =
      marked m.chain tx.writeSet txId state key := by
  simp only [markVersions, Table.lookup_mapValues, marked, chain]
  cases m.versions.lookup key with
  | none => simp [markHead]
  | some c => simp

theorem chain_runGc (key : VersionKey) :
    m.runGc.1.chain key = (gcVersionChain m.getMinActiveTimestamp (m.chain key)).1 := by
  simp only [runGc, chain, Table.lookup_mapValues]
  cases m.versions.lookup key <;> rfl

theorem getMinActiveTimestamp_le {txId : ℕ} {tx : Transaction}
    (h : m.transactions.lookup txId = some tx) (hactive : tx.isActive = true) :
    m.getMinActiveTimestamp ≤ tx.startTimestamp := by
  have hmem : tx.startTimestamp ∈ (m.transactions.values.filter Transaction.isActive).map
      fun tx => tx.startTimestamp := by
    refine List.mem_map.mpr ⟨tx, List.mem_filter.mpr ⟨?_, hactive⟩, rfl⟩
    exact Table.mem_values.mpr ⟨txId, h⟩
  unfold getMinActiveTimestamp
  cases hmin : ((m.transactions.values.filter Transaction.isActive).map
      fun tx => tx.startTimestamp).min? with
  | none =>
    rw [List.min?_eq_none_iff] at hmin
    rw [hmin] at hmem
    cases hmem
  | some least => exact (List.min?_eq_some_iff.mp hmin).2 _ hmem

/-- What a write does: nothing, or it adds the key to the write set, and if it gets the lock it
puts a new version on top of the chain. -/
theorem write_cases (txId : ℕ) (key : VersionKey) (data : Bytes) :
    (∃ e, m.write txId key data = (m, .error e)) ∨
    ∃ tx m', m.transactions.lookup txId = some tx ∧ tx.isActive = true ∧
      m'.transactions = m.transactions.insert txId (tx.addToWriteSet key) ∧
      m'.nextTxId = m.nextTxId ∧ m'.nextTimestamp = m.nextTimestamp ∧
      ((∃ e, m.write txId key data = (m', .error e) ∧ m'.chain = m.chain ∧
          m'.holders = m.holders) ∨
        (m.write txId key data = (m', .ok ()) ∧ (∀ h ∈ m.holders key, h.txId = txId) ∧
          (∀ k, m'.chain k =
            if k = key then { createdBy := txId, data := data } :: m.chain key else m.chain k) ∧
          ∀ k, m'.holders k =
            if k = key then m.holders key ++
              [{ txId := txId, key := key, mode := .exclusive, granted := true }]
            else m.holders k)) := by
  unfold write
  split
  · exact .inl ⟨_, rfl⟩
  · next tx htx =>
    split_ifs with hactive
    · have hacquire := m.lockManager.acquire_exclusive txId key
      generalize m.lockManager.acquire { txId := txId, key := key, mode := .exclusive } = acquired
        at hacquire
      obtain ⟨lm, result⟩ := acquired
      rcases hacquire with ⟨e, rfl, hholders⟩ | ⟨rfl, hfree, hholders⟩
      · exact .inr ⟨tx,
          { m with
            transactions := m.transactions.insert txId (tx.addToWriteSet key)
            lockManager := lm },
          htx, hactive, rfl, rfl, rfl, .inl ⟨e, rfl, rfl, funext hholders⟩⟩
      · refine .inr ⟨tx,
          { m with
            transactions := m.transactions.insert txId (tx.addToWriteSet key)
            lockManager := lm
            versions :=
              m.versions.insert key ({ createdBy := txId, data := data } :: m.chain key) },
          htx, hactive, rfl, rfl, rfl, .inr ⟨rfl, hfree, fun k => ?_, hholders⟩⟩
        simp only [chain, Table.lookup_insert]
        split_ifs <;> rfl
    · exact .inl ⟨_, rfl⟩

end TransactionManager

/-! ## The invariant -/

/-- What an active transaction finds: `chain` are the versions of a key, `holders` the locks
granted on it, and `h` is what has happened. -/
structure Reads (chain : VersionKey → List Version) (holders : VersionKey → List LockRequest)
    (h : List Event) (txId : ℕ) (tx : Transaction) : Prop where
  uncommitted : ∀ k, ∀ v ∈ chain k, v.createdBy = txId → v.state = .active
  /-- The transactions that were active when it began commit later. -/
  concurrent : ∀ k, ∀ v ∈ chain k, v.createdBy ∈ tx.snapshot.activeTransactions →
    ∀ commitTs, v.state = .committed commitTs → tx.snapshot.timestamp < commitTs
  /-- The snapshot shows what had been committed when the transaction began. -/
  sees : ∀ k, visibleAt tx.snapshot.timestamp (chain k) = (latest (before h txId) k).map bytes
  /-- Keys that it has not written have no version of it. -/
  unwritten : ∀ k, lastWrite h txId k = none → ∀ v ∈ chain k, v.createdBy ≠ txId
  /-- Keys that it has written have its last write on top, and it holds their lock. -/
  written : ∀ k w, lastWrite h txId k = some w → k ∈ tx.writeSet ∧
    (∃ v older, chain k = v :: older ∧ v.createdBy = txId ∧ v.data = bytes w) ∧
      ∃ r ∈ holders k, r.txId = txId ∧ r.mode = .exclusive

section Reads

variable {chain chain' : VersionKey → List Version}
  {holders holders' : VersionKey → List LockRequest} {h h' : List Event} {t txId : ℕ}
  {tx : Transaction}

/-- What is in a chain after a write was there before, or is the version that was written. -/
theorem mem_pushed {key k : VersionKey} {w : Option Bytes} {v : Version}
    (hv : v ∈ if k = key then { createdBy := txId, data := bytes w } :: chain key else chain k) :
    v ∈ chain k ∨ k = key ∧ v.createdBy = txId ∧ v.state = .active := by
  split_ifs at hv with hk
  · rcases List.mem_cons.mp hv with rfl | hv
    · exact .inr ⟨hk, rfl, rfl⟩
    · exact .inl (hk ▸ hv)
  · exact .inl hv

/-- Another transaction puts a version on top of a chain that the reader has not locked. -/
theorem Reads.push (hr : Reads chain holders h t tx) (hne : t ≠ txId) {key : VersionKey}
    {w : Option Bytes} (hfree : ∀ r ∈ holders key, r.txId = txId)
    (hchain : ∀ k, chain' k =
      if k = key then { createdBy := txId, data := bytes w } :: chain key else chain k)
    (hholders : ∀ k, ∀ r ∈ holders k, r ∈ holders' k) :
    Reads chain' holders' (.write txId key w :: h) t tx := by
  have hlast (k : VersionKey) : lastWrite (.write txId key w :: h) t k = lastWrite h t k := by
    rw [lastWrite_write, if_neg fun hcond => hne hcond.1.symm]
  refine
    { uncommitted := fun k v hv hc => ?_
      concurrent := fun k v hv hc commitTs hstate => ?_
      sees := fun k => ?_
      unwritten := fun k hk v hv hc => ?_
      written := fun k w' hk => ?_ }
  · rcases mem_pushed (hchain k ▸ hv) with hold | ⟨-, -, hactive⟩
    · exact hr.uncommitted k v hold hc
    · exact hactive
  · rcases mem_pushed (hchain k ▸ hv) with hold | ⟨-, -, hactive⟩
    · exact hr.concurrent k v hold hc commitTs hstate
    · rw [hactive] at hstate
      cases hstate
  · rw [before_write, ← hr.sees k, hchain]
    split_ifs with hk
    · rw [visibleAt_cons, if_neg (by simp [Version.committedBy]), hk]
    · rfl
  · rcases mem_pushed (hchain k ▸ hv) with hold | ⟨-, hnew, -⟩
    · exact hr.unwritten k (by rw [← hlast, hk]) v hold hc
    · exact hne (hc.symm.trans hnew)
  · rw [hlast] at hk
    obtain ⟨hset, htop, r, hr', hrt, hmode⟩ := hr.written k w' hk
    refine ⟨hset, ?_, r, hholders k r hr', hrt, hmode⟩
    rw [hchain, if_neg]
    · exact htop
    · -- the reader would hold the lock
      rintro rfl
      exact hne (hrt.symm.trans (hfree r hr'))

/-- The reader itself puts a version on top of a chain that it has locked. -/
theorem Reads.pushOwn (hr : Reads chain holders h t tx) {key : VersionKey} {w : Option Bytes}
    (hchain : ∀ k, chain' k =
      if k = key then { createdBy := t, data := bytes w } :: chain key else chain k)
    (hholders : ∀ k, ∀ r ∈ holders k, r ∈ holders' k)
    (hlock : ∃ r ∈ holders' key, r.txId = t ∧ r.mode = .exclusive) :
    Reads chain' holders' (.write t key w :: h) t (tx.addToWriteSet key) := by
  refine
    { uncommitted := fun k v hv hc => ?_
      concurrent := fun k v hv hc commitTs hstate => ?_
      sees := fun k => ?_
      unwritten := fun k hk v hv hc => ?_
      written := fun k w' hk => ?_ }
  · rcases mem_pushed (hchain k ▸ hv) with hold | ⟨-, -, hactive⟩
    · exact hr.uncommitted k v hold hc
    · exact hactive
  · rcases mem_pushed (hchain k ▸ hv) with hold | ⟨-, -, hactive⟩
    · exact hr.concurrent k v hold hc commitTs hstate
    · rw [hactive] at hstate
      cases hstate
  · rw [before_write, ← hr.sees k, hchain]
    split_ifs with hk
    · rw [visibleAt_cons, if_neg (by simp [Version.committedBy]), hk]
      rfl
    · rfl
  · rw [lastWrite_write] at hk
    split_ifs at hk with hcond
    rcases mem_pushed (hchain k ▸ hv) with hold | ⟨rfl, -⟩
    · exact hr.unwritten k hk v hold hc
    · exact hcond ⟨rfl, rfl⟩
  · rw [lastWrite_write] at hk
    split_ifs at hk with hcond
    · obtain ⟨-, rfl⟩ := hcond
      obtain rfl := Option.some.inj hk
      exact ⟨Finset.mem_insert_self _ _, ⟨_, _, by rw [hchain, if_pos rfl], rfl, rfl⟩, hlock⟩
    · obtain ⟨hset, htop, r, hr', hrt, hmode⟩ := hr.written k w' hk
      refine ⟨Finset.mem_insert_of_mem hset, ?_, r, hholders k r hr', hrt, hmode⟩
      rw [hchain, if_neg fun heq => hcond ⟨rfl, heq.symm⟩]
      exact htop

/-- Another transaction ends: its newest versions get a state that the reader does not see, and its
locks are released. -/
theorem Reads.mark (hr : Reads chain holders h t tx) (hne : t ≠ txId) {keys : Finset VersionKey}
    {state : VersionState} (hactive : ∀ k, ∀ v ∈ chain k, v.createdBy = txId → v.state = .active)
    (hstate : ∀ commitTs, state = .committed commitTs → tx.snapshot.timestamp < commitTs)
    (hlast : ∀ k, lastWrite h' t k = lastWrite h t k) (hbefore : before h' t = before h t)
    (hchain : ∀ k, chain' k = marked chain keys txId state k)
    (hholders : ∀ k, holders' k = (holders k).filter fun r => r.txId ≠ txId) :
    Reads chain' holders' h' t tx := by
  refine
    { uncommitted := fun k v hv hc => ?_
      concurrent := fun k v hv hc commitTs hcommit => ?_
      sees := fun k => ?_
      unwritten := fun k hk v hv hc => ?_
      written := fun k w hk => ?_ }
  · rcases mem_marked (hchain k ▸ hv) with hold | ⟨-, -, -, -, hnew⟩
    · exact hr.uncommitted k v hold hc
    · exact absurd (hc.symm.trans hnew) hne
  · rcases mem_marked (hchain k ▸ hv) with hold | ⟨hnew, -⟩
    · exact hr.concurrent k v hold hc commitTs hcommit
    · exact hstate commitTs (hnew.symm.trans hcommit)
  · rw [hchain, visibleAt_marked (hactive k) hstate, hbefore, hr.sees k]
  · rcases mem_marked (hchain k ▸ hv) with hold | ⟨-, -, -, -, hnew⟩
    · exact hr.unwritten k (by rw [← hlast, hk]) v hold hc
    · exact hne (hc.symm.trans hnew)
  · rw [hlast] at hk
    obtain ⟨hset, ⟨v, older, htop, hv, hdata⟩, r, hr', hrt, hmode⟩ := hr.written k w hk
    refine ⟨hset, ⟨v, older, ?_, hv, hdata⟩, r, ?_, hrt, hmode⟩
    · have hhead : ¬ v.createdBy = txId := by rwa [hv]
      rw [hchain, marked, htop, markHead, if_neg hhead, ite_self]
    · rw [hholders]
      exact List.mem_filter.mpr ⟨hr', by simp [hrt, hne]⟩

/-- Garbage is collected behind a low watermark that the reader is not older than. -/
theorem Reads.collect (hr : Reads chain holders h t tx) {minTs : ℕ}
    (hmin : minTs ≤ tx.snapshot.timestamp)
    (hchain : ∀ k, chain' k = (gcVersionChain minTs (chain k)).1) :
    Reads chain' holders h t tx := by
  have hmem (k : VersionKey) (v : Version) (hv : v ∈ chain' k) : v ∈ chain k :=
    (gcVersionChain_sublist minTs (chain k)).subset (hchain k ▸ hv)
  refine
    { uncommitted := fun k v hv hc => hr.uncommitted k v (hmem k v hv) hc
      concurrent := fun k v hv hc commitTs hstate =>
        hr.concurrent k v (hmem k v hv) hc commitTs hstate
      sees := fun k => ?_
      unwritten := fun k hk v hv => hr.unwritten k hk v (hmem k v hv)
      written := fun k w hk => ?_ }
  · rw [hchain, visibleAt_gcVersionChain, hr.sees k]
    intro v _ commitTs _ hlt
    omega
  · obtain ⟨hset, ⟨v, older, htop, hv, hdata⟩, hlock⟩ := hr.written k w hk
    obtain ⟨rest, hrest, -⟩ := gcVersionChain_cons minTs v older
    exact ⟨hset, ⟨v, rest, by rw [hchain, htop, hrest], hv, hdata⟩, hlock⟩

end Reads

namespace TransactionRun

/-- The version chains of all keys agree with what has happened. -/
structure SnapshotInv (s : TransactionRun) : Prop where
  /-- Active transactions find what they should, and began in the past. -/
  active : ∀ txId tx, s.manager.transactions.lookup txId = some tx → tx.isActive = true →
    txId < s.manager.nextTxId ∧ tx.startTimestamp = tx.snapshot.timestamp ∧
      tx.snapshot.timestamp < s.manager.nextTimestamp ∧
        Reads s.manager.chain s.manager.holders s.history txId tx
  /-- Versions were written by transactions that have begun. -/
  created : ∀ k, ∀ v ∈ s.manager.chain k, v.createdBy < s.manager.nextTxId
  past : ∀ k, ∀ v ∈ s.manager.chain k, ∀ commitTs, v.state = .committed commitTs →
    commitTs < s.manager.nextTimestamp
  /-- A transaction that begins now sees what has been committed. -/
  current : ∀ k time, s.manager.nextTimestamp ≤ time →
    visibleAt time (s.manager.chain k) = (latest s.history k).map bytes
  /-- A transaction that has not begun has not written. -/
  unborn : ∀ k txId, s.manager.nextTxId ≤ txId → lastWrite s.history txId k = none

variable {s : TransactionRun}

/-- A read returns what had been committed last when the transaction began. -/
theorem SnapshotInv.read_eq (hs : s.SnapshotInv) {txId : ℕ} (ht : s.IsActive txId)
    (key : VersionKey) :
    s.manager.read txId key = .ok ((latest (before s.history txId) key).map bytes) := by
  obtain ⟨tx, htx, hactive⟩ := ht
  obtain ⟨-, -, -, hreads⟩ := hs.active txId tx htx hactive
  have hsees := hreads.sees key
  have hfind : (s.manager.chain key).find? tx.snapshot.isVisible =
      (s.manager.chain key).find? fun v => v.committedBy tx.snapshot.timestamp := by
    refine List.find?_congr fun v hv => ?_
    unfold Snapshot.isVisible Version.committedBy
    cases hstate : v.state with
    | active | aborted => rfl
    | committed commitTs =>
      by_cases hmem : v.createdBy ∈ tx.snapshot.activeTransactions
      · have := hreads.concurrent key v hv hmem commitTs hstate
        simp [hmem, this]
      · simp [hmem]
  rw [TransactionManager.read, htx]
  simp only [hactive, if_true, hfind]
  rw [← hsees, visibleAt]

theorem SnapshotInv.begin (hs : s.SnapshotInv) (isolationLevel : IsolationLevel) :
    SnapshotInv
      { manager := (s.manager.begin isolationLevel).1
        history := .begin (s.manager.begin isolationLevel).2 :: s.history } := by
  have hlookup (t : ℕ) : (s.manager.begin isolationLevel).1.transactions.lookup t =
      if t = s.manager.nextTxId then
        some (Transaction.new isolationLevel s.manager.nextTimestamp
          (s.manager.transactions.filterValues fun _ tx => tx.isActive).keys.toFinset)
      else s.manager.transactions.lookup t := Table.lookup_insert _ _ _ _
  refine
    { active := fun t tx ht hactive => ?_
      created := fun k v hv => Nat.lt_succ_of_lt (hs.created k v hv)
      past := fun k v hv commitTs hstate => Nat.lt_succ_of_lt (hs.past k v hv commitTs hstate)
      current := fun k time htime => ?_
      unborn := fun k t ht => ?_ }
  · rw [hlookup] at ht
    split_ifs at ht with hnew
    · obtain rfl := Option.some.inj ht
      subst hnew
      refine ⟨Nat.lt_succ_self _, rfl, Nat.lt_succ_self _, ?_⟩
      refine
        { uncommitted := fun k v hv hc => ?_
          concurrent := fun k v hv hc commitTs hstate => ?_
          sees := fun k => ?_
          unwritten := fun k _ v hv hc => ?_
          written := fun k w hk => ?_ }
      · exact absurd hc (hs.created k v hv).ne
      · -- the versions of the transactions that are active now are not committed
        have hkeys : v.createdBy ∈ s.manager.transactions.filterValues fun _ tx => tx.isActive :=
          List.mem_toFinset.mp hc
        rw [← AList.lookup_isSome, Table.lookup_filterValues, Option.isSome_iff_exists] at hkeys
        obtain ⟨tx, htx⟩ := hkeys
        obtain ⟨htx, hactive'⟩ := Option.filter_eq_some_iff.mp htx
        obtain ⟨-, -, -, hreads⟩ := hs.active _ tx htx hactive'
        rw [hreads.uncommitted k v hv rfl] at hstate
        cases hstate
      · show _ = (latest (before (.begin s.manager.nextTxId :: s.history) _) k).map bytes
        rw [before_begin, if_pos rfl]
        exact hs.current k _ (Nat.le_refl _)
      · exact absurd hc (hs.created k v hv).ne
      · have hnone := hs.unborn k _ (Nat.le_refl s.manager.nextTxId)
        have hk' : lastWrite s.history s.manager.nextTxId k = some w := hk
        rw [hnone] at hk'
        cases hk'
    · obtain ⟨hid, hstart, htime, hreads⟩ := hs.active t tx ht hactive
      refine ⟨Nat.lt_succ_of_lt hid, hstart, Nat.lt_succ_of_lt htime, ?_⟩
      have hbefore : before (.begin s.manager.nextTxId :: s.history) t = before s.history t := by
        rw [before_begin, if_neg fun heq => hnew heq.symm]
      exact
        { hreads with
          sees := fun k => by
            show _ = (latest (before (.begin s.manager.nextTxId :: s.history) t) k).map bytes
            rw [hbefore]
            exact hreads.sees k }
  · exact hs.current k time (by exact Nat.le_of_succ_le htime)
  · exact hs.unborn k t (Nat.le_of_succ_le ht)

theorem SnapshotInv.write (hs : s.SnapshotInv) (txId : ℕ) (key : VersionKey) (w : Option Bytes) :
    (s.record (.write txId key w) (s.manager.write txId key (bytes w))).SnapshotInv := by
  rcases s.manager.write_cases txId key (bytes w) with ⟨e, heq⟩ | ⟨tx, m', htx, hactive, htrans,
    hid, htime, ⟨e, heq, hchain, hholders⟩ | ⟨heq, hfree, hchain, hholders⟩⟩
  · rw [heq]
    exact hs
  · rw [heq]
    refine
      { active := fun t tx' ht hactive' => ?_
        created := fun k v hv => ?_
        past := fun k v hv => ?_
        current := fun k time ht => ?_
        unborn := fun k t ht => ?_ }
    · dsimp only [record] at ht ⊢
      rw [hid, htime, hchain, hholders]
      rw [htrans, Table.lookup_insert] at ht
      split_ifs at ht with hself
      · obtain rfl := Option.some.inj ht
        subst hself
        obtain ⟨h₁, h₂, h₃, hreads⟩ := hs.active t tx htx hactive
        refine ⟨h₁, h₂, h₃, { hreads with written := fun k w' hk => ?_ }⟩
        obtain ⟨hset, hrest⟩ := hreads.written k w' hk
        exact ⟨Finset.mem_insert_of_mem hset, hrest⟩
      · exact hs.active t tx' ht hactive'
    · dsimp only [record] at hv ⊢
      rw [hid]
      exact hs.created k v (hchain ▸ hv)
    · dsimp only [record] at hv ⊢
      rw [htime]
      exact hs.past k v (hchain ▸ hv)
    · dsimp only [record] at ht ⊢
      rw [hchain]
      exact hs.current k time (htime ▸ ht)
    · dsimp only [record] at ht ⊢
      exact hs.unborn k t (hid ▸ ht)
  · rw [heq]
    obtain ⟨htx₁, htx₂, htx₃, hown⟩ := hs.active txId tx htx hactive
    have hmem (k : VersionKey) (v : Version) (hv : v ∈ m'.chain k) :
        v ∈ s.manager.chain k ∨ (v.createdBy = txId ∧ v.state = .active) := by
      rw [hchain] at hv
      split_ifs at hv with hk
      · rcases List.mem_cons.mp hv with rfl | hv
        · exact .inr ⟨rfl, rfl⟩
        · exact .inl (hk ▸ hv)
      · exact .inl hv
    have hlocks (k : VersionKey) (r : LockRequest) (hr : r ∈ s.manager.holders k) :
        r ∈ m'.holders k := by
      rw [hholders]
      split_ifs with hk
      · exact List.mem_append_left _ (hk ▸ hr)
      · exact hr
    refine
      { active := fun t tx' ht hactive' => ?_
        created := fun k v hv => ?_
        past := fun k v hv commitTs hstate => ?_
        current := fun k time ht => ?_
        unborn := fun k t ht => ?_ }
    · dsimp only [record] at ht ⊢
      rw [hid, htime]
      rw [htrans, Table.lookup_insert] at ht
      split_ifs at ht with hself
      · obtain rfl := Option.some.inj ht
        subst hself
        refine ⟨htx₁, htx₂, htx₃, hown.pushOwn hchain hlocks ?_⟩
        rw [hholders, if_pos rfl]
        exact ⟨_, List.mem_append_right _ (List.mem_singleton_self _), rfl, rfl⟩
      · obtain ⟨h₁, h₂, h₃, hreads⟩ := hs.active t tx' ht hactive'
        exact ⟨h₁, h₂, h₃, hreads.push hself hfree hchain hlocks⟩
    · dsimp only [record] at hv ⊢
      rw [hid]
      rcases hmem k v hv with hold | ⟨hnew, -⟩
      · exact hs.created k v hold
      · rw [hnew]
        exact htx₁
    · dsimp only [record] at hv ⊢
      rw [htime]
      rcases hmem k v hv with hold | ⟨-, hnew⟩
      · exact hs.past k v hold commitTs hstate
      · rw [hnew] at hstate
        cases hstate
    · dsimp only [record] at ht ⊢
      rw [latest_write, ← hs.current k time (htime ▸ ht), hchain]
      split_ifs with hk
      · rw [visibleAt_cons, if_neg (by simp [Version.committedBy]), hk]
      · rfl
    · dsimp only [record] at ht ⊢
      rw [hid] at ht
      rw [lastWrite_write, if_neg fun hcond => ?_]
      · exact hs.unborn k t ht
      · omega

theorem SnapshotInv.tick (hs : s.SnapshotInv) {m : TransactionManager}
    (htrans : m.transactions = s.manager.transactions) (hid : m.nextTxId = s.manager.nextTxId)
    (hlock : m.lockManager = s.manager.lockManager) (hversions : m.versions = s.manager.versions)
    (htime : s.manager.nextTimestamp ≤ m.nextTimestamp) :
    SnapshotInv { s with manager := m } := by
  have hchain : m.chain = s.manager.chain := by
    unfold TransactionManager.chain
    rw [hversions]
  have hholders : m.holders = s.manager.holders := by
    unfold TransactionManager.holders
    rw [hlock]
  refine
    { active := fun t tx ht hactive => ?_
      created := fun k v hv => ?_
      past := fun k v hv commitTs hstate => ?_
      current := fun k time ht => ?_
      unborn := fun k t ht => hs.unborn k t (hid ▸ ht) }
  · obtain ⟨h₁, h₂, h₃, hreads⟩ := hs.active t tx (htrans ▸ ht) hactive
    exact ⟨hid ▸ h₁, h₂, lt_of_lt_of_le h₃ htime, by rwa [hchain, hholders]⟩
  · exact hid ▸ hs.created k v (hchain ▸ hv)
  · exact lt_of_lt_of_le (hs.past k v (hchain ▸ hv) commitTs hstate) htime
  · rw [hchain]
    exact hs.current k time (Nat.le_trans htime ht)

/-- An active transaction ends: its newest versions get a state, which is a commit at the present
time or none at all, and its locks are released. -/
theorem SnapshotInv.finish (hs : s.SnapshotInv) {txId : ℕ} {tx tx' : Transaction}
    (htx : s.manager.transactions.lookup txId = some tx) (hactive : tx.isActive = true)
    (htx' : tx'.isActive = false) {state : VersionState} {m : TransactionManager} {e : Event}
    (htrans : m.transactions = s.manager.transactions.insert txId tx')
    (hid : m.nextTxId = s.manager.nextTxId)
    (hlock : m.lockManager = s.manager.lockManager.releaseAll txId)
    (hversions : m.versions = s.manager.markVersions txId tx state)
    (htime : s.manager.nextTimestamp ≤ m.nextTimestamp)
    (hstate : ∀ commitTs, state = .committed commitTs →
      s.manager.nextTimestamp ≤ commitTs ∧ commitTs < m.nextTimestamp)
    (hlast : ∀ t k, lastWrite (e :: s.history) t k = lastWrite s.history t k)
    (hbefore : ∀ t, before (e :: s.history) t = before s.history t)
    (hlatest : ∀ k time, m.nextTimestamp ≤ time →
      visibleAt time (marked s.manager.chain tx.writeSet txId state k) =
        (latest (e :: s.history) k).map bytes) :
    SnapshotInv { manager := m, history := e :: s.history } := by
  obtain ⟨htx₁, htx₂, htx₃, hown⟩ := hs.active txId tx htx hactive
  have hchain (k : VersionKey) : m.chain k = marked s.manager.chain tx.writeSet txId state k := by
    unfold TransactionManager.chain
    rw [hversions]
    exact s.manager.chain_markVersions txId tx state k
  have hholders (k : VersionKey) :
      m.holders k = (s.manager.holders k).filter fun r => r.txId ≠ txId := by
    unfold TransactionManager.holders
    rw [hlock]
    exact s.manager.lockManager.holders_releaseAll txId k
  refine
    { active := fun t tx₂ ht hactive₂ => ?_
      created := fun k v hv => ?_
      past := fun k v hv commitTs hcommit => ?_
      current := fun k time ht => ?_
      unborn := fun k t ht => ?_ }
  · dsimp only at ht ⊢
    rw [htrans, Table.lookup_insert] at ht
    split_ifs at ht with hself
    · obtain rfl := Option.some.inj ht
      rw [htx'] at hactive₂
      cases hactive₂
    · obtain ⟨h₁, h₂, h₃, hreads⟩ := hs.active t tx₂ ht hactive₂
      refine ⟨hid ▸ h₁, h₂, lt_of_lt_of_le h₃ htime, ?_⟩
      refine hreads.mark hself hown.uncommitted (fun commitTs hcommit => ?_) (hlast t) (hbefore t)
        hchain hholders
      exact lt_of_lt_of_le h₃ (hstate commitTs hcommit).1
  · dsimp only at hv ⊢
    rw [hid]
    rcases mem_marked (hchain k ▸ hv) with hold | ⟨-, u, hu, -, hnew⟩
    · exact hs.created k v hold
    · rw [hnew]
      exact htx₁
  · dsimp only at hv ⊢
    rcases mem_marked (hchain k ▸ hv) with hold | ⟨hnew, -⟩
    · exact lt_of_lt_of_le (hs.past k v hold commitTs hcommit) htime
    · exact (hstate commitTs (hnew.symm.trans hcommit)).2
  · dsimp only at ht ⊢
    rw [hchain]
    exact hlatest k time ht
  · dsimp only at ht ⊢
    rw [hlast]
    exact hs.unborn k t (hid ▸ ht)

theorem SnapshotInv.commit (hs : s.SnapshotInv) {txId : ℕ}
    {done : TransactionManager × Except TransactionError Unit}
    (hdone : s.manager.commit txId = some done) :
    (s.record (.commit txId) done).SnapshotInv := by
  rw [TransactionManager.commit_eq] at hdone
  dsimp only at hdone
  split at hdone
  · obtain rfl := Option.some.inj hdone
    exact hs.tick rfl rfl rfl rfl (Nat.le_succ _)
  · next tx htx =>
    split_ifs at hdone with hstate hlevel
    · obtain rfl := Option.some.inj hdone
      exact hs.tick rfl rfl rfl rfl (Nat.le_succ _)
    · obtain rfl := Option.some.inj hdone
      have hactive : tx.isActive = true := by simpa [Transaction.isActive] using hstate
      obtain ⟨-, -, -, hown⟩ := hs.active txId tx htx hactive
      refine hs.finish htx hactive (by rfl) rfl rfl rfl rfl (Nat.le_succ _)
        (fun commitTs hcommit => ?_) (fun _ _ => rfl) (fun _ => rfl) fun k time htime => ?_
      · obtain rfl := VersionState.committed.inj hcommit
        exact ⟨Nat.le_refl _, Nat.lt_succ_self _⟩
      · rw [latest_commit]
        cases hw : lastWrite s.history txId k with
        | none =>
          rw [marked_of_ne (hown.unwritten k hw), hs.current k time (Nat.le_of_succ_le htime)]
          rfl
        | some w =>
          obtain ⟨hset, ⟨v, older, htop, hv, hdata⟩, -⟩ := hown.written k w hw
          have hle : s.manager.nextTimestamp ≤ time := Nat.le_of_succ_le htime
          rw [marked, if_pos hset, htop, markHead, if_pos hv, visibleAt_cons,
            if_pos (by simpa [Version.committedBy] using hle), hdata]
          rfl

theorem SnapshotInv.abort (hs : s.SnapshotInv) {txId : ℕ} (hrunning : s.IsActive txId) :
    (s.record (.abort txId) (s.manager.abort txId)).SnapshotInv := by
  obtain ⟨tx, htx, hactive⟩ := hrunning
  obtain ⟨-, -, -, hown⟩ := hs.active txId tx htx hactive
  unfold TransactionManager.abort
  rw [htx]
  refine hs.finish htx hactive (by rfl) rfl rfl rfl rfl (Nat.le_refl _)
    (fun _ hcommit => nomatch hcommit) (fun _ _ => rfl) (fun _ => rfl) fun k time htime => ?_
  refine (visibleAt_marked (hown.uncommitted k) ?_).trans (hs.current k time htime)
  intro _ hcommit
  cases hcommit

theorem SnapshotInv.runGc (hs : s.SnapshotInv) :
    SnapshotInv { s with manager := s.manager.runGc.1 } := by
  have hchain := s.manager.chain_runGc
  have hmem (k : VersionKey) (v : Version) (hv : v ∈ s.manager.runGc.1.chain k) :
      v ∈ s.manager.chain k :=
    (gcVersionChain_sublist _ _).subset (hchain k ▸ hv)
  refine
    { active := fun t tx ht hactive => ?_
      created := fun k v hv => hs.created k v (hmem k v hv)
      past := fun k v hv commitTs hstate => hs.past k v (hmem k v hv) commitTs hstate
      current := fun k time ht => ?_
      unborn := hs.unborn }
  · have ht' : s.manager.transactions.lookup t = some tx := by
      have hfilter : (s.manager.transactions.filterValues fun _ tx =>
          !TransactionManager.cleanable s.manager.getMinActiveTimestamp tx).lookup t = some tx := ht
      exact Table.lookup_of_lookup_filterValues hfilter
    obtain ⟨h₁, h₂, h₃, hreads⟩ := hs.active t tx ht' hactive
    refine ⟨h₁, h₂, h₃, hreads.collect ?_ hchain⟩
    rw [← h₂]
    exact s.manager.getMinActiveTimestamp_le ht' hactive
  · dsimp only
    rw [hchain, visibleAt_gcVersionChain, hs.current k time ht]
    intro v hv commitTs hstate _
    have htime : s.manager.nextTimestamp ≤ time := ht
    have := hs.past k v hv commitTs hstate
    omega

/-- Every call preserves the invariant, as long as only running transactions are aborted. -/
theorem snapshotInv_step {s' : TransactionRun} {a : TransactionAction} (hs : s.SnapshotInv)
    (ha : s.AbortsActive a) (hstep : system.step s a = some s') : s'.SnapshotInv := by
  cases a with
  | begin isolationLevel =>
    obtain rfl := Option.some.inj hstep
    exact hs.begin isolationLevel
  | read txId key =>
    obtain rfl := Option.some.inj hstep
    exact hs
  | write txId key data =>
    obtain rfl := Option.some.inj hstep
    exact hs.write txId key (some data)
  | delete txId key =>
    obtain rfl := Option.some.inj hstep
    exact hs.write txId key none
  | commit txId =>
    obtain ⟨done, hdone, rfl⟩ := Option.map_eq_some_iff.mp hstep
    exact hs.commit hdone
  | abort txId =>
    obtain rfl := Option.some.inj hstep
    exact hs.abort (ha txId rfl)
  | runGc =>
    obtain rfl := Option.some.inj hstep
    exact hs.runGc

theorem snapshotInv (hs : system.Reach AbortsActive s) : s.SnapshotInv := by
  refine System.Reach.invariant (P := SnapshotInv) ?_
    (fun s a s' _ h ha hstep => snapshotInv_step h ha hstep) hs
  exact
    { active := fun t tx ht => by
        have hnone : (∅ : Table ℕ Transaction).lookup t = none := AList.lookup_empty t
        exact absurd (hnone.symm.trans ht) (by simp)
      created := fun k v hv => nomatch hv
      past := fun k v hv => nomatch hv
      current := fun k time _ => rfl
      unborn := fun k t _ => rfl }

/-! ## Reads -/

/-- A call of another transaction leaves a transaction running and does not change what had
happened before it began. -/
theorem SnapshotInv.others {s' : TransactionRun} {a : TransactionAction} (hs : s.SnapshotInv)
    {txId : ℕ} (ht : s.IsActive txId) (ha : a.caller ≠ some txId)
    (hstep : system.step s a = some s') :
    s'.IsActive txId ∧ before s'.history txId = before s.history txId := by
  obtain ⟨tx, htx, hactive⟩ := ht
  have hwrite (t : ℕ) (hne : t ≠ txId) (key : VersionKey) (w : Option Bytes) :
      (s.record (.write t key w) (s.manager.write t key (bytes w))).IsActive txId ∧
        before (s.record (.write t key w) (s.manager.write t key (bytes w))).history txId =
          before s.history txId := by
    refine ⟨⟨tx, ?_, hactive⟩, ?_⟩
    · rcases s.manager.write_cases t key (bytes w) with ⟨e, heq⟩ | ⟨_, m', -, -, htrans, -, -,
        ⟨e, heq, -, -⟩ | ⟨heq, -⟩⟩
      · rw [heq]
        exact htx
      all_goals
        rw [heq]
        dsimp only [record]
        rw [htrans, Table.lookup_insert, if_neg hne.symm, htx]
    · unfold record
      dsimp only
      split <;> rfl
  cases a with
  | begin isolationLevel =>
    obtain rfl := Option.some.inj hstep
    have hold : txId ≠ s.manager.nextTxId := (hs.active txId tx htx hactive).1.ne
    refine ⟨⟨tx, ?_, hactive⟩, ?_⟩
    · exact (Table.lookup_insert _ _ _ _).trans (by rw [if_neg hold, htx])
    · exact (before_begin _ _ _).trans (if_neg hold.symm)
  | read t key =>
    obtain rfl := Option.some.inj hstep
    exact ⟨⟨tx, htx, hactive⟩, rfl⟩
  | write t key data =>
    obtain rfl := Option.some.inj hstep
    exact hwrite t (fun heq => ha (congrArg some heq)) key (some data)
  | delete t key =>
    obtain rfl := Option.some.inj hstep
    exact hwrite t (fun heq => ha (congrArg some heq)) key none
  | commit t =>
    obtain ⟨done, hdone, rfl⟩ := Option.map_eq_some_iff.mp hstep
    have hne : txId ≠ t := fun heq => ha (congrArg some heq.symm)
    refine ⟨⟨tx, ?_, hactive⟩, ?_⟩
    · rw [TransactionManager.commit_eq] at hdone
      dsimp only at hdone
      split at hdone
      · obtain rfl := Option.some.inj hdone
        exact htx
      · split_ifs at hdone
        · obtain rfl := Option.some.inj hdone
          exact htx
        · obtain rfl := Option.some.inj hdone
          exact (Table.lookup_insert _ _ _ _).trans (by rw [if_neg hne, htx])
    · unfold record
      dsimp only
      split <;> rfl
  | abort t =>
    obtain rfl := Option.some.inj hstep
    have hne : txId ≠ t := fun heq => ha (congrArg some heq.symm)
    refine ⟨⟨tx, ?_, hactive⟩, ?_⟩
    · unfold TransactionManager.abort
      split
      · exact htx
      · exact (Table.lookup_insert _ _ _ _).trans (by rw [if_neg hne, htx])
    · unfold record
      dsimp only
      split <;> rfl
  | runGc =>
    obtain rfl := Option.some.inj hstep
    refine ⟨⟨tx, ?_, hactive⟩, rfl⟩
    show (Table.filterValues _ s.manager.transactions).lookup txId = some tx
    have hstate : tx.state = .active := by simpa [Transaction.isActive] using hactive
    rw [Table.lookup_filterValues, htx, Option.filter_some]
    simp [TransactionManager.cleanable, hstate]

/-- However many calls other transactions make, a running transaction reads the same. -/
theorem read_stable (hs : system.Reach AbortsActive s) {txId : ℕ} (ht : s.IsActive txId)
    (key : VersionKey) (calls : List TransactionAction) {s' : TransactionRun}
    (hcalls : ∀ a ∈ calls, a.caller ≠ some txId)
    (hrun : system.runFrom AbortsActive s calls = some s') :
    s'.manager.read txId key = s.manager.read txId key := by
  induction calls generalizing s with
  | nil =>
    obtain rfl := Option.some.inj hrun
    rfl
  | cons a calls ih =>
    rw [System.runFrom] at hrun
    split_ifs at hrun with ha
    obtain ⟨s₁, hstep, hrest⟩ := Option.bind_eq_some_iff.mp hrun
    have hinv := snapshotInv hs
    obtain ⟨ht₁, hbefore⟩ := hinv.others ht (hcalls a List.mem_cons_self) hstep
    have hs₁ := hs.step ha hstep
    rw [ih hs₁ ht₁ (fun b hb => hcalls b (List.mem_cons_of_mem _ hb)) hrest,
      (snapshotInv hs₁).read_eq ht₁, hinv.read_eq ht, hbefore]

/-- The transaction has not written the key, and no deletion had been committed there last when it
began; or its own last write happens to be what it finds in the snapshot. -/
def ShowsAnswer (h : List Event) (txId : ℕ) (key : VersionKey) : Prop :=
  match lastWrite h txId key with
  | none => latest (before h txId) key ≠ some none
  | some none => latest (before h txId) key = none
  | some (some data) => (latest (before h txId) key).map bytes = some data

/-- Snapshot reads: a running transaction reads what it should exactly when the snapshot shows it,
and whatever it reads, it reads again after any calls of other transactions. -/
theorem snapshot_read (hs : system.Reach AbortsActive s) {txId : ℕ} (ht : s.IsActive txId)
    (key : VersionKey) :
    (s.manager.read txId key = .ok (answer s.history txId key) ↔
      ShowsAnswer s.history txId key) ∧
    ∀ calls s', (∀ a ∈ calls, a.caller ≠ some txId) →
      system.runFrom AbortsActive s calls = some s' →
        s'.manager.read txId key = s.manager.read txId key := by
  refine ⟨?_, fun calls s' hcalls hrun => read_stable hs ht key calls hcalls hrun⟩
  rw [(snapshotInv hs).read_eq ht, Except.ok.injEq]
  unfold answer ShowsAnswer
  generalize latest (before s.history txId) key = base
  cases lastWrite s.history txId key with
  | none =>
    cases base with
    | none => simp
    | some w => cases w <;> simp [bytes]
  | some w =>
    cases w with
    | none => simp
    | some data => rfl

theorem snapshot_read_after_gc :
    ∃ s, system.Reach AbortsActive s ∧ s.IsActive 2 ∧
      s.manager.read 2 ⟨1, 1⟩ = .ok (some [7]) ∧
        s.manager.read 2 ⟨1, 1⟩ = .ok (answer s.history 2 ⟨1, 1⟩) := by
  have hrun : (system.run AbortsActive [.begin .repeatableRead, .write 1 ⟨1, 1⟩ [7], .commit 1,
      .begin .repeatableRead, .begin .repeatableRead, .write 3 ⟨1, 1⟩ [8], .commit 3,
      .runGc]).map (fun s => (decide (s.IsActive 2), lastWrite s.history 2 ⟨1, 1⟩,
        latest (before s.history 2) ⟨1, 1⟩)) = some (true, none, some (some [7])) := by
    decide +kernel
  obtain ⟨s, hs, heq⟩ := Option.map_eq_some_iff.mp hrun
  simp only [Prod.mk.injEq, decide_eq_true_eq] at heq
  obtain ⟨hactive, hlast, hlatest⟩ := heq
  have hreach := System.reach_of_run hs
  have hread : s.manager.read 2 ⟨1, 1⟩ = .ok (answer s.history 2 ⟨1, 1⟩) :=
    ((snapshot_read hreach hactive ⟨1, 1⟩).1).mpr (by simp [ShowsAnswer, hlast, hlatest])
  refine ⟨s, hreach, hactive, ?_, hread⟩
  rw [hread, answer, hlast, hlatest]
  rfl

/-- A transaction does not read what it has written. -/
theorem not_snapshot_read :
    ¬ ∀ s, system.Reach AbortsActive s → ∀ txId, s.IsActive txId → ∀ key,
      s.manager.read txId key = .ok (answer s.history txId key) := by
  intro hall
  have hrun : (system.run AbortsActive [.begin .repeatableRead, .write 1 ⟨1, 1⟩ [7]]).map
      (fun s => (decide (s.IsActive 1), (s.manager.read 1 ⟨1, 1⟩).toOption,
        answer s.history 1 ⟨1, 1⟩)) = some (true, some none, some [7]) := by decide +kernel
  obtain ⟨s, hs, heq⟩ := Option.map_eq_some_iff.mp hrun
  simp only [Prod.mk.injEq, decide_eq_true_eq] at heq
  obtain ⟨hactive, hread, hanswer⟩ := heq
  rw [hall s (System.reach_of_run hs) 1 hactive ⟨1, 1⟩, hanswer] at hread
  cases hread

end TransactionRun

end Storage

end AegisDB
