import AegisDB.Storage.SnapshotReads

/-!
# Committed versions stay

The value committed under a key is that of the newest committed version in its chain.  Writes put
versions on top that are not committed, commits and aborts give a state to the newest version
only, and garbage collection cuts off what is behind a committed version.  So the value changes
only when a transaction that has written the key is committed: whoever has written a key keeps its
lock to the end, and has its last write on top.

An abort looks at the writer of a version and not at its state.  A transaction that was committed
and is aborted afterwards loses what it has committed wherever nobody has written since.
-/

namespace AegisDB

namespace Storage

open SnapshotHistory

/-! ## The committed value of a chain -/

def Version.isCommitted (v : Version) : Bool :=
  match v.state with
  | .committed _ => true
  | _ => false

def committedValue (chain : List Version) : Option Bytes :=
  (chain.find? Version.isCommitted).map fun v => v.data

theorem committedValue_cons (v : Version) (older : List Version) :
    committedValue (v :: older) = if v.isCommitted then some v.data else committedValue older := by
  unfold committedValue
  rw [List.find?_cons]
  cases v.isCommitted <;> rfl

theorem committedValue_eq_visibleAt {time : ℕ} {chain : List Version}
    (h : ∀ v ∈ chain, ∀ commitTs, v.state = .committed commitTs → commitTs ≤ time) :
    committedValue chain = visibleAt time chain := by
  induction chain with
  | nil => rfl
  | cons v older ih =>
    have hv : v.isCommitted = v.committedBy time := by
      unfold Version.isCommitted Version.committedBy
      cases hstate : v.state with
      | active | aborted => rfl
      | committed commitTs =>
        have hle := h v List.mem_cons_self commitTs hstate
        simp [hle]
    rw [committedValue_cons, visibleAt_cons, hv, ih fun u hu => h u (List.mem_cons_of_mem _ hu)]

theorem exists_past (chain : List Version) (least : ℕ) :
    ∃ time, least ≤ time ∧
      ∀ v ∈ chain, ∀ commitTs, v.state = .committed commitTs → commitTs ≤ time := by
  induction chain with
  | nil => exact ⟨least, Nat.le_refl _, fun v hv => nomatch hv⟩
  | cons v older ih =>
    obtain ⟨time, hleast, htime⟩ := ih
    cases hstate : v.state with
    | active | aborted =>
      refine ⟨time, hleast, fun u hu commitTs hcommit => ?_⟩
      rcases List.mem_cons.mp hu with rfl | hu
      · rw [hstate] at hcommit
        cases hcommit
      · exact htime u hu commitTs hcommit
    | committed ts =>
      refine ⟨max ts time, hleast.trans (Nat.le_max_right _ _), fun u hu commitTs hcommit => ?_⟩
      rcases List.mem_cons.mp hu with rfl | hu
      · rw [hstate] at hcommit
        exact VersionState.committed.inj hcommit ▸ Nat.le_max_left _ _
      · exact (htime u hu commitTs hcommit).trans (Nat.le_max_right _ _)

theorem committedValue_gcVersionChain (minTs : ℕ) (chain : List Version) :
    committedValue (gcVersionChain minTs chain).1 = committedValue chain := by
  obtain ⟨time, hmin, htime⟩ := exists_past chain minTs
  rw [committedValue_eq_visibleAt htime,
    committedValue_eq_visibleAt fun v hv => htime v ((gcVersionChain_sublist _ _).subset hv)]
  exact visibleAt_gcVersionChain fun v hv commitTs hcommit _ => htime v hv commitTs hcommit

theorem marked_of_head {chain : VersionKey → List Version} {keys : Finset VersionKey} {txId : ℕ}
    {state : VersionState} {k : VersionKey} (h : ∀ v ∈ (chain k).head?, v.createdBy ≠ txId) :
    marked chain keys txId state k = chain k := by
  unfold marked
  split_ifs
  · cases hchain : chain k with
    | nil => rfl
    | cons v older => rw [markHead, if_neg (h v (by rw [hchain]; rfl))]
  · rfl

theorem committedValue_marked {chain : VersionKey → List Version} {keys : Finset VersionKey}
    {txId : ℕ} {k : VersionKey}
    (h : k ∈ keys → ∀ v ∈ (chain k).head?, v.createdBy = txId → v.isCommitted = false) :
    committedValue (marked chain keys txId .aborted k) = committedValue (chain k) := by
  unfold marked
  split_ifs with hk
  · cases hchain : chain k with
    | nil => rfl
    | cons v older =>
      rw [markHead]
      split_ifs with hv
      · rw [committedValue_cons, committedValue_cons, h hk v (by rw [hchain]; rfl) hv]
        rfl
      · rfl
  · rfl

theorem head_marked {chain : VersionKey → List Version} {keys : Finset VersionKey} {txId : ℕ}
    {state : VersionState} {k : VersionKey} {v : Version}
    (hv : v ∈ (marked chain keys txId state k).head?) :
    ∃ u ∈ (chain k).head?, u.createdBy = v.createdBy := by
  unfold marked at hv
  split_ifs at hv with hk
  · cases hchain : chain k with
    | nil => rw [hchain] at hv; cases hv
    | cons u older =>
      rw [hchain, markHead] at hv
      refine ⟨u, rfl, ?_⟩
      split_ifs at hv <;> obtain rfl := Option.some.inj hv <;> rfl
  · exact ⟨v, hv, rfl⟩

/-! ## The invariant -/

/-- What holds of a running transaction: it has its last write on top of the chains of the keys
that it has written, and holds their locks; of other chains the newest version is not its own. -/
structure Holds (chain : VersionKey → List Version) (holders : VersionKey → List LockRequest)
    (h : List Event) (txId : ℕ) (tx : Transaction) : Prop where
  /-- Keys that it has not written have a newest version of somebody else. -/
  unwritten : ∀ k, lastWrite h txId k = none → ∀ v ∈ (chain k).head?, v.createdBy ≠ txId
  /-- Keys that it has written have its last write on top, and it holds their lock. -/
  written : ∀ k w, lastWrite h txId k = some w → k ∈ tx.writeSet ∧
    (∃ v ∈ (chain k).head?, v.createdBy = txId ∧ v.data = bytes w) ∧
      ∃ r ∈ holders k, r.txId = txId

namespace TransactionRun

/-- The committed values are what the last committed writers have left. -/
structure CommittedInv (s : TransactionRun) : Prop where
  /-- Running transactions have begun, and hold what they have written. -/
  running : ∀ txId tx, s.manager.transactions.lookup txId = some tx → tx.isActive = true →
    txId < s.manager.nextTxId ∧ Holds s.manager.chain s.manager.holders s.history txId tx
  /-- Versions were written by transactions that have begun. -/
  created : ∀ k, ∀ v ∈ (s.manager.chain k).head?, v.createdBy < s.manager.nextTxId
  /-- A transaction that has not begun has not written. -/
  unborn : ∀ k txId, s.manager.nextTxId ≤ txId → lastWrite s.history txId k = none
  values : ∀ k, committedValue (s.manager.chain k) = (latest s.history k).map bytes

/-- An abort of a transaction finds none of its versions committed on top of a chain. -/
def AbortsUncommitted (s : TransactionRun) (a : TransactionAction) : Prop :=
  ∀ txId ∈ a.aborts, ∀ tx ∈ s.manager.transactions.lookup txId, ∀ k ∈ tx.writeSet,
    ∀ v ∈ (s.manager.chain k).head?, v.createdBy = txId → v.isCommitted = false

instance (s : TransactionRun) (a : TransactionAction) : Decidable (s.AbortsUncommitted a) :=
  inferInstanceAs (Decidable (∀ txId ∈ a.aborts, ∀ tx ∈ s.manager.transactions.lookup txId,
    ∀ k ∈ tx.writeSet, ∀ v ∈ (s.manager.chain k).head?, _ → _))

variable {s : TransactionRun}

theorem CommittedInv.begin (hs : s.CommittedInv) (isolationLevel : IsolationLevel) :
    CommittedInv
      { manager := (s.manager.begin isolationLevel).1
        history := .begin (s.manager.begin isolationLevel).2 :: s.history } := by
  refine
    { running := fun t tx ht hactive => ?_
      created := fun k v hv => Nat.lt_succ_of_lt (hs.created k v hv)
      unborn := fun k t ht => hs.unborn k t (Nat.le_of_succ_le ht)
      values := hs.values }
  have hlookup : (s.manager.begin isolationLevel).1.transactions.lookup t =
      if t = s.manager.nextTxId then _ else s.manager.transactions.lookup t :=
    Table.lookup_insert _ _ _ _
  rw [hlookup] at ht
  split_ifs at ht with hnew
  · subst hnew
    have hnone := fun k => hs.unborn k _ (Nat.le_refl s.manager.nextTxId)
    refine ⟨Nat.lt_succ_self _, fun k _ v hv => (hs.created k v hv).ne, fun k w hk => ?_⟩
    exact absurd ((hnone k).symm.trans hk) (by simp)
  · obtain ⟨hid, hholds⟩ := hs.running t tx ht hactive
    exact ⟨Nat.lt_succ_of_lt hid, hholds.unwritten, hholds.written⟩

theorem CommittedInv.write (hs : s.CommittedInv) (txId : ℕ) (key : VersionKey)
    (w : Option Bytes) :
    (s.record (.write txId key w) (s.manager.write txId key (bytes w))).CommittedInv := by
  rcases s.manager.write_cases txId key (bytes w) with ⟨e, heq⟩ | ⟨tx, m', htx, hactive, htrans,
    hid, -, ⟨e, heq, hchain, hholders⟩ | ⟨heq, hfree, hchain, hholders⟩⟩
  · rw [heq]
    exact hs
  · rw [heq]
    refine
      { running := fun t tx' ht hactive' => ?_
        created := fun k v hv => ?_
        unborn := fun k t ht => hs.unborn k t (hid ▸ ht)
        values := fun k => ?_ }
    · dsimp only [record] at ht ⊢
      rw [hid, hchain, hholders]
      rw [htrans, Table.lookup_insert] at ht
      split_ifs at ht with hself
      · obtain rfl := Option.some.inj ht
        subst hself
        obtain ⟨hlt, hholds⟩ := hs.running t tx htx hactive
        refine ⟨hlt, { hholds with written := fun k w' hk => ?_ }⟩
        obtain ⟨hset, hrest⟩ := hholds.written k w' hk
        exact ⟨Finset.mem_insert_of_mem hset, hrest⟩
      · exact hs.running t tx' ht hactive'
    · dsimp only [record] at hv ⊢
      rw [hid]
      exact hs.created k v (hchain ▸ hv)
    · dsimp only [record]
      rw [hchain]
      exact hs.values k
  · rw [heq]
    obtain ⟨hlt, hown⟩ := hs.running txId tx htx hactive
    have hlocks (k : VersionKey) (r : LockRequest) (hr : r ∈ s.manager.holders k) :
        r ∈ m'.holders k := by
      rw [hholders]
      split_ifs with hk
      · exact List.mem_append_left _ (hk ▸ hr)
      · exact hr
    refine
      { running := fun t tx' ht hactive' => ?_
        created := fun k v hv => ?_
        unborn := fun k t ht => ?_
        values := fun k => ?_ }
    · dsimp only [record] at ht ⊢
      rw [hid]
      rw [htrans, Table.lookup_insert] at ht
      split_ifs at ht with hself
      · obtain rfl := Option.some.inj ht
        subst hself
        refine ⟨hlt, fun k hk v hv => ?_, fun k w' hk => ?_⟩
        · rw [lastWrite_write] at hk
          split_ifs at hk with hcond
          rw [hchain, if_neg fun h => hcond ⟨rfl, h.symm⟩] at hv
          exact hown.unwritten k hk v hv
        · rw [lastWrite_write] at hk
          rw [hchain]
          split_ifs at hk with hcond
          · obtain rfl := Option.some.inj hk
            obtain ⟨-, rfl⟩ := hcond
            refine ⟨Finset.mem_insert_self _ _, ?_, ?_⟩
            · rw [if_pos rfl]
              exact ⟨_, rfl, rfl, rfl⟩
            · rw [hholders, if_pos rfl]
              exact ⟨_, List.mem_append_right _ (List.mem_singleton_self _), rfl⟩
          · obtain ⟨hset, htop, r, hr, hrt⟩ := hown.written k w' hk
            rw [if_neg fun h => hcond ⟨rfl, h.symm⟩]
            exact ⟨Finset.mem_insert_of_mem hset, htop, r, hlocks k r hr, hrt⟩
      · obtain ⟨hlt', hholds⟩ := hs.running t tx' ht hactive'
        have hlast (k : VersionKey) :
            lastWrite (.write txId key w :: s.history) t k = lastWrite s.history t k := by
          rw [lastWrite_write, if_neg fun hcond => hself hcond.1.symm]
        refine ⟨hlt', fun k hk v hv => ?_, fun k w' hk => ?_⟩
        · rw [hlast] at hk
          rw [hchain] at hv
          split_ifs at hv with heqk
          · obtain rfl := Option.some.inj hv
            exact fun h => hself h.symm
          · exact hholds.unwritten k hk v hv
        · rw [hlast] at hk
          obtain ⟨hset, htop, r, hr, hrt⟩ := hholds.written k w' hk
          -- the writer would have waited for the lock
          have hne : k ≠ key := by
            rintro rfl
            exact hself (hrt.symm.trans (hfree r hr))
          rw [hchain, if_neg hne]
          exact ⟨hset, htop, r, hlocks k r hr, hrt⟩
    · dsimp only [record] at hv ⊢
      rw [hid]
      rw [hchain] at hv
      split_ifs at hv with hk
      · obtain rfl := Option.some.inj hv
        exact hlt
      · exact hs.created k v hv
    · dsimp only [record] at ht ⊢
      rw [hid] at ht
      rw [lastWrite_write, if_neg fun hcond => ?_]
      · exact hs.unborn k t ht
      · omega
    · dsimp only [record]
      rw [latest_write, ← hs.values k, hchain]
      split_ifs with hk
      · rw [committedValue_cons, if_neg (by simp [Version.isCommitted]), hk]
      · rfl

/-- A transaction ends: the newest versions of the keys that it has tried to write get a state if
they are its own, and its locks are released. -/
theorem CommittedInv.finish (hs : s.CommittedInv) {txId : ℕ} {tx tx' : Transaction}
    (htx' : tx'.isActive = false) {state : VersionState} {m : TransactionManager} {e : Event}
    (htrans : m.transactions = s.manager.transactions.insert txId tx')
    (hid : m.nextTxId = s.manager.nextTxId)
    (hlock : m.lockManager = s.manager.lockManager.releaseAll txId)
    (hversions : m.versions = s.manager.markVersions txId tx state)
    (hlast : ∀ t k, lastWrite (e :: s.history) t k = lastWrite s.history t k)
    (hvalues : ∀ k, committedValue (marked s.manager.chain tx.writeSet txId state k) =
      (latest (e :: s.history) k).map bytes) :
    CommittedInv { manager := m, history := e :: s.history } := by
  have hchain (k : VersionKey) : m.chain k = marked s.manager.chain tx.writeSet txId state k := by
    unfold TransactionManager.chain
    rw [hversions]
    exact s.manager.chain_markVersions txId tx state k
  refine
    { running := fun t tx₂ ht hactive => ?_
      created := fun k v hv => ?_
      unborn := fun k t ht => ?_
      values := fun k => ?_ }
  · dsimp only at ht ⊢
    rw [htrans, Table.lookup_insert] at ht
    split_ifs at ht with hself
    · obtain rfl := Option.some.inj ht
      rw [htx'] at hactive
      cases hactive
    · obtain ⟨hlt, hholds⟩ := hs.running t tx₂ ht hactive
      refine ⟨hid ▸ hlt, fun k hk v hv => ?_, fun k w hk => ?_⟩
      · obtain ⟨u, hu, hsame⟩ := head_marked (hchain k ▸ hv)
        rw [← hsame]
        exact hholds.unwritten k (hlast t k ▸ hk) u hu
      · obtain ⟨hset, ⟨v, hv, hcreated, hdata⟩, r, hr, hrt⟩ := hholds.written k w (hlast t k ▸ hk)
        refine ⟨hset, ⟨v, ?_, hcreated, hdata⟩, r, ?_, hrt⟩
        · rw [hchain, marked_of_head]
          · exact hv
          · intro u hu
            rw [Option.mem_def, (Option.mem_def.mp hv)] at hu
            obtain rfl := Option.some.inj hu
            rw [hcreated]
            exact hself
        · unfold TransactionManager.holders
          rw [hlock, LockManager.holders_releaseAll]
          exact List.mem_filter.mpr ⟨hr, by rw [hrt]; exact decide_eq_true hself⟩
  · obtain ⟨u, hu, hsame⟩ := head_marked (hchain k ▸ hv)
    show v.createdBy < m.nextTxId
    rw [hid, ← hsame]
    exact hs.created k u hu
  · dsimp only at ht ⊢
    rw [hlast]
    exact hs.unborn k t (hid ▸ ht)
  · dsimp only
    rw [hchain]
    exact hvalues k

/-- A transaction is committed, or the call fails and only uses up a timestamp. -/
theorem CommittedInv.commit (hs : s.CommittedInv) {txId : ℕ}
    {done : TransactionManager × Except TransactionError Unit}
    (hdone : s.manager.commit txId = some done) :
    (s.record (.commit txId) done).CommittedInv := by
  rw [TransactionManager.commit_eq] at hdone
  dsimp only at hdone
  split at hdone
  · obtain rfl := Option.some.inj hdone
    exact ⟨hs.running, hs.created, hs.unborn, hs.values⟩
  · next tx htx =>
    split_ifs at hdone with hstate hlevel
    · obtain rfl := Option.some.inj hdone
      exact ⟨hs.running, hs.created, hs.unborn, hs.values⟩
    · obtain rfl := Option.some.inj hdone
      have hactive : tx.isActive = true := by simpa [Transaction.isActive] using hstate
      obtain ⟨-, hown⟩ := hs.running txId tx htx hactive
      refine hs.finish (by rfl) rfl rfl rfl rfl (fun _ _ => rfl) fun k => ?_
      rw [latest_commit]
      cases hw : lastWrite s.history txId k with
      | none =>
        rw [marked_of_head (hown.unwritten k hw), hs.values k]
        rfl
      | some w =>
        obtain ⟨hset, ⟨v, hv, hcreated, hdata⟩, -⟩ := hown.written k w hw
        obtain ⟨older, htop⟩ : ∃ older, s.manager.chain k = v :: older := by
          cases hchain : s.manager.chain k with
          | nil => rw [hchain] at hv; cases hv
          | cons u older =>
            rw [hchain] at hv
            exact ⟨older, by rw [Option.some.inj hv]⟩
        rw [marked, if_pos hset, htop, markHead, if_pos hcreated, committedValue_cons,
          if_pos (by rfl), hdata]
        rfl

theorem CommittedInv.abort (hs : s.CommittedInv) {txId : ℕ}
    (ha : s.AbortsUncommitted (.abort txId)) :
    (s.record (.abort txId) (s.manager.abort txId)).CommittedInv := by
  unfold TransactionManager.abort
  split
  · exact hs
  · next tx htx =>
    refine hs.finish (by rfl) rfl rfl rfl rfl (fun _ _ => rfl) fun k => ?_
    rw [latest_abort, ← hs.values k]
    exact committedValue_marked fun hk v hv => ha txId rfl tx htx k hk v hv

theorem CommittedInv.runGc (hs : s.CommittedInv) :
    CommittedInv { s with manager := s.manager.runGc.1 } := by
  have hchain := s.manager.chain_runGc
  have hhead (k : VersionKey) : (s.manager.runGc.1.chain k).head? = (s.manager.chain k).head? := by
    rw [hchain]
    cases s.manager.chain k with
    | nil => rfl
    | cons v older =>
      obtain ⟨rest, hrest, -⟩ := gcVersionChain_cons s.manager.getMinActiveTimestamp v older
      rw [hrest]
      rfl
  refine
    { running := fun t tx ht hactive => ?_
      created := fun k v hv => hs.created k v (hhead k ▸ hv)
      unborn := hs.unborn
      values := fun k => ?_ }
  · have hfilter : (s.manager.transactions.filterValues fun _ tx =>
        !TransactionManager.cleanable s.manager.getMinActiveTimestamp tx).lookup t = some tx := ht
    obtain ⟨hlt, hholds⟩ := hs.running t tx (Table.lookup_of_lookup_filterValues hfilter) hactive
    refine ⟨hlt, fun k hk v hv => hholds.unwritten k hk v (hhead k ▸ hv), fun k w hk => ?_⟩
    obtain ⟨hset, ⟨v, hv, htop⟩, hlock⟩ := hholds.written k w hk
    exact ⟨hset, ⟨v, (hhead k).symm ▸ hv, htop⟩, hlock⟩
  · dsimp only
    rw [hchain, committedValue_gcVersionChain]
    exact hs.values k

/-- Every call keeps the committed values, as long as no abort finds committed versions. -/
theorem committedInv_step {s' : TransactionRun} {a : TransactionAction} (hs : s.CommittedInv)
    (ha : s.AbortsUncommitted a) (hstep : system.step s a = some s') : s'.CommittedInv := by
  cases a with
  | begin isolationLevel =>
    obtain rfl := Option.some.inj hstep
    exact hs.begin isolationLevel
  | read txId key =>
    obtain rfl := Option.some.inj hstep
    exact hs
  | write txId key data =>
    obtain rfl := Option.some.inj hstep
    exact hs.write txId key (some data)
  | delete txId key =>
    obtain rfl := Option.some.inj hstep
    exact hs.write txId key none
  | commit txId =>
    obtain ⟨done, hdone, rfl⟩ := Option.map_eq_some_iff.mp hstep
    exact hs.commit hdone
  | abort txId =>
    obtain rfl := Option.some.inj hstep
    exact hs.abort ha
  | runGc =>
    obtain rfl := Option.some.inj hstep
    exact hs.runGc

/-! ## Runs -/

/-- What the last committed writer of a key has left there is the committed value of the key. -/
def KeepsCommitted (s : TransactionRun) : Prop :=
  ∀ k, committedValue (s.manager.chain k) = (latest s.history k).map bytes

/-- In every run in which no abort finds versions that its transaction has committed, every key has
the value that was committed last: no call changes it but the commit of a later write or
deletion. -/
theorem keepsCommitted (hs : system.Reach AbortsUncommitted s) : s.KeepsCommitted := by
  have hinv : s.CommittedInv := by
    refine hs.invariant ?_ fun s a s' _ h ha hstep => committedInv_step h ha hstep
    refine
      { running := fun t tx ht => ?_
        created := fun k v hv => nomatch hv
        unborn := fun k t ht => rfl
        values := fun k => rfl }
    have hnone : (∅ : Table ℕ Transaction).lookup t = none := AList.lookup_empty t
    exact absurd (hnone.symm.trans ht) (by simp)
  exact hinv.values

/-- A key is written and committed, overwritten by a transaction that is aborted, and the garbage
is collected. -/
theorem keepsCommitted_aborted : ∃ s : TransactionRun, Committed s.history 1 ∧
    latest s.history ⟨1, 1⟩ = some (some [7]) ∧ s.KeepsCommitted := by
  have hrun : (system.run AbortsUncommitted [.begin .repeatableRead, .write 1 ⟨1, 1⟩ [7],
      .commit 1, .begin .repeatableRead, .write 2 ⟨1, 1⟩ [8], .abort 2, .abort 1, .runGc]).any
        (fun s => decide (Committed s.history 1 ∧
          latest s.history ⟨1, 1⟩ = some (some [7]))) = true := by
    decide +kernel
  obtain ⟨s, -, hreach, hs⟩ := System.exists_reach_of_any hrun
  obtain ⟨hcommitted, hlatest⟩ := of_decide_eq_true hs
  exact ⟨s, hcommitted, hlatest, keepsCommitted hreach⟩

/-- A transaction is aborted after it was committed, and its value is gone. -/
theorem committed_value_lost : ∃ s, system.Reachable s ∧ Committed s.history 1 ∧
    latest s.history ⟨1, 1⟩ = some (some [7]) ∧
      committedValue (s.manager.chain ⟨1, 1⟩) = none ∧ ¬ s.KeepsCommitted := by
  have hrun : (system.run (fun _ _ => True) [.begin .repeatableRead, .write 1 ⟨1, 1⟩ [7],
      .commit 1, .abort 1]).any
        (fun s => decide (Committed s.history 1 ∧ latest s.history ⟨1, 1⟩ = some (some [7]) ∧
          committedValue (s.manager.chain ⟨1, 1⟩) = none)) = true := by
    decide +kernel
  obtain ⟨s, -, hreach, hs⟩ := System.exists_reach_of_any hrun
  obtain ⟨hcommitted, hlatest, hnone⟩ := of_decide_eq_true hs
  refine ⟨s, hreach, hcommitted, hlatest, hnone, fun hkept => ?_⟩
  have hvalue := hkept ⟨1, 1⟩
  rw [hnone, hlatest] at hvalue
  cases hvalue

end TransactionRun

end Storage

end AegisDB
