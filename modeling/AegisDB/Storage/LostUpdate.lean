import AegisDB.Storage.SnapshotReads

/-!
# Lost updates

A write waits for the lock of its key, but does not look whether the key was written after the
writer began.  A transaction may therefore overwrite what a concurrent one has committed.  If no
write does, then no two concurrent transactions that have written one key are both committed,
whatever the isolation levels, and whatever garbage is collected.
-/

namespace AegisDB

namespace Storage

open SnapshotHistory

/-- What a call writes: the transaction, the key, and the value, if it is not a deletion. -/
def TransactionAction.writes : TransactionAction → Option (ℕ × VersionKey × Option Bytes)
  | .write txId key data => some (txId, key, some data)
  | .delete txId key => some (txId, key, none)
  | _ => none

/-- The isolation level of the transaction that a call begins. -/
def TransactionAction.begins : TransactionAction → Option IsolationLevel
  | .begin isolationLevel => some isolationLevel
  | _ => none

namespace TransactionRun

variable {s s' : TransactionRun} {a : TransactionAction}

/-! ## What a call can do -/

/-- The calls that do not succeed, reads, and garbage collections: nothing is recorded, and no
transaction and no lock is added. -/
structure Quiet (s s' : TransactionRun) : Prop where
  history : s'.history = s.history
  nextTxId : s'.manager.nextTxId = s.manager.nextTxId
  running : ∀ t, s'.IsActive t → s.IsActive t
  holders : s'.manager.holders = s.manager.holders

/-- A transaction begins. -/
structure Begins (s s' : TransactionRun) : Prop where
  history : s'.history = .begin s.manager.nextTxId :: s.history
  nextTxId : s'.manager.nextTxId = s.manager.nextTxId + 1
  running : ∀ t, s'.IsActive t → t = s.manager.nextTxId ∨ s.IsActive t
  holders : s'.manager.holders = s.manager.holders

/-- A running transaction writes a key that nobody else has locked. -/
structure Writes (s s' : TransactionRun) (txId : ℕ) (key : VersionKey) (w : Option Bytes) :
    Prop where
  writer : s.IsActive txId
  free : ∀ r ∈ s.manager.holders key, r.txId = txId
  history : s'.history = .write txId key w :: s.history
  nextTxId : s'.manager.nextTxId = s.manager.nextTxId
  running : ∀ t, s'.IsActive t → s.IsActive t
  holders : ∀ k, ∀ r ∈ s.manager.holders k, r ∈ s'.manager.holders k
  lock : ∃ r ∈ s'.manager.holders key, r.txId = txId

/-- A transaction ends, and its locks are released. -/
structure Ends (s s' : TransactionRun) (txId : ℕ) (e : Event) : Prop where
  commits : ∀ t ∈ e.commits, t = txId ∧ s.IsActive txId
  /-- What was written, and when transactions began, does not depend on it. -/
  quiet : e = .commit txId ∨ e = .abort txId
  history : s'.history = e :: s.history
  nextTxId : s'.manager.nextTxId = s.manager.nextTxId
  running : ∀ t, s'.IsActive t → t ≠ txId ∧ s.IsActive t
  holders : ∀ k, ∀ r ∈ s.manager.holders k, r.txId ≠ txId → r ∈ s'.manager.holders k

theorem isActive_congr (h : s'.manager.transactions = s.manager.transactions) (t : ℕ)
    (ht : s'.IsActive t) : s.IsActive t := by
  unfold IsActive at ht ⊢
  rwa [← h]

theorem isActive_insert {txId : ℕ} {tx : Transaction}
    (h : s'.manager.transactions = s.manager.transactions.insert txId tx) {t : ℕ}
    (ht : s'.IsActive t) : (t = txId ∧ tx.isActive = true) ∨ (t ≠ txId ∧ s.IsActive t) := by
  obtain ⟨tx', htx', hactive⟩ := ht
  rw [h, Table.lookup_insert] at htx'
  split_ifs at htx' with heq
  · obtain rfl := Option.some.inj htx'
    exact .inl ⟨heq, hactive⟩
  · exact .inr ⟨heq, tx', htx', hactive⟩

theorem write_effect (s : TransactionRun) (txId : ℕ) (key : VersionKey) (w : Option Bytes) :
    Quiet s (s.record (.write txId key w) (s.manager.write txId key (bytes w))) ∨
      Writes s (s.record (.write txId key w) (s.manager.write txId key (bytes w))) txId key w := by
  rcases s.manager.write_cases txId key (bytes w) with ⟨e, heq⟩ | ⟨tx, m', htx, hactive, htrans,
    hid, -, hdone⟩
  · rw [heq]
    exact .inl ⟨rfl, rfl, fun t ht => ht, rfl⟩
  · have hrunning (h : List Event) (t : ℕ) (ht : IsActive ⟨m', h⟩ t) : s.IsActive t := by
      rcases isActive_insert (s := s) htrans ht with ⟨rfl, -⟩ | ⟨-, ht⟩
      · exact ⟨tx, htx, hactive⟩
      · exact ht
    rcases hdone with ⟨e, heq, -, hholders⟩ | ⟨heq, hfree, -, hholders⟩
    · rw [heq]
      exact .inl ⟨rfl, hid, hrunning _, hholders⟩
    · rw [heq]
      refine .inr ⟨⟨tx, htx, hactive⟩, hfree, rfl, hid, hrunning _, fun k r hr => ?_, ?_⟩
      · show r ∈ m'.holders k
        rw [hholders]
        split_ifs with hk
        · exact List.mem_append_left _ (hk ▸ hr)
        · exact hr
      · show ∃ r ∈ m'.holders key, r.txId = txId
        rw [hholders, if_pos rfl]
        exact ⟨_, List.mem_append_right _ (List.mem_singleton_self _), rfl⟩

theorem mem_holders_releaseAll {m m' : TransactionManager} {txId : ℕ}
    (h : m'.lockManager = m.lockManager.releaseAll txId) (k : VersionKey) (r : LockRequest)
    (hr : r ∈ m.holders k) (hne : r.txId ≠ txId) : r ∈ m'.holders k := by
  unfold TransactionManager.holders
  rw [h, LockManager.holders_releaseAll]
  exact List.mem_filter.mpr ⟨hr, by simpa using hne⟩

theorem commit_effect {txId : ℕ} {done : TransactionManager × Except TransactionError Unit}
    (hdone : s.manager.commit txId = some done) :
    Quiet s (s.record (.commit txId) done) ∨
      Ends s (s.record (.commit txId) done) txId (.commit txId) := by
  rw [TransactionManager.commit_eq] at hdone
  dsimp only at hdone
  split at hdone
  · obtain rfl := Option.some.inj hdone
    exact .inl ⟨rfl, rfl, isActive_congr rfl, rfl⟩
  · next tx htx =>
    split_ifs at hdone with hstate hlevel
    · obtain rfl := Option.some.inj hdone
      exact .inl ⟨rfl, rfl, isActive_congr rfl, rfl⟩
    · obtain rfl := Option.some.inj hdone
      have hactive : tx.isActive = true := by simpa [Transaction.isActive] using hstate
      refine .inr ⟨fun t ht => ?_, .inl rfl, rfl, rfl, fun t ht => ?_, ?_⟩
      · exact ⟨(Option.some.inj ht).symm, tx, htx, hactive⟩
      · rcases isActive_insert (s := s) rfl ht with ⟨-, hnot⟩ | hother
        · cases hnot
        · exact hother
      · exact mem_holders_releaseAll rfl

theorem abort_effect (s : TransactionRun) (txId : ℕ) :
    Quiet s (s.record (.abort txId) (s.manager.abort txId)) ∨
      Ends s (s.record (.abort txId) (s.manager.abort txId)) txId (.abort txId) := by
  unfold TransactionManager.abort
  split
  · exact .inl ⟨rfl, rfl, fun t ht => ht, rfl⟩
  · refine .inr ⟨(fun t ht => nomatch ht), .inr rfl, rfl, rfl, fun t ht => ?_, ?_⟩
    · rcases isActive_insert (s := s) rfl ht with ⟨-, hnot⟩ | hother
      · cases hnot
      · exact hother
    · exact mem_holders_releaseAll rfl

theorem step_effect (hstep : system.step s a = some s') :
    Quiet s s' ∨ Begins s s' ∨
      (∃ txId key w, a.writes = some (txId, key, w) ∧ Writes s s' txId key w) ∨
        ∃ txId e, Ends s s' txId e := by
  cases a with
  | begin isolationLevel =>
    obtain rfl := Option.some.inj hstep
    refine .inr (.inl ⟨rfl, rfl, fun t ht => ?_, rfl⟩)
    rcases isActive_insert (s := s) rfl ht with ⟨heq, -⟩ | ⟨-, hold⟩
    · exact .inl heq
    · exact .inr hold
  | read txId key =>
    obtain rfl := Option.some.inj hstep
    exact .inl ⟨rfl, rfl, fun t ht => ht, rfl⟩
  | write txId key data =>
    obtain rfl := Option.some.inj hstep
    rcases write_effect s txId key (some data) with hquiet | hwrites
    · exact .inl hquiet
    · exact .inr (.inr (.inl ⟨txId, key, some data, rfl, hwrites⟩))
  | delete txId key =>
    obtain rfl := Option.some.inj hstep
    rcases write_effect s txId key none with hquiet | hwrites
    · exact .inl hquiet
    · exact .inr (.inr (.inl ⟨txId, key, none, rfl, hwrites⟩))
  | commit txId =>
    obtain ⟨done, hdone, rfl⟩ := Option.map_eq_some_iff.mp hstep
    rcases commit_effect hdone with hquiet | hends
    · exact .inl hquiet
    · exact .inr (.inr (.inr ⟨txId, _, hends⟩))
  | abort txId =>
    obtain rfl := Option.some.inj hstep
    rcases abort_effect s txId with hquiet | hends
    · exact .inl hquiet
    · exact .inr (.inr (.inr ⟨txId, _, hends⟩))
  | runGc =>
    obtain rfl := Option.some.inj hstep
    refine .inl ⟨rfl, rfl, fun t ht => ?_, rfl⟩
    obtain ⟨tx, htx, hactive⟩ := ht
    have hfilter : (s.manager.transactions.filterValues fun _ tx =>
        !TransactionManager.cleanable s.manager.getMinActiveTimestamp tx).lookup t = some tx := htx
    exact ⟨tx, Table.lookup_of_lookup_filterValues hfilter, hactive⟩

/-! ## Locks separate the writers of a key -/

/-- A transaction that is over and was not committed. -/
def Dead (s : TransactionRun) (txId : ℕ) : Prop :=
  ¬ s.IsActive txId ∧ ¬ Committed s.history txId

/-- A write takes effect: the writer is running, and nobody else has locked the key. -/
def TakesEffect (s : TransactionRun) (txId : ℕ) (key : VersionKey) : Prop :=
  s.IsActive txId ∧ ∀ r ∈ s.manager.holders key, r.txId = txId

instance (s : TransactionRun) (txId : ℕ) (key : VersionKey) : Decidable (s.TakesEffect txId key) :=
  inferInstanceAs (Decidable (_ ∧ ∀ r ∈ s.manager.holders key, _))

/-- No write that takes effect is to a key that another transaction has written and committed after
the writer began. -/
def OverwritesNone (s : TransactionRun) (a : TransactionAction) : Prop :=
  ∀ w ∈ a.writes, s.TakesEffect w.1 w.2.1 → ∀ e ∈ s.history, ∀ t ∈ e.commits,
    t ≠ w.1 → Wrote s.history t w.2.1 → Committed (before s.history w.1) t

instance (s : TransactionRun) (a : TransactionAction) : Decidable (s.OverwritesNone a) :=
  inferInstanceAs (Decidable (∀ w ∈ a.writes, _ → ∀ e ∈ s.history, ∀ t ∈ e.commits, _ → _ → _))

/-- Of two transactions that have written a key, one began after the other was committed, or one
will never be committed. -/
structure WritersInv (s : TransactionRun) : Prop where
  running : ∀ t, s.IsActive t → t < s.manager.nextTxId
  begun : ∀ t k, Wrote s.history t k → t < s.manager.nextTxId
  /-- Running transactions have locked what they have written. -/
  locked : ∀ t k, Wrote s.history t k → s.IsActive t → ∃ r ∈ s.manager.holders k, r.txId = t
  ended : ∀ t, Committed s.history t → t < s.manager.nextTxId ∧ ¬ s.IsActive t
  separated : ∀ t t' k, t ≠ t' → Wrote s.history t k → Wrote s.history t' k →
    Committed (before s.history t) t' ∨ Committed (before s.history t') t ∨ s.Dead t ∨ s.Dead t'

theorem wrote_write {h : List Event} {t t' : ℕ} {k k' : VersionKey} {w : Option Bytes} :
    Wrote (.write t k w :: h) t' k' ↔ (t = t' ∧ k = k') ∨ Wrote h t' k' := by
  unfold Wrote
  rw [lastWrite_write]
  split_ifs with heq <;> simp [heq]

theorem WritersInv.quiet (hs : s.WritersInv) (h : Quiet s s') : s'.WritersInv := by
  obtain ⟨hhistory, hid, hrunning, hholders⟩ := h
  have hdead (t : ℕ) (ht : s.Dead t) : s'.Dead t :=
    ⟨fun hactive => ht.1 (hrunning t hactive), hhistory ▸ ht.2⟩
  refine ⟨?_, ?_, ?_, ?_, ?_⟩
  · rw [hid]
    exact fun t ht => hs.running t (hrunning t ht)
  · rw [hhistory, hid]
    exact hs.begun
  · rw [hhistory, hholders]
    exact fun t k hw ht => hs.locked t k hw (hrunning t ht)
  · rw [hhistory, hid]
    exact fun t ht => ⟨(hs.ended t ht).1, fun hactive => (hs.ended t ht).2 (hrunning t hactive)⟩
  · rw [hhistory]
    intro t t' k hne hw hw'
    rcases hs.separated t t' k hne hw hw' with h | h | h | h
    · exact .inl h
    · exact .inr (.inl h)
    · exact .inr (.inr (.inl (hdead t h)))
    · exact .inr (.inr (.inr (hdead t' h)))

theorem WritersInv.begins (hs : s.WritersInv) (h : Begins s s') : s'.WritersInv := by
  obtain ⟨hhistory, hid, hrunning, hholders⟩ := h
  have hwrote (t : ℕ) (k : VersionKey) (hw : Wrote s'.history t k) : Wrote s.history t k := by
    rwa [hhistory] at hw
  have hold (t : ℕ) (k : VersionKey) (hw : Wrote s.history t k) (ht : s'.IsActive t) :
      s.IsActive t := by
    rcases hrunning t ht with rfl | ht
    · exact absurd (hs.begun _ k hw) (lt_irrefl _)
    · exact ht
  have hbefore (t : ℕ) (k : VersionKey) (hw : Wrote s.history t k) :
      before s'.history t = before s.history t := by
    rw [hhistory, before_begin, if_neg (hs.begun t k hw).ne']
  have hcommitted (t : ℕ) : Committed s'.history t ↔ Committed s.history t := by
    rw [hhistory, committed_cons]
    exact or_iff_right fun hmem => nomatch hmem
  refine ⟨fun t ht => ?_, fun t k hw => ?_, fun t k hw ht => ?_, fun t ht => ?_,
    fun t t' k hne hw hw' => ?_⟩
  · rw [hid]
    rcases hrunning t ht with rfl | ht
    · exact Nat.lt_succ_self _
    · exact Nat.lt_succ_of_lt (hs.running t ht)
  · rw [hid]
    exact Nat.lt_succ_of_lt (hs.begun t k (hwrote t k hw))
  · rw [hholders]
    exact hs.locked t k (hwrote t k hw) (hold t k (hwrote t k hw) ht)
  · obtain ⟨hlt, hnot⟩ := hs.ended t ((hcommitted t).mp ht)
    refine ⟨by rw [hid]; exact Nat.lt_succ_of_lt hlt, fun hactive => ?_⟩
    rcases hrunning t hactive with rfl | hactive
    · exact lt_irrefl _ hlt
    · exact hnot hactive
  · have hw := hwrote t k hw
    have hw' := hwrote t' k hw'
    rw [hbefore t k hw, hbefore t' k hw']
    rcases hs.separated t t' k hne hw hw' with h | h | h | h
    · exact .inl h
    · exact .inr (.inl h)
    · exact .inr (.inr (.inl ⟨fun ha => h.1 (hold t k hw ha), fun hc =>
        h.2 ((hcommitted t).mp hc)⟩))
    · exact .inr (.inr (.inr ⟨fun ha => h.1 (hold t' k hw' ha), fun hc =>
        h.2 ((hcommitted t').mp hc)⟩))

/-- The lock keeps all running transactions away, and the others do not matter. -/
theorem WritersInv.writes (hs : s.WritersInv) {txId : ℕ} {key : VersionKey} {w : Option Bytes}
    (h : Writes s s' txId key w)
    (hnone : ∀ t, t ≠ txId → Committed s.history t → Wrote s.history t key →
      Committed (before s.history txId) t) : s'.WritersInv := by
  obtain ⟨hwriter, hfree, hhistory, hid, hrunning, hholders, hlock⟩ := h
  have hbefore (t : ℕ) : before s'.history t = before s.history t := by
    rw [hhistory, before_write]
  have hcommitted (t : ℕ) : Committed s'.history t ↔ Committed s.history t := by
    rw [hhistory, committed_cons]
    exact or_iff_right fun hmem => nomatch hmem
  have hdead (t : ℕ) (ht : s.Dead t) : s'.Dead t :=
    ⟨fun hactive => ht.1 (hrunning t hactive), fun hc => ht.2 ((hcommitted t).mp hc)⟩
  -- another transaction that has written the key
  have hother (t : ℕ) (hne : t ≠ txId) (hw : Wrote s.history t key) :
      Committed (before s.history txId) t ∨ s.Dead t := by
    by_cases hc : Committed s.history t
    · exact .inl (hnone t hne hc hw)
    · refine .inr ⟨fun hactive => ?_, hc⟩
      obtain ⟨r, hr, rfl⟩ := hs.locked t key hw hactive
      exact hne (hfree r hr)
  refine ⟨fun t ht => ?_, fun t k hw => ?_, fun t k hw ht => ?_, fun t ht => ?_,
    fun t t' k hne hw hw' => ?_⟩
  · rw [hid]
    exact hs.running t (hrunning t ht)
  · rw [hid]
    rw [hhistory, wrote_write] at hw
    rcases hw with ⟨rfl, -⟩ | hw
    · exact hs.running _ hwriter
    · exact hs.begun t k hw
  · rw [hhistory, wrote_write] at hw
    rcases hw with ⟨rfl, rfl⟩ | hw
    · exact hlock
    · obtain ⟨r, hr, hrt⟩ := hs.locked t k hw (hrunning t ht)
      exact ⟨r, hholders k r hr, hrt⟩
  · rw [hid]
    obtain ⟨hlt, hnot⟩ := hs.ended t ((hcommitted t).mp ht)
    exact ⟨hlt, fun hactive => hnot (hrunning t hactive)⟩
  · rw [hbefore, hbefore]
    rw [hhistory, wrote_write] at hw hw'
    rcases hw with ⟨rfl, rfl⟩ | hw
    · rcases hw' with ⟨rfl, -⟩ | hw'
      · exact absurd rfl hne
      · rcases hother t' hne.symm hw' with h | h
        · exact .inl h
        · exact .inr (.inr (.inr (hdead t' h)))
    · rcases hw' with ⟨rfl, rfl⟩ | hw'
      · rcases hother t hne hw with h | h
        · exact .inr (.inl h)
        · exact .inr (.inr (.inl (hdead t h)))
      · rcases hs.separated t t' k hne hw hw' with h | h | h | h
        · exact .inl h
        · exact .inr (.inl h)
        · exact .inr (.inr (.inl (hdead t h)))
        · exact .inr (.inr (.inr (hdead t' h)))

theorem WritersInv.ends (hs : s.WritersInv) {txId : ℕ} {e : Event} (h : Ends s s' txId e) :
    s'.WritersInv := by
  obtain ⟨hcommits, hquiet, hhistory, hid, hrunning, hholders⟩ := h
  have hbefore (t : ℕ) : before s'.history t = before s.history t := by
    rw [hhistory]
    rcases hquiet with rfl | rfl <;> rfl
  have hwrote (t : ℕ) (k : VersionKey) : Wrote s'.history t k ↔ Wrote s.history t k := by
    rw [hhistory]
    rcases hquiet with rfl | rfl <;> rfl
  have hcommitted (t : ℕ) (hc : Committed s'.history t) :
      (t = txId ∧ s.IsActive txId) ∨ Committed s.history t := by
    rw [hhistory, committed_cons] at hc
    rcases hc with hc | hc
    · exact .inl (hcommits t hc)
    · exact .inr hc
  have hdead (t : ℕ) (ht : s.Dead t) : s'.Dead t := by
    refine ⟨fun hactive => ht.1 (hrunning t hactive).2, fun hc => ?_⟩
    rcases hcommitted t hc with ⟨rfl, hactive⟩ | hc
    · exact ht.1 hactive
    · exact ht.2 hc
  refine ⟨fun t ht => ?_, fun t k hw => ?_, fun t k hw ht => ?_, fun t ht => ?_,
    fun t t' k hne hw hw' => ?_⟩
  · rw [hid]
    exact hs.running t (hrunning t ht).2
  · rw [hid]
    exact hs.begun t k ((hwrote t k).mp hw)
  · obtain ⟨hne, hactive⟩ := hrunning t ht
    obtain ⟨r, hr, rfl⟩ := hs.locked t k ((hwrote t k).mp hw) hactive
    exact ⟨r, hholders k r hr hne, rfl⟩
  · rw [hid]
    rcases hcommitted t ht with ⟨rfl, hactive⟩ | hc
    · exact ⟨hs.running _ hactive, fun hactive' => (hrunning t hactive').1 rfl⟩
    · obtain ⟨hlt, hnot⟩ := hs.ended t hc
      exact ⟨hlt, fun hactive => hnot (hrunning t hactive).2⟩
  · rw [hbefore, hbefore]
    rcases hs.separated t t' k hne ((hwrote t k).mp hw) ((hwrote t' k).mp hw') with h | h | h | h
    · exact .inl h
    · exact .inr (.inl h)
    · exact .inr (.inr (.inl (hdead t h)))
    · exact .inr (.inr (.inr (hdead t' h)))

/-- One call keeps the writers of a key apart, by what it does to the chains. -/
theorem writersInv_step (hs : s.WritersInv) (ha : s.OverwritesNone a)
    (hstep : system.step s a = some s') : s'.WritersInv := by
  rcases step_effect hstep with h | h | ⟨txId, key, w, hwrites, h⟩ | ⟨txId, e, h⟩
  · exact hs.quiet h
  · exact hs.begins h
  · refine hs.writes h fun t hne ⟨e, he, ht⟩ hw => ?_
    exact ha _ hwrites ⟨h.writer, h.free⟩ e he t ht hne hw
  · exact hs.ends h

theorem writersInv (hs : system.Reach OverwritesNone s) : s.WritersInv := by
  refine System.Reach.invariant (P := WritersInv) ?_
    (fun s a s' _ h ha hstep => writersInv_step h ha hstep) hs
  exact
    { running := fun t ⟨tx, htx, _⟩ => by
        have hnone : (∅ : Table ℕ Transaction).lookup t = none := AList.lookup_empty t
        exact absurd (hnone.symm.trans htx) (by simp)
      begun := fun t k hw => nomatch hw
      locked := fun t k hw => nomatch hw
      ended := fun t ⟨_, he, _⟩ => nomatch he
      separated := fun t t' k _ hw => nomatch hw }

/-! ## No update is lost -/

/-- In every run in which no write that takes effect is to a key that another transaction has
written and committed after the writer began, no update is lost. -/
theorem no_lost_update (hs : system.Reach OverwritesNone s) : NoLostUpdate s.history := by
  intro t t' k hne hconcurrent hw hw' ⟨hc, hc'⟩
  rcases (writersInv hs).separated t t' k hne hw hw' with h | h | h | h
  · exact hconcurrent.1 h
  · exact hconcurrent.2 h
  · exact h.2 hc
  · exact h.2 hc'

/-- Two concurrent transactions write different keys, and a third one overwrites them later. -/
theorem no_lost_update_three : ∃ s : TransactionRun, Committed s.history 1 ∧
    Committed s.history 2 ∧ Committed s.history 3 ∧ NoLostUpdate s.history := by
  have hrun : (system.run OverwritesNone [.begin .repeatableRead, .begin .repeatableRead,
      .write 1 ⟨1, 1⟩ [7], .write 2 ⟨1, 1⟩ [8], .write 2 ⟨1, 2⟩ [8], .commit 1, .commit 2,
      .begin .repeatableRead, .write 3 ⟨1, 1⟩ [9], .delete 3 ⟨1, 2⟩, .commit 3]).map
        (fun s : TransactionRun => decide (Committed s.history 1 ∧ Committed s.history 2 ∧
          Committed s.history 3)) = some true := by
    decide +kernel
  obtain ⟨s, hs, hcommitted⟩ := Option.map_eq_some_iff.mp hrun
  obtain ⟨h₁, h₂, h₃⟩ := of_decide_eq_true hcommitted
  exact ⟨s, h₁, h₂, h₃, no_lost_update (System.reach_of_run hs)⟩

/-- A transaction that begins has this isolation level. -/
def BeginsAt (isolationLevel : IsolationLevel) (a : TransactionAction) : Prop :=
  ∀ level ∈ a.begins, level = isolationLevel

instance (isolationLevel : IsolationLevel) (a : TransactionAction) :
    Decidable (BeginsAt isolationLevel a) :=
  inferInstanceAs (Decidable (∀ level ∈ a.begins, _))

/-- Two concurrent transactions of the level repeatable read write a key one after the other, and
both are committed. -/
theorem not_no_lost_update :
    ∃ s, system.Reach (fun _ a => BeginsAt .repeatableRead a) s ∧ ¬ NoLostUpdate s.history := by
  have hrun : (system.run (fun _ a => BeginsAt .repeatableRead a) [.begin .repeatableRead,
      .begin .repeatableRead, .write 1 ⟨1, 1⟩ [7], .commit 1, .write 2 ⟨1, 1⟩ [8], .commit 2]).map
        (fun s : TransactionRun => decide (¬ Committed (before s.history 1) 2 ∧
          ¬ Committed (before s.history 2) 1 ∧ Wrote s.history 1 ⟨1, 1⟩ ∧
            Wrote s.history 2 ⟨1, 1⟩ ∧ Committed s.history 1 ∧
            Committed s.history 2)) = some true := by
    decide +kernel
  obtain ⟨s, hs, hproj⟩ := Option.map_eq_some_iff.mp hrun
  obtain ⟨h₁, h₂, hw₁, hw₂, hc₁, hc₂⟩ := of_decide_eq_true hproj
  exact ⟨s, System.reach_of_run hs, fun hnone =>
    hnone 1 2 ⟨1, 1⟩ (by decide) ⟨h₁, h₂⟩ hw₁ hw₂ ⟨hc₁, hc₂⟩⟩

end TransactionRun

end Storage

end AegisDB
