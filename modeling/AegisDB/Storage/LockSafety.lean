import AegisDB.Storage.SnapshotReads

/-!
# Locks and those who wait for them

A call that acquires a lock looks at the lock table again and again: each time it is granted the
lock, or it is put into the queue of its key and tries once more, until it gives up.  A release
grants the key to those at the front of the queue, without their calls.  `LockRun` is the lock
manager with the calls under way and with what has been asked for and given up.

The locks on a key that different transactions hold are compatible at any time, since every grant
looks at the holders (`LockEntry.Compatible`).  What has been given up stays given up only under
conditions: a request that gives up leaves the queue but keeps what the queue has granted it in the
meantime, and a transaction that releases everything may have a call under way, which goes on.
-/

namespace AegisDB

namespace Storage

/-! ## The lock manager -/

namespace LockManager

variable (lm : LockManager)

/-- One look of a call that acquires a lock: it is granted the lock, or it is put into the queue. -/
def attempt (request : LockRequest) : LockManager × Bool :=
  let entry := lm.entry request.key
  if canGrant entry.holders request then
    ({ locks := lm.locks.insert request.key
        { entry with holders := entry.holders ++ [{ request with granted := true }] } }, true)
  else
    let waiters :=
      if entry.waiters.any fun w => w.txId = request.txId then entry.waiters
      else entry.waiters ++ [request]
    ({ locks := lm.locks.insert request.key { entry with waiters := waiters } }, false)

/-- Try to acquire a lock without waiting. -/
def tryAcquire (request : LockRequest) : LockManager × Bool :=
  let entry := lm.entry request.key
  if canGrant entry.holders request then
    ({ locks := lm.locks.insert request.key
        { entry with holders := entry.holders ++ [{ request with granted := true }] } }, true)
  else ({ locks := lm.locks.insert request.key entry }, false)

/-- Take the requests of a transaction out of the queue of a key. -/
def releaseWaiter (request : LockRequest) : LockManager where
  locks := lm.locks.modify request.key fun entry =>
    { entry with waiters := entry.waiters.filter fun w => w.txId ≠ request.txId }

/-- Grant the lock to those at the front of the queue, as long as they agree with all holders. -/
def grantWaiters : List LockRequest → List LockRequest → LockEntry
  | holders, [] => { holders := holders, waiters := [] }
  | holders, waiter :: waiters =>
    if holders.all fun h => h.mode.isCompatible waiter.mode then
      grantWaiters (holders ++ [{ waiter with granted := true }]) waiters
    else { holders := holders, waiters := waiter :: waiters }

/-- The entry of a key after a transaction has released it. -/
def releasedEntry (txId : ℕ) (entry : LockEntry) : LockEntry :=
  grantWaiters (entry.holders.filter fun h => h.txId ≠ txId) entry.waiters

/-- Release a lock. -/
def release (txId : ℕ) (key : VersionKey) : LockManager :=
  match lm.locks.lookup key with
  | none => lm
  | some entry =>
    let entry := releasedEntry txId entry
    if entry.holders.isEmpty && entry.waiters.isEmpty then { locks := lm.locks.erase key }
    else { locks := lm.locks.insert key entry }

end LockManager

/-! ## Calls -/

/-- A call that acquires a lock. -/
structure LockCall where
  request : LockRequest
  waited : Bool := false

/-- What transactions have asked for and given up. -/
inductive LockEvent
  | asked (txId : ℕ) (key : VersionKey)
  /-- A request of a transaction for a key has timed out. -/
  | timedOut (txId : ℕ) (key : VersionKey)
  | releasedAll (txId : ℕ)
  deriving DecidableEq

/-- The lock manager with the calls under way. -/
structure LockRun where
  manager : LockManager := {}
  calls : List LockCall := []
  history : List LockEvent := []

/-- What can happen. -/
inductive LockAction
  | acquire (request : LockRequest)
  | attempt (call : ℕ)
  | timeout (call : ℕ)
  | tryAcquire (request : LockRequest)
  | release (txId : ℕ) (key : VersionKey)
  | releaseAll (txId : ℕ)

namespace LockRun

/-- One step. -/
def step (s : LockRun) : LockAction → Option LockRun
  | .acquire request =>
    some
      { s with
        calls := s.calls ++ [{ request := request }]
        history := .asked request.txId request.key :: s.history }
  | .attempt call =>
    (s.calls[call]?).map fun c =>
      let (manager, granted) := s.manager.attempt c.request
      { s with
        manager := manager
        calls :=
          if granted then s.calls.eraseIdx call else s.calls.set call { c with waited := true } }
  | .timeout call =>
    (s.calls[call]?).bind fun c =>
      if c.waited then
        some
          { manager := s.manager.releaseWaiter c.request
            calls := s.calls.eraseIdx call
            history := .timedOut c.request.txId c.request.key :: s.history }
      else none
  | .tryAcquire request =>
    some
      { s with
        manager := (s.manager.tryAcquire request).1
        history := .asked request.txId request.key :: s.history }
  | .release txId key => some { s with manager := s.manager.release txId key }
  | .releaseAll txId =>
    some
      { s with
        manager := s.manager.releaseAll txId
        history := .releasedAll txId :: s.history }

def system : System LockRun LockAction where
  init := {}
  step := step

/-- The transaction has given the key up, by a release of everything or in a request that has
timed out, and has not asked for it again. -/
def gaveUp : List LockEvent → ℕ → VersionKey → Bool
  | [], _, _ => false
  | .asked t k :: h, txId, key => if t = txId ∧ k = key then false else gaveUp h txId key
  | .timedOut t k :: h, txId, key => if t = txId ∧ k = key then true else gaveUp h txId key
  | .releasedAll t :: h, txId, key => if t = txId then true else gaveUp h txId key

end LockRun

/-- The locks of different transactions are compatible. -/
def LockEntry.Compatible (entry : LockEntry) : Prop :=
  entry.holders.Pairwise fun h h' => h.txId ≠ h'.txId → h.mode.isCompatible h'.mode = true

namespace LockRun

/-- The locks that different transactions hold on a key are compatible, and nobody holds a lock on
a key that it has given up. -/
def Safe (s : LockRun) : Prop :=
  (∀ key, ∀ h ∈ (s.manager.entry key).holders, ∀ h' ∈ (s.manager.entry key).holders,
    h.txId ≠ h'.txId → h.mode.isCompatible h'.mode = true) ∧
    ∀ txId key, gaveUp s.history txId key = true →
      ∀ h ∈ (s.manager.entry key).holders, h.txId ≠ txId

/-- Who releases everything has no call under way; and who gives up on a key holds no lock on it,
and has no other call under way that asks for it. -/
def Orderly (s : LockRun) : LockAction → Prop
  | .releaseAll txId => ∀ c ∈ s.calls, c.request.txId ≠ txId
  | .timeout call => ∀ c ∈ s.calls[call]?,
    (∀ h ∈ (s.manager.entry c.request.key).holders, h.txId ≠ c.request.txId) ∧
      ∀ c' ∈ s.calls.eraseIdx call,
        ¬ (c'.request.txId = c.request.txId ∧ c'.request.key = c.request.key)
  | _ => True

instance (s : LockRun) (a : LockAction) : Decidable (s.Orderly a) :=
  match a with
  | .releaseAll txId => inferInstanceAs (Decidable (∀ c ∈ s.calls, c.request.txId ≠ txId))
  | .timeout call => inferInstanceAs (Decidable (∀ c ∈ s.calls[call]?,
    (∀ h ∈ (s.manager.entry c.request.key).holders, h.txId ≠ c.request.txId) ∧
      ∀ c' ∈ s.calls.eraseIdx call,
        ¬ (c'.request.txId = c.request.txId ∧ c'.request.key = c.request.key)))
  | .acquire _ | .attempt _ | .tryAcquire _ | .release _ _ => inferInstanceAs (Decidable True)

end LockRun

/-! ## What the operations do to the entries -/

theorem LockMode.isCompatible_comm (m m' : LockMode) : m.isCompatible m' = m'.isCompatible m := by
  cases m <;> cases m' <;> rfl

namespace LockManager

variable {lm : LockManager} {request : LockRequest} {txId : ℕ} {key : VersionKey}

/-- A look of a call: the lock is granted and agrees with those of the others, or it is not, and
the queue has at most one request more. -/
theorem attempt_cases (lm : LockManager) (request : LockRequest) :
    ((lm.attempt request).2 = true ∧ canGrant (lm.entry request.key).holders request = true ∧
      ∀ k, (lm.attempt request).1.entry k = if k = request.key then
        { lm.entry k with
          holders := (lm.entry k).holders ++ [{ request with granted := true }] } else lm.entry k) ∨
    ((lm.attempt request).2 = false ∧
      ∀ k, ∃ waiters, (lm.attempt request).1.entry k = { lm.entry k with waiters := waiters } ∧
        ∀ w ∈ waiters, w ∈ (lm.entry k).waiters ∨ (k = request.key ∧ w = request)) := by
  unfold attempt
  dsimp only
  split_ifs with hgrant hqueued
  · refine .inl ⟨rfl, hgrant, fun k => ?_⟩
    simp only [entry, Table.lookup_insert]
    split_ifs with hk
    · rw [hk]
      rfl
    · rfl
  · refine .inr ⟨rfl, fun k => ⟨(lm.entry k).waiters, ?_, fun w hw => .inl hw⟩⟩
    simp only [entry, Table.lookup_insert]
    split_ifs with hk
    · rw [hk]
      rfl
    · rfl
  · refine .inr ⟨rfl, fun k => ?_⟩
    simp only [entry, Table.lookup_insert]
    by_cases hk : k = request.key
    · rw [if_pos hk, hk]
      refine ⟨_, rfl, fun w hw => ?_⟩
      rcases List.mem_append.mp hw with hw | hw
      · exact .inl hw
      · exact .inr ⟨rfl, List.mem_singleton.mp hw⟩
    · rw [if_neg hk]
      exact ⟨_, rfl, fun w hw => .inl hw⟩

theorem tryAcquire_cases (lm : LockManager) (request : LockRequest) :
    (canGrant (lm.entry request.key).holders request = true ∧
      ∀ k, (lm.tryAcquire request).1.entry k = if k = request.key then
        { lm.entry k with
          holders := (lm.entry k).holders ++ [{ request with granted := true }] } else lm.entry k) ∨
    ∀ k, (lm.tryAcquire request).1.entry k = lm.entry k := by
  unfold tryAcquire
  dsimp only
  split_ifs with hgrant
  · refine .inl ⟨hgrant, fun k => ?_⟩
    simp only [entry, Table.lookup_insert]
    split_ifs with hk
    · rw [hk]
      rfl
    · rfl
  · refine .inr fun k => ?_
    simp only [entry, Table.lookup_insert]
    split_ifs with hk
    · rw [hk]
      rfl
    · rfl

theorem entry_releaseWaiter (lm : LockManager) (request : LockRequest) (k : VersionKey) :
    (lm.releaseWaiter request).entry k = if k = request.key then
      { lm.entry k with
        waiters := (lm.entry k).waiters.filter fun w => w.txId ≠ request.txId }
      else lm.entry k := by
  simp only [entry, releaseWaiter, Table.lookup_modify]
  split_ifs with hk
  · rw [hk]
    cases lm.locks.lookup request.key <;> rfl
  · rfl

theorem entry_release (lm : LockManager) (txId : ℕ) (key k : VersionKey) :
    (lm.release txId key).entry k =
      if k = key then releasedEntry txId (lm.entry k) else lm.entry k := by
  unfold release
  split
  · next hnone =>
    split_ifs with hk
    · rw [hk, entry, hnone]
      rfl
    · rfl
  · next found hfound =>
    have hentry : lm.entry key = found := by rw [entry, hfound, Option.getD_some]
    dsimp only
    split_ifs with hempty hk hk
    · rw [hk, hentry, entry, Table.lookup_erase, if_pos rfl]
      obtain ⟨hholders, hwaiters⟩ := Bool.and_eq_true_iff.mp hempty
      rw [List.isEmpty_iff] at hholders hwaiters
      generalize releasedEntry txId found = released at hholders hwaiters
      obtain ⟨holders, waiters⟩ := released
      subst hholders hwaiters
      rfl
    · rw [entry, Table.lookup_erase, if_neg hk, entry]
    · rw [hk, hentry, entry, Table.lookup_insert, if_pos rfl, Option.getD_some]
    · rw [entry, Table.lookup_insert, if_neg hk, entry]

/-- Who holds a key after the queue was granted it held it before, or was in the queue. -/
theorem mem_grantWaiters (holders waiters : List LockRequest) :
    (∀ h ∈ (grantWaiters holders waiters).holders,
      h ∈ holders ∨ ∃ w ∈ waiters, w.txId = h.txId) ∧
    ∀ w ∈ (grantWaiters holders waiters).waiters, w ∈ waiters := by
  induction waiters generalizing holders with
  | nil => exact ⟨fun h hh => .inl hh, fun w hw => nomatch hw⟩
  | cons waiter waiters ih =>
    rw [grantWaiters]
    split_ifs
    · obtain ⟨hholders, hwaiters⟩ := ih (holders ++ [{ waiter with granted := true }])
      refine ⟨fun h hh => ?_, fun w hw => List.mem_cons_of_mem _ (hwaiters w hw)⟩
      rcases hholders h hh with hh | ⟨w, hw, heq⟩
      · rcases List.mem_append.mp hh with hh | hh
        · exact .inl hh
        · exact .inr ⟨waiter, List.mem_cons_self, by rw [List.mem_singleton.mp hh]⟩
      · exact .inr ⟨w, List.mem_cons_of_mem _ hw, heq⟩
    · exact ⟨fun h hh => .inl hh, fun w hw => hw⟩

end LockManager

/-! ## Compatible locks -/

namespace LockEntry

open LockManager

variable {entry : LockEntry} {request : LockRequest}

theorem Compatible.holders (h : entry.Compatible) : ∀ holder ∈ entry.holders,
    ∀ holder' ∈ entry.holders,
      holder.txId ≠ holder'.txId → holder.mode.isCompatible holder'.mode = true := by
  have hsymm : Std.Symm fun l l' : LockRequest =>
      l.txId ≠ l'.txId → l.mode.isCompatible l'.mode = true := by
    refine ⟨fun l l' hl hne => ?_⟩
    rw [LockMode.isCompatible_comm]
    exact hl hne.symm
  have hall := List.Pairwise.forall_of_forall (fun l _ hne => absurd rfl hne) h
  exact fun holder hmem holder' hmem' => hall hmem hmem'

theorem Compatible.grant (h : entry.Compatible)
    (hgrant : canGrant entry.holders request = true) (waiters : List LockRequest) :
    Compatible
      { holders := entry.holders ++ [{ request with granted := true }], waiters := waiters } := by
  refine List.pairwise_append.mpr ⟨h, List.pairwise_singleton _ _, fun holder hmem h' hh' => ?_⟩
  rw [List.mem_singleton.mp hh']
  intro hne
  have hagrees := List.all_eq_true.mp hgrant holder hmem
  rcases Bool.or_eq_true_iff.mp hagrees with hsame | hmode
  · exact absurd (of_decide_eq_true hsame) hne
  · exact hmode

theorem compatible_grantWaiters {holders waiters : List LockRequest}
    (h : Compatible { holders := holders, waiters := waiters }) :
    (grantWaiters holders waiters).Compatible := by
  induction waiters generalizing holders with
  | nil => exact h
  | cons waiter waiters ih =>
    rw [grantWaiters]
    split_ifs with hall
    · have hgrant : canGrant holders waiter = true :=
        List.all_eq_true.mpr fun holder hmem =>
          Bool.or_eq_true_iff.mpr (.inr (List.all_eq_true.mp hall holder hmem))
      exact ih (Compatible.grant h hgrant waiters)
    · exact h

theorem Compatible.filter (h : entry.Compatible) (p : LockRequest → Bool)
    (waiters : List LockRequest) :
    Compatible { holders := entry.holders.filter p, waiters := waiters } :=
  List.Pairwise.filter p h

theorem Compatible.released (h : entry.Compatible) (txId : ℕ) :
    (releasedEntry txId entry).Compatible :=
  compatible_grantWaiters (h.filter _ _)

end LockEntry

namespace LockRun

open LockManager

variable {s s' : LockRun} {a : LockAction} {txId : ℕ} {key : VersionKey}

theorem compatible_step (h : ∀ key, (s.manager.entry key).Compatible)
    (hstep : system.step s a = some s') : ∀ key, (s'.manager.entry key).Compatible := by
  intro key
  cases a with
  | acquire request =>
    obtain rfl := Option.some.inj hstep
    exact h key
  | attempt call =>
    obtain ⟨c, hc, rfl⟩ := Option.map_eq_some_iff.mp hstep
    dsimp only
    rcases s.manager.attempt_cases c.request with ⟨-, hgrant, hentry⟩ | ⟨-, hentry⟩
    · rw [hentry]
      split_ifs with hk
      · exact (h key).grant (hk ▸ hgrant) _
      · exact h key
    · obtain ⟨waiters, heq, -⟩ := hentry key
      rw [heq]
      exact h key
  | timeout call =>
    obtain ⟨c, hc, hdone⟩ := Option.bind_eq_some_iff.mp hstep
    split_ifs at hdone
    obtain rfl := Option.some.inj hdone
    dsimp only
    rw [entry_releaseWaiter]
    split_ifs <;> exact h key
  | tryAcquire request =>
    obtain rfl := Option.some.inj hstep
    dsimp only
    rcases s.manager.tryAcquire_cases request with ⟨hgrant, hentry⟩ | hentry
    · rw [hentry]
      split_ifs with hk
      · exact (h key).grant (hk ▸ hgrant) _
      · exact h key
    · rw [hentry]
      exact h key
  | release txId key' =>
    obtain rfl := Option.some.inj hstep
    dsimp only
    rw [entry_release]
    split_ifs
    · exact (h key).released txId
    · exact h key
  | releaseAll txId =>
    obtain rfl := Option.some.inj hstep
    dsimp only
    rw [entry_releaseAll]
    exact (h key).filter _ _

/-! ## Who has given up -/

/-- A transaction neither holds a key nor waits for it, in the queue or in a call. -/
structure Absent (s : LockRun) (txId : ℕ) (key : VersionKey) : Prop where
  holders : ∀ h ∈ (s.manager.entry key).holders, h.txId ≠ txId
  waiters : ∀ w ∈ (s.manager.entry key).waiters, w.txId ≠ txId
  calls : ∀ c ∈ s.calls, ¬ (c.request.txId = txId ∧ c.request.key = key)

def AbsentInv (s : LockRun) : Prop :=
  ∀ txId key, gaveUp s.history txId key = true → s.Absent txId key

theorem gaveUp_asked {h : List LockEvent} {t : ℕ} {k : VersionKey}
    (hgone : gaveUp (.asked t k :: h) txId key = true) :
    ¬ (t = txId ∧ k = key) ∧ gaveUp h txId key = true := by
  rw [gaveUp] at hgone
  split_ifs at hgone with hself
  exact ⟨hself, hgone⟩

theorem AbsentInv.acquire (h : s.AbsentInv) (request : LockRequest) :
    AbsentInv
      { s with
        calls := s.calls ++ [{ request := request }]
        history := .asked request.txId request.key :: s.history } := by
  intro txId key hgone
  obtain ⟨hother, hgone⟩ := gaveUp_asked hgone
  obtain ⟨hholders, hwaiters, hcalls⟩ := h txId key hgone
  refine ⟨hholders, hwaiters, fun c hc => ?_⟩
  rcases List.mem_append.mp hc with hc | hc
  · exact hcalls c hc
  · rw [List.mem_singleton.mp hc]
    exact hother

theorem AbsentInv.attempt (h : s.AbsentInv) {call : ℕ} {c : LockCall}
    (hc : s.calls[call]? = some c) :
    AbsentInv
      { s with
        manager := (s.manager.attempt c.request).1
        calls := if (s.manager.attempt c.request).2 then s.calls.eraseIdx call
          else s.calls.set call { c with waited := true } } := by
  intro txId key hgone
  obtain ⟨hholders, hwaiters, hcalls⟩ := h txId key hgone
  have hcall := hcalls c (List.mem_of_getElem? hc)
  rcases s.manager.attempt_cases c.request with ⟨hgranted, -, hentry⟩ | ⟨hnot, hentry⟩
  · refine ⟨fun holder hmem => ?_, fun w hw => ?_, fun c' hc' => ?_⟩
    · dsimp only at hmem
      rw [hentry] at hmem
      split_ifs at hmem with hk
      · rcases List.mem_append.mp hmem with hmem | hmem
        · exact hholders holder hmem
        · rw [List.mem_singleton.mp hmem]
          exact fun heq => hcall ⟨heq, hk.symm⟩
      · exact hholders holder hmem
    · dsimp only at hw
      rw [hentry] at hw
      split_ifs at hw <;> exact hwaiters w hw
    · rw [hgranted, if_pos rfl] at hc'
      exact hcalls c' (List.mem_of_mem_eraseIdx hc')
  · obtain ⟨waiters, heq, hqueue⟩ := hentry key
    refine ⟨fun holder hmem => ?_, fun w hw => ?_, fun c' hc' => ?_⟩
    · dsimp only at hmem
      rw [heq] at hmem
      exact hholders holder hmem
    · dsimp only at hw
      rw [heq] at hw
      rcases hqueue w hw with hw | ⟨hk, rfl⟩
      · exact hwaiters w hw
      · exact fun heq => hcall ⟨heq, hk.symm⟩
    · rw [hnot, if_neg Bool.false_ne_true] at hc'
      rcases List.mem_or_eq_of_mem_set hc' with hc' | rfl
      · exact hcalls c' hc'
      · exact hcall

/-- A call gives up, of a transaction that holds no lock on the key and has no other call for
it. -/
theorem AbsentInv.timeout (h : s.AbsentInv) {call : ℕ} {c : LockCall}
    (hfree : ∀ holder ∈ (s.manager.entry c.request.key).holders, holder.txId ≠ c.request.txId)
    (halone : ∀ c' ∈ s.calls.eraseIdx call,
      ¬ (c'.request.txId = c.request.txId ∧ c'.request.key = c.request.key)) :
    AbsentInv
      { manager := s.manager.releaseWaiter c.request
        calls := s.calls.eraseIdx call
        history := .timedOut c.request.txId c.request.key :: s.history } := by
  have hentry := s.manager.entry_releaseWaiter c.request
  intro txId key hgone
  by_cases hself : c.request.txId = txId ∧ c.request.key = key
  · obtain ⟨rfl, rfl⟩ := hself
    refine ⟨?_, fun w hw => ?_, halone⟩
    · dsimp only
      rw [hentry, if_pos rfl]
      exact hfree
    · dsimp only at hw
      rw [hentry, if_pos rfl] at hw
      exact of_decide_eq_true (List.mem_filter.mp hw).2
  · rw [gaveUp, if_neg hself] at hgone
    obtain ⟨hholders, hwaiters, hcalls⟩ := h txId key hgone
    refine ⟨fun holder hmem => ?_, fun w hw => ?_, fun c' hc' =>
      hcalls c' (List.mem_of_mem_eraseIdx hc')⟩
    · dsimp only at hmem
      rw [hentry] at hmem
      split_ifs at hmem <;> exact hholders holder hmem
    · dsimp only at hw
      rw [hentry] at hw
      split_ifs at hw
      · exact hwaiters w (List.mem_of_mem_filter hw)
      · exact hwaiters w hw

theorem AbsentInv.tryAcquire (h : s.AbsentInv) (request : LockRequest) :
    AbsentInv
      { s with
        manager := (s.manager.tryAcquire request).1
        history := .asked request.txId request.key :: s.history } := by
  intro txId key hgone
  obtain ⟨hother, hgone⟩ := gaveUp_asked hgone
  obtain ⟨hholders, hwaiters, hcalls⟩ := h txId key hgone
  rcases s.manager.tryAcquire_cases request with ⟨-, hentry⟩ | hentry
  · refine ⟨fun holder hmem => ?_, fun w hw => ?_, hcalls⟩
    · dsimp only at hmem
      rw [hentry] at hmem
      split_ifs at hmem with hk
      · rcases List.mem_append.mp hmem with hmem | hmem
        · exact hholders holder hmem
        · rw [List.mem_singleton.mp hmem]
          exact fun heq => hother ⟨heq, hk.symm⟩
      · exact hholders holder hmem
    · dsimp only at hw
      rw [hentry] at hw
      split_ifs at hw <;> exact hwaiters w hw
  · refine ⟨?_, ?_, hcalls⟩
    · dsimp only
      rw [hentry]
      exact hholders
    · dsimp only
      rw [hentry]
      exact hwaiters

theorem AbsentInv.release (h : s.AbsentInv) (txId : ℕ) (key : VersionKey) :
    AbsentInv { s with manager := s.manager.release txId key } := by
  have hentry := s.manager.entry_release txId key
  intro t k hgone
  obtain ⟨hholders, hwaiters, hcalls⟩ := h t k hgone
  obtain ⟨hgranted, hleft⟩ := mem_grantWaiters
    ((s.manager.entry k).holders.filter fun h => h.txId ≠ txId) (s.manager.entry k).waiters
  refine ⟨fun holder hmem => ?_, fun w hw => ?_, hcalls⟩
  · dsimp only at hmem
    rw [hentry] at hmem
    split_ifs at hmem
    · rcases hgranted holder hmem with hmem | ⟨w, hw, heq⟩
      · exact hholders holder (List.mem_of_mem_filter hmem)
      · exact heq ▸ hwaiters w hw
    · exact hholders holder hmem
  · dsimp only at hw
    rw [hentry] at hw
    split_ifs at hw
    · exact hwaiters w (hleft w hw)
    · exact hwaiters w hw

/-- A transaction without a call under way releases everything. -/
theorem AbsentInv.releaseAll (h : s.AbsentInv) {txId : ℕ}
    (hidle : ∀ c ∈ s.calls, c.request.txId ≠ txId) :
    AbsentInv
      { s with
        manager := s.manager.releaseAll txId
        history := .releasedAll txId :: s.history } := by
  have hentry := s.manager.entry_releaseAll txId
  intro t k hgone
  by_cases hself : txId = t
  · subst hself
    refine ⟨fun holder hmem => ?_, fun w hw => ?_, fun c hc hask => hidle c hc hask.1⟩
    · dsimp only at hmem
      rw [hentry] at hmem
      exact of_decide_eq_true (List.mem_filter.mp hmem).2
    · dsimp only at hw
      rw [hentry] at hw
      exact of_decide_eq_true (List.mem_filter.mp hw).2
  · rw [gaveUp, if_neg hself] at hgone
    obtain ⟨hholders, hwaiters, hcalls⟩ := h t k hgone
    refine ⟨fun holder hmem => ?_, fun w hw => ?_, hcalls⟩
    · dsimp only at hmem
      rw [hentry] at hmem
      exact hholders holder (List.mem_of_mem_filter hmem)
    · dsimp only at hw
      rw [hentry] at hw
      exact hwaiters w (List.mem_of_mem_filter hw)

theorem absentInv_step (h : s.AbsentInv) (ha : s.Orderly a)
    (hstep : system.step s a = some s') : s'.AbsentInv := by
  cases a with
  | acquire request =>
    obtain rfl := Option.some.inj hstep
    exact h.acquire request
  | attempt call =>
    obtain ⟨c, hc, rfl⟩ := Option.map_eq_some_iff.mp hstep
    exact h.attempt hc
  | timeout call =>
    obtain ⟨c, hc, hdone⟩ := Option.bind_eq_some_iff.mp hstep
    split_ifs at hdone
    obtain rfl := Option.some.inj hdone
    obtain ⟨hfree, halone⟩ := ha c hc
    exact h.timeout hfree halone
  | tryAcquire request =>
    obtain rfl := Option.some.inj hstep
    exact h.tryAcquire request
  | release txId key =>
    obtain rfl := Option.some.inj hstep
    exact h.release txId key
  | releaseAll txId =>
    obtain rfl := Option.some.inj hstep
    exact h.releaseAll ha

/-! ## Runs -/

theorem compatible_of_reach {Φ : LockRun → LockAction → Prop} (hs : system.Reach Φ s) :
    ∀ key, (s.manager.entry key).Compatible :=
  hs.invariant (fun _ => List.Pairwise.nil) fun _ _ _ _ h _ hstep => compatible_step h hstep

/-- In every run in which nobody releases everything with a call under way, and nobody gives up on
a key that was granted to it meanwhile or that another call of it asks for, the locks of different
transactions are compatible, and nobody holds a lock on a key that it has given up. -/
theorem locks_safe (hs : system.Reach Orderly s) : s.Safe := by
  have hinv : s.AbsentInv := by
    refine hs.invariant ?_ fun s a s' _ h ha hstep => absentInv_step h ha hstep
    exact fun txId key hgone => nomatch hgone
  exact ⟨fun key => (compatible_of_reach hs key).holders,
    fun txId key hgone => (hinv txId key hgone).holders⟩

/-- Transaction 2 waits for transaction 1 and gives up; transaction 3 waits, and is granted the
lock after transaction 1 has released everything. -/
def queue : List LockAction :=
  [.acquire ⟨1, ⟨1, 1⟩, .exclusive, false⟩, .attempt 0, .acquire ⟨2, ⟨1, 1⟩, .shared, false⟩,
    .attempt 0, .acquire ⟨3, ⟨1, 1⟩, .shared, false⟩, .attempt 1, .timeout 0, .releaseAll 1,
    .attempt 0, .release 3 ⟨1, 1⟩]

/-- In this run two transactions have given the key up; the third one has released it and holds it
again, since its request was still in the queue. -/
theorem locks_safe_queue : ∃ s : LockRun,
    (s.manager.entry ⟨1, 1⟩).holders.map LockRequest.txId = [3] ∧
      gaveUp s.history 1 ⟨1, 1⟩ = true ∧ gaveUp s.history 2 ⟨1, 1⟩ = true ∧ s.Safe := by
  have hrun : (system.run Orderly queue).any (fun s =>
      decide ((s.manager.entry ⟨1, 1⟩).holders.map LockRequest.txId = [3] ∧
        gaveUp s.history 1 ⟨1, 1⟩ = true ∧ gaveUp s.history 2 ⟨1, 1⟩ = true)) = true := by
    decide +kernel
  obtain ⟨s, -, hreach, hs⟩ := System.exists_reach_of_any hrun
  obtain ⟨hholders, hgone₁, hgone₂⟩ := of_decide_eq_true hs
  exact ⟨s, hholders, hgone₁, hgone₂, locks_safe hreach⟩

/-- A transaction has given a key up and holds a lock on it: a release has granted it the lock
before its request timed out, or it has released everything while its request was under way. -/
theorem locks_not_safe :
    (∃ s, system.Reachable s ∧
      s.history = [.timedOut 2 ⟨1, 1⟩, .asked 2 ⟨1, 1⟩, .asked 1 ⟨1, 1⟩] ∧ ¬ s.Safe) ∧
    ∃ s, system.Reachable s ∧
      s.history = [.releasedAll 1, .releasedAll 2, .asked 2 ⟨1, 1⟩, .asked 1 ⟨1, 1⟩] ∧
        ¬ s.Safe := by
  have hreached (script : List LockAction) (history : List LockEvent)
      (hrun : (system.run (fun _ _ => True) script).any (fun s =>
        decide (s.history = history ∧ gaveUp s.history 2 ⟨1, 1⟩ = true ∧
          ∃ h ∈ (s.manager.entry ⟨1, 1⟩).holders, h.txId = 2)) = true) :
      ∃ s, system.Reachable s ∧ s.history = history ∧ ¬ s.Safe := by
    obtain ⟨s, -, hreach, hs⟩ := System.exists_reach_of_any hrun
    obtain ⟨hhistory, hgone, h, hh, hholds⟩ := of_decide_eq_true hs
    exact ⟨s, hreach, hhistory, fun hsafe => hsafe.2 2 ⟨1, 1⟩ hgone h hh hholds⟩
  refine ⟨?_, ?_⟩
  · exact hreached [.acquire ⟨1, ⟨1, 1⟩, .exclusive, false⟩, .attempt 0,
      .acquire ⟨2, ⟨1, 1⟩, .exclusive, false⟩, .attempt 0, .release 1 ⟨1, 1⟩, .timeout 0] _
      (by decide +kernel)
  · exact hreached [.acquire ⟨1, ⟨1, 1⟩, .exclusive, false⟩, .attempt 0,
      .acquire ⟨2, ⟨1, 1⟩, .exclusive, false⟩, .attempt 0, .releaseAll 2, .releaseAll 1,
      .attempt 0] _ (by decide +kernel)

end LockRun

end Storage

end AegisDB
