import AegisDB.Library.Bytes
import AegisDB.Library.LeaderLog

/-!
# The replicated log

`ReplicatedLog` is the log of a Raft node as `log.rs` keeps it: the entries still held, the index
of the first of them, and the index and term of the last entry that compaction has removed.  The
operations are those of the source, one definition each; `VecDeque` is a list, and the indices and
terms, `u64` in the source, are natural numbers, as they are while none reaches `2 ^ 64 - 1`.

`ReplicatedLog.Window r ℓ` says that `r` holds the part of the uncompacted log `ℓ` behind its
snapshot index.  Every read of `r` is then a read of `ℓ`, and every update keeps a window.
-/

namespace AegisDB

namespace Replication

/-- Type of log entry. -/
inductive EntryType
  | command
  | configChange
  | noOp
deriving DecidableEq, Repr

/-- An entry in the replicated log. -/
structure LogEntry where
  index : ℕ
  term : ℕ
  entryType : EntryType
  data : Bytes
deriving DecidableEq, Repr

def LogEntry.command (index : ℕ) (term : ℕ) (data : Bytes) : LogEntry :=
  ⟨index, term, .command, data⟩

def LogEntry.noop (index : ℕ) (term : ℕ) : LogEntry :=
  ⟨index, term, .noOp, []⟩

/-- The replicated log for Raft consensus. -/
structure ReplicatedLog where
  entries : List LogEntry := []
  firstIndex : ℕ := 1
  commitIndex : ℕ := 0
  lastApplied : ℕ := 0
  /-- The index of the last entry removed by compaction. -/
  snapshotIndex : ℕ := 0
  /-- The term of the last entry removed by compaction. -/
  snapshotTerm : ℕ := 0
deriving DecidableEq, Repr

namespace ReplicatedLog

def append (r : ReplicatedLog) (entry : LogEntry) : ℕ × ReplicatedLog :=
  (entry.index, { r with entries := r.entries ++ [entry] })

def appendEntries (r : ReplicatedLog) (newEntries : List LogEntry) : ℕ × ReplicatedLog :=
  ((newEntries.getLast?.map LogEntry.index).getD 0, { r with entries := r.entries ++ newEntries })

def get (r : ReplicatedLog) (index : ℕ) : Option LogEntry :=
  if index < r.firstIndex then none else r.entries[index - r.firstIndex]?

/-- Get entries in a range. -/
def getRange (r : ReplicatedLog) (start stop : ℕ) : List LogEntry :=
  if start < r.firstIndex then []
  else
    let startOffset := start - r.firstIndex
    let endOffset := stop - r.firstIndex
    (r.entries.drop startOffset).take (endOffset - startOffset)

def lastIndex (r : ReplicatedLog) : ℕ :=
  if r.entries.isEmpty then r.snapshotIndex else r.firstIndex + r.entries.length - 1

def lastTerm (r : ReplicatedLog) : ℕ :=
  match r.entries.getLast? with
  | some entry => entry.term
  | none => r.snapshotTerm

/-- Get the term of an entry at a specific index. -/
def termAt (r : ReplicatedLog) (index : ℕ) : Option ℕ :=
  if index = 0 then some 0
  else if index = r.snapshotIndex then some r.snapshotTerm
  else (r.get index).map LogEntry.term

def setCommitIndex (r : ReplicatedLog) (index : ℕ) : ReplicatedLog :=
  if r.commitIndex < index then { r with commitIndex := index } else r

def setLastApplied (r : ReplicatedLog) (index : ℕ) : ReplicatedLog :=
  { r with lastApplied := index }

def hasEntriesToApply (r : ReplicatedLog) : Bool :=
  r.lastApplied < r.commitIndex

def nextToApply (r : ReplicatedLog) : Option LogEntry :=
  if r.lastApplied < r.commitIndex then r.get (r.lastApplied + 1) else none

/-- Truncate the log from a given index (inclusive). -/
def truncateFrom (r : ReplicatedLog) (index : ℕ) : ReplicatedLog :=
  if index < r.firstIndex then { r with entries := [] }
  else { r with entries := r.entries.take (index - r.firstIndex) }

/-- Compact the log up to a given index. -/
def compact (r : ReplicatedLog) (upTo : ℕ) (term : ℕ) : ReplicatedLog :=
  if upTo < r.firstIndex then r
  else
    { r with
      entries := r.entries.drop (upTo - r.firstIndex + 1)
      firstIndex := upTo + 1
      snapshotIndex := upTo
      snapshotTerm := term }

/-- Check if a log is up-to-date compared to this log. -/
def isUpToDate (r : ReplicatedLog) (lastLogIndex : ℕ) (lastLogTerm : ℕ) : Bool :=
  if r.lastTerm < lastLogTerm then true
  else if lastLogTerm = r.lastTerm ∧ r.lastIndex ≤ lastLogIndex then true
  else false

/-- Find the conflict point when appending entries. -/
def findConflict (r : ReplicatedLog) : List LogEntry → Option ℕ
  | [] => none
  | entry :: rest =>
    match r.termAt entry.index with
    | some term => if term ≠ entry.term then some entry.index else r.findConflict rest
    | none => r.findConflict rest

theorem setCommitIndex_eq (r : ReplicatedLog) (index : ℕ) :
    r.setCommitIndex index = { r with commitIndex := max r.commitIndex index } := by
  unfold setCommitIndex
  split
  · next hlt => rw [max_eq_right hlt.le]
  · next hge => rw [max_eq_left (Nat.le_of_not_lt hge)]

/-! ## Windows of an uncompacted log -/

/-- `r` holds the entries of `ℓ` behind its snapshot index. -/
structure Window (r : ReplicatedLog) (ℓ : List LogEntry) : Prop where
  /-- The first entry held follows the last one removed. -/
  first : r.firstIndex = r.snapshotIndex + 1
  /-- The entries held are those of `ℓ` that were not removed. -/
  entries : r.entries = ℓ.drop r.snapshotIndex
  bound : r.snapshotIndex ≤ ℓ.length

/-- The entry of each position carries that position as its index. -/
def Indexed (ℓ : List LogEntry) : Prop :=
  ∀ k e, ℓ[k]? = some e → e.index = k + 1

/-- The term a log has at an index, `0` at index `0`. -/
def termOf (ℓ : List LogEntry) (index : ℕ) : Option ℕ :=
  if index = 0 then some 0 else ℓ[index - 1]?.map LogEntry.term

@[simp] theorem termOf_zero (ℓ : List LogEntry) : termOf ℓ 0 = some 0 := rfl

theorem termOf_succ (ℓ : List LogEntry) (k : ℕ) :
    termOf ℓ (k + 1) = ℓ[k]?.map LogEntry.term := rfl

theorem Window.empty : Window {} [] where
  first := rfl
  entries := rfl
  bound := le_rfl

variable {r : ReplicatedLog} {ℓ : List LogEntry}

theorem Window.lastIndex (h : Window r ℓ) : r.lastIndex = ℓ.length := by
  have hb := h.bound
  have hlen : r.entries.length = ℓ.length - r.snapshotIndex := by rw [h.entries, List.length_drop]
  unfold ReplicatedLog.lastIndex
  split
  · next hemp =>
    rw [List.isEmpty_iff] at hemp
    rw [hemp] at hlen
    simp only [List.length_nil] at hlen
    omega
  · next hemp =>
    rw [List.isEmpty_iff] at hemp
    have := List.length_pos_of_ne_nil hemp
    have := h.first
    omega

theorem Window.get_of_lt (h : Window r ℓ) {k : ℕ} (hk : r.snapshotIndex < k) :
    r.get k = ℓ[k - 1]? := by
  unfold ReplicatedLog.get
  rw [if_neg (by rw [h.first]; omega), h.entries, List.getElem?_drop, h.first]
  congr 1
  omega

theorem Window.get_of_le (h : Window r ℓ) {k : ℕ} (hk : k ≤ r.snapshotIndex) : r.get k = none := by
  unfold ReplicatedLog.get
  rw [if_pos (by rw [h.first]; omega)]

theorem Window.get_eq_some (h : Window r ℓ) {k : ℕ} {e : LogEntry} (hg : r.get k = some e) :
    r.snapshotIndex < k ∧ ℓ[k - 1]? = some e := by
  rcases Nat.lt_or_ge r.snapshotIndex k with hk | hk
  · exact ⟨hk, h.get_of_lt hk ▸ hg⟩
  · rw [h.get_of_le hk] at hg
    cases hg

theorem termAt_snapshotIndex (r : ReplicatedLog) (h : r.snapshotIndex ≠ 0) :
    r.termAt r.snapshotIndex = some r.snapshotTerm := by
  simp [termAt, h]

theorem Window.termAt_of_lt (h : Window r ℓ) {k : ℕ} (hk : r.snapshotIndex < k) :
    r.termAt k = ℓ[k - 1]?.map LogEntry.term := by
  unfold ReplicatedLog.termAt
  rw [if_neg (by omega), if_neg (by omega), h.get_of_lt hk]

theorem Window.termAt_of_gt (h : Window r ℓ) {k : ℕ} (h0 : k ≠ 0) (hk : k < r.snapshotIndex) :
    r.termAt k = none := by
  unfold ReplicatedLog.termAt
  rw [if_neg h0, if_neg (by omega), h.get_of_le hk.le]
  rfl

theorem Window.getRange (h : Window r ℓ) {start stop : ℕ} (hs : r.snapshotIndex < start) :
    r.getRange start stop = (ℓ.drop (start - 1)).take (stop - start) := by
  have hf := h.first
  unfold ReplicatedLog.getRange
  rw [if_neg (by omega)]
  simp only [h.entries, List.drop_drop]
  congr 1
  · omega
  · congr 1
    omega

theorem Window.append (h : Window r ℓ) (e : LogEntry) : Window (r.append e).2 (ℓ ++ [e]) where
  first := h.first
  entries := by
    simp only [ReplicatedLog.append, h.entries]
    rw [List.drop_append_of_le_length h.bound]
  bound := h.bound.trans (by simp)

theorem Window.compact (h : Window r ℓ) {upTo : ℕ} (hu : upTo ≤ ℓ.length) (t : ℕ) :
    Window (r.compact upTo t) ℓ := by
  unfold ReplicatedLog.compact
  split
  · exact h
  · next hf =>
    have := h.first
    refine ⟨rfl, ?_, hu⟩
    simp only [h.entries, List.drop_drop]
    congr 1
    omega

theorem Window.compact_of_le (h : Window r ℓ) {P : List LogEntry} (hu : ℓ.length ≤ P.length)
    (hf : r.firstIndex ≤ P.length) (t : ℕ) : Window (r.compact P.length t) P := by
  unfold ReplicatedLog.compact
  rw [if_neg (by omega)]
  have := h.first
  refine ⟨rfl, ?_, le_rfl⟩
  simp only [h.entries, List.drop_drop, List.drop_length]
  exact List.drop_eq_nil_of_le (by omega)

/-! ## Taking over a leader's entries -/

/-- The part of `handle_append_entries` that edits the log: truncate at the first conflict and
append what lies behind the last index. -/
def reconcile (r : ReplicatedLog) (entries : List LogEntry) : ReplicatedLog :=
  if entries.isEmpty then r
  else
    let r :=
      match r.findConflict entries with
      | some conflict => r.truncateFrom conflict
      | none => r
    let existingLast := r.lastIndex
    let newEntries := entries.filter fun e => existingLast < e.index
    if newEntries.isEmpty then r else (r.appendEntries newEntries).2

/-- Entries of one term at a position of both logs make the logs agree up to it. -/
def Agree (ℓ P : List LogEntry) : Prop :=
  ∀ k e e', ℓ[k]? = some e → P[k]? = some e' → e.term = e'.term → ℓ.take (k + 1) = P.take (k + 1)

theorem findConflict_eq_none {es : List LogEntry} (h : r.findConflict es = none) {e : LogEntry}
    (he : e ∈ es) {t : ℕ} (ht : r.termAt e.index = some t) : t = e.term := by
  induction es with
  | nil => simp at he
  | cons x es ih =>
    rw [findConflict] at h
    rcases List.mem_cons.mp he with rfl | he
    · rw [ht] at h
      by_contra hne
      simp [hne] at h
    · split at h
      · next hx =>
        split at h
        · cases h
        · exact ih h he
      · exact ih h he

/-- A conflict is an entry whose index has another term in the log, the first such one. -/
theorem findConflict_eq_some {es : List LogEntry} {c : ℕ} (h : r.findConflict es = some c) :
    ∃ (j : ℕ) (e : LogEntry) (t : ℕ), es[j]? = some e ∧ e.index = c ∧ r.termAt c = some t ∧
      t ≠ e.term ∧
      ∀ i x u, i < j → es[i]? = some x → r.termAt x.index = some u → u = x.term := by
  induction es with
  | nil => simp [findConflict] at h
  | cons x es ih =>
    rw [findConflict] at h
    have later (hx : ∀ u, r.termAt x.index = some u → u = x.term)
        (hrest : r.findConflict es = some c) :
        ∃ (j : ℕ) (e : LogEntry) (t : ℕ), (x :: es)[j]? = some e ∧ e.index = c ∧
          r.termAt c = some t ∧ t ≠ e.term ∧
          ∀ i y u, i < j → (x :: es)[i]? = some y → r.termAt y.index = some u → u = y.term := by
      obtain ⟨j, e, t, hj, hc, ht, hne, hbefore⟩ := ih hrest
      refine ⟨j + 1, e, t, by simpa using hj, hc, ht, hne, fun i y u hi hy hu => ?_⟩
      cases i with
      | zero =>
        simp only [List.getElem?_cons_zero, Option.some.injEq] at hy
        exact hy ▸ hx u (hy ▸ hu)
      | succ i => exact hbefore i y u (by omega) (by simpa using hy) hu
    cases hx : r.termAt x.index with
    | none =>
      rw [hx] at h
      exact later (by simp [hx]) h
    | some t =>
      rw [hx] at h
      by_cases hne : t = x.term
      · refine later (fun u hu => ?_) (by simpa [hne] using h)
        rw [hx, Option.some.injEq] at hu
        exact hu ▸ hne
      · simp only [ne_eq, hne, not_false_eq_true, if_true, Option.some.injEq] at h
        subst h
        exact ⟨0, x, t, rfl, rfl, hx, hne, fun i _ _ hi => absurd hi (Nat.not_lt_zero i)⟩

/-- Of the entries of an indexed log behind `a`, those with an index above `b` are the ones behind
both. -/
theorem Indexed.filter_drop {P : List LogEntry} (hP : Indexed P) (a b : ℕ) :
    (P.drop a).filter (fun e => b < e.index) = P.drop (max a b) := by
  have hidx : ∀ c, ∀ e ∈ P.drop c, c < e.index := by
    intro c e he
    obtain ⟨i, hi⟩ := List.mem_iff_getElem?.mp he
    rw [List.getElem?_drop] at hi
    rw [hP _ _ hi]
    omega
  rcases Nat.le_total b a with hba | hab
  · rw [max_eq_left hba, List.filter_eq_self]
    intro e he
    simpa using lt_of_le_of_lt hba (hidx a e he)
  · have hsplit : P.drop a = (P.drop a).take (b - a) ++ P.drop b := by
      conv_lhs => rw [← List.take_append_drop (b - a) (P.drop a)]
      rw [List.drop_drop]
      congr 2
      omega
    rw [max_eq_right hab, hsplit, List.filter_append]
    have hnil : ((P.drop a).take (b - a)).filter (fun e => b < e.index) = [] := by
      rw [List.filter_eq_nil_iff]
      intro e he
      obtain ⟨i, hi⟩ := List.mem_iff_getElem?.mp he
      have hlt : i < b - a := by
        have := (List.getElem?_eq_some_iff.mp hi).1
        simp only [List.length_take] at this
        omega
      rw [List.getElem?_take_of_lt hlt, List.getElem?_drop] at hi
      rw [hP _ _ hi]
      simp only [decide_eq_true_eq]
      omega
    rw [hnil, List.nil_append, List.filter_eq_self]
    intro e he
    simpa using hidx b e he

theorem Window.truncateFrom (h : Window r ℓ) {c : ℕ} (hs : r.snapshotIndex < c)
    (hc : c ≤ ℓ.length) :
    r.truncateFrom c = { r with entries := (ℓ.take (c - 1)).drop r.snapshotIndex } ∧
      Window (r.truncateFrom c) (ℓ.take (c - 1)) := by
  have hf := h.first
  have heq : r.truncateFrom c = { r with entries := (ℓ.take (c - 1)).drop r.snapshotIndex } := by
    unfold ReplicatedLog.truncateFrom
    rw [if_neg (by omega), h.entries, List.drop_take, hf, Nat.sub_sub, Nat.add_comm 1]
  rw [heq]
  exact ⟨rfl, hf, rfl, by simp only [List.length_take]; omega⟩

theorem Agree.drop_take {P : List LogEntry} (hag : Agree ℓ P) {s m : ℕ} (hℓ : m ≤ ℓ.length)
    (hP : m ≤ P.length) (hm : s < m → termOf ℓ m = termOf P m) :
    (ℓ.take m).drop s = (P.take m).drop s := by
  rcases Nat.lt_or_ge s m with hlt | hge
  · obtain ⟨k, rfl⟩ : ∃ k, m = k + 1 := ⟨m - 1, by omega⟩
    have hek : ℓ[k]? = some ℓ[k] := List.getElem?_eq_getElem (by omega)
    have hek' : P[k]? = some P[k] := List.getElem?_eq_getElem (by omega)
    have ht := hm hlt
    simp only [termOf_succ, hek, hek', Option.map_some, Option.some.injEq] at ht
    rw [hag k _ _ hek hek' ht]
  · rw [List.drop_eq_nil_of_le (by simp; omega), List.drop_eq_nil_of_le (by simp; omega)]

section Reconcile

variable {P : List LogEntry} {prev : ℕ}

theorem findConflict_drop_eq_none (hP : Indexed P) (hnone : r.findConflict (P.drop prev) = none)
    {k : ℕ} (hk : prev < k) (hkP : k ≤ P.length) {t : ℕ} (ht : r.termAt k = some t) :
    termOf P k = some t := by
  obtain ⟨j, rfl⟩ : ∃ j, k = j + 1 := ⟨k - 1, by omega⟩
  have hj : P[j]? = some P[j] := List.getElem?_eq_getElem (by omega)
  have hmem : P[j] ∈ P.drop prev := by
    refine List.mem_of_getElem? (i := j - prev) ?_
    rw [List.getElem?_drop, Nat.add_sub_cancel' (by omega), hj]
  have := findConflict_eq_none hnone hmem (t := t) (by rw [hP _ _ hj]; exact ht)
  simp [termOf_succ, hj, this]

theorem findConflict_drop_eq_some (hP : Indexed P) {c : ℕ}
    (hsome : r.findConflict (P.drop prev) = some c) :
    prev < c ∧ c ≤ P.length ∧ (∃ t, r.termAt c = some t ∧ termOf P c ≠ some t) ∧
      ∀ k t, prev < k → k < c → r.termAt k = some t → termOf P k = some t := by
  obtain ⟨j, e, t, hj, rfl, ht, hne, hbefore⟩ := findConflict_eq_some hsome
  rw [List.getElem?_drop] at hj
  have hidx : e.index = prev + j + 1 := hP _ _ hj
  have hlt := (List.getElem?_eq_some_iff.mp hj).1
  rw [hidx] at ht ⊢
  refine ⟨by omega, by omega, ⟨t, ht, ?_⟩, fun k u hk hkc hu => ?_⟩
  · simpa [termOf_succ, hj] using Ne.symm hne
  · obtain ⟨i, rfl⟩ : ∃ i, k = prev + i + 1 := ⟨k - prev - 1, by omega⟩
    have hi : P[prev + i]? = some P[prev + i] := List.getElem?_eq_getElem (by omega)
    have := hbefore i P[prev + i] u (by omega) (by rw [List.getElem?_drop, hi])
      (by rw [hP _ _ hi]; exact hu)
    simp [termOf_succ, hi, this]

/-- Editing the log by the entries of `P` behind `prev` either changes nothing, and then the log
already has `P` or `P` ends before the snapshot index, or it leaves the window of `P`.  The
boundary of the window is compared only through `hedge`: the two logs have one term there. -/
theorem Window.reconcile (h : Window r ℓ) (hP : Indexed P) (hag : Agree ℓ P)
    (hprev : prev ≤ P.length)
    (hmatch : r.snapshotIndex < prev → prev ≤ ℓ.length ∧ termOf ℓ prev = termOf P prev)
    (hedge : prev < r.snapshotIndex → r.snapshotIndex ≤ P.length →
      termOf P r.snapshotIndex = some r.snapshotTerm) :
    (r.reconcile (P.drop prev) = r ∧ (P <+: ℓ ∨ P.length ≤ r.snapshotIndex)) ∨
      (¬ P <+: ℓ ∧ r.snapshotIndex < P.length ∧
        r.reconcile (P.drop prev) = { r with entries := P.drop r.snapshotIndex }) := by
  have hb := h.bound
  -- `P` is a prefix of `ℓ` as soon as both have one term at the last index of `P`
  have prefix_of_term (hs : r.snapshotIndex < P.length) (hle : P.length ≤ ℓ.length)
      (ht : termOf ℓ P.length = termOf P P.length) : P <+: ℓ := by
    have := hag.drop_take (s := 0) hle le_rfl fun _ => ht
    simp only [List.drop_zero, List.take_length] at this
    exact this ▸ List.take_prefix _ _
  rcases Nat.eq_or_lt_of_le hprev with heq | hlt
  · left
    refine ⟨by simp [ReplicatedLog.reconcile, heq], ?_⟩
    rcases Nat.lt_or_ge r.snapshotIndex prev with hsp | hsp
    · obtain ⟨hle, ht⟩ := hmatch hsp
      exact .inl (prefix_of_term (heq ▸ hsp) (heq ▸ hle) (heq ▸ ht))
    · exact .inr (heq ▸ hsp)
  have hne : (P.drop prev).isEmpty = false := by
    simp only [List.isEmpty_eq_false_iff, ne_eq, List.drop_eq_nil_iff]
    omega
  cases hc : r.findConflict (P.drop prev) with
  | none =>
    have hsame : ∀ k, prev < k → k ≤ P.length → r.snapshotIndex < k → k ≤ ℓ.length →
        termOf ℓ k = termOf P k := by
      intro k hk hkP hs hkℓ
      have htk : r.termAt k = termOf ℓ k := by
        rw [h.termAt_of_lt hs, termOf, if_neg (by omega)]
      have hget : ℓ[k - 1]? = some ℓ[k - 1] := List.getElem?_eq_getElem (by omega)
      have hval : termOf ℓ k = some ℓ[k - 1].term := by
        rw [termOf, if_neg (by omega), hget, Option.map_some]
      rw [hval, findConflict_drop_eq_none hP hc hk hkP (htk.trans hval)]
    have hprevℓ : prev ≤ ℓ.length := by
      rcases Nat.lt_or_ge r.snapshotIndex prev with hsp | hsp
      · exact (hmatch hsp).1
      · omega
    have hfilter : (P.drop prev).filter (fun e => r.lastIndex < e.index) = P.drop ℓ.length := by
      rw [h.lastIndex, hP.filter_drop, max_eq_right hprevℓ]
    rcases Nat.lt_or_ge ℓ.length P.length with hlen | hlen
    · right
      refine ⟨fun hpre => by have := hpre.length_le; omega, by omega, ?_⟩
      have hdrop : ℓ.drop r.snapshotIndex = (P.take ℓ.length).drop r.snapshotIndex := by
        have := hag.drop_take (s := r.snapshotIndex) (m := ℓ.length) le_rfl hlen.le fun hs => by
          rcases Nat.eq_or_lt_of_le hprevℓ with heq | hlt'
          · exact heq ▸ (hmatch (heq ▸ hs)).2
          · exact hsame _ hlt' hlen.le hs le_rfl
        rwa [List.take_length] at this
      have hne' : (P.drop ℓ.length).isEmpty = false := by
        simp only [List.isEmpty_eq_false_iff, ne_eq, List.drop_eq_nil_iff]
        omega
      have happ : (P.take ℓ.length).drop r.snapshotIndex ++ P.drop ℓ.length =
          P.drop r.snapshotIndex := by
        conv_rhs => rw [← List.take_append_drop ℓ.length P]
        rw [List.drop_append_of_le_length (by simp only [List.length_take]; omega)]
      unfold ReplicatedLog.reconcile
      simp only [hne, hc, hfilter, hne', Bool.false_eq_true, if_false]
      simp only [ReplicatedLog.appendEntries, h.entries, hdrop, happ]
    · left
      have hnil : (P.drop ℓ.length).isEmpty = true := by simpa using hlen
      refine ⟨?_, ?_⟩
      · unfold ReplicatedLog.reconcile
        simp only [hne, hc, hfilter, hnil, Bool.false_eq_true, if_false, if_true]
      · rcases Nat.lt_or_ge r.snapshotIndex P.length with hsP | hsP
        · exact .inl (prefix_of_term hsP hlen (hsame _ hlt le_rfl hsP hlen))
        · exact .inr hsP
  | some c =>
    right
    obtain ⟨hpc, hcP, ⟨t, ht, hneq⟩, hbefore⟩ := findConflict_drop_eq_some hP hc
    -- a conflict lies behind the snapshot index, where the window reads `ℓ`
    have hsc : r.snapshotIndex < c := by
      rcases Nat.lt_trichotomy c r.snapshotIndex with hlt' | heq | hgt
      · rw [h.termAt_of_gt (by omega) hlt'] at ht
        cases ht
      · subst heq
        rw [termAt_snapshotIndex r (by omega), Option.some.injEq] at ht
        exact absurd (ht ▸ hedge hpc hcP) hneq
      · exact hgt
    have hcℓ : c ≤ ℓ.length := by
      rw [h.termAt_of_lt hsc, Option.map_eq_some_iff] at ht
      obtain ⟨e, he, -⟩ := ht
      have := (List.getElem?_eq_some_iff.mp he).1
      omega
    obtain ⟨htr, hwin⟩ := h.truncateFrom hsc hcℓ
    have hfilter : (P.drop prev).filter (fun e => (r.truncateFrom c).lastIndex < e.index) =
        P.drop (c - 1) := by
      rw [hwin.lastIndex, hP.filter_drop, List.length_take, min_eq_left (by omega),
        max_eq_right (by omega)]
    have hne' : (P.drop (c - 1)).isEmpty = false := by
      simp only [List.isEmpty_eq_false_iff, ne_eq, List.drop_eq_nil_iff]
      omega
    have hdrop : (ℓ.take (c - 1)).drop r.snapshotIndex =
        (P.take (c - 1)).drop r.snapshotIndex := by
      refine hag.drop_take (by omega) (by omega) fun hs => ?_
      rcases Nat.eq_or_lt_of_le (Nat.le_sub_one_of_lt hpc) with heq | hlt'
      · exact heq ▸ (hmatch (heq ▸ hs)).2
      · have hget : ℓ[c - 1 - 1]? = some ℓ[c - 1 - 1] := List.getElem?_eq_getElem (by omega)
        have hval : termOf ℓ (c - 1) = some ℓ[c - 1 - 1].term := by
          rw [termOf, if_neg (by omega), hget, Option.map_some]
        rw [hval, hbefore (c - 1) _ hlt' (by omega)
          (by rw [h.termAt_of_lt hs, hget, Option.map_some])]
    have happ : (P.take (c - 1)).drop r.snapshotIndex ++ P.drop (c - 1) =
        P.drop r.snapshotIndex := by
      conv_rhs => rw [← List.take_append_drop (c - 1) P]
      rw [List.drop_append_of_le_length (by simp only [List.length_take]; omega)]
    refine ⟨fun hpre => ?_, by omega, ?_⟩
    · have hPc : P[c - 1]? = ℓ[c - 1]? := by
        rw [List.prefix_iff_eq_take] at hpre
        rw [hpre, List.getElem?_take_of_lt (by omega)]
      rw [h.termAt_of_lt hsc, ← hPc] at ht
      exact hneq (by rw [termOf, if_neg (by omega), ht])
    · unfold ReplicatedLog.reconcile
      simp only [hne, hc, hfilter, hne', Bool.false_eq_true, if_false]
      simp only [ReplicatedLog.appendEntries, htr, hdrop, happ]

end Reconcile

end ReplicatedLog

end Replication

end AegisDB
