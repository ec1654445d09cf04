import AegisDB.Library.Stepwise
import AegisDB.Library.Transition
import Mathlib.Data.Prod.Lex

/-!
# The hybrid logical clock

A hybrid clock issues timestamps of a physical time and a logical counter.  When the physical clock
has not moved on, the counter does; and a timestamp that is received moves the clock past itself.
So every timestamp that is issued is after all that were issued or received before it, as long as
the counter, which has 32 bits, has room to move on (`HybridClock.Room`).
-/

namespace AegisDB

namespace Replication

/-! ## Timestamps -/

/-- A timestamp of a hybrid clock. -/
structure HybridTimestamp where
  physical : UInt64
  logical : UInt32
  nodeId : String
  deriving DecidableEq

namespace HybridTimestamp

/-- Compare with another timestamp. -/
def compare (t u : HybridTimestamp) : Ordering :=
  match Ord.compare t.physical u.physical with
  | .eq =>
    match Ord.compare t.logical u.logical with
    | .eq => Ord.compare t.nodeId u.nodeId
    | other => other
  | other => other

def isBefore (t u : HybridTimestamp) : Bool :=
  t.compare u = .lt

/-- The time of a timestamp, in the lexicographic order. -/
def time (t : HybridTimestamp) : ℕ ×ₗ ℕ :=
  toLex (t.physical.toNat, t.logical.toNat)

theorem compare_of_time_lt {t u : HybridTimestamp} (h : t.time < u.time) :
    t.compare u = .lt ∧ u.compare t = .gt := by
  rw [time, time, Prod.Lex.toLex_lt_toLex] at h
  rw [compare, compare]
  rcases h with hphysical | ⟨hphysical, hlogical⟩
  · rw [Std.compare_eq_lt.mpr (UInt64.lt_iff_toNat_lt.mpr hphysical),
      Std.compare_eq_gt.mpr (UInt64.lt_iff_toNat_lt.mpr hphysical)]
    exact ⟨rfl, rfl⟩
  · have heq : t.physical = u.physical := UInt64.toNat_inj.mp hphysical
    rw [Std.compare_eq_iff_eq.mpr heq, Std.compare_eq_iff_eq.mpr heq.symm,
      Std.compare_eq_lt.mpr (UInt32.lt_iff_toNat_lt.mpr hlogical),
      Std.compare_eq_gt.mpr (UInt32.lt_iff_toNat_lt.mpr hlogical)]
    exact ⟨rfl, rfl⟩

theorem isBefore_of_time_lt {t u : HybridTimestamp} (h : t.time < u.time) :
    t.isBefore u = true :=
  decide_eq_true (compare_of_time_lt h).1

theorem isBefore_of_time_gt {t u : HybridTimestamp} (h : u.time < t.time) :
    t.isBefore u = false := by
  rw [isBefore, (compare_of_time_lt h).2]
  rfl

end HybridTimestamp

/-! ## The clock -/

/-- A clock that combines physical time with a logical counter. -/
structure HybridClock where
  physical : UInt64
  logical : UInt32
  nodeId : String

namespace HybridClock

/-- A new clock, at a reading of the physical clock. -/
def new (now : UInt64) (nodeId : String) : HybridClock where
  physical := now
  logical := 0
  nodeId := nodeId

def timestamp (c : HybridClock) : HybridTimestamp :=
  { physical := c.physical, logical := c.logical, nodeId := c.nodeId }

/-- Generate a new timestamp, at a reading of the physical clock. -/
def tick (c : HybridClock) (now : UInt64) : HybridClock × HybridTimestamp :=
  let c :=
    if now > c.physical then { c with physical := now, logical := 0 }
    else { c with logical := c.logical + 1 }
  (c, c.timestamp)

/-- Update from a received timestamp, at a reading of the physical clock. -/
def receive (c : HybridClock) (now : UInt64) (other : HybridTimestamp) :
    HybridClock × HybridTimestamp :=
  let c :=
    if now > c.physical ∧ now > other.physical then { c with physical := now, logical := 0 }
    else if c.physical > other.physical then { c with logical := c.logical + 1 }
    else if other.physical > c.physical then
      { c with physical := other.physical, logical := other.logical + 1 }
    else { c with logical := max c.logical other.logical + 1 }
  (c, c.timestamp)

/-- A call of the clock. -/
inductive Call
  | tick (now : UInt64)
  | receive (now : UInt64) (other : HybridTimestamp)

def call (c : HybridClock) : Call → HybridClock × HybridTimestamp
  | .tick now => c.tick now
  | .receive now other => c.receive now other

def Call.received : Call → Option HybridTimestamp
  | .tick _ => none
  | .receive _ other => some other

/-- The counter that a call moves on, if it moves one on. -/
def movesOn (c : HybridClock) : Call → Option UInt32
  | .tick now => if now > c.physical then none else some c.logical
  | .receive now other =>
    if now > c.physical ∧ now > other.physical then none
    else if c.physical > other.physical then some c.logical
    else if other.physical > c.physical then some other.logical
    else some (max c.logical other.logical)

/-- The counter that a call moves on has room: it is not the largest one of 32 bits. -/
def Room (c : HybridClock) (a : Call) : Prop :=
  ∀ logical ∈ c.movesOn a, logical.toNat < 2 ^ 32 - 1

instance (c : HybridClock) (a : Call) : Decidable (c.Room a) :=
  Option.decidableForallMem (c.movesOn a)

variable {c : HybridClock} {a : Call}

theorem call_timestamp (c : HybridClock) (a : Call) : (c.call a).2 = (c.call a).1.timestamp := by
  cases a <;> rfl

/-- A call that moves no counter on takes a later physical time. -/
theorem call_of_movesOn_none (h : c.movesOn a = none) :
    c.physical.toNat < (c.call a).1.physical.toNat ∧
      (∀ other ∈ a.received, other.physical.toNat < (c.call a).1.physical.toNat) ∧
      (c.call a).1.logical = 0 := by
  cases a with
  | tick now =>
    rw [movesOn] at h
    split_ifs at h with hnow
    rw [call, tick, if_pos hnow]
    exact ⟨UInt64.lt_iff_toNat_lt.mp hnow, fun other hother => (nomatch hother), rfl⟩
  | receive now other =>
    rw [movesOn] at h
    split_ifs at h with hnow
    rw [call, receive, if_pos hnow]
    refine ⟨UInt64.lt_iff_toNat_lt.mp hnow.1, ?_, rfl⟩
    rintro _ ⟨⟩
    exact UInt64.lt_iff_toNat_lt.mp hnow.2

/-- A call that moves a counter on: the clock and the timestamp received are at most at the physical
time of the new timestamp, and those that are at it have at most the counter that is moved on, which
one of them has. -/
theorem call_of_movesOn_some {logical : UInt32} (h : c.movesOn a = some logical) :
    (c.call a).1.logical = logical + 1 ∧
      (∀ t, t = c.timestamp ∨ t ∈ a.received →
        t.time ≤ toLex ((c.call a).1.physical.toNat, logical.toNat)) ∧
      ∃ t, (t = c.timestamp ∨ t ∈ a.received) ∧
        t.time = toLex ((c.call a).1.physical.toNat, logical.toNat) := by
  cases a with
  | tick now =>
    rw [movesOn] at h
    split_ifs at h with hnow
    obtain rfl := Option.some.inj h
    rw [call, tick, if_neg hnow]
    refine ⟨rfl, ?_, c.timestamp, .inl rfl, rfl⟩
    rintro t (rfl | ht)
    · exact le_rfl
    · cases ht
  | receive now other =>
    rw [movesOn] at h
    rw [call, receive]
    by_cases hnow : now > c.physical ∧ now > other.physical
    · rw [if_pos hnow] at h
      cases h
    · rw [if_neg hnow] at h ⊢
      by_cases hgt : c.physical > other.physical
      · rw [if_pos hgt] at h ⊢
        obtain rfl := Option.some.inj h
        refine ⟨rfl, ?_, c.timestamp, .inl rfl, rfl⟩
        rintro t (rfl | ⟨⟨⟩⟩)
        · exact le_rfl
        · exact Prod.Lex.toLex_le_toLex.mpr (.inl (UInt64.lt_iff_toNat_lt.mp hgt))
      · rw [if_neg hgt] at h ⊢
        by_cases hlt : other.physical > c.physical
        · rw [if_pos hlt] at h ⊢
          obtain rfl := Option.some.inj h
          refine ⟨rfl, ?_, other, .inr rfl, rfl⟩
          rintro t (rfl | ⟨⟨⟩⟩)
          · exact Prod.Lex.toLex_le_toLex.mpr (.inl (UInt64.lt_iff_toNat_lt.mp hlt))
          · exact le_rfl
        · rw [if_neg hlt] at h ⊢
          obtain rfl := Option.some.inj h
          have hphysical : other.physical.toNat = c.physical.toNat := by
            have hle := UInt64.lt_iff_toNat_lt.not.mp hgt
            have hge := UInt64.lt_iff_toNat_lt.not.mp hlt
            omega
          have hmax := UInt32.toNat_max c.logical other.logical
          refine ⟨rfl, ?_, ?_⟩
          · rintro t (rfl | ⟨⟨⟩⟩)
            · exact Prod.Lex.toLex_le_toLex.mpr (.inr ⟨rfl, by rw [hmax]; exact le_max_left _ _⟩)
            · refine Prod.Lex.toLex_le_toLex.mpr (.inr ⟨hphysical, ?_⟩)
              rw [hmax]
              exact le_max_right _ _
          · rcases le_total c.logical.toNat other.logical.toNat with hle | hle
            · refine ⟨other, .inr rfl, ?_⟩
              rw [HybridTimestamp.time, hphysical, hmax, max_eq_right hle]
            · refine ⟨c.timestamp, .inl rfl, ?_⟩
              rw [HybridTimestamp.time, hmax, max_eq_left hle]
              rfl

/-- A call with room issues a timestamp after that of the clock and the one received. -/
theorem time_lt_of_room (h : c.Room a) {t : HybridTimestamp}
    (ht : t = c.timestamp ∨ t ∈ a.received) : t.time < (c.call a).2.time := by
  rw [call_timestamp]
  cases hmoves : c.movesOn a with
  | none =>
    obtain ⟨hclock, hreceived, -⟩ := call_of_movesOn_none hmoves
    refine Prod.Lex.toLex_lt_toLex.mpr (.inl ?_)
    rcases ht with rfl | ht
    · exact hclock
    · exact hreceived t ht
  | some logical =>
    obtain ⟨hlogical, hle, -⟩ := call_of_movesOn_some hmoves
    refine (hle t ht).trans_lt (Prod.Lex.toLex_lt_toLex.mpr (.inr ⟨rfl, ?_⟩))
    have hroom := h logical hmoves
    change logical.toNat < (c.call a).1.logical.toNat
    rw [hlogical, UInt32.toNat_add, UInt32.toNat_one, Nat.mod_eq_of_lt (by omega)]
    exact Nat.lt_succ_self _

/-- A call without room issues a timestamp before that of the clock or the one received, whose
counter is not `0`. -/
theorem time_gt_of_not_room (h : ¬ c.Room a) :
    ∃ t, (t = c.timestamp ∨ t ∈ a.received) ∧ (c.call a).2.time < t.time ∧ t.logical ≠ 0 := by
  rw [Room] at h
  push Not at h
  obtain ⟨logical, hmoves, hfull⟩ := h
  obtain ⟨hlogical, -, t, ht, htime⟩ := call_of_movesOn_some hmoves
  have hmax : logical.toNat = 2 ^ 32 - 1 := by
    have := logical.toNat_lt
    omega
  have hzero : (c.call a).1.logical.toNat = 0 := by
    rw [hlogical, UInt32.toNat_add, UInt32.toNat_one, hmax]
    rfl
  have hlogical' : t.logical.toNat = logical.toNat := congrArg (fun p => (ofLex p).2) htime
  refine ⟨t, ht, ?_, fun heq => ?_⟩
  · rw [call_timestamp, htime]
    refine Prod.Lex.toLex_lt_toLex.mpr (.inr ⟨rfl, ?_⟩)
    change (c.call a).1.logical.toNat < logical.toNat
    omega
  · rw [heq, hmax] at hlogical'
    cases hlogical'

end HybridClock

/-! ## Runs -/

/-- What a clock has issued and received. -/
inductive HybridEvent
  | issued (t : HybridTimestamp)
  | received (t : HybridTimestamp)
  deriving DecidableEq

def HybridEvent.timestamp : HybridEvent → HybridTimestamp
  | issued t | received t => t

/-- A clock, and what it has issued and received. -/
structure HybridRun where
  clock : HybridClock
  history : List HybridEvent := []

namespace HybridRun

def call (s : HybridRun) (a : HybridClock.Call) : HybridRun where
  clock := (s.clock.call a).1
  history := s.history ++ a.received.toList.map .received ++ [.issued (s.clock.call a).2]

/-- The runs of a clock that is created at a reading of the physical clock. -/
def system (now : UInt64) (nodeId : String) : System HybridRun HybridClock.Call where
  init := { clock := .new now nodeId }
  step s a := some (s.call a)

/-- A timestamp is issued after all that were issued or received before. -/
def Later (before : List HybridEvent) : HybridEvent → Prop
  | .issued t => ∀ e ∈ before, e.timestamp.isBefore t = true
  | .received _ => True

/-- The counter of the clock is what it would be without an upper bound. -/
def Exact (c : HybridClock) (a : HybridClock.Call) : Prop :=
  ∀ logical ∈ c.movesOn a, (c.call a).1.logical.toNat = logical.toNat + 1

/-- The invariant of runs with room. -/
structure ClockInv (s : HybridRun) : Prop where
  /-- Every timestamp was issued after the ones before it. -/
  later : Stepwise Later s.history
  le : ∀ e ∈ s.history, e.timestamp.time ≤ s.clock.timestamp.time
  /-- The clock has issued its timestamp, unless its counter is `0`. -/
  issued : s.clock.logical ≠ 0 → .issued s.clock.timestamp ∈ s.history

variable {s : HybridRun} {a : HybridClock.Call}

theorem ClockInv.call (h : s.ClockInv) (hroom : s.clock.Room a) : (s.call a).ClockInv := by
  have hnew : ∀ e ∈ s.history ++ a.received.toList.map .received,
      e.timestamp.time < (s.clock.call a).2.time := by
    intro e he
    rcases List.mem_append.mp he with he | he
    · exact (h.le e he).trans_lt (HybridClock.time_lt_of_room hroom (.inl rfl))
    · obtain ⟨t, ht, rfl⟩ := List.mem_map.mp he
      exact HybridClock.time_lt_of_room hroom (.inr (Option.mem_toList.mp ht))
  refine ⟨?_, fun e he => ?_, fun _ => ?_⟩
  · refine Stepwise.concat (h.later.append fun e he l => ?_) fun e he =>
      HybridTimestamp.isBefore_of_time_lt (hnew e he)
    obtain ⟨t, -, rfl⟩ := List.mem_map.mp he
    trivial
  · change e.timestamp.time ≤ (s.clock.call a).1.timestamp.time
    rw [← HybridClock.call_timestamp]
    rcases List.mem_append.mp he with he | he
    · exact (hnew e he).le
    · rw [List.mem_singleton.mp he]
      exact le_rfl
  · change HybridEvent.issued (s.clock.call a).1.timestamp ∈ _
    rw [← HybridClock.call_timestamp]
    exact List.mem_append_right _ (List.mem_singleton.mpr rfl)

theorem clockInv_of_reach {now : UInt64} {nodeId : String}
    (h : (system now nodeId).Reach (fun s a => s.clock.Room a) s) : s.ClockInv := by
  refine h.invariant (P := ClockInv) ?_ fun s a s' _ hinv hroom hstep => ?_
  · exact ⟨Stepwise.nil, fun e he => (nomatch he), fun hne => absurd rfl hne⟩
  · obtain rfl := Option.some.inj hstep
    exact hinv.call hroom

/-- A call is exact and issues a later timestamp exactly when it has room. -/
theorem ClockInv.room_iff (h : s.ClockInv) (a : HybridClock.Call) :
    (Exact s.clock a ∧ Later (s.history ++ a.received.toList.map .received)
      (.issued (s.clock.call a).2)) ↔ s.clock.Room a := by
  constructor
  · rintro ⟨-, hlater⟩
    by_contra hroom
    obtain ⟨t, ht, htime, hlogical⟩ := HybridClock.time_gt_of_not_room hroom
    obtain ⟨e, he, rfl⟩ : ∃ e ∈ s.history ++ a.received.toList.map .received,
        e.timestamp = t := by
      rcases ht with rfl | ht
      · exact ⟨_, List.mem_append_left _ (h.issued hlogical), rfl⟩
      · exact ⟨.received t, List.mem_append_right _
          (List.mem_map.mpr ⟨t, Option.mem_toList.mpr ht, rfl⟩), rfl⟩
    have hbefore := hlater e he
    rw [HybridTimestamp.isBefore_of_time_gt htime] at hbefore
    cases hbefore
  · intro hroom
    refine ⟨fun logical hmoves => ?_, fun e he => ?_⟩
    · have := hroom logical hmoves
      rw [(HybridClock.call_of_movesOn_some hmoves).1, UInt32.toNat_add, UInt32.toNat_one,
        Nat.mod_eq_of_lt (by omega)]
    · refine HybridTimestamp.isBefore_of_time_lt ?_
      rcases List.mem_append.mp he with he | he
      · exact (h.le e he).trans_lt (HybridClock.time_lt_of_room hroom (.inl rfl))
      · obtain ⟨t, ht, rfl⟩ := List.mem_map.mp he
        exact HybridClock.time_lt_of_room hroom (.inr (Option.mem_toList.mp ht))

/-- **The clock is monotone**: as long as no call moves on a counter of `2 ^ 32 - 1` (its own, or the
one received, where the physical clock has not passed them), every timestamp is issued after all
timestamps issued or received before it.  And these are exactly the calls that do not overflow and
issue a later timestamp. -/
theorem issues_later {now : UInt64} {nodeId : String}
    (h : (system now nodeId).Reach (fun s a => s.clock.Room a) s) :
    (∀ before t after, s.history = before ++ .issued t :: after →
      ∀ e ∈ before, e.timestamp.isBefore t = true) ∧
    ∀ a, (Exact s.clock a ∧ Later (s.history ++ a.received.toList.map .received)
      (.issued (s.clock.call a).2)) ↔ s.clock.Room a :=
  ⟨fun before t after heq => (clockInv_of_reach h).later before (.issued t) after heq,
    (clockInv_of_reach h).room_iff⟩

/-- The physical clock goes backward, and a timestamp from the future is received. -/
theorem issues_later_backward :
    ∃ s, (system 10 "a").Reach (fun s a => s.clock.Room a) s ∧
      .issued ⟨20, 6, "a"⟩ ∈ s.history ∧
        Later (s.history ++ (HybridClock.Call.tick 7).received.toList.map .received)
          (.issued (s.clock.call (.tick 7)).2) := by
  have hrun : ((system 10 "a").run (fun s a => s.clock.Room a)
      [.tick 9, .receive 8 ⟨20, 5, "b"⟩]).any
      (fun s => decide (.issued ⟨20, 6, "a"⟩ ∈ s.history ∧ s.clock.Room (.tick 7))) = true := by
    decide +kernel
  obtain ⟨s, -, hreach, hs⟩ := System.exists_reach_of_any hrun
  obtain ⟨hissued, hroom⟩ := of_decide_eq_true hs
  exact ⟨s, hreach, hissued, (((issues_later hreach).2 (.tick 7)).mpr hroom).2⟩

/-- **The clock goes back**: it receives a timestamp whose counter is the largest one, and issues one
that is before it. -/
theorem not_issues_later :
    ∃ s, (system 10 "a").Reachable s ∧
      s.history = [.received ⟨20, 4294967295, "b"⟩, .issued ⟨20, 0, "a"⟩] ∧
      (HybridTimestamp.mk 20 4294967295 "b").isBefore ⟨20, 0, "a"⟩ = false := by
  have hrun : ((system 10 "a").run (fun _ _ => True)
      [.receive 15 ⟨20, 4294967295, "b"⟩]).any
      (fun s => decide (s.history =
        [.received ⟨20, 4294967295, "b"⟩, .issued ⟨20, 0, "a"⟩])) = true := by
    decide +kernel
  obtain ⟨s, -, hreach, hs⟩ := System.exists_reach_of_any hrun
  exact ⟨s, hreach, of_decide_eq_true hs, by decide +kernel⟩

end HybridRun

end Replication

end AegisDB
