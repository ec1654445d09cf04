import AegisDB.Library.Table
import AegisDB.Library.TokenBucket
import AegisDB.Library.Transition

/-!
# The rate limiter

Each client has a bucket of tokens, which is refilled when the client is seen.  A bucket that was not
used for two windows is dropped, by the clean-up and when too many clients are tracked, and a new one
is full; by then the old one was, too.  Times and tokens are exact rationals.
-/

namespace AegisDB.Server

/-- Above this many tracked clients, `check` prunes idle entries inline. -/
def maxRateLimitEntries : ℕ := 100000

/-- Token bucket rate limiter entry for a single client. -/
structure RateLimitEntry where
  tokens : ℚ
  lastUpdate : ℚ

/-- Shared rate limiter state. -/
structure RateLimiter where
  entries : Table String RateLimitEntry := ∅
  maxRequests : ℕ
  windowSecs : ℕ

/-- The time that has passed since an earlier time. -/
def durationSince (now earlier : ℚ) : ℚ :=
  max 0 (now - earlier)

namespace RateLimiter

/-- Create a new rate limiter with the specified requests per minute. -/
def new (requestsPerMinute : ℕ) : RateLimiter :=
  { maxRequests := requestsPerMinute, windowSecs := 60 }

/-- Clean up old entries to prevent memory growth. -/
def cleanup (self : RateLimiter) (now : ℚ) : RateLimiter :=
  let maxAge : ℚ := (self.windowSecs * 2 : ℕ)
  let young (_ : String) (e : RateLimitEntry) : Bool :=
    decide (durationSince now e.lastUpdate < maxAge)
  { self with entries := self.entries.filterValues young }

def refill (self : RateLimiter) (entry : RateLimitEntry) (now : ℚ) : ℚ :=
  let elapsed := durationSince now entry.lastUpdate
  let refillRate : ℚ := self.maxRequests / self.windowSecs
  min (entry.tokens + elapsed * refillRate) self.maxRequests

/-- Check if a request from the given key should be allowed. -/
def check (self : RateLimiter) (key : String) (now : ℚ) : Bool × RateLimiter :=
  let self :=
    if maxRateLimitEntries ≤ self.entries.keys.length ∧ (self.entries.lookup key).isNone then
      self.cleanup now
    else self
  let entry := (self.entries.lookup key).getD { tokens := self.maxRequests, lastUpdate := now }
  let tokens := self.refill entry now
  if 1 ≤ tokens then
    (true, { self with entries := self.entries.insert key ⟨tokens - 1, now⟩ })
  else
    (false, { self with entries := self.entries.insert key ⟨tokens, now⟩ })

end RateLimiter

/-! ## Traffic -/

/-- A limiter, the time, and the requests that were admitted. -/
structure RateTraffic where
  limiter : RateLimiter
  now : ℚ
  admitted : List (String × ℚ) := []

/-- A request with a key, or a clean-up, at a time. -/
inductive RateEvent where
  | check (key : String) (now : ℚ)
  | cleanup (now : ℚ)

namespace RateTraffic

def eventTime : RateEvent → ℚ
  | .check _ now => now
  | .cleanup now => now

def step (s : RateTraffic) (e : RateEvent) : Option RateTraffic :=
  if s.now ≤ eventTime e then
    match e with
    | .check key now =>
      let (allowed, limiter) := s.limiter.check key now
      some { limiter, now,
             admitted := if allowed then s.admitted ++ [(key, now)] else s.admitted }
    | .cleanup now => some { s with limiter := s.limiter.cleanup now, now }
  else none

/-- Traffic through a new limiter, from some time on. -/
def system (requestsPerMinute : ℕ) (start : ℚ) : System RateTraffic RateEvent where
  init := { limiter := .new requestsPerMinute, now := start }
  step := step

/-- The times at which requests of a key were admitted. -/
def admittedAt (s : RateTraffic) (key : String) : List ℚ :=
  (s.admitted.filter fun a => a.1 = key).map Prod.snd

/-- How many requests of a key were admitted from one time to another. -/
def admittedWithin (s : RateTraffic) (key : String) (start stop : ℚ) : ℕ :=
  (s.admitted.filter fun a => a.1 = key ∧ start ≤ a.2 ∧ a.2 ≤ stop).length

theorem admittedWithin_eq (s : RateTraffic) (key : String) (start stop : ℚ) :
    s.admittedWithin key start stop = TokenBucket.passed (s.admittedAt key) start stop := by
  rw [admittedWithin, TokenBucket.passed, admittedAt, List.filter_map, List.length_map,
    List.filter_filter]
  refine congrArg List.length (List.filter_congr fun a _ => ?_)
  rw [Function.comp_apply, ← Bool.decide_and, decide_eq_decide]
  exact and_comm

end RateTraffic

/-! ## The level of a bucket -/

namespace RateLimiter

variable {limiter : RateLimiter} {now now' : ℚ}

def level (limiter : RateLimiter) (now : ℚ) : Option RateLimitEntry → ℚ
  | none => limiter.maxRequests
  | some entry => limiter.refill entry now

/-- The entries are not from the future, and hold no more than they may. -/
def Bounded (limiter : RateLimiter) (now : ℚ) : Prop :=
  ∀ key entry, limiter.entries.lookup key = some entry →
    0 ≤ entry.tokens ∧ entry.lastUpdate ≤ now

/-- The number of tokens that flow into a bucket in a second. -/
def rate (limiter : RateLimiter) : ℚ :=
  limiter.maxRequests / limiter.windowSecs

theorem rate_nonneg (limiter : RateLimiter) : 0 ≤ limiter.rate :=
  div_nonneg (Nat.cast_nonneg _) (Nat.cast_nonneg _)

theorem durationSince_of_le {earlier : ℚ} (h : earlier ≤ now) :
    durationSince now earlier = now - earlier :=
  max_eq_right (sub_nonneg.mpr h)

theorem refill_eq {entry : RateLimitEntry} (h : entry.lastUpdate ≤ now) :
    limiter.refill entry now =
      min (entry.tokens + limiter.rate * (now - entry.lastUpdate)) limiter.maxRequests := by
  rw [refill, durationSince_of_le h, mul_comm]
  rfl

section Bounded

variable {found : Option RateLimitEntry}

theorem level_le (limiter : RateLimiter) (now : ℚ) (found : Option RateLimitEntry) :
    limiter.level now found ≤ limiter.maxRequests := by
  cases found with
  | none => exact le_rfl
  | some entry => exact min_le_right _ _

theorem level_nonneg (h : ∀ entry ∈ found, 0 ≤ entry.tokens ∧ entry.lastUpdate ≤ now) :
    0 ≤ limiter.level now found := by
  cases found with
  | none => exact Nat.cast_nonneg _
  | some entry =>
    obtain ⟨htokens, hlast⟩ := h entry rfl
    rw [level, refill_eq hlast]
    refine le_min (add_nonneg htokens ?_) (Nat.cast_nonneg _)
    exact mul_nonneg limiter.rate_nonneg (sub_nonneg.mpr hlast)

theorem level_wait (hnow : now ≤ now')
    (h : ∀ entry ∈ found, 0 ≤ entry.tokens ∧ entry.lastUpdate ≤ now) :
    limiter.level now' found ≤ limiter.level now found + limiter.rate * (now' - now) := by
  have hflow : 0 ≤ limiter.rate * (now' - now) :=
    mul_nonneg limiter.rate_nonneg (sub_nonneg.mpr hnow)
  cases found with
  | none => exact le_add_of_nonneg_right hflow
  | some entry =>
    obtain ⟨-, hlast⟩ := h entry rfl
    rw [level, level, refill_eq hlast, refill_eq (hlast.trans hnow), min_add]
    refine min_le_min (le_of_eq ?_) (le_add_of_nonneg_right hflow)
    ring

theorem level_of_idle (hwindow : 0 < limiter.windowSecs) {entry : RateLimitEntry}
    (htokens : 0 ≤ entry.tokens) (hlast : entry.lastUpdate ≤ now)
    (hidle : (limiter.windowSecs * 2 : ℕ) ≤ durationSince now entry.lastUpdate) :
    limiter.level now (some entry) = limiter.maxRequests := by
  rw [durationSince_of_le hlast] at hidle
  have hsecs : (0 : ℚ) < limiter.windowSecs := Nat.cast_pos.mpr hwindow
  have hidle' : (limiter.windowSecs : ℚ) ≤ now - entry.lastUpdate := by
    refine le_trans ?_ hidle
    push_cast
    linarith
  rw [level, refill_eq hlast]
  refine min_eq_right ?_
  calc (limiter.maxRequests : ℚ)
      = limiter.rate * limiter.windowSecs := by
        rw [rate, div_mul_cancel₀ _ hsecs.ne']
    _ ≤ limiter.rate * (now - entry.lastUpdate) :=
        mul_le_mul_of_nonneg_left hidle' limiter.rate_nonneg
    _ ≤ entry.tokens + limiter.rate * (now - entry.lastUpdate) :=
        le_add_of_nonneg_left htokens

end Bounded

/-! ## Operations -/

theorem Bounded.cleanup (h : limiter.Bounded now) (now' : ℚ) :
    (limiter.cleanup now').Bounded now := by
  intro key entry hentry
  rw [RateLimiter.cleanup, Table.lookup_filterValues, Option.filter_eq_some_iff] at hentry
  exact h key entry hentry.1

theorem level_cleanup (h : limiter.Bounded now) (hwindow : 0 < limiter.windowSecs) (key : String) :
    limiter.level now ((limiter.cleanup now).entries.lookup key) =
      limiter.level now (limiter.entries.lookup key) := by
  rw [cleanup, Table.lookup_filterValues]
  cases hentry : limiter.entries.lookup key with
  | none => rfl
  | some entry =>
    obtain ⟨htokens, hlast⟩ := h key entry hentry
    by_cases hyoung : durationSince now entry.lastUpdate < (limiter.windowSecs * 2 : ℕ)
    · rw [Option.filter_some, if_pos (decide_eq_true hyoung)]
    · rw [Option.filter_some, if_neg (by rwa [decide_eq_true_eq]),
        level_of_idle hwindow htokens hlast (not_lt.mp hyoung)]
      rfl

/-- The answer to a request, and the limiter behind it, by the level of the bucket among the
entries. -/
def take (limiter : RateLimiter) (entries : Table String RateLimitEntry) (key : String) (now : ℚ) :
    Bool × RateLimiter :=
  let tokens := limiter.level now (entries.lookup key)
  if 1 ≤ tokens then
    (true, { limiter with entries := entries.insert key ⟨tokens - 1, now⟩ })
  else
    (false, { limiter with entries := entries.insert key ⟨tokens, now⟩ })

/-- The entries before a request: idle ones may have been dropped. -/
theorem exists_check_eq (limiter : RateLimiter) (key : String) (now : ℚ) :
    ∃ entries, (entries = limiter.entries ∨ entries = (limiter.cleanup now).entries) ∧
      limiter.check key now = limiter.take entries key now := by
  have hfull : limiter.refill ⟨limiter.maxRequests, now⟩ now = limiter.maxRequests := by
    rw [refill_eq le_rfl, sub_self, mul_zero, add_zero, min_self]
  -- whatever the entries are, the bucket is looked up or is full
  have htokens (entries : Table String RateLimitEntry) : ({ limiter with entries } :
      RateLimiter).refill ((entries.lookup key).getD ⟨limiter.maxRequests, now⟩) now =
      limiter.level now (entries.lookup key) := by
    cases entries.lookup key with
    | none => exact hfull
    | some entry => rfl
  by_cases hprune : maxRateLimitEntries ≤ limiter.entries.keys.length ∧
      (limiter.entries.lookup key).isNone
  · refine ⟨(limiter.cleanup now).entries, Or.inr rfl, ?_⟩
    rw [check, if_pos hprune, take, ← htokens]
    rfl
  · refine ⟨limiter.entries, Or.inl rfl, ?_⟩
    rw [check, if_neg hprune, take, ← htokens]

/-- What a request does to the buckets: it takes a token out of its own, if there is one. -/
theorem check_spec (h : limiter.Bounded now) (hwindow : 0 < limiter.windowSecs) (key : String) :
    ∃ entries, limiter.check key now =
        (decide (1 ≤ limiter.level now (limiter.entries.lookup key)), { limiter with entries }) ∧
      ({ limiter with entries } : RateLimiter).Bounded now ∧
      ∀ other, limiter.level now (entries.lookup other) =
        limiter.level now (limiter.entries.lookup other) -
          if other = key ∧ 1 ≤ limiter.level now (limiter.entries.lookup key) then 1 else 0 := by
  obtain ⟨entries, hentries, hcheck⟩ := exists_check_eq limiter key now
  have hbounded : ({ limiter with entries } : RateLimiter).Bounded now := by
    rcases hentries with rfl | rfl
    · exact h
    · exact h.cleanup now
  have hlevel (other : String) : limiter.level now (entries.lookup other) =
      limiter.level now (limiter.entries.lookup other) := by
    rcases hentries with rfl | rfl
    · rfl
    · exact level_cleanup h hwindow other
  rw [take, hlevel] at hcheck
  have hnonneg : 0 ≤ limiter.level now (limiter.entries.lookup key) := level_nonneg (h key)
  have hle := level_le limiter now (limiter.entries.lookup key)
  generalize htokens : limiter.level now (limiter.entries.lookup key) = tokens at *
  -- the level of the bucket that is written
  have hafter (left : ℚ) (hleft : left ≤ tokens) (other : String) :
      limiter.level now ((entries.insert key ⟨left, now⟩).lookup other) =
        if other = key then left else limiter.level now (limiter.entries.lookup other) := by
    rw [Table.lookup_insert]
    split_ifs
    · rw [level, refill_eq le_rfl, sub_self, mul_zero, add_zero]
      exact min_eq_left (hleft.trans hle)
    · exact hlevel other
  have hbounded' (left : ℚ) (hleft : 0 ≤ left) :
      ({ limiter with entries := entries.insert key ⟨left, now⟩ } : RateLimiter).Bounded now := by
    intro other entry hother
    rw [Table.lookup_insert] at hother
    split_ifs at hother
    · obtain rfl := Option.some.inj hother
      exact ⟨hleft, le_rfl⟩
    · exact hbounded other entry hother
  by_cases hone : 1 ≤ tokens
  · rw [if_pos hone] at hcheck
    refine ⟨_, by rw [hcheck, decide_eq_true hone], hbounded' _ (sub_nonneg.mpr hone),
      fun other => ?_⟩
    rw [hafter _ (sub_le_self _ zero_le_one)]
    by_cases hkey : other = key
    · rw [if_pos hkey, if_pos ⟨hkey, hone⟩, hkey, htokens]
    · rw [if_neg hkey, if_neg (fun h : other = key ∧ 1 ≤ tokens => hkey h.1), sub_zero]
  · rw [if_neg hone] at hcheck
    refine ⟨_, by rw [hcheck, decide_eq_false hone], hbounded' _ hnonneg, fun other => ?_⟩
    rw [hafter _ le_rfl, if_neg (fun h : other = key ∧ 1 ≤ tokens => hone h.2), sub_zero]
    split_ifs with hkey
    · rw [hkey, htokens]
    · rfl

end RateLimiter

/-! ## Runs -/

namespace RateTraffic

/-- The limiter is configured as it was made, and every bucket keeps its account. -/
structure Accounted (requestsPerMinute : ℕ) (s : RateTraffic) : Prop where
  requests : s.limiter.maxRequests = requestsPerMinute
  window : s.limiter.windowSecs = 60
  bounded : s.limiter.Bounded s.now
  metered : ∀ key, TokenBucket.Metered (requestsPerMinute : ℚ) (requestsPerMinute / 60) s.now
    (s.limiter.level s.now (s.limiter.entries.lookup key)) (s.admittedAt key)

variable {requestsPerMinute : ℕ} {s s' : RateTraffic}

theorem Accounted.rate (h : s.Accounted requestsPerMinute) :
    s.limiter.rate = requestsPerMinute / 60 := by
  rw [RateLimiter.rate, h.requests, h.window]
  rfl

theorem Accounted.wait (h : s.Accounted requestsPerMinute) {now : ℚ} (hnow : s.now ≤ now) :
    ({ s with now } : RateTraffic).Accounted requestsPerMinute := by
  refine ⟨h.requests, h.window, fun key entry hentry => ?_, fun key => ?_⟩
  · obtain ⟨htokens, hlast⟩ := h.bounded key entry hentry
    exact ⟨htokens, hlast.trans hnow⟩
  · have hbounded := h.bounded key
    refine (h.metered key).wait (h.rate ▸ s.limiter.rate_nonneg) hnow ?_ ?_ ?_
    · exact RateLimiter.level_nonneg fun entry hentry =>
        ⟨(hbounded entry hentry).1, (hbounded entry hentry).2.trans hnow⟩
    · rw [← h.requests]
      exact RateLimiter.level_le _ _ _
    · rw [← h.rate]
      exact RateLimiter.level_wait hnow hbounded

theorem Accounted.cleanup (h : s.Accounted requestsPerMinute) :
    ({ s with limiter := s.limiter.cleanup s.now } : RateTraffic).Accounted requestsPerMinute := by
  refine ⟨h.requests, h.window, h.bounded.cleanup s.now, fun key => ?_⟩
  have hlevel := RateLimiter.level_cleanup h.bounded (h.window ▸ by decide) key
  have hmetered := h.metered key
  rw [← hlevel] at hmetered
  exact hmetered

theorem admittedAt_concat (s : RateTraffic) (limiter : RateLimiter) (key other : String) :
    ({ s with limiter, admitted := s.admitted ++ [(key, s.now)] } : RateTraffic).admittedAt other =
      s.admittedAt other ++ if other = key then [s.now] else [] := by
  rw [admittedAt, admittedAt, List.filter_append, List.map_append]
  refine congrArg _ ?_
  simp only [List.filter_cons, List.filter_nil, decide_eq_true_eq, eq_comm (b := other)]
  split_ifs <;> rfl

/-- A request is admitted if there is a token, and takes it. -/
theorem Accounted.check (h : s.Accounted requestsPerMinute) (key : String) :
    let (allowed, limiter) := s.limiter.check key s.now
    ({ s with limiter, admitted := if allowed then s.admitted ++ [(key, s.now)] else s.admitted } :
      RateTraffic).Accounted requestsPerMinute := by
  obtain ⟨entries, hcheck, hbounded, hlevel⟩ :=
    RateLimiter.check_spec h.bounded (h.window ▸ by decide) key
  rw [hcheck]
  dsimp only
  refine ⟨h.requests, h.window, hbounded, fun other => ?_⟩
  have hmetered := h.metered other
  change TokenBucket.Metered _ _ s.now (s.limiter.level s.now (entries.lookup other)) _
  rw [hlevel]
  by_cases hone : 1 ≤ s.limiter.level s.now (s.limiter.entries.lookup key)
  · simp only [hone, decide_true, and_true, if_true]
    rw [admittedAt_concat]
    by_cases hkey : other = key
    · rw [if_pos hkey, if_pos hkey]
      subst hkey
      exact hmetered.spend (h.rate ▸ s.limiter.rate_nonneg) hone
    · rw [if_neg hkey, if_neg hkey, sub_zero, List.append_nil]
      exact hmetered
  · simp only [hone, decide_false, and_false, if_false, sub_zero]
    exact hmetered

theorem Accounted.step (h : s.Accounted requestsPerMinute) {e : RateEvent}
    (hstep : s.step e = some s') : s'.Accounted requestsPerMinute := by
  simp only [RateTraffic.step] at hstep
  split_ifs at hstep with hnow
  have hwait := h.wait hnow
  cases e with
  | check key now =>
    obtain rfl := Option.some.inj hstep
    exact hwait.check key
  | cleanup now =>
    obtain rfl := Option.some.inj hstep
    exact hwait.cleanup

theorem accounted_of_reach {start : ℚ} (h : (system requestsPerMinute start).Reachable s) :
    s.Accounted requestsPerMinute := by
  refine System.Reach.invariant (P := Accounted requestsPerMinute) ?_
    (fun s e s' _ ih _ hs => ih.step hs) h
  refine ⟨rfl, rfl, fun key entry hentry => ?_, fun key => ?_⟩
  · cases hentry
  · exact TokenBucket.metered_nil (Nat.cast_nonneg _)
      (div_nonneg (Nat.cast_nonneg _) (by norm_num))

/-! ## The result -/

/-- Whatever requests and clean-ups there are, the requests of one key that are admitted within some
time are at most those of a full bucket and of what flows in meanwhile. -/
theorem admittedWithin_le {start : ℚ} (h : (system requestsPerMinute start).Reachable s)
    (key : String) (begin length : ℚ) (hlength : 0 ≤ length) :
    (s.admittedWithin key begin (begin + length) : ℚ) ≤
      requestsPerMinute + requestsPerMinute / 60 * length := by
  have hmetered := (accounted_of_reach h).metered key
  have hwindow := hmetered.window begin (begin + length) (le_add_of_nonneg_right hlength)
  rw [add_sub_cancel_left] at hwindow
  rw [admittedWithin_eq]
  exact hwindow

/-- Two clients, a clean-up that drops a bucket, and requests that are refused. -/
def twoClients : List RateEvent :=
  [.check "a" 0, .check "a" 0, .check "a" 0, .check "b" 1, .check "a" 30, .cleanup 150,
    .check "a" 150, .check "a" 151]

/-- Of the first three requests of a client, two are admitted. -/
theorem admittedWithin_le_twoClients : ∃ s, (system 2 0).run (fun _ _ => True) twoClients = some s ∧
    s.admittedWithin "a" 0 (0 + 30) = 3 ∧
    (s.admittedWithin "a" 0 (0 + 30) : ℚ) ≤ 2 + 2 / 60 * 30 := by
  have hrun : (((system 2 0).run (fun _ _ => True) twoClients).any fun s => decide
      (s.admittedWithin "a" 0 (0 + 30) = 3)) = true := by
    decide +kernel
  obtain ⟨s, hs, hreach, hthree⟩ := System.exists_reach_of_any hrun
  exact ⟨s, hs, of_decide_eq_true hthree, admittedWithin_le hreach "a" 0 30 (by norm_num)⟩

end RateTraffic

end AegisDB.Server
