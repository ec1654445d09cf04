import Mathlib.Algebra.Order.Field.Basic
import Mathlib.Tactic

/-!
# Token buckets

A bucket holds at most so many tokens, and tokens flow into it at a rate; who wants to pass takes
one out.  Whoever keeps the level of a bucket keeps a bound: what has passed since some time, with
what is in the bucket, is at most a full bucket and what has flown in since.
-/

namespace AegisDB

namespace TokenBucket

variable {K : Type*} [LinearOrder K]

/-- How many passed from one time to another, both included. -/
def passed (log : List K) (start stop : K) : ℕ :=
  (log.filter fun t => start ≤ t ∧ t ≤ stop).length

variable {log : List K} {now : K}

theorem passed_eq_zero {start stop : K} (h : ∀ t ∈ log, t < start) : passed log start stop = 0 := by
  rw [passed, List.length_eq_zero_iff, List.filter_eq_nil_iff]
  intro t ht hmem
  exact absurd (of_decide_eq_true hmem).1 (not_le.mpr (h t ht))

theorem passed_of_past {start stop : K} (h : ∀ t ∈ log, t ≤ now) (hstop : now ≤ stop) :
    passed log start stop = passed log start now := by
  refine congrArg List.length (List.filter_congr fun t ht => ?_)
  rw [decide_eq_decide]
  exact and_congr_right fun _ => iff_of_true ((h t ht).trans hstop) (h t ht)

theorem passed_concat (log : List K) (t start stop : K) : passed (log ++ [t]) start stop =
    passed log start stop + if start ≤ t ∧ t ≤ stop then 1 else 0 := by
  rw [passed, List.filter_append, List.length_append, passed]
  simp only [List.filter_cons, List.filter_nil, decide_eq_true_eq]
  split_ifs <;> rfl

variable [Field K] [IsStrictOrderedRing K]

/-- What is known of a bucket with a level, and of the times at which somebody has passed. -/
structure Metered (capacity rate now level : K) (log : List K) : Prop where
  level_nonneg : 0 ≤ level
  level_le : level ≤ capacity
  past : ∀ t ∈ log, t ≤ now
  spent : ∀ start ≤ now, (passed log start now : K) + level ≤ capacity + rate * (now - start)
  window : ∀ start stop, start ≤ stop →
    (passed log start stop : K) ≤ capacity + rate * (stop - start)

variable {capacity rate level : K}

theorem metered_nil (hcapacity : 0 ≤ capacity) (hrate : 0 ≤ rate) :
    Metered capacity rate now capacity [] := by
  have hnone (start stop : K) : (passed ([] : List K) start stop : K) = 0 := Nat.cast_zero
  refine ⟨hcapacity, le_rfl, fun _ h => (nomatch h), fun start hstart => ?_,
    fun start stop hstop => ?_⟩
  · rw [hnone, zero_add]
    exact le_add_of_nonneg_right (mul_nonneg hrate (sub_nonneg.mpr hstart))
  · rw [hnone]
    exact add_nonneg hcapacity (mul_nonneg hrate (sub_nonneg.mpr hstop))

theorem Metered.wait (h : Metered capacity rate now level log) (hrate : 0 ≤ rate) {now' level' : K}
    (hnow : now ≤ now') (hnonneg : 0 ≤ level') (hle : level' ≤ capacity)
    (hflow : level' ≤ level + rate * (now' - now)) : Metered capacity rate now' level' log := by
  refine ⟨hnonneg, hle, fun t ht => (h.past t ht).trans hnow, fun start hstart => ?_, h.window⟩
  rw [passed_of_past h.past hnow]
  rcases le_or_gt start now with hold | hnew
  · have hspent := h.spent start hold
    calc (passed log start now : K) + level'
        ≤ passed log start now + level + rate * (now' - now) := by linarith
      _ ≤ capacity + rate * (now - start) + rate * (now' - now) := by linarith
      _ = capacity + rate * (now' - start) := by ring
  · rw [passed_eq_zero fun t ht => (h.past t ht).trans_lt hnew, Nat.cast_zero, zero_add]
    exact hle.trans (le_add_of_nonneg_right (mul_nonneg hrate (sub_nonneg.mpr hstart)))

theorem Metered.spend (h : Metered capacity rate now level log) (hrate : 0 ≤ rate)
    (hlevel : 1 ≤ level) : Metered capacity rate now (level - 1) (log ++ [now]) := by
  have hspent (start : K) (hstart : start ≤ now) :
      (passed (log ++ [now]) start now : K) + (level - 1) ≤ capacity + rate * (now - start) := by
    rw [passed_concat, if_pos ⟨hstart, le_rfl⟩, Nat.cast_add, Nat.cast_one]
    linarith [h.spent start hstart]
  refine ⟨sub_nonneg.mpr hlevel, (sub_le_self level zero_le_one).trans h.level_le,
    fun t ht => ?_, hspent, fun start stop hstop => ?_⟩
  · rcases List.mem_append.mp ht with hold | hnew
    · exact h.past t hold
    · rw [List.mem_singleton.mp hnew]
  · by_cases hin : start ≤ now ∧ now ≤ stop
    · -- the window ends no earlier than now, so it is one that is open now
      have hpast : ∀ t ∈ log ++ [now], t ≤ now := by
        intro t ht
        rcases List.mem_append.mp ht with hold | hnew
        · exact h.past t hold
        · rw [List.mem_singleton.mp hnew]
      rw [passed_of_past hpast hin.2]
      calc (passed (log ++ [now]) start now : K)
          ≤ passed (log ++ [now]) start now + (level - 1) :=
            le_add_of_nonneg_right (sub_nonneg.mpr hlevel)
        _ ≤ capacity + rate * (now - start) := hspent start hin.1
        _ ≤ capacity + rate * (stop - start) := by
          gcongr
          exact hin.2
    · rw [passed_concat, if_neg hin, Nat.add_zero]
      exact h.window start stop hstop

end TokenBucket

end AegisDB
