import AegisDB.TimeSeries.Aggregation

/-!
# Downsampling and grouping

A bucket has the times from a multiple of the interval to before the next.  The downsampler finds
the multiple by cutting milliseconds towards zero, so a time before the epoch is put into the bucket
behind its own, and so are times of an interval that is not a number of milliseconds; an interval
that is less than a millisecond divides by zero.  Where each point is found to be in its bucket, the
one pass groups: there is one point for each bucket, in the order of the buckets.
-/

namespace AegisDB

namespace TimeSeries

open Runs

/-! ## What an aggregator has seen -/

/-- The value of a function for some values, where a sum begins with the positive zero. -/
def AggregateFunction.aggregate (ops : FloatOps) (function : AggregateFunction)
    (values : List Binary64) : Checked (Option Binary64) :=
  match function with
  | .sum | .avg => function.apply { ops with sumStart := .zero } values
  | .count | .min | .max | .first | .last | .median | .stdDev | .variance | .rate | .increase =>
      function.apply ops values

namespace Aggregator

variable (ops : FloatOps) (function : AggregateFunction)

/-- The aggregator that was given some values. -/
def ofValues (values : List Binary64) : Aggregator where
  function
  values := if function.Collects then values else []
  count := values.length
  sum := values.foldl ops.add .zero
  min := values.foldl ops.min .infinity
  max := values.foldl ops.max .negInfinity
  first := values.head?
  last := values.getLast?

variable {ops function}

theorem reset_eq (aggregator : Aggregator) :
    aggregator.reset = ofValues ops aggregator.function [] := by
  unfold reset ofValues
  rw [ite_self]
  rfl

theorem add_ofValues (values : List Binary64) (value : Binary64) :
    (ofValues ops function values).add ops value = ofValues ops function (values ++ [value]) := by
  have hfirst : (if (values.head?).isNone then some value else values.head?) =
      (values ++ [value]).head? := by
    cases values <;> rfl
  unfold add ofValues
  dsimp only
  rw [hfirst, List.length_append, List.length_singleton, List.foldl_concat, List.foldl_concat,
    List.foldl_concat, List.getLast?_concat]
  split_ifs <;> rfl

theorem value_ofValues (values : List Binary64) :
    (ofValues ops function values).value ops = function.aggregate ops values := by
  unfold value AggregateFunction.aggregate AggregateFunction.apply
  cases values with
  | nil => cases function <;> rfl
  | cons v values =>
    have hlength : (ofValues ops function (v :: values)).count ≠ 0 := Nat.succ_ne_zero _
    rw [if_neg hlength]
    cases function <;> rfl

end Aggregator

namespace AggregateFunction

variable {ops : FloatOps} {function : AggregateFunction}

theorem aggregate_nil : function.aggregate ops [] = .ok none := by
  cases function <;> rfl

end AggregateFunction

/-! ## The bucket that is found -/

/-- The start of the bucket that is found for a time. -/
def bucketNanos (interval nanos : ℤ) : ℤ :=
  (nanos / 1000000).tdiv (interval.tdiv 1000000) * interval.tdiv 1000000 * 1000000

theorem tdiv_mul_of_nonneg {a : ℤ} (h : 0 ≤ a) (b : ℤ) : 0 ≤ a.tdiv b * b ∧ a.tdiv b * b ≤ a := by
  have hsum := Int.tdiv_mul_add_tmod a b
  have hmod := Int.tmod_nonneg b h
  refine ⟨?_, by omega⟩
  rcases le_total 0 b with hb | hb
  · exact mul_nonneg (Int.tdiv_nonneg h hb) hb
  · exact mul_nonneg_of_nonpos_of_nonpos (Int.tdiv_nonpos_of_nonneg_of_nonpos h hb) hb

theorem tdiv_mul_of_nonpos {a : ℤ} (h : a ≤ 0) (b : ℤ) : a ≤ a.tdiv b * b ∧ a.tdiv b * b ≤ 0 := by
  have hneg := tdiv_mul_of_nonneg (Int.neg_nonneg_of_nonpos h) b
  rw [Int.neg_tdiv, neg_mul] at hneg
  omega

theorem bucketNanos_inRange (interval : ℤ) (t : DateTime) :
    -8334601228800000 * 1000000 ≤ bucketNanos interval t.nanos ∧
      bucketNanos interval t.nanos < 8210266876800000 * 1000000 := by
  have hrange := t.inRange
  unfold bucketNanos
  rcases le_total 0 (t.nanos / 1000000) with h | h
  · have hbetween := tdiv_mul_of_nonneg h (interval.tdiv 1000000)
    omega
  · have hbetween := tdiv_mul_of_nonpos h (interval.tdiv 1000000)
    omega

def bucketOf (interval : ℤ) (t : DateTime) : DateTime :=
  ⟨bucketNanos interval t.nanos, bucketNanos_inRange interval t⟩

theorem toInt_numMilliseconds (d : Duration) :
    d.numMilliseconds.toInt = d.nanos.tdiv 1000000 := by
  obtain ⟨hlow, hhigh⟩ := d.inRange
  have hle : -(2 ^ 63 - 1) ≤ d.nanos.tdiv 1000000 ∧ d.nanos.tdiv 1000000 ≤ 2 ^ 63 - 1 := by
    have hsum := Int.tdiv_mul_add_tmod d.nanos 1000000
    rcases le_total 0 d.nanos with h | h
    · have hbetween := tdiv_mul_of_nonneg h 1000000
      omega
    · have hbetween := tdiv_mul_of_nonpos h 1000000
      omega
  exact Int64.toInt_ofInt_of_le (by omega) (by omega)

theorem toInt_timestampMillis (t : DateTime) :
    t.timestampMillis.toInt = t.nanos / 1000000 := by
  have hrange := t.inRange
  exact Int64.toInt_ofInt_of_le (by omega) (by omega)

theorem numMilliseconds_eq_zero (d : Duration) :
    d.numMilliseconds = 0 ↔ d.nanos.tdiv 1000000 = 0 := by
  rw [← toInt_numMilliseconds, ← Int64.toInt_inj]
  rfl

/-- The start of the bucket of a time is a multiple of the whole milliseconds of the interval, and
the time is less than these milliseconds behind it; before the epoch, less than one millisecond. -/
def Aligned (interval nanos : ℤ) : Prop :=
  interval / 1000000 * 1000000 ∣ nanos / interval * interval ∧
    nanos < nanos / interval * interval +
      if nanos < 0 then 1000000 else interval / 1000000 * 1000000

instance (interval nanos : ℤ) : Decidable (Aligned interval nanos) :=
  inferInstanceAs (Decidable (_ ∧ _))

section Arithmetic

variable {interval n m : ℤ}

theorem ediv_eq_of_between (hpos : 0 < interval) (hle : m * interval ≤ n)
    (hlt : n < m * interval + interval) : n / interval = m := by
  refine le_antisymm ?_ ((Int.le_ediv_iff_mul_le hpos).mpr hle)
  refine Int.lt_add_one_iff.mp ((Int.ediv_lt_iff_lt_mul hpos).mpr ?_)
  rw [add_mul, one_mul]
  exact hlt

theorem ediv_between (hpos : 0 < interval) (n : ℤ) :
    n / interval * interval ≤ n ∧ n < n / interval * interval + interval := by
  have hmod := Int.emod_nonneg n hpos.ne'
  have hlt := Int.emod_lt_of_pos n hpos
  have hsum := Int.ediv_mul_add_emod n interval
  omega

theorem bucketNanos_of_nonneg (hinterval : 1000000 ≤ interval) (hn : 0 ≤ n) :
    bucketNanos interval n =
      n / (interval / 1000000 * 1000000) * (interval / 1000000 * 1000000) := by
  unfold bucketNanos
  rw [Int.tdiv_eq_ediv_of_nonneg (show 0 ≤ interval by omega),
    Int.tdiv_eq_ediv_of_nonneg (show 0 ≤ n / 1000000 by omega),
    Int.ediv_ediv_of_nonneg (by norm_num), mul_comm 1000000 (interval / 1000000), mul_assoc]

theorem bucketNanos_of_neg (hinterval : 1000000 ≤ interval) (hn : n < 0) :
    interval / 1000000 * 1000000 ∣ bucketNanos interval n ∧
      n / 1000000 * 1000000 ≤ bucketNanos interval n := by
  unfold bucketNanos
  rw [Int.tdiv_eq_ediv_of_nonneg (show 0 ≤ interval by omega)]
  have hle := (tdiv_mul_of_nonpos (show n / 1000000 ≤ 0 by omega) (interval / 1000000)).1
  refine ⟨?_, by omega⟩
  rw [mul_assoc]
  exact dvd_mul_left _ _

theorem milli_dvd {b : ℤ} (h : interval / 1000000 * 1000000 ∣ b) : 1000000 ∣ b :=
  (dvd_mul_left _ _).trans h

/-- The bucket that is found is the right one exactly if the time is aligned. -/
theorem bucketNanos_eq_iff (hinterval : 1000000 ≤ interval) :
    bucketNanos interval n = n / interval * interval ↔ Aligned interval n := by
  have hunit : 0 < interval / 1000000 * 1000000 := by omega
  obtain ⟨hlow, _⟩ := ediv_between (show 0 < interval by omega) n
  unfold Aligned
  by_cases hn : n < 0
  · obtain ⟨hdvd, hle⟩ := bucketNanos_of_neg hinterval hn
    rw [if_pos hn]
    constructor
    · intro heq
      rw [heq] at hdvd hle
      have hmilli := milli_dvd hdvd
      exact ⟨hdvd, by omega⟩
    · rintro ⟨hstart, hlt⟩
      have hmilli := milli_dvd hstart
      have hmillis : n / 1000000 * 1000000 = n / interval * interval := by omega
      have hfloor : interval / 1000000 ∣ n / 1000000 := by
        rw [← hmillis] at hstart
        exact Int.dvd_of_mul_dvd_mul_right (by norm_num) hstart
      rw [← hmillis, bucketNanos, Int.tdiv_eq_ediv_of_nonneg (show 0 ≤ interval by omega),
        Int.tdiv_mul_cancel hfloor]
  · rw [if_neg hn, bucketNanos_of_nonneg hinterval (by omega)]
    obtain ⟨hlow', hhigh'⟩ := ediv_between hunit n
    constructor
    · intro heq
      rw [heq] at hhigh'
      exact ⟨heq ▸ dvd_mul_left _ _, hhigh'⟩
    · rintro ⟨hstart, hlt⟩
      obtain ⟨c, hc⟩ := exists_eq_mul_left_of_dvd hstart
      rw [hc] at hlow hlt ⊢
      rw [ediv_eq_of_between hunit hlow hlt]

/-- Where a multiple of the interval is found, it is not before the right one, and it is the right
one from the epoch on. -/
theorem ediv_le_of_bucketNanos (hinterval : 1000000 ≤ interval)
    (h : bucketNanos interval n = m * interval) :
    n / interval ≤ m ∧ (0 ≤ n → n / interval = m) := by
  have hpos : 0 < interval := by omega
  by_cases hn : n < 0
  · refine ⟨?_, fun h => absurd h hn.not_ge⟩
    obtain ⟨_, hle⟩ := bucketNanos_of_neg hinterval hn
    rw [h] at hle
    refine Int.lt_add_one_iff.mp ((Int.ediv_lt_iff_lt_mul hpos).mpr ?_)
    rw [add_mul, one_mul]
    omega
  · have hunit : 0 < interval / 1000000 * 1000000 := by omega
    obtain ⟨hlow, hhigh⟩ := ediv_between hunit n
    rw [bucketNanos_of_nonneg hinterval (by omega)] at h
    rw [h] at hlow hhigh
    have heq := ediv_eq_of_between hpos hlow (by omega)
    exact ⟨heq.le, fun _ => heq⟩

theorem bucketNanos_mono (hinterval : 1000000 ≤ interval) {n' : ℤ} (h : n ≤ n') :
    bucketNanos interval n ≤ bucketNanos interval n' := by
  have hpos : 0 < interval.tdiv 1000000 := by
    rw [Int.tdiv_eq_ediv_of_nonneg (show 0 ≤ interval by omega)]
    omega
  have hle := Int.tdiv_le_tdiv hpos (Int.ediv_le_ediv (by norm_num : (0 : ℤ) < 1000000) h)
  have hmul := mul_le_mul_of_nonneg_right hle hpos.le
  unfold bucketNanos
  omega

end Arithmetic

namespace Downsampler

variable {ops : FloatOps} {downsampler : Downsampler}

/-- A bucket is found, unless the interval is less than a millisecond. -/
theorem bucketStart_eq (h : downsampler.interval.nanos.tdiv 1000000 ≠ 0) (t : DateTime) :
    downsampler.bucketStart t = .ok (bucketOf downsampler.interval.nanos t) := by
  have hrange := t.inRange
  have hbucket := bucketNanos_inRange downsampler.interval.nanos t
  have hquotient : -2 ^ 63 ≤ (t.nanos / 1000000).tdiv (downsampler.interval.nanos.tdiv 1000000) ∧
      (t.nanos / 1000000).tdiv (downsampler.interval.nanos.tdiv 1000000) < 2 ^ 63 := by
    have habs := Int.natAbs_tdiv_le_natAbs (t.nanos / 1000000)
      (downsampler.interval.nanos.tdiv 1000000)
    omega
  unfold bucketNanos at hbucket
  have hproduct : -2 ^ 63 ≤ (t.nanos / 1000000).tdiv (downsampler.interval.nanos.tdiv 1000000) *
        downsampler.interval.nanos.tdiv 1000000 ∧
      (t.nanos / 1000000).tdiv (downsampler.interval.nanos.tdiv 1000000) *
        downsampler.interval.nanos.tdiv 1000000 < 2 ^ 63 := by
    omega
  have hback := Int64.toInt_ofInt_of_le hproduct.1 (by omega)
  have hsome : DateTime.fromTimestampMillis (Int64.ofInt
      ((t.nanos / 1000000).tdiv (downsampler.interval.nanos.tdiv 1000000) *
        downsampler.interval.nanos.tdiv 1000000)) =
      some (bucketOf downsampler.interval.nanos t) := by
    unfold DateTime.fromTimestampMillis
    rw [dif_pos (by rw [hback]; omega)]
    refine congrArg some ((DateTime.mk.injEq ..).mpr ?_)
    rw [hback]
    rfl
  unfold bucketStart
  dsimp only
  rw [if_neg (by rwa [numMilliseconds_eq_zero]), toInt_timestampMillis, toInt_numMilliseconds,
    Checked.int64_of_bounds hquotient]
  change (Checked.int64 (Int64.toInt _ * _) >>= _) = _
  rw [Int64.toInt_ofInt_of_le (by omega) (by omega), Checked.int64_of_bounds hproduct]
  dsimp only [bind, Except.bind]
  rw [hsome]

theorem bucketStart_of_eq_zero (h : downsampler.interval.nanos.tdiv 1000000 = 0) (t : DateTime) :
    downsampler.bucketStart t = .error .division := by
  unfold bucketStart
  dsimp only
  rw [if_pos (by rwa [numMilliseconds_eq_zero])]

/-! ### The pass over the points -/

/-- The points of the runs of a list, each with what is made of its values. -/
def emit (ops : FloatOps) (function : AggregateFunction) (result : List DataPoint) :
    List (DateTime × List DataPoint) → Checked (List DataPoint)
  | [] => .ok result
  | run :: rest => do
      let result ← push ops result (some run.1)
        (.ofValues ops function (run.2.map DataPoint.value))
      emit ops function result rest

theorem downsampleFrom_eq (h : downsampler.interval.nanos.tdiv 1000000 ≠ 0)
    (result : List DataPoint) (bucket : DateTime) (begun points : List DataPoint) :
    downsampler.downsampleFrom ops result (some bucket)
        (.ofValues ops downsampler.function (begun.map DataPoint.value)) points =
      emit ops downsampler.function result
        (runsFrom (fun p => bucketOf downsampler.interval.nanos p.timestamp) bucket begun
          points) := by
  induction points generalizing result bucket begun with
  | nil =>
    rw [downsampleFrom, runsFrom, emit]
    exact (bind_pure _).symm
  | cons point points ih =>
    rw [downsampleFrom, bucketStart_eq h, runsFrom]
    change (if some (bucketOf _ _) ≠ some bucket then _ else _) = _
    by_cases hsame : bucketOf downsampler.interval.nanos point.timestamp = bucket
    · rw [if_neg (by rw [hsame]; exact fun hne => hne rfl), if_pos hsame,
        Aggregator.add_ofValues, ← ih, List.map_append]
      rfl
    · rw [if_pos fun heq => hsame (Option.some.inj heq), if_neg hsame, emit]
      refine congrArg (push ops result (some bucket) _ >>= ·) (funext fun result => ?_)
      rw [← ih, @Aggregator.reset_eq ops, Aggregator.add_ofValues]
      rfl

theorem downsample_eq (h : downsampler.interval.nanos.tdiv 1000000 ≠ 0)
    (points : List DataPoint) :
    downsampler.downsample ops points =
      emit ops downsampler.function []
        (runs (fun p => bucketOf downsampler.interval.nanos p.timestamp) points) := by
  cases points with
  | nil => rfl
  | cons point points =>
    rw [runs, ← downsampleFrom_eq h]
    unfold downsample
    rw [if_neg (by simp), downsampleFrom, bucketStart_eq h]
    change downsampler.downsampleFrom ops [] _ (Aggregator.add ops (Aggregator.reset _) _) points =
      _
    rw [@Aggregator.reset_eq ops, Aggregator.add_ofValues]
    rfl

theorem downsample_of_eq_zero (h : downsampler.interval.nanos.tdiv 1000000 = 0)
    (point : DataPoint) (points : List DataPoint) :
    downsampler.downsample ops (point :: points) = .error .division := by
  unfold downsample
  rw [if_neg (by simp), downsampleFrom, bucketStart_of_eq_zero h]
  rfl

theorem emit_spec {function : AggregateFunction} {runs : List (DateTime × List DataPoint)}
    (h : ∀ run ∈ runs, ∃ o, function.aggregate ops (run.2.map DataPoint.value) = .ok o)
    (result : List DataPoint) :
    ∃ more, emit ops function result runs = .ok (result ++ more) ∧
      (∀ q, q ∈ more ↔ ∃ run ∈ runs, run.1 = q.timestamp ∧
        function.aggregate ops (run.2.map DataPoint.value) = .ok (some q.value)) ∧
      (runs.Pairwise (fun run run' => run.1 < run'.1) →
        more.Pairwise fun q q' => q.timestamp < q'.timestamp) := by
  induction runs generalizing result with
  | nil =>
    refine ⟨[], by rw [emit, List.append_nil], fun q => ?_, fun _ => List.Pairwise.nil⟩
    exact ⟨fun hq => (nomatch hq), fun ⟨run, hrun, _⟩ => (nomatch hrun)⟩
  | cons run rest ih =>
    rw [List.forall_mem_cons] at h
    obtain ⟨⟨o, ho⟩, hrest⟩ := h
    have hpush : push ops result (some run.1)
        (.ofValues ops function (run.2.map DataPoint.value)) =
          .ok (result ++ (o.map fun v => (⟨run.1, v⟩ : DataPoint)).toList) := by
      rw [push, Aggregator.value_ofValues, ho]
      cases o with
      | none => exact congrArg Except.ok (List.append_nil result).symm
      | some v => rfl
    obtain ⟨more, hemit, hmem, hsorted⟩ :=
      ih hrest (result ++ (o.map fun v => (⟨run.1, v⟩ : DataPoint)).toList)
    refine ⟨(o.map fun v => (⟨run.1, v⟩ : DataPoint)).toList ++ more, ?_, fun q => ?_,
      fun hrising => ?_⟩
    · rw [emit, hpush, ← List.append_assoc]
      exact hemit
    · rw [List.mem_append, hmem, Option.mem_toList, Option.map_eq_some_iff]
      constructor
      · rintro (⟨v, rfl, rfl⟩ | ⟨run', hrun', hq⟩)
        · exact ⟨run, List.mem_cons_self, rfl, ho⟩
        · exact ⟨run', List.mem_cons_of_mem run hrun', hq⟩
      · rintro ⟨run', hrun', htime, hvalue⟩
        rcases List.mem_cons.mp hrun' with rfl | hrun'
        · rw [ho] at hvalue
          exact .inl ⟨q.value, Except.ok.inj hvalue, by rw [htime]⟩
        · exact .inr ⟨run', hrun', htime, hvalue⟩
    · rw [List.pairwise_cons] at hrising
      refine List.pairwise_append.mpr ⟨?_, hsorted hrising.2, fun q hq q' hq' => ?_⟩
      · cases o with
        | none => exact List.Pairwise.nil
        | some v => exact List.pairwise_singleton _ _
      · obtain ⟨v, _, rfl⟩ := Option.map_eq_some_iff.mp (Option.mem_toList.mp hq)
        obtain ⟨run', hrun', htime, _⟩ := (hmem q').mp hq'
        rw [← htime]
        exact hrising.1 run' hrun'

/-- Where the pass ends well, so does what is made of each run. -/
theorem aggregate_of_emit {function : AggregateFunction}
    {runs : List (DateTime × List DataPoint)} {result result' : List DataPoint}
    (h : emit ops function result runs = .ok result') :
    ∀ run ∈ runs, ∃ o, function.aggregate ops (run.2.map DataPoint.value) = .ok o := by
  induction runs generalizing result with
  | nil => exact fun run hrun => (nomatch hrun)
  | cons run rest ih =>
    rw [emit, push, Aggregator.value_ofValues] at h
    cases hvalue : function.aggregate ops (run.2.map DataPoint.value) with
    | error e =>
      rw [hvalue] at h
      cases h
    | ok o =>
      rw [List.forall_mem_cons]
      refine ⟨⟨o, hvalue⟩, ?_⟩
      rw [hvalue] at h
      cases o with
      | none => exact ih h
      | some v => exact ih h

end Downsampler

/-! ## Grouping -/

/-- The points of the bucket `k`, which has the times from `k` times the interval to before the next
multiple. -/
def bucketPoints (interval k : ℤ) (points : List DataPoint) : List DataPoint :=
  points.filter fun p =>
    k * interval ≤ p.timestamp.nanos && p.timestamp.nanos < (k + 1) * interval

/-- The result has one point for each bucket that has points, in the order of the buckets: its time
is the start of the bucket, and its value is made of the points of the bucket. -/
structure Groups (ops : FloatOps) (function : AggregateFunction) (interval : ℤ)
    (points result : List DataPoint) : Prop where
  rising : result.Pairwise fun q q' => q.timestamp < q'.timestamp
  value_eq : ∀ q ∈ result, ∃ k, q.timestamp.nanos = k * interval ∧
    function.aggregate ops ((bucketPoints interval k points).map DataPoint.value) =
      .ok (some q.value)
  covers : ∀ p ∈ points, ∃ q ∈ result, ∃ k, q.timestamp.nanos = k * interval ∧
    p ∈ bucketPoints interval k points

def Downsampler.Grouped (ops : FloatOps) (downsampler : Downsampler) (points : List DataPoint) :
    Prop :=
  ∃ result, downsampler.downsample ops points = .ok result ∧
    Groups ops downsampler.function downsampler.interval.nanos points result

/-- The points are such that downsampling groups them. -/
structure Suits (ops : FloatOps) (function : AggregateFunction) (interval : ℤ)
    (points : List DataPoint) : Prop where
  /-- The interval has a millisecond, and each time is aligned. -/
  aligned : ∀ p ∈ points, 1000000 ≤ interval ∧ Aligned interval p.timestamp.nanos
  enough : function = .rate ∨ function = .increase → ∀ p ∈ points,
    2 ≤ (bucketPoints interval (p.timestamp.nanos / interval) points).length
  sorts : function = .median → ∀ p ∈ points, ∃ sorted, ops.sorted
    ((bucketPoints interval (p.timestamp.nanos / interval) points).map DataPoint.value) = .ok sorted

/-- The numbers of up to so many points are different as double-precision numbers. -/
def FloatOps.CountsApart (ops : FloatOps) (n : ℕ) : Prop :=
  ∀ a b, a ≤ n → b ≤ n → ops.ofUsize a = ops.ofUsize b → a = b

section Grouping

variable {ops : FloatOps} {function : AggregateFunction} {interval : ℤ} {points : List DataPoint}

theorem FloatOps.length_sorted {values sorted : List Binary64}
    (h : ops.sorted values = .ok sorted) : sorted.length = values.length := by
  unfold FloatOps.sorted at h
  cases hsort : ops.sort.sortBy FloatOps.compareFloats values with
  | none =>
    rw [hsort] at h
    cases h
  | some sorted' =>
    rw [hsort] at h
    obtain rfl := Except.ok.inj h
    exact (ops.sort.perm _ _ _ hsort).length_eq

theorem FloatOps.medianOf_isOk {values : List Binary64} (hne : values ≠ []) :
    (∃ v, ops.medianOf values = .ok v) ↔ ∃ sorted, ops.sorted values = .ok sorted := by
  unfold FloatOps.medianOf
  cases hsorted : ops.sorted values with
  | error e => exact ⟨fun ⟨_, h⟩ => (nomatch h), fun ⟨_, h⟩ => (nomatch h)⟩
  | ok sorted =>
    refine ⟨fun _ => ⟨sorted, rfl⟩, fun _ => ?_⟩
    have hlength := FloatOps.length_sorted hsorted
    have hpos : 0 < sorted.length := hlength ▸ List.length_pos_iff.mpr hne
    have hmid : ∃ v, Checked.index sorted (sorted.length / 2) = .ok v :=
      ⟨_, Checked.index_of_getElem? (List.getElem?_eq_getElem (by omega))⟩
    have hlow : ∃ v, Checked.index sorted (sorted.length / 2 - 1) = .ok v :=
      ⟨_, Checked.index_of_getElem? (List.getElem?_eq_getElem (by omega))⟩
    obtain ⟨high, hhigh⟩ := hmid
    obtain ⟨low, hlow⟩ := hlow
    change ∃ v, (if sorted.length % 2 = 0 then _ else _) = _
    split_ifs
    · rw [hlow]
      change ∃ v, (Checked.index sorted (sorted.length / 2) >>= _) = _
      rw [hhigh]
      exact ⟨_, rfl⟩
    · exact ⟨high, hhigh⟩

theorem FloatOps.increaseOf_iff {values : List Binary64} :
    (∃ v, ops.increaseOf values = some v) ↔ 2 ≤ values.length := by
  unfold FloatOps.increaseOf
  split_ifs with hlength
  · exact iff_of_false (fun ⟨v, h⟩ => (nomatch h)) hlength.not_ge
  · have hne : values ≠ [] := by
      rintro rfl
      exact hlength (by norm_num)
    refine iff_of_true ?_ (not_lt.mp hlength)
    rw [List.getLast?_eq_some_getLast hne, List.head?_eq_some_head hne]
    exact ⟨_, rfl⟩

theorem exists_value_iff {values : List Binary64} :
    (∃ v, function.aggregate ops values = .ok (some v)) ↔
      values ≠ [] ∧ (function = .rate ∨ function = .increase → 2 ≤ values.length) ∧
        (function = .median → ∃ sorted, ops.sorted values = .ok sorted) := by
  cases values with
  | nil =>
    rw [AggregateFunction.aggregate_nil]
    exact iff_of_false (fun ⟨v, h⟩ => (nomatch h)) fun h => h.1 rfl
  | cons v values =>
    have hne := List.cons_ne_nil v values
    rw [and_iff_right hne]
    cases function with
    | sum | count | min | max | avg | first | stdDev | variance =>
      exact iff_of_true ⟨_, rfl⟩
        ⟨fun h => (by rcases h with h | h <;> cases h), fun h => (nomatch h)⟩
    | last =>
      refine iff_of_true ⟨(v :: values).getLast hne, ?_⟩
        ⟨fun h => (by rcases h with h | h <;> cases h), fun h => (nomatch h)⟩
      exact congrArg Except.ok (List.getLast?_eq_some_getLast hne)
    | median =>
      rw [and_iff_right fun h => (by rcases h with h | h <;> cases h), forall_prop_of_true rfl,
        ← FloatOps.medianOf_isOk hne]
      change (∃ w, (ops.medianOf (v :: values)).map some = .ok (some w)) ↔ _
      cases ops.medianOf (v :: values) with
      | error e => exact ⟨fun ⟨_, h⟩ => (nomatch h), fun ⟨_, h⟩ => (nomatch h)⟩
      | ok w => exact ⟨fun _ => ⟨w, rfl⟩, fun _ => ⟨w, rfl⟩⟩
    | rate =>
      rw [and_iff_left fun h => (nomatch h), forall_prop_of_true (.inl rfl),
        ← @FloatOps.increaseOf_iff ops]
      change (∃ w, Except.ok ((ops.increaseOf (v :: values)).map _) = .ok (some w)) ↔ _
      cases ops.increaseOf (v :: values) with
      | none => exact ⟨fun ⟨_, h⟩ => (nomatch h), fun ⟨_, h⟩ => (nomatch h)⟩
      | some w => exact ⟨fun _ => ⟨w, rfl⟩, fun _ => ⟨_, rfl⟩⟩
    | increase =>
      rw [and_iff_left fun h => (nomatch h), forall_prop_of_true (.inr rfl),
        ← @FloatOps.increaseOf_iff ops]
      change (∃ w, Except.ok (ops.increaseOf (v :: values)) = .ok (some w)) ↔ _
      simp only [Except.ok.injEq]

/-- A function that does not need two points has a value, if it does not panic. -/
theorem exists_of_aggregate {values : List Binary64} {o : Option Binary64} (hne : values ≠ [])
    (hfunction : function ≠ .rate ∧ function ≠ .increase)
    (h : function.aggregate ops values = .ok o) : ∃ v, o = some v := by
  have hsome : ∃ v, function.aggregate ops values = .ok (some v) := by
    rw [exists_value_iff, and_iff_right hne]
    refine ⟨fun hrate => ?_, fun hmedian => ?_⟩
    · rcases hrate with hrate | hrate
      · exact absurd hrate hfunction.1
      · exact absurd hrate hfunction.2
    · subst hmedian
      rw [← FloatOps.medianOf_isOk hne]
      change (if values.isEmpty = true then _ else (ops.medianOf values).map some) = _ at h
      rw [if_neg (by rwa [List.isEmpty_iff])] at h
      cases hmedian : ops.medianOf values with
      | error e =>
        rw [hmedian] at h
        cases h
      | ok v => exact ⟨v, rfl⟩
  obtain ⟨v, hv⟩ := hsome
  exact ⟨v, Except.ok.inj (h.symm.trans hv)⟩

theorem mem_bucketPoints {k : ℤ} {p : DataPoint} :
    p ∈ bucketPoints interval k points ↔ p ∈ points ∧
      k * interval ≤ p.timestamp.nanos ∧ p.timestamp.nanos < (k + 1) * interval := by
  rw [bucketPoints, List.mem_filter, Bool.and_eq_true, decide_eq_true_eq, decide_eq_true_eq]

theorem mem_bucketPoints_iff (hpos : 0 < interval) {k : ℤ} {p : DataPoint} :
    p ∈ bucketPoints interval k points ↔ p ∈ points ∧ p.timestamp.nanos / interval = k := by
  rw [mem_bucketPoints]
  refine and_congr_right fun _ => ⟨fun h => ?_, fun h => ?_⟩
  · rw [add_mul, one_mul] at h
    exact ediv_eq_of_between hpos h.1 h.2
  · obtain ⟨hlow, hhigh⟩ := ediv_between hpos p.timestamp.nanos
    rw [h] at hlow hhigh
    rw [add_mul, one_mul]
    exact ⟨hlow, hhigh⟩

theorem bucketPoints_eq (hpos : 0 < interval) (k : ℤ) :
    bucketPoints interval k points =
      points.filter fun p => p.timestamp.nanos / interval = k := by
  refine List.filter_congr fun p hp => ?_
  have hiff := @mem_bucketPoints_iff interval [p] hpos k p
  rw [mem_bucketPoints, and_iff_right (List.mem_singleton_self p),
    and_iff_right (List.mem_singleton_self p)] at hiff
  rw [← Bool.decide_and]
  exact decide_eq_decide.mpr hiff

theorem runs_bucketOf (hinterval : 1000000 ≤ interval)
    (hsorted : points.Pairwise fun p q => p.timestamp ≤ q.timestamp) :
    (runs (fun p => bucketOf interval p.timestamp) points).Pairwise (fun e e' => e.1 < e'.1) ∧
      (∀ e ∈ runs (fun p => bucketOf interval p.timestamp) points,
        e.2 = points.filter (fun p => bucketOf interval p.timestamp = e.1) ∧
          ∃ p ∈ points, bucketOf interval p.timestamp = e.1) ∧
      ∀ p ∈ points, bucketOf interval p.timestamp ∈
        (runs (fun p => bucketOf interval p.timestamp) points).map Prod.fst := by
  exact runs_spec (hsorted.imp fun h => bucketNanos_mono hinterval h)

theorem bucketOf_inj {t t' : DateTime} :
    bucketOf interval t = bucketOf interval t' ↔
      bucketNanos interval t.nanos = bucketNanos interval t'.nanos :=
  DateTime.mk.injEq .. ▸ Iff.rfl

variable {downsampler : Downsampler}

theorem Suits.grouped
    (h : Suits ops downsampler.function downsampler.interval.nanos points)
    (hsorted : points.Pairwise fun p q => p.timestamp ≤ q.timestamp) :
    downsampler.Grouped ops points := by
  by_cases hnil : points = []
  · subst hnil
    exact ⟨[], rfl, List.Pairwise.nil, fun _ hq => (nomatch hq), fun _ hp => (nomatch hp)⟩
  obtain ⟨p₀, hp₀⟩ := List.exists_mem_of_ne_nil points hnil
  have hinterval := (h.aligned p₀ hp₀).1
  have hpos : 0 < downsampler.interval.nanos := by omega
  have hfound : ∀ p ∈ points, bucketNanos downsampler.interval.nanos p.timestamp.nanos =
      p.timestamp.nanos / downsampler.interval.nanos * downsampler.interval.nanos := fun p hp =>
    (bucketNanos_eq_iff hinterval).mpr (h.aligned p hp).2
  obtain ⟨hrising, hruns, hkeys⟩ := runs_bucketOf hinterval hsorted
  -- a run has the points of a bucket
  have hrun : ∀ e ∈ runs (fun p => bucketOf downsampler.interval.nanos p.timestamp) points,
      ∃ p ∈ points, e.1.nanos =
          p.timestamp.nanos / downsampler.interval.nanos * downsampler.interval.nanos ∧
        e.2 = bucketPoints downsampler.interval.nanos
          (p.timestamp.nanos / downsampler.interval.nanos) points := by
    intro e he
    obtain ⟨heq, p, hp, hkey⟩ := hruns e he
    refine ⟨p, hp, by rw [← hkey]; exact hfound p hp, ?_⟩
    rw [heq, bucketPoints_eq hpos]
    refine List.filter_congr fun q hq => decide_eq_decide.mpr ?_
    rw [← hkey, bucketOf_inj, hfound q hq, hfound p hp, mul_left_inj' hpos.ne']
  have hvalue : ∀ e ∈ runs (fun p => bucketOf downsampler.interval.nanos p.timestamp) points,
      ∃ v, downsampler.function.aggregate ops (e.2.map DataPoint.value) = .ok (some v) := by
    intro e he
    obtain ⟨p, hp, _, heq⟩ := hrun e he
    rw [heq, exists_value_iff]
    refine ⟨fun hnil => ?_, fun hfunction => ?_, fun hfunction => h.sorts hfunction p hp⟩
    · rw [List.map_eq_nil_iff] at hnil
      have hmem := (mem_bucketPoints_iff hpos).mpr ⟨hp, rfl⟩
      rw [hnil] at hmem
      cases hmem
    · rw [List.length_map]
      exact h.enough hfunction p hp
  obtain ⟨more, hemit, hmem, hmore⟩ := Downsampler.emit_spec
    (fun e he => (hvalue e he).imp' some fun _ hv => hv) []
  refine ⟨more, ?_, hmore hrising, fun q hq => ?_, fun p hp => ?_⟩
  · rw [Downsampler.downsample_eq (by rw [Int.tdiv_eq_ediv_of_nonneg hpos.le]; omega)]
    exact hemit
  · obtain ⟨e, he, htime, hq⟩ := (hmem q).mp hq
    obtain ⟨p, hp, hstart, heq⟩ := hrun e he
    refine ⟨p.timestamp.nanos / downsampler.interval.nanos, by rw [← htime, hstart], ?_⟩
    rw [← heq]
    exact hq
  · obtain ⟨e, he, hkey⟩ := List.mem_map.mp (hkeys p hp)
    obtain ⟨v, hv⟩ := hvalue e he
    refine ⟨⟨e.1, v⟩, (hmem _).mpr ⟨e, he, rfl, hv⟩,
      p.timestamp.nanos / downsampler.interval.nanos, ?_,
      (mem_bucketPoints_iff hpos).mpr ⟨hp, rfl⟩⟩
    rw [hkey]
    exact hfound p hp

/-- What grouping shows, unless the function needs two points: each point is put into a bucket, the
points that are put there have a value like those of the bucket, and some point is put into the
bucket that the point is in. -/
theorem Downsampler.Grouped.found (h : downsampler.Grouped ops points)
    (hsorted : points.Pairwise fun p q => p.timestamp ≤ q.timestamp)
    (hfunction : downsampler.function ≠ .rate ∧ downsampler.function ≠ .increase) {p : DataPoint}
    (hp : p ∈ points) :
    1000000 ≤ downsampler.interval.nanos ∧
      (∃ q ∈ points, bucketNanos downsampler.interval.nanos q.timestamp.nanos =
        p.timestamp.nanos / downsampler.interval.nanos * downsampler.interval.nanos) ∧
      ∃ k, bucketNanos downsampler.interval.nanos p.timestamp.nanos =
          k * downsampler.interval.nanos ∧
        ∃ v, downsampler.function.aggregate ops ((bucketPoints downsampler.interval.nanos k
            points).map DataPoint.value) = .ok (some v) ∧
          downsampler.function.aggregate ops ((points.filter fun q =>
            bucketOf downsampler.interval.nanos q.timestamp =
              bucketOf downsampler.interval.nanos p.timestamp).map DataPoint.value) =
                .ok (some v) := by
  obtain ⟨result, hresult, hgroups⟩ := h
  have hpos : 0 < downsampler.interval.nanos := by
    obtain ⟨_, _, k, _, hbucket⟩ := hgroups.covers p hp
    obtain ⟨_, hlow, hhigh⟩ := mem_bucketPoints.mp hbucket
    rw [add_mul, one_mul] at hhigh
    omega
  have hmilli : downsampler.interval.nanos.tdiv 1000000 ≠ 0 := by
    intro hzero
    cases points with
    | nil => cases hp
    | cons p₀ points =>
      rw [Downsampler.downsample_of_eq_zero hzero] at hresult
      cases hresult
  have hinterval : 1000000 ≤ downsampler.interval.nanos := by
    rw [Int.tdiv_eq_ediv_of_nonneg hpos.le] at hmilli
    omega
  refine ⟨hinterval, ?_⟩
  rw [Downsampler.downsample_eq hmilli] at hresult
  obtain ⟨_, hruns, hkeys⟩ := runs_bucketOf hinterval hsorted
  have hok := Downsampler.aggregate_of_emit hresult
  obtain ⟨more, hemit, hmem, _⟩ := Downsampler.emit_spec hok []
  obtain rfl : more = result := Except.ok.inj (hemit.symm.trans hresult)
  refine ⟨?_, ?_⟩
  · obtain ⟨q, hq, k, htime, hbucket⟩ := hgroups.covers p hp
    obtain ⟨e, he, hstart, _⟩ := (hmem q).mp hq
    obtain ⟨_, p', hp', hkey⟩ := hruns e he
    rw [((mem_bucketPoints_iff hpos).mp hbucket).2, ← htime, ← hstart, ← hkey]
    exact ⟨p', hp', rfl⟩
  obtain ⟨e, he, hkey⟩ := List.mem_map.mp (hkeys p hp)
  obtain ⟨heq, _⟩ := hruns e he
  rw [hkey] at heq
  -- the run of the point has a value
  have hvalue : ∃ v, downsampler.function.aggregate ops (e.2.map DataPoint.value) =
      .ok (some v) := by
    obtain ⟨o, ho⟩ := hok e he
    have hne : e.2.map DataPoint.value ≠ [] := by
      intro hnil
      rw [List.map_eq_nil_iff] at hnil
      have hmem : p ∈ e.2 := by
        rw [heq]
        exact List.mem_filter.mpr ⟨hp, decide_eq_true rfl⟩
      rw [hnil] at hmem
      cases hmem
    obtain ⟨v, rfl⟩ := exists_of_aggregate hne hfunction ho
    exact ⟨v, ho⟩
  obtain ⟨v, hv⟩ := hvalue
  obtain ⟨k, htime, hbucket⟩ := hgroups.value_eq ⟨e.1, v⟩ ((hmem _).mpr ⟨e, he, rfl, hv⟩)
  refine ⟨k, ?_, v, hbucket, ?_⟩
  · rw [hkey] at htime
    exact htime
  · rw [← heq]
    exact hv

/-- From the epoch on, only points that suit the downsampler are grouped. -/
theorem Downsampler.Grouped.suits_of_nonneg (h : downsampler.Grouped ops points)
    (hsorted : points.Pairwise fun p q => p.timestamp ≤ q.timestamp)
    (hfunction : downsampler.function ≠ .rate ∧ downsampler.function ≠ .increase)
    (hnonneg : ∀ p ∈ points, 0 ≤ p.timestamp.nanos) :
    Suits ops downsampler.function downsampler.interval.nanos points := by
  have hbucket : ∀ p ∈ points, 1000000 ≤ downsampler.interval.nanos ∧
      bucketNanos downsampler.interval.nanos p.timestamp.nanos =
        p.timestamp.nanos / downsampler.interval.nanos * downsampler.interval.nanos ∧
      ∃ v, downsampler.function.aggregate ops ((bucketPoints downsampler.interval.nanos
        (p.timestamp.nanos / downsampler.interval.nanos) points).map DataPoint.value) =
          .ok (some v) := by
    intro p hp
    obtain ⟨hinterval, _, k, hk, v, hv, _⟩ := h.found hsorted hfunction hp
    rw [(ediv_le_of_bucketNanos hinterval hk).2 (hnonneg p hp)]
    exact ⟨hinterval, hk, v, hv⟩
  refine ⟨fun p hp => ?_, fun hrate => ?_, fun hmedian p hp => ?_⟩
  · obtain ⟨hinterval, hk, _⟩ := hbucket p hp
    exact ⟨hinterval, (bucketNanos_eq_iff hinterval).mp hk⟩
  · rcases hrate with hrate | hrate
    · exact absurd hrate hfunction.1
    · exact absurd hrate hfunction.2
  · obtain ⟨_, _, hv⟩ := hbucket p hp
    exact (exists_value_iff.mp hv).2.2 hmedian

theorem count_map_eq {f : DataPoint → ℤ} (points : List DataPoint) (x : ℤ) :
    (points.map f).count x = (points.filter fun p => f p = x).length := by
  rw [List.count, List.countP_map, List.countP_eq_length_filter]
  rfl

theorem eq_of_sum_eq {f g : DataPoint → ℤ} (hle : ∀ p ∈ points, f p ≤ g p)
    (hsum : (points.map f).sum = (points.map g).sum) : ∀ p ∈ points, f p = g p := by
  intro p hp
  by_contra hne
  exact (List.sum_lt_sum f g hle ⟨p, hp, lt_of_le_of_ne (hle p hp) hne⟩).ne hsum

/-- Where points are counted, only points that suit the downsampler are grouped: no point is moved
behind without another bucket having one point less. -/
theorem Downsampler.Grouped.suits_of_count (h : downsampler.Grouped ops points)
    (hsorted : points.Pairwise fun p q => p.timestamp ≤ q.timestamp)
    (hfunction : downsampler.function = .count) (hcounts : ops.CountsApart points.length) :
    Suits ops downsampler.function downsampler.interval.nanos points := by
  have hother : downsampler.function ≠ .rate ∧ downsampler.function ≠ .increase := by
    rw [hfunction]
    exact ⟨fun h => (nomatch h), fun h => (nomatch h)⟩
  have hfound := fun p (hp : p ∈ points) => h.found hsorted hother hp
  have hcount : ∀ values v, downsampler.function.aggregate ops values = .ok (some v) →
      v = ops.ofUsize values.length := by
    intro values v hv
    rw [hfunction] at hv
    cases values with
    | nil => cases hv
    | cons w values => exact (Option.some.inj (Except.ok.inj hv)).symm
  -- the place of the bucket that is found, and of the bucket that the point is in
  have hplace : ∀ p ∈ points, bucketNanos downsampler.interval.nanos p.timestamp.nanos =
      bucketNanos downsampler.interval.nanos p.timestamp.nanos / downsampler.interval.nanos *
        downsampler.interval.nanos := by
    intro p hp
    obtain ⟨hinterval, _, k, hk, _⟩ := hfound p hp
    rw [hk, Int.mul_ediv_cancel k (by omega)]
  have hperm : (points.map fun p => p.timestamp.nanos / downsampler.interval.nanos).Perm
      (points.map fun p => bucketNanos downsampler.interval.nanos p.timestamp.nanos /
        downsampler.interval.nanos) := by
    rw [List.perm_iff_count]
    intro x
    rw [count_map_eq, count_map_eq]
    by_cases hx : ∃ p ∈ points, bucketNanos downsampler.interval.nanos p.timestamp.nanos /
        downsampler.interval.nanos = x
    · obtain ⟨p, hp, rfl⟩ := hx
      obtain ⟨hinterval, _, k, hk, v, hv, hv'⟩ := hfound p hp
      have hpos : 0 < downsampler.interval.nanos := by omega
      obtain rfl : bucketNanos downsampler.interval.nanos p.timestamp.nanos /
          downsampler.interval.nanos = k := by
        rw [hk, Int.mul_ediv_cancel k hpos.ne']
      have hrun : (points.filter fun q => bucketOf downsampler.interval.nanos q.timestamp =
            bucketOf downsampler.interval.nanos p.timestamp) =
          points.filter fun q =>
            bucketNanos downsampler.interval.nanos q.timestamp.nanos /
                downsampler.interval.nanos =
              bucketNanos downsampler.interval.nanos p.timestamp.nanos /
                downsampler.interval.nanos := by
        refine List.filter_congr fun q hq => decide_eq_decide.mpr ?_
        rw [bucketOf_inj, hplace q hq, hplace p hp, Int.mul_ediv_cancel _ hpos.ne',
          Int.mul_ediv_cancel _ hpos.ne', mul_left_inj' hpos.ne']
      have hlength := (hcount _ v hv).symm.trans (hcount _ v hv')
      rw [List.length_map, List.length_map, bucketPoints_eq hpos, hrun] at hlength
      exact hcounts _ _ (List.length_filter_le _ _) (List.length_filter_le _ _) hlength
    · have hnone : ∀ p ∈ points, p.timestamp.nanos / downsampler.interval.nanos ≠ x := by
        rintro p hp rfl
        obtain ⟨hinterval, ⟨q, hq, hkey⟩, _⟩ := hfound p hp
        exact hx ⟨q, hq, by rw [hkey, Int.mul_ediv_cancel _ (by omega)]⟩
      rw [List.filter_eq_nil_iff.mpr fun p hp => (by simpa using hnone p hp),
        List.filter_eq_nil_iff.mpr fun p hp => (by simpa using fun heq => hx ⟨p, hp, heq⟩)]
  have heq := eq_of_sum_eq (fun p hp => ?_) hperm.sum_eq
  · refine ⟨fun p hp => ?_, fun hrate => ?_, fun hmedian => ?_⟩
    · obtain ⟨hinterval, _⟩ := hfound p hp
      refine ⟨hinterval, (bucketNanos_eq_iff hinterval).mp ?_⟩
      rw [heq p hp]
      exact hplace p hp
    · rcases hrate with hrate | hrate
      · exact absurd hrate hother.1
      · exact absurd hrate hother.2
    · rw [hfunction] at hmedian
      cases hmedian
  · exact (ediv_le_of_bucketNanos (hfound p hp).1 (hplace p hp)).1

/-- **Downsampling groups** points that suit it; and where points are counted, or where no time is
before the epoch and the function does not need two points, it groups no others. -/
theorem downsample_groups (ops : FloatOps) (downsampler : Downsampler) {points : List DataPoint}
    (hsorted : points.Pairwise fun p q => p.timestamp ≤ q.timestamp) :
    (Suits ops downsampler.function downsampler.interval.nanos points →
      downsampler.Grouped ops points) ∧
    ((downsampler.function = .count ∧ ops.CountsApart points.length) ∨
        ((downsampler.function ≠ .rate ∧ downsampler.function ≠ .increase) ∧
          ∀ p ∈ points, 0 ≤ p.timestamp.nanos) →
      downsampler.Grouped ops points →
        Suits ops downsampler.function downsampler.interval.nanos points) := by
  refine ⟨fun h => h.grouped hsorted, ?_⟩
  rintro (⟨hcount, hcounts⟩ | ⟨hfunction, hnonneg⟩) h
  · exact h.suits_of_count hsorted hcount hcounts
  · exact h.suits_of_nonneg hsorted hfunction hnonneg

end Grouping

/-! ## A time before the epoch -/

/-- Operations of which the one that counts is right for small numbers. -/
def countingOps : FloatOps where
  add a _ := a
  sub a _ := a
  div a _ := a
  min a _ := a
  max a _ := a
  sqrt a := a
  square a := a
  ofUsize n := .ofInt64 (Int64.ofNat n)
  sumStart := .zero
  sort := .merge

/-- Points are counted in buckets of ten milliseconds. -/
def tenMillis : Downsampler where
  interval := ⟨10000000, by norm_num⟩
  function := .count

def countedAt (nanos : Int64) : DataPoint :=
  ⟨.fromTimestampNanos nanos, .zero⟩

/-- Three points behind the epoch are counted in two buckets. -/
theorem downsample_groups_afterEpoch :
    tenMillis.Grouped countingOps [countedAt 0, countedAt 5000000, countedAt 12000000] :=
  (downsample_groups countingOps tenMillis (by decide +kernel)).1
    { aligned := fun p hp => ⟨by decide, by
        revert p
        exact List.forall_mem_cons.mpr ⟨by decide +kernel, List.forall_mem_cons.mpr
          ⟨by decide +kernel, List.forall_mem_singleton.mpr (by decide +kernel)⟩⟩⟩
      enough := fun h => by rcases h with h | h <;> cases h
      sorts := fun h => (nomatch h) }

/-- A point before the epoch is counted with one behind it. -/
theorem beforeEpoch_not_grouped :
    ¬ ∀ (ops : FloatOps) (downsampler : Downsampler) (points : List DataPoint),
      points.Pairwise (fun p q => p.timestamp ≤ q.timestamp) →
        downsampler.Grouped ops points := by
  intro h
  obtain ⟨result, hresult, hgroups⟩ := h countingOps tenMillis
    [countedAt (-5000000), countedAt 5000000] (by decide +kernel)
  have hrun : tenMillis.downsample countingOps [countedAt (-5000000), countedAt 5000000] =
      .ok [⟨.fromTimestampNanos 0, .ofInt64 2⟩] := by decide +kernel
  obtain rfl := Except.ok.inj (hresult.symm.trans hrun)
  obtain ⟨q, hq, k, htime, hbucket⟩ := hgroups.covers (countedAt (-5000000)) List.mem_cons_self
  rw [List.mem_singleton] at hq
  subst hq
  have hzero : (0 : ℤ) = k * 10000000 := htime
  have hle : k * 10000000 ≤ -5000000 := (mem_bucketPoints.mp hbucket).2.1
  omega

end TimeSeries

end AegisDB
