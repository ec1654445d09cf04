import AegisDB.Library.Checked
import AegisDB.Library.Runs
import AegisDB.Library.StableSort
import AegisDB.TimeSeries.Query

/-!
# Aggregation

A function makes one number of the values of some points; an aggregator is given the values one by
one.  A downsampler goes once through points and aggregates those that are next to each other and
start in the same bucket, where the bucket is found by a division of milliseconds that cuts towards
zero.
-/

namespace AegisDB

namespace Binary64

def zero : Binary64 := ⟨0⟩

def two : Binary64 := ⟨0x4000000000000000⟩

def infinity : Binary64 := ⟨0x7FF0000000000000⟩

def negInfinity : Binary64 := ⟨0xFFF0000000000000⟩

end Binary64

namespace TimeSeries

/-- The operations on double-precision numbers. -/
structure FloatOps where
  add : Binary64 → Binary64 → Binary64
  sub : Binary64 → Binary64 → Binary64
  div : Binary64 → Binary64 → Binary64
  min : Binary64 → Binary64 → Binary64
  max : Binary64 → Binary64 → Binary64
  sqrt : Binary64 → Binary64
  square : Binary64 → Binary64
  ofUsize : ℕ → Binary64
  sumStart : Binary64
  sort : StableSort Binary64

/-- What is made of the values of some points. -/
inductive AggregateFunction where
  | sum
  | count
  | min
  | max
  | avg
  | first
  | last
  | median
  | stdDev
  | variance
  | rate
  | increase
deriving DecidableEq

namespace FloatOps

variable (ops : FloatOps)

def sumOf (values : List Binary64) : Binary64 :=
  values.foldl ops.add ops.sumStart

def avgOf (values : List Binary64) : Binary64 :=
  ops.div (ops.sumOf values) (ops.ofUsize values.length)

def varianceOf (values : List Binary64) : Binary64 :=
  let mean := ops.avgOf values
  ops.div (ops.sumOf (values.map fun v => ops.square (ops.sub v mean)))
    (ops.ofUsize values.length)

/-- Numbers that cannot be compared are taken for equal. -/
def compareFloats (a b : Binary64) : Ordering :=
  (a.partialCmp b).getD .eq

/-- The values in order, unless the sort panics. -/
def sorted (values : List Binary64) : Checked (List Binary64) :=
  match ops.sort.sortBy compareFloats values with
  | some sorted => .ok sorted
  | none => .error .order

/-- The middle of the values, or what is between the two in the middle. -/
def medianOf (values : List Binary64) : Checked Binary64 := do
  let sorted ← ops.sorted values
  let mid := sorted.length / 2
  if sorted.length % 2 = 0 then
    let low ← Checked.index sorted (mid - 1)
    let high ← Checked.index sorted mid
    return ops.div (ops.add low high) .two
  else Checked.index sorted mid

/-- The last value less the first. -/
def increaseOf (values : List Binary64) : Option Binary64 :=
  if values.length < 2 then none
  else do
    let last ← values.getLast?
    let first ← values.head?
    return ops.sub last first

end FloatOps

/-- Apply the function to some values. -/
def AggregateFunction.apply (ops : FloatOps) (function : AggregateFunction)
    (values : List Binary64) : Checked (Option Binary64) :=
  if values.isEmpty then .ok none
  else
    match function with
    | .sum => .ok (some (ops.sumOf values))
    | .count => .ok (some (ops.ofUsize values.length))
    | .min => .ok (some (values.foldl ops.min .infinity))
    | .max => .ok (some (values.foldl ops.max .negInfinity))
    | .avg => .ok (some (ops.avgOf values))
    | .first => .ok values.head?
    | .last => .ok values.getLast?
    | .median => (ops.medianOf values).map some
    | .stdDev => .ok (some (ops.sqrt (ops.varianceOf values)))
    | .variance => .ok (some (ops.varianceOf values))
    | .rate =>
        .ok ((ops.increaseOf values).map fun change =>
          ops.div change (ops.ofUsize (values.length - 1)))
    | .increase => .ok (ops.increaseOf values)

/-! ## The aggregator -/

/-- What is known of the values that were given. -/
structure Aggregator where
  function : AggregateFunction
  values : List Binary64 := []
  count : ℕ := 0
  sum : Binary64 := .zero
  min : Binary64 := .infinity
  max : Binary64 := .negInfinity
  first : Option Binary64 := none
  last : Option Binary64 := none

def AggregateFunction.Collects : AggregateFunction → Bool
  | .median | .stdDev | .variance | .rate | .increase => true
  | .sum | .count | .min | .max | .avg | .first | .last => false

namespace Aggregator

/-- Add a value. -/
def add (ops : FloatOps) (aggregator : Aggregator) (value : Binary64) : Aggregator :=
  { aggregator with
    count := aggregator.count + 1
    sum := ops.add aggregator.sum value
    min := ops.min aggregator.min value
    max := ops.max aggregator.max value
    first := if aggregator.first.isNone then some value else aggregator.first
    last := some value
    values :=
      if aggregator.function.Collects then aggregator.values ++ [value] else aggregator.values }

/-- The value of the function, if it has one. -/
def value (ops : FloatOps) (aggregator : Aggregator) : Checked (Option Binary64) :=
  if aggregator.count = 0 then .ok none
  else
    match aggregator.function with
    | .sum => .ok (some aggregator.sum)
    | .count => .ok (some (ops.ofUsize aggregator.count))
    | .min => .ok (some aggregator.min)
    | .max => .ok (some aggregator.max)
    | .avg => .ok (some (ops.div aggregator.sum (ops.ofUsize aggregator.count)))
    | .first => .ok aggregator.first
    | .last => .ok aggregator.last
    | .median | .stdDev | .variance | .rate | .increase =>
        aggregator.function.apply ops aggregator.values

/-- Forget all values. -/
def reset (aggregator : Aggregator) : Aggregator :=
  { aggregator with
    values := []
    count := 0
    sum := .zero
    min := .infinity
    max := .negInfinity
    first := none
    last := none }

end Aggregator

/-! ## The downsampler -/

/-- A length of time, in nanoseconds. -/
structure Duration where
  nanos : ℤ
  inRange : -(2 ^ 63 - 1) * 1000000 ≤ nanos ∧ nanos ≤ (2 ^ 63 - 1) * 1000000

def Duration.numMilliseconds (d : Duration) : Int64 :=
  Int64.ofInt (d.nanos.tdiv 1000000)

/-- What makes one point of the points of a bucket. -/
structure Downsampler where
  interval : Duration
  function : AggregateFunction

namespace Downsampler

variable (ops : FloatOps) (downsampler : Downsampler)

/-- The start of the bucket of a time. -/
def bucketStart (timestamp : DateTime) : Checked DateTime := do
  let millis := timestamp.timestampMillis
  let intervalMillis := downsampler.interval.numMilliseconds
  if intervalMillis = 0 then .error .division
  else
    let quotient ← Checked.int64 (millis.toInt.tdiv intervalMillis.toInt)
    let bucketMillis ← Checked.int64 (quotient.toInt * intervalMillis.toInt)
    match DateTime.fromTimestampMillis bucketMillis with
    | some bucket => .ok bucket
    | none => .error .expect

/-- The result with the point of a bucket, if the aggregator has a value. -/
def push (result : List DataPoint) (bucket : Option DateTime) (aggregator : Aggregator) :
    Checked (List DataPoint) :=
  match bucket with
  | none => .ok result
  | some bucketTime => do
      match ← aggregator.value ops with
      | some value => .ok (result ++ [⟨bucketTime, value⟩])
      | none => .ok result

/-- The loop, with the points that are left. -/
def downsampleFrom (result : List DataPoint) (currentBucket : Option DateTime)
    (aggregator : Aggregator) : List DataPoint → Checked (List DataPoint)
  | [] => push ops result currentBucket aggregator
  | point :: points => do
      let bucket ← downsampler.bucketStart point.timestamp
      if some bucket ≠ currentBucket then
        let result ← push ops result currentBucket aggregator
        downsampleFrom result (some bucket) (aggregator.reset.add ops point.value) points
      else
        downsampleFrom result currentBucket (aggregator.add ops point.value) points

def downsample (points : List DataPoint) : Checked (List DataPoint) :=
  if points.isEmpty then .ok []
  else downsampler.downsampleFrom ops [] none { function := downsampler.function } points

end Downsampler

end TimeSeries

end AegisDB
