import Mathlib.Tactic

/-!
# Double-precision numbers by their bit patterns

A double-precision number is its sixty-four bits.  Two numbers are compared by the signed magnitude
of their patterns, in which the two zeros meet; a pattern whose magnitude exceeds that of infinity
is not a number and cannot be compared.  The nearest number to an integer has its leading
fifty-three binary digits, rounded to the even neighbour in case of a tie.
-/

namespace AegisDB

/-- A double-precision number. -/
structure Binary64 where
  /-- The bit pattern: sign, eleven bits of exponent, fifty-two of fraction. -/
  bits : UInt64
deriving DecidableEq

namespace Binary64

def magnitude (x : Binary64) : ℕ :=
  x.bits.toNat % 2 ^ 63

def isNegative (x : Binary64) : Bool :=
  decide (2 ^ 63 ≤ x.bits.toNat)

def isNaN (x : Binary64) : Bool :=
  decide (0x7FF0000000000000 < x.magnitude)

def order (x : Binary64) : ℤ :=
  if x.isNegative then -x.magnitude else x.magnitude

/-- How two numbers compare, if both are numbers. -/
def partialCmp (x y : Binary64) : Option Ordering :=
  if x.isNaN || y.isNaN then none else some (compare x.order y.order)

/-- The one pattern that stands for all that are not a number. -/
def nan : Binary64 :=
  ⟨0x7FF8000000000000⟩

/-- The pattern of the number nearest to a positive natural number below `2 ^ 64`. -/
def roundNat (n : ℕ) : ℕ :=
  if n.log2 ≤ 52 then
    (1022 + n.log2) * 2 ^ 52 + n * 2 ^ (52 - n.log2)
  else
    let unit := 2 ^ (n.log2 - 52)
    let quotient := n / unit
    let remainder := n % unit
    -- a tie goes to the even neighbour; a carry out of the fraction raises the exponent
    let rounded :=
      if unit < 2 * remainder || (2 * remainder == unit && quotient % 2 == 1) then quotient + 1
      else quotient
    (1022 + n.log2) * 2 ^ 52 + rounded

def ofInt64 (i : Int64) : Binary64 :=
  if i = 0 then ⟨0⟩
  else if i < 0 then ⟨UInt64.ofNat (2 ^ 63 + roundNat i.toInt.natAbs)⟩
  else ⟨UInt64.ofNat (roundNat i.toInt.natAbs)⟩

end Binary64

end AegisDB
