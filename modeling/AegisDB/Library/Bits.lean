import AegisDB.Library.Bytes
import Mathlib.Tactic

/-!
# Numbers as bits

The lowest bits of a number, the highest of them first, and a byte string as the bits of its bytes
one after the other.
-/

namespace AegisDB

/-- The lowest bits of a number, the highest of them first. -/
def bitsOf : ℕ → ℕ → List Bool
  | 0, _ => []
  | width + 1, n => n.testBit width :: bitsOf width n

def bytesBits (bytes : Bytes) : List Bool :=
  bytes.flatMap fun byte => bitsOf 8 byte.toNat

@[simp] theorem length_bitsOf (width n : ℕ) : (bitsOf width n).length = width := by
  induction width with
  | zero => rfl
  | succ width ih => rw [bitsOf, List.length_cons, ih]

theorem bitsOf_add (high low n : ℕ) :
    bitsOf (high + low) n = bitsOf high (n / 2 ^ low) ++ bitsOf low n := by
  induction high with
  | zero => rw [Nat.zero_add]; rfl
  | succ high ih =>
    rw [Nat.add_right_comm, bitsOf, bitsOf, ih, Nat.testBit_div_two_pow, List.cons_append,
      Nat.add_comm]

theorem bitsOf_concat (width n : ℕ) (bit : Bool) :
    bitsOf (width + 1) (2 * n + bit.toNat) = bitsOf width n ++ [bit] := by
  have hdiv : (2 * n + bit.toNat) / 2 ^ 1 = n := by
    rw [Nat.pow_one]
    cases bit
    · rw [Bool.toNat_false]
      omega
    · rw [Bool.toNat_true]
      omega
  have hbit : (2 * n + bit.toNat).testBit 0 = bit := by
    cases bit <;> simp [Nat.testBit_zero]
  rw [bitsOf_add, hdiv, bitsOf, bitsOf, hbit]

theorem drop_bitsOf (high low n : ℕ) : (bitsOf (high + low) n).drop high = bitsOf low n := by
  rw [bitsOf_add, List.drop_left' (length_bitsOf _ _)]

theorem testBit_mul_add_mod (width n : ℕ) :
    (n.testBit width).toNat * 2 ^ width + n % 2 ^ width = n % 2 ^ (width + 1) := by
  rw [Nat.mod_pow_succ, Nat.toNat_testBit, Nat.mul_comm, Nat.add_comm]

@[simp] theorem bytesBits_cons (byte : UInt8) (bytes : Bytes) :
    bytesBits (byte :: bytes) = bitsOf 8 byte.toNat ++ bytesBits bytes :=
  List.flatMap_cons

theorem bytesBits_append (bytes bytes' : Bytes) :
    bytesBits (bytes ++ bytes') = bytesBits bytes ++ bytesBits bytes' :=
  List.flatMap_append

end AegisDB
