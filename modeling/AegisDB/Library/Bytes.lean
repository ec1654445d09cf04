import Mathlib.Tactic

/-!
# Bytes

Little-endian numbers of a fixed width, and the way a decoder takes them off the front of a byte
string.
-/

namespace AegisDB

abbrev Bytes := List UInt8

/-- The little-endian bytes of a number, cut off at a width. -/
def le : ℕ → ℕ → Bytes
  | 0, _ => []
  | width + 1, n => UInt8.ofNat n :: le width (n / 256)

/-- The number that little-endian bytes stand for. -/
def ofLe : Bytes → ℕ
  | [] => 0
  | b :: bs => b.toNat + 256 * ofLe bs

/-- Take a number of a fixed width off the front. -/
def getLe (width : ℕ) (bytes : Bytes) : ℕ × Bytes :=
  (ofLe (bytes.take width), bytes.drop width)

@[simp] theorem length_le (width n : ℕ) : (le width n).length = width := by
  induction width generalizing n with
  | zero => rfl
  | succ width ih => simp [le, ih]

theorem ofLe_le (width n : ℕ) : ofLe (le width n) = n % 256 ^ width := by
  induction width generalizing n with
  | zero => simp [le, ofLe, Nat.mod_one]
  | succ width ih =>
    have hbyte : (UInt8.ofNat n).toNat = n % 256 := by simp
    rw [le, ofLe, ih, hbyte, Nat.pow_succ', Nat.mod_mul]

theorem ofLe_lt (bytes : Bytes) : ofLe bytes < 256 ^ bytes.length := by
  induction bytes with
  | nil => simp [ofLe]
  | cons b bs ih =>
    have hb := b.toNat_lt
    rw [ofLe, List.length_cons, Nat.pow_succ']
    omega

@[simp] theorem getLe_le (width n : ℕ) (rest : Bytes) :
    getLe width (le width n ++ rest) = (n % 256 ^ width, rest) := by
  have hlen := length_le width n
  rw [getLe, List.take_left' hlen, List.drop_left' hlen, ofLe_le]

theorem getLe_fst_lt (width : ℕ) (bytes : Bytes) : (getLe width bytes).1 < 256 ^ width := by
  refine (ofLe_lt _).trans_le (Nat.pow_le_pow_right (by norm_num) ?_)
  simp

end AegisDB
