import AegisDB.Library.Binary64

/-!
# Rounding keeps the order

The double-precision number nearest to an integer may be that of its neighbours too, but it is never
on the other side of theirs: a greater integer does not have a smaller number.  The number of an
integer is never what is not a number.
-/

namespace AegisDB.Binary64

/-- The leading binary digits of a number above `2 ^ 53`, rounded. -/
def roundQuotient (n : ℕ) : ℕ :=
  let unit := 2 ^ (n.log2 - 52)
  if unit < 2 * (n % unit) || (2 * (n % unit) == unit && n / unit % 2 == 1) then n / unit + 1
  else n / unit

theorem roundNat_of_le {n : ℕ} (h : n.log2 ≤ 52) :
    roundNat n = (1022 + n.log2) * 2 ^ 52 + n * 2 ^ (52 - n.log2) :=
  if_pos h

theorem roundNat_of_lt {n : ℕ} (h : 52 < n.log2) :
    roundNat n = (1022 + n.log2) * 2 ^ 52 + roundQuotient n :=
  if_neg (not_le.mpr h)

theorem div_le_roundQuotient (n : ℕ) : n / 2 ^ (n.log2 - 52) ≤ roundQuotient n := by
  rw [roundQuotient]
  split_ifs
  · exact Nat.le_succ _
  · exact le_rfl

theorem roundQuotient_le (n : ℕ) : roundQuotient n ≤ n / 2 ^ (n.log2 - 52) + 1 := by
  rw [roundQuotient]
  split_ifs
  · exact le_rfl
  · exact Nat.le_succ _

theorem two_pow_log2_le {n : ℕ} (h : 0 < n) : 2 ^ n.log2 ≤ n ∧ n < 2 ^ (n.log2 + 1) :=
  ⟨Nat.log2_self_le h.ne', Nat.lt_log2_self⟩

/-- The pattern of a number is between those of two powers of two. -/
theorem roundNat_bounds {n : ℕ} (h : 0 < n) :
    (1023 + n.log2) * 2 ^ 52 ≤ roundNat n ∧ roundNat n ≤ (1024 + n.log2) * 2 ^ 52 := by
  obtain ⟨hle, hlt⟩ := two_pow_log2_le h
  rcases le_or_gt n.log2 52 with hlog | hlog
  · -- the digits fill the fraction
    have hlower : 2 ^ 52 ≤ n * 2 ^ (52 - n.log2) := by
      calc 2 ^ 52 = 2 ^ n.log2 * 2 ^ (52 - n.log2) := by rw [← pow_add, Nat.add_sub_cancel' hlog]
        _ ≤ n * 2 ^ (52 - n.log2) := Nat.mul_le_mul_right _ hle
    have hupper : n * 2 ^ (52 - n.log2) ≤ 2 * 2 ^ 52 := by
      calc n * 2 ^ (52 - n.log2) ≤ 2 ^ (n.log2 + 1) * 2 ^ (52 - n.log2) :=
            Nat.mul_le_mul_right _ hlt.le
        _ = 2 * 2 ^ 52 := by
          rw [pow_succ, mul_right_comm, ← pow_add, Nat.add_sub_cancel' hlog, mul_comm]
    rw [roundNat_of_le hlog]
    omega
  · -- the leading digits fill the fraction, and may be rounded up
    have hpow : 0 < 2 ^ (n.log2 - 52) := Nat.two_pow_pos _
    have hlower : 2 ^ 52 ≤ n / 2 ^ (n.log2 - 52) := by
      rw [Nat.le_div_iff_mul_le hpow, ← pow_add, Nat.add_sub_cancel' hlog.le]
      exact hle
    have hupper : n / 2 ^ (n.log2 - 52) < 2 * 2 ^ 52 := by
      rw [Nat.div_lt_iff_lt_mul hpow, mul_assoc, ← pow_add, Nat.add_sub_cancel' hlog.le,
        ← pow_succ']
      exact hlt
    have hrounded := div_le_roundQuotient n
    have hrounded' := roundQuotient_le n
    rw [roundNat_of_lt hlog]
    omega

/-- Of numbers with the same number of digits, a greater one has the greater leading digits. -/
theorem roundQuotient_mono {m n : ℕ} (hmn : m ≤ n) (hlog : m.log2 = n.log2) :
    roundQuotient m ≤ roundQuotient n := by
  have hdiv : m / 2 ^ (n.log2 - 52) ≤ n / 2 ^ (n.log2 - 52) := Nat.div_le_div_right hmn
  rcases hdiv.lt_or_eq with hlt | heq
  · have hm := roundQuotient_le m
    have hn := div_le_roundQuotient n
    rw [hlog] at hm
    omega
  · -- the same digits in front: what is behind them decides
    have hmod : m % 2 ^ (n.log2 - 52) ≤ n % 2 ^ (n.log2 - 52) := by
      have hm := Nat.div_add_mod m (2 ^ (n.log2 - 52))
      have hn := Nat.div_add_mod n (2 ^ (n.log2 - 52))
      rw [heq] at hm
      omega
    rw [roundQuotient, roundQuotient, hlog, heq]
    simp only [Bool.or_eq_true, Bool.and_eq_true, decide_eq_true_eq, beq_iff_eq]
    split_ifs <;> omega

theorem roundNat_mono {m n : ℕ} (hm : 0 < m) (hmn : m ≤ n) : roundNat m ≤ roundNat n := by
  have hn : 0 < n := hm.trans_le hmn
  have hlog : m.log2 ≤ n.log2 := by
    by_contra hlt
    have hpow : 2 ^ (n.log2 + 1) ≤ 2 ^ m.log2 :=
      Nat.pow_le_pow_right (by omega) (by omega)
    have hm' := (two_pow_log2_le hm).1
    have hn' := (two_pow_log2_le hn).2
    omega
  rcases hlog.lt_or_eq with hlt | heq
  · have hm' := (roundNat_bounds hm).2
    have hn' := (roundNat_bounds hn).1
    omega
  · rcases le_or_gt n.log2 52 with hle | hgt
    · rw [roundNat_of_le hle, roundNat_of_le (heq.trans_le hle), heq]
      exact Nat.add_le_add_left (Nat.mul_le_mul_right _ hmn) _
    · rw [roundNat_of_lt hgt, roundNat_of_lt (hgt.trans_eq heq.symm), heq]
      exact Nat.add_le_add_left (roundQuotient_mono hmn heq) _

/-! ## Integers -/

theorem log2_le_of_le {n : ℕ} (h : 0 < n) (hle : n ≤ 2 ^ 63) : n.log2 ≤ 63 := by
  have hpow := (two_pow_log2_le h).1
  exact (Nat.pow_le_pow_iff_right (by omega)).mp (hpow.trans hle)

theorem natAbs_toInt_le (i : Int64) : i.toInt.natAbs ≤ 2 ^ 63 := by
  have hlt := i.toInt_lt
  have hle := i.le_toInt
  omega

theorem roundNat_lt (i : Int64) (h : i ≠ 0) :
    roundNat i.toInt.natAbs < 0x7FF0000000000000 := by
  have hpos : 0 < i.toInt.natAbs := by
    rw [Int.natAbs_pos]
    exact fun h0 => h (Int64.toInt_inj.mp h0)
  have hbound := (roundNat_bounds hpos).2
  have hlog := log2_le_of_le hpos (natAbs_toInt_le i)
  omega

theorem toNat_bits_ofInt64 {i : Int64} (h : i ≠ 0) : (ofInt64 i).bits.toNat =
    if i < 0 then 2 ^ 63 + roundNat i.toInt.natAbs else roundNat i.toInt.natAbs := by
  have hlt := roundNat_lt i h
  rw [ofInt64, if_neg h]
  split_ifs
  · exact UInt64.toNat_ofNat_of_lt' (show 2 ^ 63 + roundNat i.toInt.natAbs < 2 ^ 64 by omega)
  · exact UInt64.toNat_ofNat_of_lt' (show roundNat i.toInt.natAbs < 2 ^ 64 by omega)

theorem order_ofInt64 {i : Int64} (h : i ≠ 0) : (ofInt64 i).order =
    if i < 0 then -(roundNat i.toInt.natAbs : ℤ) else roundNat i.toInt.natAbs := by
  have hlt := roundNat_lt i h
  rw [order, isNegative, magnitude, toNat_bits_ofInt64 h]
  split_ifs with hneg hbits hbits
  · omega
  · exact absurd (decide_eq_true (by omega)) hbits
  · exact absurd (of_decide_eq_true hbits) (by omega)
  · omega

theorem isNaN_ofInt64 (i : Int64) : (ofInt64 i).isNaN = false := by
  by_cases h : i = 0
  · rw [h]
    decide
  · have hlt := roundNat_lt i h
    rw [isNaN, decide_eq_false_iff_not, magnitude, toNat_bits_ofInt64 h]
    split_ifs <;> omega

theorem order_ofInt64_mono {i j : Int64} (h : i ≤ j) : (ofInt64 i).order ≤ (ofInt64 j).order := by
  have hle : i.toInt ≤ j.toInt := Int64.le_iff_toInt_le.mp h
  have hsign : ∀ k : Int64, k < 0 ↔ k.toInt < 0 := fun k => by
    rw [Int64.lt_iff_toInt_lt, Int64.toInt_zero]
  have hzero : ∀ k : Int64, k = 0 ↔ k.toInt = 0 := fun k => by
    rw [← Int64.toInt_inj, Int64.toInt_zero]
  -- the place has the sign of the integer
  have hpos : ∀ k : Int64, 0 ≤ k.toInt → 0 ≤ (ofInt64 k).order := by
    intro k hk
    by_cases hk0 : k = 0
    · rw [hk0]
      decide
    · rw [order_ofInt64 hk0, if_neg (mt (hsign k).mp (not_lt.mpr hk))]
      omega
  have hneg : ∀ k : Int64, k.toInt ≤ 0 → (ofInt64 k).order ≤ 0 := by
    intro k hk
    by_cases hk0 : k = 0
    · rw [hk0]
      decide
    · rw [order_ofInt64 hk0, if_pos ((hsign k).mpr (lt_of_le_of_ne hk (mt (hzero k).mpr hk0)))]
      omega
  rcases lt_or_ge j.toInt 0 with hj | hj
  · -- both are negative
    have hmono := roundNat_mono (m := j.toInt.natAbs) (n := i.toInt.natAbs) (by omega) (by omega)
    rw [order_ofInt64 (mt (hzero i).mp (by omega)), order_ofInt64 (mt (hzero j).mp (by omega)),
      if_pos ((hsign i).mpr (by omega)), if_pos ((hsign j).mpr hj)]
    omega
  · rcases le_or_gt i.toInt 0 with hi | hi
    · exact (hneg i hi).trans (hpos j hj)
    · -- both are positive
      have hmono := roundNat_mono (m := i.toInt.natAbs) (n := j.toInt.natAbs) (by omega) (by omega)
      rw [order_ofInt64 (mt (hzero i).mp (by omega)), order_ofInt64 (mt (hzero j).mp (by omega)),
        if_neg (mt (hsign i).mp (by omega)), if_neg (mt (hsign j).mp (by omega))]
      omega

end AegisDB.Binary64
