import AegisDB.Library.Bits
import AegisDB.TimeSeries.Compression

/-!
# Streams of bits

What a writer has written is a list of bits, and so is what a reader has still to read.  Writing
appends to the one and reading takes from the other, so that what was written in one order is read
in the same order.
-/

namespace AegisDB

namespace TimeSeries

/-! ## Writing -/

namespace BitWriter

variable {w : BitWriter}

def bits (w : BitWriter) : List Bool :=
  bytesBits w.buffer ++ bitsOf w.bitPosition (w.currentByte.toNat / 2 ^ (8 - w.bitPosition))

/-- Nothing is below the position in the byte that is being written. -/
structure Valid (w : BitWriter) : Prop where
  position_lt : w.bitPosition < 8
  low_zero : w.currentByte.toNat % 2 ^ (8 - w.bitPosition) = 0

theorem valid_empty : ({} : BitWriter).Valid :=
  ⟨by decide, rfl⟩

theorem bits_empty : ({} : BitWriter).bits = [] :=
  rfl

theorem Valid.toNat_or (h : w.Valid) :
    (w.currentByte ||| 1 <<< UInt8.ofNat (7 - w.bitPosition)).toNat =
      w.currentByte.toNat + 2 ^ (7 - w.bitPosition) := by
  have hshift : ((1 : UInt8) <<< UInt8.ofNat (7 - w.bitPosition)).toNat =
      2 ^ (7 - w.bitPosition) := by
    have hposition := h.position_lt
    generalize w.bitPosition = p at hposition
    interval_cases p <;> rfl
  have hcurrent : w.currentByte.toNat =
      2 ^ (8 - w.bitPosition) * (w.currentByte.toNat / 2 ^ (8 - w.bitPosition)) := by
    rw [Nat.mul_div_cancel' (Nat.dvd_of_mod_eq_zero h.low_zero)]
  have hlt : 2 ^ (7 - w.bitPosition) < 2 ^ (8 - w.bitPosition) :=
    Nat.pow_lt_pow_right (by decide) (by have := h.position_lt; omega)
  rw [UInt8.toNat_or, hshift, hcurrent, Nat.two_pow_add_eq_or_of_lt hlt]

theorem Valid.writeBit (h : w.Valid) (bit : Bool) :
    (w.writeBit bit).Valid ∧ (w.writeBit bit).bits = w.bits ++ [bit] := by
  have hposition := h.position_lt
  -- the byte before and after, above the position
  obtain ⟨high, hhigh⟩ := Nat.dvd_of_mod_eq_zero h.low_zero
  have hpow : 2 ^ (8 - w.bitPosition) = 2 ^ (7 - w.bitPosition) * 2 := by
    rw [← Nat.pow_succ]
    congr 1
    omega
  have hbyte : (if bit then w.currentByte ||| 1 <<< UInt8.ofNat (7 - w.bitPosition)
      else w.currentByte).toNat = 2 ^ (7 - w.bitPosition) * (2 * high + bit.toNat) := by
    cases bit
    · rw [if_neg (by decide), hhigh, hpow, Bool.toNat_false, Nat.add_zero, Nat.mul_assoc]
    · rw [if_pos rfl, h.toNat_or, hhigh, hpow, Bool.toNat_true, Nat.mul_add, Nat.mul_one,
        Nat.mul_assoc]
  have hbits : w.bits ++ [bit] =
      bytesBits w.buffer ++ bitsOf (w.bitPosition + 1) (2 * high + bit.toNat) := by
    rw [bits, hhigh, Nat.mul_div_cancel_left _ (Nat.two_pow_pos _), bitsOf_concat,
      List.append_assoc]
  rw [hbits]
  unfold BitWriter.writeBit
  dsimp only
  generalize (if bit then w.currentByte ||| 1 <<< UInt8.ofNat (7 - w.bitPosition)
    else w.currentByte) = byte at hbyte ⊢
  split_ifs with hfull
  · refine ⟨⟨Nat.zero_lt_succ 7, rfl⟩, ?_⟩
    have hzero : 7 - w.bitPosition = 0 := by omega
    rw [hzero, Nat.pow_zero, Nat.one_mul] at hbyte
    rw [bits, hfull, bytesBits_append, bytesBits_cons, hbyte]
    simp [bitsOf, bytesBits]
  · have hsub : 8 - (w.bitPosition + 1) = 7 - w.bitPosition := by omega
    refine ⟨⟨by dsimp only; omega, ?_⟩, ?_⟩
    · dsimp only
      rw [hsub, hbyte, Nat.mul_mod_right]
    · unfold bits
      dsimp only
      rw [hsub, hbyte, Nat.mul_div_cancel_left _ (Nat.two_pow_pos _)]

/-- The lowest bits of a number are written behind what was written. -/
theorem Valid.writeBits (h : w.Valid) (value : UInt64) {numBits : ℕ} (hnum : numBits ≤ 64) :
    (w.writeBits value numBits).Valid ∧
      (w.writeBits value numBits).bits = w.bits ++ bitsOf numBits value.toNat := by
  induction numBits generalizing w with
  | zero => exact ⟨h, (List.append_nil _).symm⟩
  | succ numBits ih =>
    have hbit : decide (value >>> UInt64.ofNat numBits &&& 1 = 1) = value.toNat.testBit numBits := by
      have hmod : numBits % 2 ^ 64 % 64 = numBits := by omega
      rw [Nat.testBit_eq_decide_div_mod_eq]
      refine decide_eq_decide.mpr ?_
      rw [← UInt64.toNat_inj, UInt64.toNat_and, UInt64.toNat_shiftRight, UInt64.toNat_ofNat', hmod,
        Nat.shiftRight_eq_div_pow, UInt64.toNat_one, Nat.and_one_is_mod]
    obtain ⟨hvalid, hbits⟩ := h.writeBit (value >>> UInt64.ofNat numBits &&& 1 = 1)
    obtain ⟨hvalid', hbits'⟩ := ih hvalid (by omega)
    rw [BitWriter.writeBits]
    refine ⟨hvalid', ?_⟩
    rw [hbits', hbits, hbit, bitsOf, List.append_assoc, List.singleton_append]

theorem Valid.finish (h : w.Valid) : ∃ pad, bytesBits w.finish = w.bits ++ pad := by
  have hposition := h.position_lt
  unfold BitWriter.finish
  split_ifs with hpos
  · refine ⟨bitsOf (8 - w.bitPosition) w.currentByte.toNat, ?_⟩
    have hbyte : bitsOf 8 w.currentByte.toNat =
        bitsOf w.bitPosition (w.currentByte.toNat / 2 ^ (8 - w.bitPosition)) ++
          bitsOf (8 - w.bitPosition) w.currentByte.toNat := by
      rw [← bitsOf_add]
      congr 1
      omega
    rw [bytesBits_append, bytesBits_cons, hbyte, bits]
    simp [bytesBits]
  · refine ⟨[], ?_⟩
    have hzero : w.bitPosition = 0 := by omega
    rw [bits, hzero]
    simp [bitsOf]

end BitWriter

/-! ## Reading -/

namespace BitReader

variable {r : BitReader} {l : List Bool}

def rest (r : BitReader) : List Bool :=
  (bytesBits (r.data.drop r.bytePosition)).drop r.bitPosition

/-- A reader that has some bits before it. -/
structure Ready (r : BitReader) (l : List Bool) : Prop where
  position_lt : r.bitPosition < 8
  rest_eq : r.rest = l

theorem ready_start (data : Bytes) : ({ data } : BitReader).Ready (bytesBits data) :=
  ⟨Nat.zero_lt_succ 7, rfl⟩

theorem Ready.readBit {bit : Bool} (h : r.Ready (bit :: l)) :
    ∃ r', r.readBit = some (bit, r') ∧ r'.Ready l := by
  obtain ⟨hposition, hrest⟩ := h
  unfold rest at hrest
  cases hdata : r.data.drop r.bytePosition with
  | nil =>
    rw [hdata] at hrest
    simp [bytesBits] at hrest
  | cons byte tail =>
    have hget : r.data[r.bytePosition]? = some byte := by
      rw [← List.head?_drop, hdata, List.head?_cons]
    have htail : r.data.drop (r.bytePosition + 1) = tail := by
      rw [← List.drop_drop, hdata, List.drop_one, List.tail_cons]
    have hsplit : (bitsOf 8 byte.toNat).drop r.bitPosition =
        bitsOf (7 - r.bitPosition + 1) byte.toNat := by
      rw [← drop_bitsOf r.bitPosition (7 - r.bitPosition + 1)]
      congr 2
      omega
    rw [hdata, bytesBits_cons, List.drop_append_of_le_length (by rw [length_bitsOf]; omega),
      hsplit, bitsOf, List.cons_append, List.cons.injEq] at hrest
    obtain ⟨hbit, hrest⟩ := hrest
    have hread : decide (byte >>> UInt8.ofNat (7 - r.bitPosition) &&& 1 = 1) = bit := by
      have hmod : (7 - r.bitPosition) % 2 ^ 8 % 8 = 7 - r.bitPosition := by omega
      rw [← hbit, Nat.testBit_eq_decide_div_mod_eq]
      refine decide_eq_decide.mpr ?_
      rw [← UInt8.toNat_inj, UInt8.toNat_and, UInt8.toNat_shiftRight, UInt8.toNat_ofNat', hmod,
        Nat.shiftRight_eq_div_pow, UInt8.toNat_one, Nat.and_one_is_mod]
    unfold BitReader.readBit
    rw [hget]
    dsimp only
    rw [hread]
    split_ifs with hfull
    · refine ⟨_, rfl, by dsimp only; omega, ?_⟩
      have hzero : 7 - r.bitPosition = 0 := by omega
      rw [hzero] at hrest
      unfold rest
      dsimp only
      rw [htail]
      exact hrest
    · refine ⟨_, rfl, by dsimp only; omega, ?_⟩
      unfold rest
      dsimp only
      rw [hdata, bytesBits_cons, List.drop_append_of_le_length (by rw [length_bitsOf]; omega)]
      have hdrop : (bitsOf 8 byte.toNat).drop (r.bitPosition + 1) =
          bitsOf (7 - r.bitPosition) byte.toNat := by
        rw [← drop_bitsOf (r.bitPosition + 1) (7 - r.bitPosition)]
        congr 2
        omega
      rw [hdrop]
      exact hrest

/-- The bits of a number are read behind those that there are already. -/
theorem Ready.readBitsFrom (value : UInt64) {n numBits : ℕ}
    (h : r.Ready (bitsOf numBits n ++ l)) :
    ∃ r', readBitsFrom value r numBits =
      some (UInt64.ofNat (value.toNat * 2 ^ numBits + n % 2 ^ numBits), r') ∧ r'.Ready l := by
  induction numBits generalizing r value with
  | zero =>
    refine ⟨r, ?_, h⟩
    rw [BitReader.readBitsFrom, Nat.pow_zero, Nat.mul_one, Nat.mod_one, Nat.add_zero,
      UInt64.ofNat_toNat]
  | succ numBits ih =>
    rw [bitsOf, List.cons_append] at h
    obtain ⟨r', hread, hready⟩ := h.readBit
    obtain ⟨r'', hreads, hready'⟩ := ih (value <<< 1 ||| (n.testBit numBits).toUInt64) hready
    refine ⟨r'', ?_, hready'⟩
    rw [BitReader.readBitsFrom, hread]
    dsimp only
    rw [hreads]
    have hvalue : (value <<< 1 ||| (n.testBit numBits).toUInt64) =
        UInt64.ofNat (2 * value.toNat + (n.testBit numBits).toNat) := by
      have hbit : (n.testBit numBits).toUInt64.toNat = (n.testBit numBits).toNat := by
        cases n.testBit numBits <;> rfl
      have hbit_lt : (n.testBit numBits).toNat < 2 ^ 1 := Bool.toNat_lt _
      have heven : value.toNat <<< 1 % 2 ^ 64 = 2 ^ 1 * (value.toNat % 2 ^ 63) := by
        rw [Nat.shiftLeft_eq, Nat.pow_one]
        omega
      rw [← UInt64.toNat_inj, UInt64.toNat_or, UInt64.toNat_shiftLeft, UInt64.toNat_ofNat',
        UInt64.toNat_one, heven, hbit, ← Nat.two_pow_add_eq_or_of_lt hbit_lt, Nat.pow_one]
      omega
    rw [hvalue, UInt64.toNat_ofNat', ← testBit_mul_add_mod numBits n]
    refine congrArg some (congrArg₂ Prod.mk ?_ rfl)
    rw [← UInt64.toNat_inj, UInt64.toNat_ofNat', UInt64.toNat_ofNat', Nat.pow_succ,
      Nat.add_mod, Nat.mod_mul_mod, ← Nat.add_mod]
    congr 1
    ring

theorem Ready.readBits {n numBits : ℕ} (h : r.Ready (bitsOf numBits n ++ l)) :
    ∃ r', r.readBits numBits = some (UInt64.ofNat (n % 2 ^ numBits), r') ∧ r'.Ready l := by
  obtain ⟨r', hread, hready⟩ := h.readBitsFrom 0
  refine ⟨r', ?_, hready⟩
  rw [BitReader.readBits, hread, UInt64.toNat_zero, Nat.zero_mul, Nat.zero_add]

end BitReader

end TimeSeries

end AegisDB
