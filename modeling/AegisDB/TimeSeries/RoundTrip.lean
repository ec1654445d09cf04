import AegisDB.TimeSeries.BitStream

/-!
# Points out of a block

The compressor and the decompressor go through the points in step: after each point they agree on
its time, on its distance to the point before, on its value, and on the bits of a value that were
last said to be the ones that change.  A change of distance is written in one of five classes, a
value in one of three, and each class is read as what was written.  So the points of a block are the
points that it was made from, their times in milliseconds.
-/

namespace AegisDB

namespace TimeSeries

/-! ## Times -/

namespace DateTime

instance : LE DateTime :=
  ⟨fun t t' => t.nanos ≤ t'.nanos⟩

instance : LT DateTime :=
  ⟨fun t t' => t.nanos < t'.nanos⟩

instance (t t' : DateTime) : Decidable (t ≤ t') :=
  inferInstanceAs (Decidable (t.nanos ≤ t'.nanos))

instance (t t' : DateTime) : Decidable (t < t') :=
  inferInstanceAs (Decidable (t.nanos < t'.nanos))

def truncated (t : DateTime) : DateTime :=
  ⟨t.nanos / 1000000 * 1000000, by
    have h := t.inRange
    constructor <;> omega⟩

def MillisInRange (millis : Int64) : Prop :=
  -8334601228800000 ≤ millis.toInt ∧ millis.toInt < 8210266876800000

theorem toInt_timestampMillis (t : DateTime) : t.timestampMillis.toInt = t.nanos / 1000000 := by
  have h := t.inRange
  refine Int64.toInt_ofInt_of_le ?_ ?_ <;> omega

theorem millisInRange (t : DateTime) : MillisInRange t.timestampMillis := by
  have h := t.inRange
  rw [MillisInRange, toInt_timestampMillis]
  omega

theorem fromTimestampMillis_timestampMillis (t : DateTime) :
    fromTimestampMillis t.timestampMillis = some t.truncated := by
  have h := t.millisInRange
  unfold MillisInRange at h
  rw [fromTimestampMillis, dif_pos h]
  refine congrArg some ?_
  rw [DateTime.mk.injEq, toInt_timestampMillis]
  rfl

theorem truncated_eq_self {t : DateTime} (h : t.IsWhole) : t.truncated = t := by
  unfold IsWhole at h
  obtain ⟨nanos, _⟩ := t
  rw [truncated, DateTime.mk.injEq]
  dsimp only at h ⊢
  omega

theorem timestampMillis_truncated (t : DateTime) :
    t.truncated.timestampMillis = t.timestampMillis := by
  unfold timestampMillis truncated
  rw [Int.mul_ediv_cancel _ (by decide)]

end DateTime

def DataPoint.stored (p : DataPoint) : DataPoint :=
  ⟨p.timestamp.truncated, p.value⟩

theorem DataPoint.stored_eq_self {p : DataPoint} (h : p.timestamp.IsWhole) : p.stored = p := by
  rw [DataPoint.stored, DateTime.truncated_eq_self h]

/-! ## The bits of a value that change -/

section Zeros

variable {value : UInt64} {leading trailing : ℕ}

theorem log2_lt (value : UInt64) : value.toNat.log2 < 64 := by
  by_cases h : value.toNat = 0
  · rw [h]
    decide
  · exact (Nat.log2_lt h).mpr value.toNat_lt

theorem lt_two_pow_leadingZeros (h : value ≠ 0) :
    leadingZeros value < 64 ∧ value.toNat < 2 ^ (64 - leadingZeros value) := by
  have hlog := log2_lt value
  rw [leadingZeros, if_neg h]
  refine ⟨by omega, ?_⟩
  have hexponent : 64 - (63 - value.toNat.log2) = value.toNat.log2 + 1 := by omega
  rw [hexponent]
  exact Nat.lt_log2_self

/-- There are as many zeros below the lowest bit as are counted. -/
theorem trailingZeros_spec (h : value ≠ 0) :
    value.toNat.testBit (trailingZeros value) = true ∧
      2 ^ trailingZeros value ∣ value.toNat := by
  have hne : value.toNat ≠ 0 := fun hzero => h (UInt64.toNat_inj.mp hzero)
  unfold trailingZeros
  cases hfind : (List.range 64).find? fun i => value.toNat.testBit i with
  | none =>
    have hall := List.find?_eq_none.mp hfind
    exact absurd (Nat.testBit_log2 hne) (hall _ (List.mem_range.mpr (log2_lt value)))
  | some i =>
    rw [Option.getD_some]
    rw [List.find?_range_eq_some] at hfind
    obtain ⟨hbit, -, hbelow⟩ := hfind
    refine ⟨hbit, Nat.dvd_of_mod_eq_zero (Nat.eq_of_testBit_eq fun j => ?_)⟩
    rw [Nat.testBit_mod_two_pow, Nat.zero_testBit]
    by_cases hj : j < i
    · have := hbelow j hj
      simp_all
    · simp [hj]

theorem leadingZeros_add_trailingZeros_lt (h : value ≠ 0) :
    leadingZeros value + trailingZeros value < 64 := by
  have hle : 2 ^ trailingZeros value ≤ value.toNat :=
    Nat.ge_two_pow_of_testBit (trailingZeros_spec h).1
  obtain ⟨hlt, hvalue⟩ := lt_two_pow_leadingZeros h
  have hpow := (Nat.pow_lt_pow_iff_right (by decide)).mp (hle.trans_lt hvalue)
  omega

theorem shift_window (hhigh : value.toNat < 2 ^ (64 - leading)) (hlow : 2 ^ trailing ∣ value.toNat)
    (h : leading + trailing < 64) :
    UInt64.ofNat ((value >>> UInt64.ofNat trailing).toNat % 2 ^ (64 - leading - trailing)) <<<
      UInt64.ofNat trailing = value := by
  obtain ⟨n, hn⟩ := hlow
  have hmod : trailing % 2 ^ 64 % 64 = trailing := by omega
  have hpow : 2 ^ (64 - leading) = 2 ^ trailing * 2 ^ (64 - leading - trailing) := by
    rw [← Nat.pow_add]
    congr 1
    omega
  have hlt : n < 2 ^ (64 - leading - trailing) := by
    rw [hn, hpow] at hhigh
    exact Nat.lt_of_mul_lt_mul_left hhigh
  have hle : n ≤ value.toNat := by
    rw [hn]
    exact Nat.le_mul_of_pos_left n (Nat.two_pow_pos _)
  have hvalue := value.toNat_lt
  rw [← UInt64.toNat_inj, UInt64.toNat_shiftLeft, UInt64.toNat_ofNat', UInt64.toNat_shiftRight,
    UInt64.toNat_ofNat', hmod, Nat.shiftRight_eq_div_pow, hn,
    Nat.mul_div_cancel_left n (Nat.two_pow_pos _), Nat.mod_eq_of_lt hlt,
    Nat.mod_eq_of_lt (by omega : n < 2 ^ 64), Nat.shiftLeft_eq, Nat.mul_comm, ← hn,
    Nat.mod_eq_of_lt hvalue]

end Zeros

/-! ## Changes of distance -/

/-- The bits of a change of distance. -/
def deltaCode (deltaOfDelta : Int64) : List Bool :=
  if deltaOfDelta = 0 then [false]
  else if -63 ≤ deltaOfDelta ∧ deltaOfDelta ≤ 64 then
    [true, false] ++ bitsOf 7 (deltaOfDelta + 63).toUInt64.toNat
  else if -255 ≤ deltaOfDelta ∧ deltaOfDelta ≤ 256 then
    [true, true, false] ++ bitsOf 9 (deltaOfDelta + 255).toUInt64.toNat
  else if -2047 ≤ deltaOfDelta ∧ deltaOfDelta ≤ 2048 then
    [true, true, true, false] ++ bitsOf 12 (deltaOfDelta + 2047).toUInt64.toNat
  else [true, true, true, true] ++ bitsOf 64 deltaOfDelta.toUInt64.toNat

theorem BitWriter.Valid.writeClass {w : BitWriter} (h : w.Valid) (marker value : UInt64)
    {width numBits : ℕ} (hwidth : width ≤ 64) (hnum : numBits ≤ 64) :
    ((w.writeBits marker width).writeBits value numBits).Valid ∧
      ((w.writeBits marker width).writeBits value numBits).bits =
        w.bits ++ (bitsOf width marker.toNat ++ bitsOf numBits value.toNat) := by
  obtain ⟨hvalid, hbits⟩ := h.writeBits marker hwidth
  obtain ⟨hvalid', hbits'⟩ := hvalid.writeBits value hnum
  exact ⟨hvalid', by rw [hbits', hbits, List.append_assoc]⟩

theorem Compressor.compressTimestamp_spec {c : Compressor} (h : c.writer.Valid)
    (timestamp : Int64) :
    (c.compressTimestamp timestamp).writer.Valid ∧
      (c.compressTimestamp timestamp).writer.bits =
        c.writer.bits ++ deltaCode (timestamp - c.prevTimestamp - c.prevDelta) := by
  unfold Compressor.compressTimestamp deltaCode
  dsimp only
  split_ifs
  · exact h.writeBit false
  · exact h.writeClass _ _ (by decide) (by decide)
  · exact h.writeClass _ _ (by decide) (by decide)
  · exact h.writeClass _ _ (by decide) (by decide)
  · exact h.writeClass _ _ (by decide) (by decide)

/-- A change of distance that is in the range of its class. -/
theorem toInt64_sub_of_class {deltaOfDelta offset : Int64} {width : ℕ} (hwidth : width ≤ 62)
    (hlow : 0 ≤ deltaOfDelta.toInt + offset.toInt)
    (hhigh : deltaOfDelta.toInt + offset.toInt < 2 ^ width) :
    (UInt64.ofNat ((deltaOfDelta + offset).toUInt64.toNat % 2 ^ width)).toInt64 - offset =
      deltaOfDelta := by
  have hpow : (2 : ℤ) ^ width ≤ 2 ^ 62 := by
    exact_mod_cast Nat.pow_le_pow_right (by decide : 0 < 2) hwidth
  have hsum : (deltaOfDelta + offset).toInt = deltaOfDelta.toInt + offset.toInt := by
    rw [Int64.toInt_add]
    refine Int.bmod_eq_of_le ?_ ?_ <;> norm_num <;> omega
  have hnonneg : 0 ≤ deltaOfDelta + offset := by
    rw [Int64.le_iff_toInt_le, hsum]
    exact hlow
  have hlt : (deltaOfDelta + offset).toUInt64.toNat < 2 ^ width := by
    rw [Int64.toNat_toUInt64_of_le hnonneg]
    have htoNat : (deltaOfDelta + offset).toNatClampNeg = (deltaOfDelta + offset).toInt.toNat := rfl
    rw [htoNat, hsum, Int.toNat_lt' (Nat.two_pow_pos width)]
    exact_mod_cast hhigh
  rw [Nat.mod_eq_of_lt hlt, UInt64.ofNat_toNat]
  change deltaOfDelta + offset - offset = deltaOfDelta
  rw [Int64.add_sub_cancel]

theorem BitReader.Ready.readClass {r : BitReader} {l : List Bool} {deltaOfDelta offset : Int64}
    {width : ℕ} (h : r.Ready (bitsOf width (deltaOfDelta + offset).toUInt64.toNat ++ l))
    (hwidth : width ≤ 62)
    (hrange : 0 ≤ deltaOfDelta.toInt + offset.toInt ∧
      deltaOfDelta.toInt + offset.toInt < 2 ^ width) :
    ∃ value r', r.readBits width = some (value, r') ∧ value.toInt64 - offset = deltaOfDelta ∧
      r'.Ready l := by
  obtain ⟨r', hread, hready⟩ := h.readBits
  exact ⟨_, r', hread, toInt64_sub_of_class hwidth hrange.1 hrange.2, hready⟩

theorem readDeltaOfDelta_spec {r : BitReader} {l : List Bool} {deltaOfDelta : Int64}
    (h : r.Ready (deltaCode deltaOfDelta ++ l)) :
    ∃ r', Decompressor.readDeltaOfDelta r = some (deltaOfDelta, r') ∧ r'.Ready l := by
  unfold deltaCode at h
  unfold Decompressor.readDeltaOfDelta
  simp only [Int64.le_iff_toInt_le] at h
  split_ifs at h with h₀ h₁ h₂ h₃
  · obtain ⟨r₁, hread, hready⟩ := h.readBit
    refine ⟨r₁, ?_, hready⟩
    rw [hread, h₀]
    rfl
  · obtain ⟨r₁, hread₁, hready₁⟩ := h.readBit
    obtain ⟨r₂, hread₂, hready₂⟩ := hready₁.readBit
    have hrange : 0 ≤ deltaOfDelta.toInt + (63 : Int64).toInt ∧
        deltaOfDelta.toInt + (63 : Int64).toInt < 2 ^ 7 := by
      have hlow : (-63 : Int64).toInt = -63 := rfl
      have hhigh : (64 : Int64).toInt = 64 := rfl
      have hoffset : (63 : Int64).toInt = 63 := rfl
      omega
    obtain ⟨value, r₃, hread₃, hvalue, hready₃⟩ := hready₂.readClass (by decide) hrange
    refine ⟨r₃, ?_, hready₃⟩
    simp [hread₁, hread₂, hread₃, hvalue]
  · obtain ⟨r₁, hread₁, hready₁⟩ := h.readBit
    obtain ⟨r₂, hread₂, hready₂⟩ := hready₁.readBit
    obtain ⟨r₃, hread₃, hready₃⟩ := hready₂.readBit
    have hrange : 0 ≤ deltaOfDelta.toInt + (255 : Int64).toInt ∧
        deltaOfDelta.toInt + (255 : Int64).toInt < 2 ^ 9 := by
      have hlow : (-255 : Int64).toInt = -255 := rfl
      have hhigh : (256 : Int64).toInt = 256 := rfl
      have hoffset : (255 : Int64).toInt = 255 := rfl
      omega
    obtain ⟨value, r₄, hread₄, hvalue, hready₄⟩ := hready₃.readClass (by decide) hrange
    refine ⟨r₄, ?_, hready₄⟩
    simp [hread₁, hread₂, hread₃, hread₄, hvalue]
  · obtain ⟨r₁, hread₁, hready₁⟩ := h.readBit
    obtain ⟨r₂, hread₂, hready₂⟩ := hready₁.readBit
    obtain ⟨r₃, hread₃, hready₃⟩ := hready₂.readBit
    obtain ⟨r₄, hread₄, hready₄⟩ := hready₃.readBit
    have hrange : 0 ≤ deltaOfDelta.toInt + (2047 : Int64).toInt ∧
        deltaOfDelta.toInt + (2047 : Int64).toInt < 2 ^ 12 := by
      have hlow : (-2047 : Int64).toInt = -2047 := rfl
      have hhigh : (2048 : Int64).toInt = 2048 := rfl
      have hoffset : (2047 : Int64).toInt = 2047 := rfl
      omega
    obtain ⟨value, r₅, hread₅, hvalue, hready₅⟩ := hready₄.readClass (by decide) hrange
    refine ⟨r₅, ?_, hready₅⟩
    simp [hread₁, hread₂, hread₃, hread₄, hread₅, hvalue]
  · obtain ⟨r₁, hread₁, hready₁⟩ := h.readBit
    obtain ⟨r₂, hread₂, hready₂⟩ := hready₁.readBit
    obtain ⟨r₃, hread₃, hready₃⟩ := hready₂.readBit
    obtain ⟨r₄, hread₄, hready₄⟩ := hready₃.readBit
    obtain ⟨r₅, hread₅, hready₅⟩ := hready₄.readBits
    refine ⟨r₅, ?_, hready₅⟩
    simp [hread₁, hread₂, hread₃, hread₄, hread₅]

theorem checkedAdd_sub {a b : Int64} (h : (b - a).toInt = b.toInt - a.toInt) :
    checkedAdd a (b - a) = some b := by
  have hlow := b.le_toInt
  have hhigh := b.toInt_lt
  have hsum : a.toInt + (b - a).toInt = b.toInt := by
    rw [h]
    omega
  rw [checkedAdd, hsum, if_pos ⟨hlow, hhigh⟩]
  refine congrArg some ?_
  grind

theorem toInt_sub_of_bounds {a b : Int64} (hlow : -2 ^ 63 ≤ a.toInt - b.toInt)
    (hhigh : a.toInt - b.toInt < 2 ^ 63) : (a - b).toInt = a.toInt - b.toInt := by
  rw [Int64.toInt_sub]
  refine Int.bmod_eq_of_le ?_ ?_ <;> norm_num <;> omega

/-! ## Values -/

/-- The bits of a value that is different from the one before in some bits, and the bits that were
last said to be the ones that change. -/
def valueCode (leading trailing : ℕ) (xor : UInt64) : List Bool :=
  if xor = 0 then [false]
  else if leadingZeros xor ≥ leading ∧ trailingZeros xor ≥ trailing then
    [true, false] ++ bitsOf (64 - leading - trailing) (xor >>> UInt64.ofNat trailing).toNat
  else
    let meaningfulBits := 64 - leadingZeros xor - trailingZeros xor
    [true, true] ++ (bitsOf 6 (UInt64.ofNat (leadingZeros xor)).toNat ++
      (bitsOf 6 (UInt64.ofNat (meaningfulBits % 64)).toNat ++
        bitsOf meaningfulBits (xor >>> UInt64.ofNat (trailingZeros xor)).toNat))

theorem Compressor.compressValue_spec {c : Compressor} (h : c.writer.Valid) (valueBits : UInt64) :
    (c.compressValue valueBits).writer.Valid ∧
      (c.compressValue valueBits).writer.bits = c.writer.bits ++
        valueCode c.prevLeadingZeros c.prevTrailingZeros (c.prevValueBits ^^^ valueBits) := by
  unfold Compressor.compressValue valueCode
  dsimp only
  split_ifs
  · exact h.writeBit false
  · obtain ⟨h₁, hbits₁⟩ := h.writeBit true
    obtain ⟨h₂, hbits₂⟩ := h₁.writeBit false
    obtain ⟨h₃, hbits₃⟩ := h₂.writeBits
      ((c.prevValueBits ^^^ valueBits) >>> UInt64.ofNat c.prevTrailingZeros)
      (by omega : 64 - c.prevLeadingZeros - c.prevTrailingZeros ≤ 64)
    refine ⟨h₃, ?_⟩
    rw [hbits₃, hbits₂, hbits₁]
    simp
  · obtain ⟨h₁, hbits₁⟩ := h.writeBit true
    obtain ⟨h₂, hbits₂⟩ := h₁.writeBit true
    obtain ⟨h₃, hbits₃⟩ := h₂.writeBits
      (UInt64.ofNat (leadingZeros (c.prevValueBits ^^^ valueBits))) (by decide : 6 ≤ 64)
    obtain ⟨h₄, hbits₄⟩ := h₃.writeBits (UInt64.ofNat
      ((64 - leadingZeros (c.prevValueBits ^^^ valueBits) -
        trailingZeros (c.prevValueBits ^^^ valueBits)) % 64)) (by decide : 6 ≤ 64)
    obtain ⟨h₅, hbits₅⟩ := h₄.writeBits
      ((c.prevValueBits ^^^ valueBits) >>>
        UInt64.ofNat (trailingZeros (c.prevValueBits ^^^ valueBits)))
      (by omega : 64 - leadingZeros (c.prevValueBits ^^^ valueBits) -
        trailingZeros (c.prevValueBits ^^^ valueBits) ≤ 64)
    refine ⟨h₅, ?_⟩
    rw [hbits₅, hbits₄, hbits₃, hbits₂, hbits₁]
    simp

/-- The bits that change, as both sides have them: either nobody has said yet which they are, or
both know, and there are some. -/
def SameWindow (leading trailing leading' trailing' : ℕ) : Prop :=
  leading = 64 ∨ (leading' = leading ∧ trailing' = trailing ∧ leading + trailing < 64)

def windowAfter (leading trailing : ℕ) (xor : UInt64) : ℕ × ℕ :=
  if xor = 0 ∨ (leadingZeros xor ≥ leading ∧ trailingZeros xor ≥ trailing) then (leading, trailing)
  else (leadingZeros xor, trailingZeros xor)

theorem Compressor.window_compressValue (c : Compressor) (valueBits : UInt64) :
    ((c.compressValue valueBits).prevLeadingZeros, (c.compressValue valueBits).prevTrailingZeros) =
      windowAfter c.prevLeadingZeros c.prevTrailingZeros (c.prevValueBits ^^^ valueBits) := by
  unfold Compressor.compressValue windowAfter
  dsimp only
  split_ifs <;> first | rfl | (exfalso; tauto)

theorem BitReader.Ready.readWindow {r : BitReader} {l : List Bool} {leading trailing : ℕ}
    {xor : UInt64}
    (h : r.Ready (bitsOf (64 - leading - trailing) (xor >>> UInt64.ofNat trailing).toNat ++ l))
    (hzero : xor ≠ 0) (hleading : leading ≤ leadingZeros xor)
    (htrailing : trailing ≤ trailingZeros xor) :
    ∃ value r', r.readBits (64 - leading - trailing) = some (value, r') ∧
      value <<< UInt64.ofNat trailing = xor ∧ r'.Ready l := by
  obtain ⟨r', hread, hready⟩ := h.readBits
  have hsum := leadingZeros_add_trailingZeros_lt hzero
  have hhigh := (lt_two_pow_leadingZeros hzero).2
  refine ⟨_, r', hread, shift_window ?_ ?_ (by omega), hready⟩
  · exact hhigh.trans_le (Nat.pow_le_pow_right (by decide) (by omega))
  · exact (Nat.pow_dvd_pow 2 htrailing).trans (trailingZeros_spec hzero).2

theorem BitReader.Ready.readSmall {r : BitReader} {l : List Bool} {n : ℕ}
    (h : r.Ready (bitsOf 6 (UInt64.ofNat n).toNat ++ l)) (hn : n < 64) :
    ∃ r', r.readBits 6 = some (UInt64.ofNat n, r') ∧ r'.Ready l := by
  obtain ⟨r', hread, hready⟩ := h.readBits
  refine ⟨r', ?_, hready⟩
  rw [hread, UInt64.toNat_ofNat', Nat.mod_eq_of_lt (by omega : n < 2 ^ 64),
    Nat.mod_eq_of_lt (by omega : n < 2 ^ 6)]

theorem decompressValue_spec {d : Decompressor} {l : List Bool} {leading trailing : ℕ}
    {valueBits : UInt64}
    (h : d.reader.Ready (valueCode leading trailing (d.prevValueBits ^^^ valueBits) ++ l))
    (hwindow : SameWindow leading trailing d.prevLeadingZeros d.prevTrailingZeros) :
    ∃ r' leading' trailing',
      d.decompressValue = some (valueBits,
        { d with reader := r', prevLeadingZeros := leading', prevTrailingZeros := trailing' }) ∧
      r'.Ready l ∧
      SameWindow (windowAfter leading trailing (d.prevValueBits ^^^ valueBits)).1
        (windowAfter leading trailing (d.prevValueBits ^^^ valueBits)).2 leading' trailing' := by
  have hxor : d.prevValueBits ^^^ (d.prevValueBits ^^^ valueBits) = valueBits := by
    rw [← UInt64.xor_assoc, UInt64.xor_self, UInt64.zero_xor]
  generalize d.prevValueBits ^^^ valueBits = xor at h hxor ⊢
  unfold valueCode at h
  unfold Decompressor.decompressValue windowAfter
  by_cases hzero : xor = 0
  · rw [if_pos hzero] at h
    rw [if_pos (Or.inl hzero)]
    obtain ⟨r₁, hread₁, hready₁⟩ := h.readBit
    rw [hzero, UInt64.xor_zero] at hxor
    refine ⟨r₁, d.prevLeadingZeros, d.prevTrailingZeros, ?_, hready₁, hwindow⟩
    simp [hread₁, hxor]
  rw [if_neg hzero] at h
  have hsum := leadingZeros_add_trailingZeros_lt hzero
  by_cases hreuse : leadingZeros xor ≥ leading ∧ trailingZeros xor ≥ trailing
  · rw [if_pos hreuse] at h
    rw [if_pos (Or.inr hreuse)]
    obtain ⟨r₁, hread₁, hready₁⟩ := h.readBit
    obtain ⟨r₂, hread₂, hready₂⟩ := hready₁.readBit
    rcases hwindow with hnone | ⟨hleading, htrailing, hlt⟩
    · omega
    obtain ⟨value, r₃, hread₃, hvalue, hready₃⟩ := hready₂.readWindow hzero hreuse.1 hreuse.2
    refine ⟨r₃, leading, trailing, ?_, hready₃, Or.inr ⟨rfl, rfl, hlt⟩⟩
    have hnot : ¬ 64 ≤ leading + trailing := by omega
    obtain ⟨reader, prevTimestamp, prevDelta, prevValueBits, _, _, firstRead⟩ := d
    dsimp only at hleading htrailing hread₁ hxor ⊢
    subst hleading htrailing
    simp [hread₁, hread₂, hread₃, hvalue, hxor, hnot]
  · rw [if_neg hreuse] at h
    rw [if_neg (by tauto)]
    dsimp only at h
    obtain ⟨r₁, hread₁, hready₁⟩ := h.readBit
    obtain ⟨r₂, hread₂, hready₂⟩ := hready₁.readBit
    have hready₂' : r₂.Ready (bitsOf 6 (UInt64.ofNat (leadingZeros xor)).toNat ++
        (bitsOf 6 (UInt64.ofNat ((64 - leadingZeros xor - trailingZeros xor) % 64)).toNat ++
          (bitsOf (64 - leadingZeros xor - trailingZeros xor)
            (xor >>> UInt64.ofNat (trailingZeros xor)).toNat ++ l))) := by
      simpa using hready₂
    obtain ⟨r₃, hread₃, hready₃⟩ := hready₂'.readSmall (by omega)
    obtain ⟨r₄, hread₄, hready₄⟩ := hready₃.readSmall (by omega)
    obtain ⟨value, r₅, hread₅, hvalue, hready₅⟩ := hready₄.readWindow hzero le_rfl le_rfl
    have hleading : (UInt64.ofNat (leadingZeros xor)).toNat = leadingZeros xor := by
      rw [UInt64.toNat_ofNat']
      omega
    -- sixty-four bits were written as zero
    have hmeaningful : (if UInt64.ofNat ((64 - leadingZeros xor - trailingZeros xor) % 64) = 0
        then 64 else (UInt64.ofNat ((64 - leadingZeros xor - trailingZeros xor) % 64)).toNat) =
        64 - leadingZeros xor - trailingZeros xor := by
      have hcount : (UInt64.ofNat ((64 - leadingZeros xor - trailingZeros xor) % 64)).toNat =
          (64 - leadingZeros xor - trailingZeros xor) % 64 := by
        rw [UInt64.toNat_ofNat']
        omega
      split_ifs with hfull
      · rw [hfull, UInt64.toNat_zero] at hcount
        omega
      · have hne : (64 - leadingZeros xor - trailingZeros xor) % 64 ≠ 0 := fun hzero' =>
          hfull (UInt64.toNat_inj.mp (hcount.trans hzero'))
        omega
    have hnot : ¬ leadingZeros xor + (64 - leadingZeros xor - trailingZeros xor) > 64 := by omega
    have htrailing : 64 - leadingZeros xor - (64 - leadingZeros xor - trailingZeros xor) =
        trailingZeros xor := by omega
    refine ⟨r₅, leadingZeros xor, trailingZeros xor, ?_, hready₅, Or.inr ⟨rfl, rfl, hsum⟩⟩
    generalize UInt64.ofNat (leadingZeros xor) = leadingBits at hread₃ hleading
    generalize UInt64.ofNat ((64 - leadingZeros xor - trailingZeros xor) % 64) = countBits
      at hread₄ hmeaningful
    simp only [hread₁, hread₂, hread₃, hread₄, Option.bind_eq_bind, Option.bind_some, hleading,
      hmeaningful, hnot, htrailing, hread₅, hvalue, hxor]
    simp

/-! ## Points -/

/-- What the compressor has done so far. -/
structure Compressor.Sound (c : Compressor) : Prop where
  valid : c.writer.Valid
  timestamp : DateTime.MillisInRange c.prevTimestamp
  delta : -2 ^ 55 ≤ c.prevDelta.toInt ∧ c.prevDelta.toInt ≤ 2 ^ 55

/-- Both sides are after the same point. -/
structure Agree (c : Compressor) (d : Decompressor) : Prop where
  started : c.firstTimestamp ≠ none
  firstRead : d.firstRead = false
  timestamp : d.prevTimestamp = c.prevTimestamp
  delta : d.prevDelta = c.prevDelta
  valueBits : d.prevValueBits = c.prevValueBits
  window : SameWindow c.prevLeadingZeros c.prevTrailingZeros d.prevLeadingZeros d.prevTrailingZeros

theorem decompressTimestamp_spec {c : Compressor} {d : Decompressor} {l : List Bool}
    {timestamp : Int64} (hc : c.Sound) (h : Agree c d)
    (htimestamp : DateTime.MillisInRange timestamp)
    (hready : d.reader.Ready (deltaCode (timestamp - c.prevTimestamp - c.prevDelta) ++ l)) :
    ∃ r', d.decompressTimestamp = some (timestamp,
        { d with reader := r', prevDelta := timestamp - c.prevTimestamp }) ∧ r'.Ready l := by
  obtain ⟨r', hread, hready'⟩ := readDeltaOfDelta_spec hready
  refine ⟨r', ?_, hready'⟩
  have hbefore := hc.timestamp
  have hdelta := hc.delta
  unfold DateTime.MillisInRange at htimestamp hbefore
  have hsub := toInt_sub_of_bounds (a := timestamp) (b := c.prevTimestamp) (by omega) (by omega)
  have hsub' := toInt_sub_of_bounds (a := timestamp - c.prevTimestamp) (b := c.prevDelta)
    (by omega) (by omega)
  unfold Decompressor.decompressTimestamp
  simp [hread, h.delta, h.timestamp, checkedAdd_sub hsub, checkedAdd_sub hsub']

theorem Compressor.compressTimestamp_fields (c : Compressor) (timestamp : Int64) :
    (c.compressTimestamp timestamp).prevDelta = timestamp - c.prevTimestamp ∧
      (c.compressTimestamp timestamp).prevValueBits = c.prevValueBits ∧
      (c.compressTimestamp timestamp).prevLeadingZeros = c.prevLeadingZeros ∧
      (c.compressTimestamp timestamp).prevTrailingZeros = c.prevTrailingZeros ∧
      (c.compressTimestamp timestamp).firstTimestamp = c.firstTimestamp ∧
      (c.compressTimestamp timestamp).count = c.count :=
  ⟨rfl, rfl, rfl, rfl, rfl, rfl⟩

theorem Compressor.compressValue_fields (c : Compressor) (valueBits : UInt64) :
    (c.compressValue valueBits).prevDelta = c.prevDelta ∧
      (c.compressValue valueBits).firstTimestamp = c.firstTimestamp ∧
      (c.compressValue valueBits).count = c.count := by
  unfold Compressor.compressValue
  dsimp only
  split_ifs <;> exact ⟨rfl, rfl, rfl⟩

theorem Compressor.compress_of_started {c : Compressor} (h : c.firstTimestamp ≠ none)
    (p : DataPoint) :
    c.compress p =
      { (c.compressTimestamp p.timestamp.timestampMillis).compressValue p.value.bits with
        prevTimestamp := p.timestamp.timestampMillis
        prevValueBits := p.value.bits
        count := c.count + 1 } := by
  obtain ⟨first, hfirst⟩ := Option.ne_none_iff_exists'.mp h
  have hcount := (Compressor.compressValue_fields
    (c.compressTimestamp p.timestamp.timestampMillis) p.value.bits).2.2
  rw [Compressor.compress, hfirst]
  dsimp only
  rw [hcount]
  rfl

/-- One more point: what is written for it is read as it, and both sides agree again. -/
theorem exists_pointCode {c : Compressor} (hc : c.Sound) (hstarted : c.firstTimestamp ≠ none)
    (p : DataPoint) :
    (c.compress p).Sound ∧ (c.compress p).firstTimestamp = c.firstTimestamp ∧
      ∃ code, (c.compress p).writer.bits = c.writer.bits ++ code ∧
        ∀ d l, Agree c d → d.reader.Ready (code ++ l) →
          ∃ d', d.next = some (p.stored, d') ∧ d'.reader.Ready l ∧ Agree (c.compress p) d' := by
  have hinRange := p.timestamp.millisInRange
  obtain ⟨hvalid, hbits⟩ := c.compressTimestamp_spec hc.valid p.timestamp.timestampMillis
  obtain ⟨hvalid', hbits'⟩ := Compressor.compressValue_spec hvalid p.value.bits
  have hfields := Compressor.compressValue_fields
    (c.compressTimestamp p.timestamp.timestampMillis) p.value.bits
  have hwindow := Compressor.window_compressValue
    (c.compressTimestamp p.timestamp.timestampMillis) p.value.bits
  have hdelta := c.compressTimestamp_fields p.timestamp.timestampMillis
  rw [hdelta.2.2.1, hdelta.2.2.2.1, hdelta.2.1] at hbits' hwindow
  rw [hdelta.1, hdelta.2.2.2.2.1] at hfields
  rw [Compressor.compress_of_started hstarted]
  refine ⟨⟨hvalid', hinRange, ?_⟩, hfields.2.1,
    deltaCode (p.timestamp.timestampMillis - c.prevTimestamp - c.prevDelta) ++
      valueCode c.prevLeadingZeros c.prevTrailingZeros (c.prevValueBits ^^^ p.value.bits),
    ?_, ?_⟩
  · have hbefore := hc.timestamp
    unfold DateTime.MillisInRange at hbefore hinRange
    dsimp only
    rw [hfields.1, toInt_sub_of_bounds (by omega) (by omega)]
    omega
  · dsimp only
    rw [hbits', hbits, List.append_assoc]
  · intro d l hagree hready
    rw [List.append_assoc] at hready
    obtain ⟨r₁, hread₁, hready₁⟩ := decompressTimestamp_spec hc hagree hinRange hready
    obtain ⟨r₂, leading, trailing, hread₂, hready₂, hwindow'⟩ := decompressValue_spec
      (d := { d with reader := r₁, prevDelta := p.timestamp.timestampMillis - c.prevTimestamp })
      (by rw [hagree.valueBits]; exact hready₁) hagree.window
    refine ⟨{ d with
        reader := r₂
        prevTimestamp := p.timestamp.timestampMillis
        prevDelta := p.timestamp.timestampMillis - c.prevTimestamp
        prevValueBits := p.value.bits
        prevLeadingZeros := leading
        prevTrailingZeros := trailing }, ?_, hready₂, ?_⟩
    · have hlater : ¬ d.firstRead = true := by
        rw [hagree.firstRead]
        exact Bool.false_ne_true
      rw [Decompressor.next, if_neg hlater, hread₁, Option.bind_eq_bind, Option.bind_some]
      dsimp only
      rw [hread₂, Option.bind_eq_bind, Option.bind_some, Option.bind_eq_bind,
        DateTime.fromTimestampMillis_timestampMillis, Option.bind_some]
      rfl
    · refine ⟨?_, hagree.firstRead, rfl, hfields.1.symm, rfl, ?_⟩
      · dsimp only
        rw [hfields.2.1]
        exact hstarted
      · dsimp only at hwindow' ⊢
        rw [hagree.valueBits, ← hwindow] at hwindow'
        exact hwindow'

theorem Compressor.compress_first (p : DataPoint) :
    ({} : Compressor).compress p =
      { firstTimestamp := some p.timestamp.timestampMillis
        writer := (({} : BitWriter).writeBits p.timestamp.timestampMillis.toUInt64 64).writeBits
          p.value.bits 64
        prevTimestamp := p.timestamp.timestampMillis
        prevValueBits := p.value.bits
        count := 1 } := by
  rw [Compressor.compress]

theorem exists_firstCode (p : DataPoint) :
    (({} : Compressor).compress p).Sound ∧ (({} : Compressor).compress p).firstTimestamp ≠ none ∧
      (({} : Compressor).compress p).writer.bits =
        bitsOf 64 p.timestamp.timestampMillis.toUInt64.toNat ++ bitsOf 64 p.value.bits.toNat ∧
      ∀ r l, r.Ready (bitsOf 64 p.timestamp.timestampMillis.toUInt64.toNat ++
          bitsOf 64 p.value.bits.toNat ++ l) →
        ∃ d', ({ reader := r } : Decompressor).next = some (p.stored, d') ∧ d'.reader.Ready l ∧
          Agree (({} : Compressor).compress p) d' := by
  obtain ⟨hvalid, hbits⟩ := BitWriter.valid_empty.writeBits
    p.timestamp.timestampMillis.toUInt64 le_rfl
  obtain ⟨hvalid', hbits'⟩ := hvalid.writeBits p.value.bits le_rfl
  have hall : (({} : Compressor).compress p).writer.bits =
      bitsOf 64 p.timestamp.timestampMillis.toUInt64.toNat ++ bitsOf 64 p.value.bits.toNat := by
    rw [Compressor.compress_first]
    dsimp only
    rw [hbits', hbits, BitWriter.bits_empty, List.nil_append]
  rw [hall, Compressor.compress_first]
  dsimp only
  refine ⟨⟨?_, p.timestamp.millisInRange, ?_⟩, Option.some_ne_none _, rfl, ?_⟩
  · dsimp only
    exact hvalid'
  · rw [Int64.toInt_zero]
    norm_num
  intro r l hready
  rw [List.append_assoc] at hready
  obtain ⟨r₁, hread₁, hready₁⟩ := hready.readBits
  obtain ⟨r₂, hread₂, hready₂⟩ := hready₁.readBits
  refine ⟨{ reader := r₂, firstRead := false, prevTimestamp := p.timestamp.timestampMillis,
            prevValueBits := p.value.bits }, ?_, hready₂, ?_⟩
  · unfold Decompressor.next
    simp [hread₁, hread₂, DateTime.fromTimestampMillis_timestampMillis, DataPoint.stored]
  · exact ⟨Option.some_ne_none _, rfl, rfl, rfl, rfl, Or.inl rfl⟩

theorem exists_pointsCode {c : Compressor} (hc : c.Sound) (hstarted : c.firstTimestamp ≠ none)
    (points : List DataPoint) :
    (points.foldl Compressor.compress c).writer.Valid ∧
      ∃ code, (points.foldl Compressor.compress c).writer.bits = c.writer.bits ++ code ∧
        ∀ d l, Agree c d → d.reader.Ready (code ++ l) →
          d.decompress points.length = points.map DataPoint.stored := by
  induction points generalizing c with
  | nil => exact ⟨hc.valid, [], (List.append_nil _).symm, fun _ _ _ _ => rfl⟩
  | cons p points ih =>
    obtain ⟨hsound, hfirst, code, hbits, hdecode⟩ := exists_pointCode hc hstarted p
    obtain ⟨hvalid, codes, hbits', hdecodes⟩ := ih hsound (hfirst ▸ hstarted)
    refine ⟨hvalid, code ++ codes, ?_, fun d l hagree hready => ?_⟩
    · rw [List.foldl_cons, hbits', hbits, List.append_assoc]
    · rw [List.append_assoc] at hready
      obtain ⟨d', hnext, hready', hagree'⟩ := hdecode d _ hagree hready
      rw [List.length_cons, Decompressor.decompress, hnext, List.map_cons]
      exact congrArg (p.stored :: ·) (hdecodes d' l hagree' hready')

theorem count_foldl_compress {c : Compressor} (hstarted : c.firstTimestamp ≠ none)
    (points : List DataPoint) :
    (points.foldl Compressor.compress c).count = c.count + points.length := by
  induction points generalizing c with
  | nil => rfl
  | cons p points ih =>
    have hfields := Compressor.compressValue_fields
      (c.compressTimestamp p.timestamp.timestampMillis) p.value.bits
    have hfirst : (c.compress p).firstTimestamp ≠ none := by
      rw [Compressor.compress_of_started hstarted]
      dsimp only
      rw [hfields.2.1]
      exact hstarted
    have hcount : (c.compress p).count = c.count + 1 := by
      rw [Compressor.compress_of_started hstarted]
    rw [List.foldl_cons, ih hfirst, hcount, List.length_cons]
    omega

/-- What the bits of a block of points begin with, and how they are read. -/
theorem exists_blockCode (p : DataPoint) (points : List DataPoint) :
    ∃ codes, bytesBits (Compressor.compressAll (p :: points)).data =
        bitsOf 64 p.timestamp.timestampMillis.toUInt64.toNat ++ codes ∧
      Decompressor.decompressAll (Compressor.compressAll (p :: points)) =
        (p :: points).map DataPoint.stored := by
  obtain ⟨hsound, hstarted, hbits, hdecode⟩ := exists_firstCode p
  obtain ⟨hvalid, codes, hbits', hdecodes⟩ := exists_pointsCode hsound hstarted points
  obtain ⟨pad, hpad⟩ := hvalid.finish
  have hdata : bytesBits (Compressor.compressAll (p :: points)).data =
      (({} : Compressor).compress p).writer.bits ++ (codes ++ pad) := by
    rw [Compressor.compressAll, List.foldl_cons, Compressor.finish, hpad, hbits', List.append_assoc]
  have hcount : (Compressor.compressAll (p :: points)).count = points.length + 1 := by
    rw [Compressor.compressAll, List.foldl_cons, Compressor.finish, count_foldl_compress hstarted,
      Compressor.compress_first]
    exact Nat.add_comm 1 _
  refine ⟨bitsOf 64 p.value.bits.toNat ++ (codes ++ pad), ?_, ?_⟩
  · rw [hdata, hbits, List.append_assoc]
  · have hready := BitReader.ready_start (Compressor.compressAll (p :: points)).data
    rw [hdata, hbits] at hready
    obtain ⟨d', hnext, hready', hagree⟩ := hdecode _ _ hready
    rw [Decompressor.decompressAll, hcount, Decompressor.decompress, hnext, List.map_cons]
    exact congrArg (p.stored :: ·) (hdecodes d' pad hagree hready')

/-! ## Blocks -/

theorem testBit_toUInt64_of_millisInRange {millis : Int64} (h : DateTime.MillisInRange millis) :
    millis.toUInt64.toNat.testBit 63 = millis.toUInt64.toNat.testBit 62 := by
  have htoInt : millis.toInt = if 2 * millis.toUInt64.toNat < 2 ^ 64
      then (millis.toUInt64.toNat : ℤ) else (millis.toUInt64.toNat : ℤ) - (2 ^ 64 : ℕ) :=
    BitVec.toInt_eq_toNat_cond millis.toBitVec
  have hlt := millis.toUInt64.toNat_lt
  unfold DateTime.MillisInRange at h
  rw [Nat.testBit_eq_decide_div_mod_eq, Nat.testBit_eq_decide_div_mod_eq]
  refine decide_eq_decide.mpr ?_
  split_ifs at htoInt <;> omega

/-- A block that the compressor made is no frame of the other codec. -/
theorem not_isNexusBlock_compressAll (points : List DataPoint) :
    isNexusBlock (Compressor.compressAll points) = false := by
  cases points with
  | nil => rfl
  | cons p points =>
    obtain ⟨codes, hbits, -⟩ := exists_blockCode p points
    rw [isNexusBlock, decide_eq_false_iff_not]
    intro hmagic
    cases hdata : (Compressor.compressAll (p :: points)).data with
    | nil =>
      rw [hdata] at hmagic
      cases hmagic
    | cons byte bytes =>
      rw [hdata, List.take_succ_cons] at hmagic
      obtain ⟨rfl, -⟩ := List.cons.inj hmagic
      have hsame := testBit_toUInt64_of_millisInRange p.timestamp.millisInRange
      rw [hdata, bytesBits_cons, bitsOf, bitsOf, bitsOf, bitsOf] at hbits
      obtain ⟨h63, hbits⟩ := List.cons.inj hbits
      obtain ⟨h62, -⟩ := List.cons.inj hbits
      rw [← h63, ← h62] at hsame
      revert hsame
      decide

theorem decodeBlock_compressAll (nexus : NexusCodec) (points : List DataPoint) :
    decodeBlock nexus (Compressor.compressAll points) = points.map DataPoint.stored := by
  rw [decodeBlock, not_isNexusBlock_compressAll, Bool.not_false, if_pos rfl]
  cases points with
  | nil => rfl
  | cons p points =>
    obtain ⟨-, -, hdecode⟩ := exists_blockCode p points
    exact hdecode

theorem map_stored_decodeBlock (nexus : NexusCodec) (block : CompressedBlock) :
    (decodeBlock nexus block).map DataPoint.stored = decodeBlock nexus block := by
  conv_rhs => rw [← List.map_id (decodeBlock nexus block)]
  exact List.map_congr_left fun p hp => DataPoint.stored_eq_self (isWhole_of_mem_decodeBlock hp)

/-- Whatever the points of a block are, it is not taken for a block of the other codec, and it is
decoded to as many points in the same order, with the same milliseconds and the same values bit by
bit. -/
theorem gorilla_roundTrip (nexus : NexusCodec) (points : List DataPoint) :
    isNexusBlock (Compressor.compressAll points) = false ∧
      (decodeBlock nexus (Compressor.compressAll points)).length = points.length ∧
      (decodeBlock nexus (Compressor.compressAll points)).map
          (fun p => (p.timestamp.timestampMillis, p.value.bits)) =
        points.map fun p => (p.timestamp.timestampMillis, p.value.bits) := by
  rw [decodeBlock_compressAll, List.length_map, List.map_map]
  refine ⟨not_isNexusBlock_compressAll points, rfl, List.map_congr_left fun p _ => ?_⟩
  exact congrArg (·, p.value.bits) p.timestamp.timestampMillis_truncated

end TimeSeries

end AegisDB
