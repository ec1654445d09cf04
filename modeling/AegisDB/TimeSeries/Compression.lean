import AegisDB.Library.Binary64
import AegisDB.Library.Bytes
import AegisDB.Library.Crc32

/-!
# Compression of time series

A block has the points of a series as a stream of bits: each time, in milliseconds, as the change of
its distance to the one before, and each value as what is different from the one before.  A block
may also be a frame of another codec, which is told from its first bytes.
-/

namespace AegisDB

namespace TimeSeries

/-- A time that the calendar has. -/
structure DateTime where
  nanos : ℤ
  inRange : -8334601228800000 * 1000000 ≤ nanos ∧ nanos < 8210266876800000 * 1000000
deriving DecidableEq

namespace DateTime

def timestampMillis (t : DateTime) : Int64 :=
  Int64.ofInt (t.nanos / 1000000)

/-- A time from its milliseconds, if the calendar has it. -/
def fromTimestampMillis (millis : Int64) : Option DateTime :=
  if h : -8334601228800000 ≤ millis.toInt ∧ millis.toInt < 8210266876800000 then
    some ⟨millis.toInt * 1000000, by omega⟩
  else none

/-- The nanoseconds, if they are a number of sixty-four bits. -/
def timestampNanosOpt (t : DateTime) : Option Int64 :=
  if -2 ^ 63 ≤ t.nanos ∧ t.nanos < 2 ^ 63 then some (Int64.ofInt t.nanos) else none

/-- The calendar has every time whose nanoseconds are a number of sixty-four bits. -/
def fromTimestampNanos (nanos : Int64) : DateTime :=
  ⟨nanos.toInt, by
    have h₁ := nanos.le_toInt
    have h₂ := nanos.toInt_lt
    constructor <;> omega⟩

def IsWhole (t : DateTime) : Prop :=
  t.nanos % 1000000 = 0

instance (t : DateTime) : Decidable t.IsWhole :=
  inferInstanceAs (Decidable (_ = _))

theorem isWhole_of_fromTimestampMillis {millis : Int64} {t : DateTime}
    (h : fromTimestampMillis millis = some t) : t.IsWhole := by
  unfold fromTimestampMillis at h
  split_ifs at h
  obtain rfl := Option.some.inj h
  exact Int.mul_emod_left _ _

theorem eq_of_timestampMillis {t t' : DateTime} (h : t.IsWhole) (h' : t'.IsWhole)
    (heq : t.timestampMillis = t'.timestampMillis) : t = t' := by
  obtain ⟨n, hn⟩ := t
  obtain ⟨n', hn'⟩ := t'
  have hmillis (m : ℤ) (hm : -8334601228800000 * 1000000 ≤ m ∧ m < 8210266876800000 * 1000000) :
      (Int64.ofInt (m / 1000000)).toInt = m / 1000000 := by
    refine Int64.toInt_ofInt_of_le ?_ ?_ <;> omega
  have hdiv : n / 1000000 = n' / 1000000 := by
    rw [← hmillis n hn, ← hmillis n' hn']
    exact congrArg Int64.toInt heq
  simp only [IsWhole] at h h'
  rw [DateTime.mk.injEq]
  omega

theorem fromTimestampNanos_ofInt {t : DateTime} (h : -2 ^ 63 ≤ t.nanos ∧ t.nanos < 2 ^ 63) :
    fromTimestampNanos (Int64.ofInt t.nanos) = t := by
  rw [DateTime.mk.injEq]
  exact Int64.toInt_ofInt_of_le h.1 h.2

end DateTime

/-- A data point. -/
structure DataPoint where
  timestamp : DateTime
  value : Binary64
deriving DecidableEq

/-! ## Bits -/

structure BitWriter where
  buffer : Bytes := []
  currentByte : UInt8 := 0
  bitPosition : ℕ := 0

namespace BitWriter

def writeBit (w : BitWriter) (bit : Bool) : BitWriter :=
  let byte := if bit then w.currentByte ||| 1 <<< UInt8.ofNat (7 - w.bitPosition)
    else w.currentByte
  if w.bitPosition + 1 = 8 then
    { buffer := w.buffer ++ [byte], currentByte := 0, bitPosition := 0 }
  else { w with currentByte := byte, bitPosition := w.bitPosition + 1 }

/-- Write the lowest bits of a value, the highest of them first. -/
def writeBits (w : BitWriter) (value : UInt64) : ℕ → BitWriter
  | 0 => w
  | numBits + 1 => (w.writeBit (value >>> UInt64.ofNat numBits &&& 1 = 1)).writeBits value numBits

def finish (w : BitWriter) : Bytes :=
  if w.bitPosition > 0 then w.buffer ++ [w.currentByte] else w.buffer

end BitWriter

structure BitReader where
  data : Bytes
  bytePosition : ℕ := 0
  bitPosition : ℕ := 0

namespace BitReader

def readBit (r : BitReader) : Option (Bool × BitReader) :=
  match r.data[r.bytePosition]? with
  | none => none
  | some byte =>
      let bit : Bool := byte >>> UInt8.ofNat (7 - r.bitPosition) &&& 1 = 1
      if r.bitPosition + 1 = 8 then
        some (bit, { r with bytePosition := r.bytePosition + 1, bitPosition := 0 })
      else some (bit, { r with bitPosition := r.bitPosition + 1 })

/-- Read bits behind those that a value has already. -/
def readBitsFrom (value : UInt64) (r : BitReader) : ℕ → Option (UInt64 × BitReader)
  | 0 => some (value, r)
  | numBits + 1 =>
      match r.readBit with
      | none => none
      | some (bit, r) => readBitsFrom (value <<< 1 ||| bit.toUInt64) r numBits

def readBits (r : BitReader) (numBits : ℕ) : Option (UInt64 × BitReader) :=
  readBitsFrom 0 r numBits

end BitReader

/-- The number of zeros above the highest bit of a number of sixty-four bits. -/
def leadingZeros (value : UInt64) : ℕ :=
  if value = 0 then 64 else 63 - value.toNat.log2

/-- The number of zeros below the lowest bit of a number of sixty-four bits. -/
def trailingZeros (value : UInt64) : ℕ :=
  ((List.range 64).find? fun i => value.toNat.testBit i).getD 64

/-! ## Compressing -/

/-- A block of compressed points. -/
structure CompressedBlock where
  data : Bytes
  firstTimestamp : Int64
  lastTimestamp : Int64
  count : ℕ
  checksum : UInt32
deriving DecidableEq

structure Compressor where
  writer : BitWriter := {}
  firstTimestamp : Option Int64 := none
  prevTimestamp : Int64 := 0
  prevDelta : Int64 := 0
  prevValueBits : UInt64 := 0
  prevLeadingZeros : ℕ := 64
  prevTrailingZeros : ℕ := 64
  count : ℕ := 0

namespace Compressor

def compressTimestamp (c : Compressor) (timestamp : Int64) : Compressor :=
  let delta := timestamp - c.prevTimestamp
  let deltaOfDelta := delta - c.prevDelta
  let writer :=
    if deltaOfDelta = 0 then c.writer.writeBit false
    else if -63 ≤ deltaOfDelta ∧ deltaOfDelta ≤ 64 then
      (c.writer.writeBits 0b10 2).writeBits (deltaOfDelta + 63).toUInt64 7
    else if -255 ≤ deltaOfDelta ∧ deltaOfDelta ≤ 256 then
      (c.writer.writeBits 0b110 3).writeBits (deltaOfDelta + 255).toUInt64 9
    else if -2047 ≤ deltaOfDelta ∧ deltaOfDelta ≤ 2048 then
      (c.writer.writeBits 0b1110 4).writeBits (deltaOfDelta + 2047).toUInt64 12
    else (c.writer.writeBits 0b1111 4).writeBits deltaOfDelta.toUInt64 64
  { c with writer, prevDelta := delta }

def compressValue (c : Compressor) (valueBits : UInt64) : Compressor :=
  let xor := c.prevValueBits ^^^ valueBits
  if xor = 0 then { c with writer := c.writer.writeBit false }
  else
    let writer := c.writer.writeBit true
    let leading := leadingZeros xor
    let trailing := trailingZeros xor
    if leading ≥ c.prevLeadingZeros ∧ trailing ≥ c.prevTrailingZeros then
      let meaningfulBits := 64 - c.prevLeadingZeros - c.prevTrailingZeros
      let shifted := xor >>> UInt64.ofNat c.prevTrailingZeros
      { c with writer := (writer.writeBit false).writeBits shifted meaningfulBits }
    else
      -- sixty-four bits are written as zero
      let meaningfulBits := 64 - leading - trailing
      let shifted := xor >>> UInt64.ofNat trailing
      { c with
        writer := (((writer.writeBit true).writeBits (UInt64.ofNat leading) 6).writeBits
          (UInt64.ofNat (meaningfulBits % 64)) 6).writeBits shifted meaningfulBits
        prevLeadingZeros := leading
        prevTrailingZeros := trailing }

/-- Compress a data point. -/
def compress (c : Compressor) (point : DataPoint) : Compressor :=
  let timestamp := point.timestamp.timestampMillis
  let valueBits := point.value.bits
  match c.firstTimestamp with
  | none =>
      { c with
        firstTimestamp := some timestamp
        writer := (c.writer.writeBits timestamp.toUInt64 64).writeBits valueBits 64
        prevTimestamp := timestamp
        prevValueBits := valueBits
        count := 1 }
  | some _ =>
      let c := (c.compressTimestamp timestamp).compressValue valueBits
      { c with prevTimestamp := timestamp, prevValueBits := valueBits, count := c.count + 1 }

def finish (c : Compressor) : CompressedBlock :=
  let data := c.writer.finish
  { data
    firstTimestamp := c.firstTimestamp.getD 0
    lastTimestamp := c.prevTimestamp
    count := c.count
    checksum := Crc32.hash data }

def compressAll (points : List DataPoint) : CompressedBlock :=
  (points.foldl compress {}).finish

end Compressor

/-! ## Decompressing -/

/-- The sum of two numbers, unless it is too large. -/
def checkedAdd (a b : Int64) : Option Int64 :=
  if -2 ^ 63 ≤ a.toInt + b.toInt ∧ a.toInt + b.toInt < 2 ^ 63 then some (a + b) else none

structure Decompressor where
  reader : BitReader
  prevTimestamp : Int64 := 0
  prevDelta : Int64 := 0
  prevValueBits : UInt64 := 0
  prevLeadingZeros : ℕ := 0
  prevTrailingZeros : ℕ := 0
  firstRead : Bool := true

namespace Decompressor

def readDeltaOfDelta (reader : BitReader) : Option (Int64 × BitReader) := do
  let (bit, reader) ← reader.readBit
  if !bit then return (0, reader)
  let (bit, reader) ← reader.readBit
  if !bit then
    let (value, reader) ← reader.readBits 7
    return (value.toInt64 - 63, reader)
  let (bit, reader) ← reader.readBit
  if !bit then
    let (value, reader) ← reader.readBits 9
    return (value.toInt64 - 255, reader)
  let (bit, reader) ← reader.readBit
  if !bit then
    let (value, reader) ← reader.readBits 12
    return (value.toInt64 - 2047, reader)
  let (value, reader) ← reader.readBits 64
  return (value.toInt64, reader)

def decompressTimestamp (d : Decompressor) : Option (Int64 × Decompressor) := do
  let (deltaOfDelta, reader) ← readDeltaOfDelta d.reader
  let delta ← checkedAdd d.prevDelta deltaOfDelta
  let timestamp ← checkedAdd d.prevTimestamp delta
  return (timestamp, { d with reader, prevDelta := delta })

def decompressValue (d : Decompressor) : Option (UInt64 × Decompressor) := do
  let (bit, reader) ← d.reader.readBit
  if !bit then return (d.prevValueBits, { d with reader })
  let (bit, reader) ← reader.readBit
  if !bit then
    -- a header is used again; there must have been one
    if d.prevLeadingZeros + d.prevTrailingZeros ≥ 64 then none
    else
      let (value, reader) ← reader.readBits (64 - d.prevLeadingZeros - d.prevTrailingZeros)
      return (d.prevValueBits ^^^ value <<< UInt64.ofNat d.prevTrailingZeros, { d with reader })
  let (leading, reader) ← reader.readBits 6
  let (bits, reader) ← reader.readBits 6
  let meaningfulBits := if bits = 0 then 64 else bits.toNat
  if leading.toNat + meaningfulBits > 64 then none
  else
    let trailing := 64 - leading.toNat - meaningfulBits
    let (value, reader) ← reader.readBits meaningfulBits
    return (d.prevValueBits ^^^ value <<< UInt64.ofNat trailing,
      { d with reader, prevLeadingZeros := leading.toNat, prevTrailingZeros := trailing })

/-- Decompress the next data point. -/
def next (d : Decompressor) : Option (DataPoint × Decompressor) :=
  if d.firstRead then do
    let (timestamp, reader) ← d.reader.readBits 64
    let (valueBits, reader) ← reader.readBits 64
    let time ← DateTime.fromTimestampMillis timestamp.toInt64
    return (⟨time, ⟨valueBits⟩⟩, { d with
      reader, firstRead := false, prevTimestamp := timestamp.toInt64, prevValueBits := valueBits })
  else do
    let (timestamp, d) ← d.decompressTimestamp
    let (valueBits, d) ← d.decompressValue
    let time ← DateTime.fromTimestampMillis timestamp
    return (⟨time, ⟨valueBits⟩⟩, { d with prevTimestamp := timestamp, prevValueBits := valueBits })

/-- Decompress so many points. -/
def decompress (d : Decompressor) : ℕ → List DataPoint
  | 0 => []
  | remaining + 1 =>
      match d.next with
      | none => []
      | some (point, d) => point :: d.decompress remaining

def decompressAll (block : CompressedBlock) : List DataPoint :=
  decompress { reader := { data := block.data } } block.count

end Decompressor

/-! ## Frames of the other codec -/

/-- The other codec: the columns of a frame. -/
structure NexusCodec where
  decompressBatch : Bytes → Option (List Bytes)

/-- Whether the bytes of a block are a frame of the other codec. -/
def isNexusBlock (block : CompressedBlock) : Bool :=
  block.data.take 4 = [0x4E, 0x43, 0x5A, 0x4C]

/-- A number of eight bytes at a place, if there are so many. -/
def column (bytes : Bytes) (i : ℕ) : Option UInt64 :=
  if i * 8 + 8 ≤ bytes.length then
    some (UInt64.ofNat (ofLe ((bytes.drop (i * 8)).take 8)))
  else none

def decodeRow (times values : Bytes) (i : ℕ) : Option DataPoint := do
  let millis ← column times i
  let time ← DateTime.fromTimestampMillis millis.toInt64
  return ⟨time, ⟨(column values i).getD 0⟩⟩

/-- Decode the points of a block by the codec that it has. -/
def decodeBlock (nexus : NexusCodec) (block : CompressedBlock) : List DataPoint :=
  if !isNexusBlock block then Decompressor.decompressAll block
  else
    match nexus.decompressBatch block.data with
    | some [times, values] => (List.range (times.length / 8)).filterMap (decodeRow times values)
    | _ => []

/-- Whether a block is decoded to exactly some points, as far as milliseconds tell them apart. -/
def blockMatchesPoints (nexus : NexusCodec) (block : CompressedBlock) (points : List DataPoint) :
    Bool :=
  if block.count ≠ points.length then false
  else
    let decoded := decodeBlock nexus block
    decoded.length = points.length &&
      (decoded.zip points).all fun e =>
        e.1.timestamp.timestampMillis = e.2.timestamp.timestampMillis &&
          e.1.value.bits = e.2.value.bits

/-! ## What is decoded -/

section Decoding

variable {nexus : NexusCodec} {block : CompressedBlock} {points : List DataPoint}

theorem Decompressor.isWhole_of_next {d d' : Decompressor} {p : DataPoint}
    (h : d.next = some (p, d')) : p.timestamp.IsWhole := by
  unfold Decompressor.next at h
  split_ifs at h
  all_goals
    simp only [Option.bind_eq_bind, Option.bind_eq_some_iff, Option.pure_def, Option.some.injEq,
      Prod.mk.injEq] at h
    obtain ⟨_, _, _, _, time, htime, rfl, -⟩ := h
    exact DateTime.isWhole_of_fromTimestampMillis htime

theorem Decompressor.isWhole_of_mem {d : Decompressor} {remaining : ℕ} {p : DataPoint}
    (h : p ∈ d.decompress remaining) : p.timestamp.IsWhole := by
  induction remaining generalizing d with
  | zero => cases h
  | succ remaining ih =>
    rw [Decompressor.decompress] at h
    cases hnext : d.next with
    | none =>
      rw [hnext] at h
      cases h
    | some e =>
      obtain ⟨q, d'⟩ := e
      rw [hnext] at h
      rcases List.mem_cons.mp h with rfl | h
      · exact Decompressor.isWhole_of_next hnext
      · exact ih h

theorem isWhole_of_decodeRow {times values : Bytes} {i : ℕ} {p : DataPoint}
    (h : decodeRow times values i = some p) : p.timestamp.IsWhole := by
  simp only [decodeRow, Option.bind_eq_bind, Option.bind_eq_some_iff, Option.pure_def,
    Option.some.injEq] at h
  obtain ⟨_, _, time, htime, rfl⟩ := h
  exact DateTime.isWhole_of_fromTimestampMillis htime

theorem isWhole_of_mem_decodeBlock {p : DataPoint} (h : p ∈ decodeBlock nexus block) :
    p.timestamp.IsWhole := by
  unfold decodeBlock at h
  split_ifs at h
  · exact Decompressor.isWhole_of_mem h
  · split at h
    · obtain ⟨i, -, hi⟩ := List.mem_filterMap.mp h
      exact isWhole_of_decodeRow hi
    · cases h

/-- Points whose times are in milliseconds are decoded from a block that matches them. -/
theorem decodeBlock_of_matches (h : blockMatchesPoints nexus block points = true)
    (hwhole : ∀ p ∈ points, p.timestamp.IsWhole) : decodeBlock nexus block = points := by
  unfold blockMatchesPoints at h
  split_ifs at h
  simp only [Bool.and_eq_true, decide_eq_true_eq, List.all_eq_true] at h
  obtain ⟨hlength, hall⟩ := h
  refine List.ext_getElem hlength fun i hi hi' => ?_
  have hmem : ((decodeBlock nexus block)[i], points[i]) ∈ (decodeBlock nexus block).zip points := by
    rw [← List.getElem_zip (h := by rw [List.length_zip]; omega)]
    exact List.getElem_mem _
  obtain ⟨htime, hbits⟩ := hall _ hmem
  have heq := DateTime.eq_of_timestampMillis
    (isWhole_of_mem_decodeBlock (List.getElem_mem hi)) (hwhole _ (List.getElem_mem hi')) htime
  generalize (decodeBlock nexus block)[i] = d at heq hbits
  generalize points[i] = p at heq hbits
  obtain ⟨time, ⟨bits⟩⟩ := d
  obtain ⟨time', ⟨bits'⟩⟩ := p
  dsimp only at heq hbits
  rw [heq, hbits]

end Decoding

end TimeSeries

end AegisDB
