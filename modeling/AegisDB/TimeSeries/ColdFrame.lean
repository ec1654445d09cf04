import AegisDB.Library.Frames
import AegisDB.TimeSeries.Compression

/-!
# The frames of the cold tier

A block that has aged out of memory is written to a file as a frame: a magic number, the first and
the last time of the block, the number of its points, its checksum, the length of its data, and the
data.  A file is read frame by frame, skipping the data of those frames whose times do not matter,
up to the first place where there is no whole frame.
-/

namespace AegisDB

namespace TimeSeries

def frameMagic : Bytes := [0x41, 0x43, 0x54, 0x31]

def frameHeaderLen : ℕ := 4 + 8 + 8 + 8 + 4 + 4

structure FrameHeader where
  firstTs : Int64
  lastTs : Int64
  count : ℕ
  checksum : UInt32
  len : ℕ

/-- The bytes in front of the data of a frame; the length of the data is a number of thirty-two
bits. -/
def headerBytes (b : CompressedBlock) : Bytes :=
  frameMagic ++ (le 8 b.firstTimestamp.toUInt64.toNat ++ (le 8 b.lastTimestamp.toUInt64.toNat ++
    (le 8 b.count ++ (le 4 b.checksum.toNat ++ le 4 b.data.length))))

def writeFrame (b : CompressedBlock) : Bytes :=
  headerBytes b ++ b.data

/-- What the bytes of a header stand for, field by field. -/
def FrameHeader.fromBytes (buf : Bytes) : FrameHeader :=
  let (firstTs, buf) := getLe 8 (buf.drop 4)
  let (lastTs, buf) := getLe 8 buf
  let (count, buf) := getLe 8 buf
  let (checksum, buf) := getLe 4 buf
  let (len, _) := getLe 4 buf
  { firstTs := (UInt64.ofNat firstTs).toInt64
    lastTs := (UInt64.ofNat lastTs).toInt64
    count
    checksum := UInt32.ofNat checksum
    len }

/-- The header that some bytes begin with, and what follows it.  There is none where the bytes end,
be it in the middle of a header, and a wrong magic number is an error. -/
def readFrameHeader (bytes : Bytes) : Except String (Option (FrameHeader × Bytes)) :=
  if bytes.length < frameHeaderLen then .ok none
  else if bytes.take 4 ≠ frameMagic then .error "bad cold frame magic"
  else .ok (some (.fromBytes bytes, bytes.drop frameHeaderLen))

/-- The block of a frame. -/
def FrameHeader.block (h : FrameHeader) (data : Bytes) : CompressedBlock where
  data := data
  firstTimestamp := h.firstTs
  lastTimestamp := h.lastTs
  count := h.count
  checksum := h.checksum

/-- Read the blocks of the frames that are not skipped, and count those that are.  It is possible to
skip more data than there is; the file has then come to its end. -/
def readFrames (skip : Int64 → Int64 → Bool) : ℕ → Bytes → List CompressedBlock × ℕ
  | 0, _ => ([], 0)
  | fuel + 1, bytes =>
    match readFrameHeader bytes with
    | .ok (some (h, rest)) =>
        if skip h.firstTs h.lastTs then
          let (blocks, skipped) := readFrames skip fuel (rest.drop h.len)
          (blocks, skipped + 1)
        else if rest.length < h.len then ([], 0)
        else
          let (blocks, skipped) := readFrames skip fuel (rest.drop h.len)
          (h.block (rest.take h.len) :: blocks, skipped)
    | _ => ([], 0)

/-- The first block of a file, and what follows it. -/
def nextBlock (bytes : Bytes) : Option (CompressedBlock × Bytes) :=
  match readFrameHeader bytes with
  | .ok (some (h, rest)) =>
      if rest.length < h.len then none else some (h.block (rest.take h.len), rest.drop h.len)
  | _ => none

/-! ## Frames as a format -/

def CompressedBlock.Storable (b : CompressedBlock) : Prop :=
  b.data.length < 2 ^ 32 ∧ b.count < 2 ^ 64

instance (b : CompressedBlock) : Decidable b.Storable :=
  inferInstanceAs (Decidable (_ ∧ _))

@[simp] theorem length_headerBytes (b : CompressedBlock) :
    (headerBytes b).length = frameHeaderLen := by
  simp [headerBytes, frameMagic, frameHeaderLen]

/-- A header that was written is read, whatever follows it. -/
theorem readFrameHeader_headerBytes {b : CompressedBlock} (h : b.Storable) (rest : Bytes) :
    readFrameHeader (headerBytes b ++ rest) =
      .ok (some (⟨b.firstTimestamp, b.lastTimestamp, b.count, b.checksum, b.data.length⟩, rest)) := by
  obtain ⟨hlen, hcount⟩ := h
  have htake : (headerBytes b ++ rest).take 4 = frameMagic := by
    rw [headerBytes, List.append_assoc]
    exact List.take_left' rfl
  have hheader : FrameHeader.fromBytes (headerBytes b ++ rest) =
      ⟨b.firstTimestamp, b.lastTimestamp, b.count, b.checksum, b.data.length⟩ := by
    have hfields : (headerBytes b ++ rest).drop 4 =
        le 8 b.firstTimestamp.toUInt64.toNat ++ (le 8 b.lastTimestamp.toUInt64.toNat ++
          (le 8 b.count ++ (le 4 b.checksum.toNat ++ (le 4 b.data.length ++ rest)))) := by
      rw [headerBytes, List.append_assoc, List.drop_left' (by rfl)]
      simp only [List.append_assoc]
    have htime (n : UInt64) : UInt64.ofNat (n.toNat % 256 ^ 8) = n := by
      rw [Nat.mod_eq_of_lt (by simpa using n.toNat_lt), UInt64.ofNat_toNat]
    have hchecksum : UInt32.ofNat (b.checksum.toNat % 256 ^ 4) = b.checksum := by
      rw [Nat.mod_eq_of_lt (by simpa using b.checksum.toNat_lt), UInt32.ofNat_toNat]
    have hcount' : b.count % 256 ^ 8 = b.count := Nat.mod_eq_of_lt (by simpa using hcount)
    have hlen' : b.data.length % 256 ^ 4 = b.data.length := Nat.mod_eq_of_lt (by simpa using hlen)
    rw [FrameHeader.fromBytes, hfields]
    simp only [getLe_le, htime, hchecksum, hcount', hlen']
    rfl
  rw [readFrameHeader, if_neg (by simp), htake, if_neg (fun h => h rfl), hheader,
    List.drop_left' (length_headerBytes b)]

theorem nextBlock_writeFrame {b : CompressedBlock} (h : b.Storable) (rest : Bytes) :
    nextBlock (writeFrame b ++ rest) = some (b, rest) := by
  rw [nextBlock, writeFrame, List.append_assoc, readFrameHeader_headerBytes h]
  dsimp only
  rw [if_neg (by simp), List.take_left' rfl, List.drop_left' rfl]
  rfl

theorem nextBlock_take {b : CompressedBlock} (h : b.Storable) {n : ℕ}
    (hn : n < (writeFrame b).length) : nextBlock ((writeFrame b).take n) = none := by
  rw [nextBlock]
  by_cases hheader : n < frameHeaderLen
  · have hshort : ((writeFrame b).take n).length < frameHeaderLen := by
      rw [List.length_take]
      omega
    rw [readFrameHeader, if_pos hshort]
  · rw [writeFrame, List.length_append, length_headerBytes] at hn
    have htake : (writeFrame b).take n = headerBytes b ++ b.data.take (n - frameHeaderLen) := by
      rw [writeFrame, List.take_append, List.take_of_length_le (by simp; omega),
        length_headerBytes]
    rw [htake, readFrameHeader_headerBytes h]
    dsimp only
    rw [if_pos (by rw [List.length_take]; omega)]

theorem storable_of_readFrameHeader {bytes rest : Bytes} {h : FrameHeader}
    (hread : readFrameHeader bytes = .ok (some (h, rest))) :
    h.len < 2 ^ 32 ∧ h.count < 2 ^ 64 ∧ rest.length < bytes.length := by
  unfold readFrameHeader at hread
  split_ifs at hread with hshort
  · cases hread
  obtain ⟨rfl, rfl⟩ := Prod.mk.inj (Option.some.inj (Except.ok.inj hread))
  refine ⟨?_, ?_, ?_⟩
  · have hlt := getLe_fst_lt 4 (getLe 4 (getLe 8 (getLe 8 (getLe 8 (bytes.drop 4)).2).2).2).2
    exact hlt.trans_eq (by norm_num)
  · have hlt := getLe_fst_lt 8 (getLe 8 (getLe 8 (bytes.drop 4)).2).2
    exact hlt.trans_eq (by norm_num)
  · rw [List.length_drop]
    have hpos : 0 < frameHeaderLen := by decide
    omega

/-- The files of the cold tier. -/
def coldFormat : FrameFormat CompressedBlock where
  encode := writeFrame
  next := nextBlock
  Valid := CompressedBlock.Storable
  next_encode _ h rest := nextBlock_writeFrame h rest
  next_take _ h _ hn := nextBlock_take h hn
  next_length bytes b rest h := by
    unfold nextBlock at h
    split at h
    · next header tail hheader =>
      split_ifs at h
      obtain ⟨-, rfl⟩ := Prod.mk.inj (Option.some.inj h)
      have hlt := (storable_of_readFrameHeader hheader).2.2
      rw [List.length_drop]
      omega
    · cases h
  next_valid bytes b rest h := by
    unfold nextBlock at h
    split at h
    · next header tail hheader =>
      split_ifs at h
      obtain ⟨rfl, -⟩ := Prod.mk.inj (Option.some.inj h)
      obtain ⟨hlen, hcount, -⟩ := storable_of_readFrameHeader hheader
      exact ⟨(List.length_take_le _ _).trans_lt hlen, hcount⟩
    · cases h

/-! ## Reading with skipping -/

section ReadFrames

variable {skip : Int64 → Int64 → Bool}

/-- Whether the frame of a block would be skipped. -/
def CompressedBlock.skippedBy (skip : Int64 → Int64 → Bool) (b : CompressedBlock) : Bool :=
  skip b.firstTimestamp b.lastTimestamp

/-- The blocks that are read are those of the file that are not skipped, and if none is skipped,
they are all of them. -/
theorem readFrames_spec {fuel : ℕ} {bytes : Bytes} (h : bytes.length ≤ fuel) :
    (readFrames skip fuel bytes).1 =
        (coldFormat.read bytes).filter (fun b => !b.skippedBy skip) ∧
      ((readFrames skip fuel bytes).2 = 0 →
        ∀ b ∈ coldFormat.read bytes, b.skippedBy skip = false) := by
  induction fuel generalizing bytes with
  | zero =>
    obtain rfl := List.length_eq_zero_iff.mp (Nat.le_zero.mp h)
    exact ⟨rfl, fun _ b hb => by cases hb⟩
  | succ fuel ih =>
    have hend (hnone : nextBlock bytes = none) : coldFormat.read bytes = [] :=
      coldFormat.read_of_none hnone
    cases hread : readFrameHeader bytes with
    | error e =>
      rw [readFrames, hread, hend (by rw [nextBlock, hread])]
      exact ⟨rfl, fun _ b hb => by cases hb⟩
    | ok header =>
      cases header with
      | none =>
        rw [readFrames, hread, hend (by rw [nextBlock, hread])]
        exact ⟨rfl, fun _ b hb => by cases hb⟩
      | some header =>
        obtain ⟨header, rest⟩ := header
        have hlt := (storable_of_readFrameHeader hread).2.2
        have hfuel : (rest.drop header.len).length ≤ fuel := by
          rw [List.length_drop]
          omega
        obtain ⟨hblocks, hskipped⟩ := ih hfuel
        rw [readFrames, hread]
        dsimp only
        by_cases hshort : rest.length < header.len
        · -- there is less data than the header says
          rw [hend (by rw [nextBlock, hread]; exact if_pos hshort)]
          have hempty : rest.drop header.len = [] := List.drop_eq_nil_of_le hshort.le
          split_ifs with hskip
          · rw [hempty] at hblocks ⊢
            exact ⟨hblocks, False.elim⟩
          · exact ⟨rfl, fun _ b hb => by cases hb⟩
        · have hnext : nextBlock bytes =
              some (header.block (rest.take header.len), rest.drop header.len) := by
            rw [nextBlock, hread]
            exact if_neg hshort
          rw [coldFormat.read_of_some hnext]
          split_ifs with hskip
          · refine ⟨?_, False.elim⟩
            rw [List.filter_cons_of_neg (by
              rw [CompressedBlock.skippedBy, FrameHeader.block, hskip]
              decide)]
            exact hblocks
          · rw [Bool.not_eq_true] at hskip
            refine ⟨?_, fun hzero => List.forall_mem_cons.mpr ⟨hskip, hskipped hzero⟩⟩
            rw [List.filter_cons_of_pos (by
              rw [CompressedBlock.skippedBy, FrameHeader.block, hskip]
              decide)]
            exact congrArg (_ :: ·) hblocks

end ReadFrames

end TimeSeries

end AegisDB
