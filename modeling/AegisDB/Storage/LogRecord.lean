import AegisDB.Library.Frames

/-!
# Records of the write-ahead log

The records of `wal.rs` and their bytes: a header of fixed size, the data, and a checksum.  The
records form a frame format, so that a segment is read record by record up to the first place
where there is none.
-/

namespace AegisDB

namespace Storage

/-- Size of the fixed record header before variable data. -/
def walRecordHeaderSize : ℕ := 40

/-! ## Records -/

/-- Type of a log record. -/
inductive LogRecordType
  | begin
  | commit
  | abort
  | insert
  | update
  | delete
  | checkpoint
  | compensationLogRecord
  deriving DecidableEq

namespace LogRecordType

/-- The byte of a type. -/
def toByte : LogRecordType → UInt8
  | begin => 1
  | commit => 2
  | abort => 3
  | insert => 4
  | update => 5
  | delete => 6
  | checkpoint => 7
  | compensationLogRecord => 8

/-- The type of a byte. -/
def ofByte : ℕ → LogRecordType
  | 1 => begin
  | 2 => commit
  | 3 => abort
  | 4 => insert
  | 5 => update
  | 6 => delete
  | 7 => checkpoint
  | 8 => compensationLogRecord
  | _ => begin

/-- A record of this type carries data of a transaction. -/
def isData : LogRecordType → Bool
  | insert | update | delete => true
  | _ => false

end LogRecordType

/-- Errors of the log. -/
inductive WalError
  | corruption (message : String)

/-- A record of the log. -/
structure LogRecord where
  lsn : UInt64
  /-- The sequence number of the record before it in its transaction. -/
  prevLsn : Option UInt64 := none
  txId : UInt64
  recordType : LogRecordType
  pageId : Option UInt64 := none
  data : Bytes := []
  deriving DecidableEq

namespace LogRecord

def begin (lsn txId : UInt64) : LogRecord :=
  { lsn := lsn, txId := txId, recordType := .begin }

/-- The record of a transaction that is committed. -/
def commit (lsn prevLsn txId : UInt64) : LogRecord :=
  { lsn := lsn, prevLsn := some prevLsn, txId := txId, recordType := .commit }

/-- The record of a transaction that is aborted. -/
def abort (lsn prevLsn txId : UInt64) : LogRecord :=
  { lsn := lsn, prevLsn := some prevLsn, txId := txId, recordType := .abort }

def dataRecord (lsn : UInt64) (prevLsn : Option UInt64) (txId : UInt64)
    (recordType : LogRecordType) (pageId : UInt64) (data : Bytes) : LogRecord :=
  { lsn := lsn, prevLsn := prevLsn, txId := txId, recordType := recordType, pageId := some pageId,
    data := data }

/-- The bytes of a record before its checksum. -/
def body (r : LogRecord) : Bytes :=
  le 8 r.lsn.toNat ++
    (le 8 (r.prevLsn.getD 0).toNat ++
      (le 8 r.txId.toNat ++
        (le 1 r.recordType.toByte.toNat ++
          (le 1 (if r.pageId.isSome then 1 else 0) ++
            (le 2 0 ++
              (le 8 (r.pageId.getD 0).toNat ++
                (le 4 r.data.length ++ r.data)))))))

def toBytes (crc32 : Bytes → UInt32) (r : LogRecord) : Bytes :=
  r.body ++ le 4 (crc32 r.body).toNat

/-- Deserialize a record from bytes. -/
def fromBytes (crc32 : Bytes → UInt32) (bytes : Bytes) : Except WalError LogRecord :=
  if bytes.length < walRecordHeaderSize + 4 then .error (.corruption "Log record too small")
  else
    let (lsn, buf) := getLe 8 bytes
    let (prevLsnRaw, buf) := getLe 8 buf
    let (txId, buf) := getLe 8 buf
    let (recordType, buf) := getLe 1 buf
    let (hasPageId, buf) := getLe 1 buf
    let (_, buf) := getLe 2 buf
    let (pageIdRaw, buf) := getLe 8 buf
    let (dataLen, buf) := getLe 4 buf
    if buf.length < dataLen + 4 then .error (.corruption "Log record data truncated")
    else
      let (storedChecksum, _) := getLe 4 (buf.drop dataLen)
      let computedChecksum := crc32 (bytes.take (bytes.length - 4))
      if storedChecksum ≠ computedChecksum.toNat then
        .error (.corruption "Log record checksum mismatch")
      else
        .ok
          { lsn := UInt64.ofNat lsn
            prevLsn := if prevLsnRaw = 0 then none else some (UInt64.ofNat prevLsnRaw)
            txId := UInt64.ofNat txId
            recordType := LogRecordType.ofByte recordType
            pageId := if hasPageId ≠ 0 then some (UInt64.ofNat pageIdRaw) else none
            data := buf.take dataLen }

end LogRecord

/-- One turn of the loop over a segment: the record at the front of what is left, if it is there
as a whole, and what follows it. -/
def nextRecord (crc32 : Bytes → UInt32) (buffer : Bytes) : Option (LogRecord × Bytes) :=
  if buffer.length < walRecordHeaderSize + 4 then none
  else
    let dataLen := ofLe ((buffer.drop 36).take 4)
    let totalRecordLen := walRecordHeaderSize + dataLen + 4
    if buffer.length < totalRecordLen then none
    else
      match LogRecord.fromBytes crc32 (buffer.take totalRecordLen) with
      | .ok record => some (record, buffer.drop totalRecordLen)
      | .error _ => none

/-! ## Encoding -/

/-- The records that the format can represent: the previous sequence number is not `0`, which
stands for none, and the length of the data fits its field. -/
def LogRecord.Encodable (r : LogRecord) : Prop :=
  r.prevLsn ≠ some 0 ∧ r.data.length < 2 ^ 32

instance (r : LogRecord) : Decidable r.Encodable :=
  inferInstanceAs (Decidable (_ ∧ _))

theorem length_body (r : LogRecord) : r.body.length = 40 + r.data.length := by
  simp only [LogRecord.body, List.length_append, length_le]
  omega

theorem length_toBytes (crc32 : Bytes → UInt32) (r : LogRecord) :
    (r.toBytes crc32).length = 40 + r.data.length + 4 := by
  rw [LogRecord.toBytes, List.length_append, length_body, length_le]

@[simp] theorem ofByte_toByte (t : LogRecordType) : LogRecordType.ofByte t.toByte.toNat = t := by
  cases t <;> rfl

theorem dataLen_body (r : LogRecord) (rest : Bytes) :
    ((r.body ++ rest).drop 36).take 4 = le 4 r.data.length := by
  have hsplit : r.body ++ rest =
      (le 8 r.lsn.toNat ++ le 8 (r.prevLsn.getD 0).toNat ++ le 8 r.txId.toNat ++
        le 1 r.recordType.toByte.toNat ++ le 1 (if r.pageId.isSome then 1 else 0) ++ le 2 0 ++
          le 8 (r.pageId.getD 0).toNat) ++ (le 4 r.data.length ++ (r.data ++ rest)) := by
    simp only [LogRecord.body, List.append_assoc]
  rw [hsplit, List.drop_left' (by simp), List.take_left' (length_le _ _)]

theorem ofNat_toNat_mod (x : UInt64) : UInt64.ofNat (x.toNat % 256 ^ 8) = x := by
  rw [Nat.mod_eq_of_lt (by simpa using x.toNat_lt), UInt64.ofNat_toNat]

theorem prevLsn_field {prevLsn : Option UInt64} (h : prevLsn ≠ some 0) :
    (if (prevLsn.getD 0).toNat % 256 ^ 8 = 0 then none
      else some (prevLsn.getD 0)) = prevLsn := by
  cases prevLsn with
  | none => rfl
  | some lsn =>
    have hne : lsn.toNat % 256 ^ 8 ≠ 0 := by
      rw [Nat.mod_eq_of_lt (by simpa using lsn.toNat_lt)]
      intro hzero
      exact h (congrArg some (UInt64.toNat_inj.mp hzero))
    rw [Option.getD_some, if_neg hne]

theorem pageId_field (pageId : Option UInt64) :
    (if ¬ (if pageId.isSome then 1 else 0) % 256 ^ 1 = 0 then some (pageId.getD 0) else none) =
      pageId := by
  cases pageId <;> simp

theorem fromBytes_toBytes (crc32 : Bytes → UInt32) {r : LogRecord} (h : r.Encodable) :
    LogRecord.fromBytes crc32 (r.toBytes crc32) = .ok r := by
  obtain ⟨hprev, hdata⟩ := h
  have hlen := length_toBytes crc32 r
  have hbody : (r.toBytes crc32).take ((r.toBytes crc32).length - 4) = r.body := by
    rw [hlen, LogRecord.toBytes, List.take_left']
    rw [length_body]
    omega
  have hcrc : (crc32 r.body).toNat % 256 ^ 4 = (crc32 r.body).toNat :=
    Nat.mod_eq_of_lt (by simpa using (crc32 r.body).toNat_lt)
  have hdataLen : r.data.length % 256 ^ 4 = r.data.length := Nat.mod_eq_of_lt (by simpa using hdata)
  unfold LogRecord.fromBytes
  rw [if_neg (by rw [hlen, walRecordHeaderSize]; omega), hbody, LogRecord.toBytes]
  generalize crc32 r.body = checksum at hcrc ⊢
  have hlast := getLe_le 4 checksum.toNat []
  rw [List.append_nil, hcrc] at hlast
  simp only [LogRecord.body, List.append_assoc, getLe_le, hdataLen]
  rw [if_neg (by simp), List.drop_left' rfl, List.take_left' rfl, hlast]
  simp only [ne_eq, not_true_eq_false, if_false, ofNat_toNat_mod]
  rw [prevLsn_field hprev, pageId_field, Nat.mod_eq_of_lt (by cases r.recordType <;> decide),
    ofByte_toByte]

theorem encodable_fromBytes {crc32 : Bytes → UInt32} {bytes : Bytes} {r : LogRecord}
    (h : LogRecord.fromBytes crc32 bytes = .ok r) : r.Encodable := by
  unfold LogRecord.fromBytes at h
  split at h
  · cases h
  simp only at h
  split at h
  · cases h
  split at h
  · cases h
  obtain rfl := Except.ok.inj h
  constructor
  · dsimp only
    split_ifs with hzero
    · simp
    · intro heq
      have hlt := getLe_fst_lt 8 (getLe 8 bytes).2
      have hnat := congrArg UInt64.toNat (Option.some.inj heq)
      rw [UInt64.toNat_ofNat_of_lt' (by simpa using hlt)] at hnat
      exact hzero hnat
  · exact (List.length_take_le _ _).trans_lt (getLe_fst_lt 4 _)

theorem nextRecord_toBytes_append (crc32 : Bytes → UInt32) {r : LogRecord} (h : r.Encodable)
    (rest : Bytes) : nextRecord crc32 (r.toBytes crc32 ++ rest) = some (r, rest) := by
  have hlen := length_toBytes crc32 r
  have hdata : ofLe (((r.toBytes crc32 ++ rest).drop 36).take 4) = r.data.length := by
    rw [LogRecord.toBytes, List.append_assoc, dataLen_body, ofLe_le, Nat.mod_eq_of_lt]
    simpa using h.2
  have htotal : walRecordHeaderSize + r.data.length + 4 = (r.toBytes crc32).length := by
    rw [hlen, walRecordHeaderSize]
  unfold nextRecord
  rw [if_neg (by rw [List.length_append, hlen, walRecordHeaderSize]; omega)]
  simp only [hdata, htotal]
  rw [if_neg (by simp), List.take_left' rfl, List.drop_left' rfl, fromBytes_toBytes crc32 h]

theorem nextRecord_take (crc32 : Bytes → UInt32) {r : LogRecord} (h : r.Encodable) {n : ℕ}
    (hn : n < (r.toBytes crc32).length) : nextRecord crc32 ((r.toBytes crc32).take n) = none := by
  have hlen := length_toBytes crc32 r
  unfold nextRecord
  split_ifs with hsmall
  · rfl
  · -- the header is there, and with it the length of the data that is missing
    have hsize : ((r.toBytes crc32).take n).length = n := by
      rw [List.length_take]
      omega
    rw [hsize, walRecordHeaderSize] at hsmall
    have hdata : ofLe ((((r.toBytes crc32).take n).drop 36).take 4) = r.data.length := by
      have hmore : min 4 (n - 36) = 4 := by omega
      rw [List.drop_take, List.take_take, hmore, LogRecord.toBytes, dataLen_body, ofLe_le,
        Nat.mod_eq_of_lt (by simpa using h.2)]
    simp only [hdata]
    rw [if_pos (by rw [hsize, walRecordHeaderSize]; omega)]

/-- The segments of the log as a frame format. -/
def segmentFormat (crc32 : Bytes → UInt32) : FrameFormat LogRecord where
  encode := LogRecord.toBytes crc32
  next := nextRecord crc32
  Valid := LogRecord.Encodable
  next_encode _ h rest := nextRecord_toBytes_append crc32 h rest
  next_take _ h _ hn := nextRecord_take crc32 h hn
  next_length bytes r rest h := by
    unfold nextRecord at h
    split at h
    · cases h
    simp only at h
    split at h
    · cases h
    split at h
    · obtain ⟨-, rfl⟩ := Prod.mk.inj (Option.some.inj h)
      rw [List.length_drop]
      omega
    · cases h
  next_valid bytes r rest h := by
    unfold nextRecord at h
    split at h
    · cases h
    simp only at h
    split at h
    · cases h
    split at h
    · next heq =>
      obtain ⟨rfl, -⟩ := Prod.mk.inj (Option.some.inj h)
      exact encodable_fromBytes heq
    · cases h

def readSegment (crc32 : Bytes → UInt32) (bytes : Bytes) : List LogRecord :=
  (segmentFormat crc32).read bytes

end Storage

end AegisDB
