import AegisDB.Storage.LogRecord

/-!
# Records are read back

The field of the previous sequence number has no flag beside it, as the page has: `0` stands for no
previous record.  A record therefore has the bytes of the record `LogRecord.stored`, which is the
record itself unless its previous sequence number is `0`.  What is stored can be represented, so
that the rules of the frame format give what a segment of any records is parsed as, as a whole and
cut off anywhere.
-/

namespace AegisDB

namespace Storage

namespace LogRecord

/-- The record as it is stored: `0` as the previous sequence number stands for none. -/
def stored (r : LogRecord) : LogRecord :=
  { r with prevLsn := r.prevLsn.filter (· ≠ 0) }

theorem stored_eq_self_iff (r : LogRecord) : r.stored = r ↔ r.prevLsn ≠ some 0 := by
  obtain ⟨lsn, prevLsn, txId, recordType, pageId, data⟩ := r
  cases prevLsn with
  | none => simp [stored]
  | some prev => by_cases hzero : prev = 0 <;> simp [stored, hzero, Option.filter]

theorem toBytes_stored (crc32 : Bytes → UInt32) (r : LogRecord) :
    r.stored.toBytes crc32 = r.toBytes crc32 := by
  have hprev : (r.prevLsn.filter (· ≠ 0)).getD 0 = r.prevLsn.getD 0 := by
    cases r.prevLsn with
    | none => rfl
    | some prev => by_cases hzero : prev = 0 <;> simp [hzero, Option.filter]
  have hbody : r.stored.body = r.body := by
    unfold body stored
    dsimp only
    rw [hprev]
  rw [toBytes, toBytes, hbody]

theorem encodable_stored {r : LogRecord} (h : r.data.length < 2 ^ 32) : r.stored.Encodable := by
  refine ⟨?_, h⟩
  intro hzero
  have hne := (Option.filter_eq_some_iff.mp hzero).2
  exact absurd rfl (of_decide_eq_true hne)

end LogRecord

theorem flatMap_toBytes (crc32 : Bytes → UInt32) (rs : List LogRecord) :
    rs.flatMap (LogRecord.toBytes crc32) =
      (segmentFormat crc32).encodeAll (rs.map LogRecord.stored) := by
  unfold FrameFormat.encodeAll
  rw [List.flatMap_map]
  exact List.flatMap_congr fun r _ => (r.toBytes_stored crc32).symm

/-- Every record whose data are shorter than `2 ^ 32` bytes is deserialized from its bytes as it is
stored, which is the record itself unless its previous sequence number is `0`.  A segment of such
records is parsed as exactly these records, and every part of it up to some place as the first of
them. -/
theorem records_readBack (crc32 : Bytes → UInt32) (rs : List LogRecord)
    (hrs : ∀ r ∈ rs, r.data.length < 2 ^ 32) :
    (∀ r ∈ rs, LogRecord.fromBytes crc32 (r.toBytes crc32) = .ok r.stored) ∧
      (∀ r ∈ rs, r.stored = r ↔ r.prevLsn ≠ some 0) ∧
        readSegment crc32 (rs.flatMap (LogRecord.toBytes crc32)) = rs.map LogRecord.stored ∧
          ∀ bytes, bytes <+: rs.flatMap (LogRecord.toBytes crc32) →
            readSegment crc32 bytes <+: rs.map LogRecord.stored := by
  have hvalid : ∀ r ∈ rs.map LogRecord.stored, (segmentFormat crc32).Valid r := by
    intro r hr
    obtain ⟨r, hmem, rfl⟩ := List.mem_map.mp hr
    exact LogRecord.encodable_stored (hrs r hmem)
  refine ⟨fun r hr => ?_, fun r _ => r.stored_eq_self_iff, ?_, fun bytes hbytes => ?_⟩
  · rw [← r.toBytes_stored crc32]
    exact fromBytes_toBytes crc32 (LogRecord.encodable_stored (hrs r hr))
  · have hread := (segmentFormat crc32).read_encodeAll_append hvalid []
    rw [List.append_nil, FrameFormat.read_nil, List.append_nil] at hread
    rw [flatMap_toBytes]
    exact hread
  · rw [flatMap_toBytes] at hbytes
    obtain ⟨rest, hrest⟩ := hbytes
    have hcut : bytes =
        ((segmentFormat crc32).encodeAll (rs.map LogRecord.stored)).take bytes.length := by
      rw [← hrest, List.take_left]
    have hread := (segmentFormat crc32).read_take hvalid bytes.length
    rw [← hcut] at hread
    rw [readSegment, hread]
    exact (segmentFormat crc32).fitting_isPrefix _ _

/-- The begin of a transaction and its commit, which names no record before it. -/
theorem records_readBack_commit :
    readSegment (fun _ => 0)
        ([LogRecord.begin 1 7, .commit 2 0 7].flatMap (LogRecord.toBytes fun _ => 0)) =
      [.begin 1 7, { LogRecord.commit 2 0 7 with prevLsn := none }] :=
  (records_readBack (fun _ => 0) [.begin 1 7, .commit 2 0 7] (by decide)).2.2.1

/-- A record with the previous sequence number `0` comes back without one, whatever the checksum
is. -/
theorem previousZero_not_readBack :
    ¬ ∃ crc32 : Bytes → UInt32, ∀ r : LogRecord, r.data.length < 2 ^ 32 →
      LogRecord.fromBytes crc32 (r.toBytes crc32) = .ok r := by
  rintro ⟨crc32, h⟩
  have hsame := h (.commit 2 0 7) (by decide)
  rw [← LogRecord.toBytes_stored, fromBytes_toBytes _ (LogRecord.encodable_stored (by decide))]
    at hsame
  exact absurd (Except.ok.inj hsame) (by decide)

end Storage

end AegisDB
