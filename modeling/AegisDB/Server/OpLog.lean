import AegisDB.Library.Binary64
import AegisDB.Library.Crc32
import AegisDB.Library.Segments
import AegisDB.Library.Transition

/-!
# The redo log

The log directory of `oplog.rs`: segments of frames, a current segment that records are appended to,
cutting over to a new segment and retiring old ones.  A segment is read up to its first torn frame.
An append that fails may leave a part of its frame behind, and the log goes on in the same segment:
what is appended behind a torn frame is not read.  As long as nothing is, every record that was
appended and not retired is read when the log is opened, in the order in which it was appended.
-/

namespace AegisDB

namespace Server

/-- One logged mutation; JSON values are texts, and times are nanoseconds since the epoch. -/
inductive Op where
  | kvPut (key valueJson : String) (ttl : Option ℕ) (createdNs updatedNs : ℤ)
  | kvDelete (key : String)
  | docPut (collection docJson : String)
  | docDelete (collection id : String)
  | collectionCreate (name : String)
  | collectionDrop (name : String)
  | tsWrite (metric : String) (tags : Table String String) (points : List (ℤ × Binary64))
deriving DecidableEq

/-- The encoding of records, which may fail. -/
structure OpCodec where
  serialize : Op → Option Bytes
  deserialize : Bytes → Option Op
  deserialize_serialize : ∀ op bytes, serialize op = some bytes → deserialize bytes = some op

def maxRecordBytes : ℕ := 256 * 1024 * 1024

/-! ## Segments -/

/-- A record with its length and its checksum in front. -/
def frame (payload : Bytes) : Bytes :=
  le 4 payload.length ++ le 4 (Crc32.hash payload).toNat ++ payload

/-- The payload of the first frame, and what follows it. -/
def nextFrame (bytes : Bytes) : Option (Bytes × Bytes) :=
  if bytes.length < 8 then none
  else
    let len := getLe 4 bytes
    let crc := getLe 4 len.2
    if len.1 > maxRecordBytes then none
    else if crc.2.length < len.1 then none
    else if (Crc32.hash (crc.2.take len.1)).toNat ≠ crc.1 then none
    else some (crc.2.take len.1, crc.2.drop len.1)

/-- Read the records of a segment, at most so many, and whether it ends with the last of them. -/
def readUpTo (codec : OpCodec) : ℕ → Bytes → List Op × Bool
  | _, [] => ([], true)
  | 0, _ => ([], false)
  | fuel + 1, bytes =>
      match nextFrame bytes with
      | none => ([], false)
      | some (payload, rest) =>
          match codec.deserialize payload with
          | none => ([], false)
          | some op =>
              let read := readUpTo codec fuel rest
              (op :: read.1, read.2)

/-- Read a segment.  Every frame takes at least one byte. -/
def readSegment (codec : OpCodec) (bytes : Bytes) : List Op × Bool :=
  readUpTo codec bytes.length bytes

section Reading

variable {codec : OpCodec} {bytes rest payload : Bytes}

theorem nextFrame_frame (h : payload.length ≤ maxRecordBytes) (rest : Bytes) :
    nextFrame (frame payload ++ rest) = some (payload, rest) := by
  have hlen : payload.length % 256 ^ 4 = payload.length := by
    refine Nat.mod_eq_of_lt (h.trans_lt ?_)
    unfold maxRecordBytes
    norm_num
  have hcrc : (Crc32.hash payload).toNat % 256 ^ 4 = (Crc32.hash payload).toNat := by
    refine Nat.mod_eq_of_lt ?_
    have := (Crc32.hash payload).toNat_lt
    norm_num
    omega
  have hlong : ¬ (frame payload ++ rest).length < 8 := by
    simp [frame]
    omega
  have hget : getLe 4 (frame payload ++ rest) =
      (payload.length, le 4 (Crc32.hash payload).toNat ++ (payload ++ rest)) := by
    rw [frame, List.append_assoc, List.append_assoc, getLe_le, hlen]
  have hget' : getLe 4 (le 4 (Crc32.hash payload).toNat ++ (payload ++ rest)) =
      ((Crc32.hash payload).toNat, payload ++ rest) := by
    rw [getLe_le, hcrc]
  unfold nextFrame
  rw [if_neg hlong, hget]
  dsimp only
  rw [hget', if_neg (by omega), if_neg (by simp), List.take_left, List.drop_left,
    if_neg (by simp)]

theorem nextFrame_append (h : nextFrame bytes = some (payload, rest)) (extra : Bytes) :
    nextFrame (bytes ++ extra) = some (payload, rest ++ extra) := by
  unfold nextFrame at h ⊢
  dsimp only at h ⊢
  split_ifs at h with hshort hlarge htorn hcrc
  obtain ⟨rfl, rfl⟩ := Prod.mk.inj (Option.some.inj h)
  have hlong : ¬ (bytes ++ extra).length < 8 := by
    rw [List.length_append]
    omega
  have hget : getLe 4 (bytes ++ extra) = ((getLe 4 bytes).1, (getLe 4 bytes).2 ++ extra) := by
    unfold getLe
    rw [List.take_append_of_le_length (by omega), List.drop_append_of_le_length (by omega)]
  have hlong' : 4 ≤ (getLe 4 bytes).2.length := by
    simp only [getLe, List.length_drop]
    omega
  have hget' : getLe 4 ((getLe 4 bytes).2 ++ extra) =
      ((getLe 4 (getLe 4 bytes).2).1, (getLe 4 (getLe 4 bytes).2).2 ++ extra) := by
    unfold getLe at hlong' ⊢
    rw [List.take_append_of_le_length hlong', List.drop_append_of_le_length hlong']
  rw [if_neg hlong, hget]
  dsimp only
  rw [hget']
  dsimp only
  rw [if_neg hlarge, if_neg (by rw [List.length_append]; omega),
    List.take_append_of_le_length (by omega), List.drop_append_of_le_length (by omega),
    if_neg hcrc]

theorem nextFrame_length (h : nextFrame bytes = some (payload, rest)) :
    rest.length < bytes.length := by
  unfold nextFrame at h
  dsimp only at h
  split_ifs at h
  obtain ⟨rfl, rfl⟩ := Prod.mk.inj (Option.some.inj h)
  simp only [getLe, List.length_drop]
  omega

theorem readUpTo_eq_readSegment {fuel : ℕ} (h : bytes.length ≤ fuel) :
    readUpTo codec fuel bytes = readSegment codec bytes := by
  suffices hall : ∀ fuel fuel' (bytes : Bytes), bytes.length ≤ fuel → bytes.length ≤ fuel' →
      readUpTo codec fuel bytes = readUpTo codec fuel' bytes from hall _ _ _ h (Nat.le_refl _)
  intro fuel
  induction fuel with
  | zero =>
    intro fuel' bytes hb _
    obtain rfl := List.length_eq_zero_iff.mp (Nat.le_zero.mp hb)
    cases fuel' <;> rfl
  | succ fuel ih =>
    intro fuel' bytes hb hb'
    cases bytes with
    | nil => cases fuel' <;> rfl
    | cons b bs =>
      cases fuel' with
      | zero => simp at hb'
      | succ fuel' =>
        simp only [readUpTo]
        cases hnext : nextFrame (b :: bs) with
        | none => rfl
        | some p =>
          obtain ⟨payload, rest⟩ := p
          have hlt := nextFrame_length hnext
          dsimp only
          rw [ih fuel' rest (by omega) (by omega)]

@[simp] theorem readSegment_nil : readSegment codec [] = ([], true) := rfl

theorem readSegment_of_none (hne : bytes ≠ []) (h : nextFrame bytes = none) :
    readSegment codec bytes = ([], false) := by
  obtain ⟨b, bs, rfl⟩ := List.exists_cons_of_ne_nil hne
  simp only [readSegment, List.length_cons, readUpTo, h]

theorem readSegment_of_corrupt (h : nextFrame bytes = some (payload, rest))
    (hop : codec.deserialize payload = none) : readSegment codec bytes = ([], false) := by
  have hlt := nextFrame_length h
  obtain ⟨b, bs, rfl⟩ := List.exists_cons_of_length_pos (Nat.zero_lt_of_lt hlt)
  simp only [readSegment, List.length_cons, readUpTo, h, hop]

theorem readSegment_of_some (h : nextFrame bytes = some (payload, rest)) {op : Op}
    (hop : codec.deserialize payload = some op) :
    readSegment codec bytes = (op :: (readSegment codec rest).1, (readSegment codec rest).2) := by
  have hlt := nextFrame_length h
  obtain ⟨b, bs, rfl⟩ := List.exists_cons_of_length_pos (Nat.zero_lt_of_lt hlt)
  have hrest : readUpTo codec bs.length rest = readSegment codec rest :=
    readUpTo_eq_readSegment (Nat.lt_succ_iff.mp hlt)
  simp only [readSegment, List.length_cons, readUpTo, h, hop] at hrest ⊢
  rw [hrest]

theorem readSegment_frame {op : Op} (hop : codec.serialize op = some payload)
    (h : payload.length ≤ maxRecordBytes) :
    readSegment codec (frame payload) = ([op], true) := by
  have hnext := nextFrame_frame h []
  rw [List.append_nil] at hnext
  rw [readSegment_of_some hnext (codec.deserialize_serialize op payload hop), readSegment_nil]

/-- What follows a segment that ends with its last record is read after it. -/
theorem readSegment_append (h : (readSegment codec bytes).2 = true) (extra : Bytes) :
    readSegment codec (bytes ++ extra) =
      ((readSegment codec bytes).1 ++ (readSegment codec extra).1,
        (readSegment codec extra).2) := by
  suffices hall : ∀ n (bytes : Bytes), bytes.length ≤ n → (readSegment codec bytes).2 = true →
      readSegment codec (bytes ++ extra) = ((readSegment codec bytes).1 ++
        (readSegment codec extra).1, (readSegment codec extra).2) from hall _ _ (Nat.le_refl _) h
  intro n
  induction n with
  | zero =>
    intro bytes hb _
    obtain rfl := List.length_eq_zero_iff.mp (Nat.le_zero.mp hb)
    rfl
  | succ n ih =>
    intro bytes hb hwhole
    by_cases hnil : bytes = []
    · subst hnil
      rfl
    · cases hnext : nextFrame bytes with
      | none =>
        rw [readSegment_of_none hnil hnext] at hwhole
        cases hwhole
      | some p =>
        obtain ⟨payload, rest⟩ := p
        have hlt := nextFrame_length hnext
        cases hop : codec.deserialize payload with
        | none =>
          rw [readSegment_of_corrupt hnext hop] at hwhole
          cases hwhole
        | some op =>
          rw [readSegment_of_some hnext hop] at hwhole ⊢
          rw [readSegment_of_some (nextFrame_append hnext extra) hop, ih rest (by omega) hwhole]
          rfl

/-- Bytes at the end of a segment take away nothing that is read. -/
theorem readSegment_isPrefix (bytes extra : Bytes) :
    (readSegment codec bytes).1 <+: (readSegment codec (bytes ++ extra)).1 := by
  suffices hall : ∀ n (bytes : Bytes), bytes.length ≤ n →
      (readSegment codec bytes).1 <+: (readSegment codec (bytes ++ extra)).1 from
    hall _ _ (Nat.le_refl _)
  intro n
  induction n with
  | zero =>
    intro bytes hb
    rw [List.length_eq_zero_iff.mp (Nat.le_zero.mp hb)]
    exact List.nil_prefix
  | succ n ih =>
    intro bytes hb
    by_cases hnil : bytes = []
    · rw [hnil]
      exact List.nil_prefix
    · cases hnext : nextFrame bytes with
      | none =>
        rw [readSegment_of_none hnil hnext]
        exact List.nil_prefix
      | some p =>
        obtain ⟨payload, rest⟩ := p
        have hlt := nextFrame_length hnext
        cases hop : codec.deserialize payload with
        | none =>
          rw [readSegment_of_corrupt hnext hop]
          exact List.nil_prefix
        | some op =>
          rw [readSegment_of_some hnext hop,
            readSegment_of_some (nextFrame_append hnext extra) hop]
          exact (List.prefix_cons_inj op).mpr (ih rest (by omega))

end Reading

/-! ## The directory -/

abbrev LogDir := Table ℕ Bytes

namespace LogDir

def listGenerations (dir : LogDir) : List ℕ :=
  dir.sortedKeys

def recover (codec : OpCodec) (dir : LogDir) : List Op :=
  (listGenerations dir).flatMap fun g => (readSegment codec ((dir.lookup g).getD [])).1

def createSegment (dir : LogDir) (generation : ℕ) : LogDir :=
  if generation ∈ dir then dir else dir.insert generation []

def write (dir : LogDir) (generation : ℕ) (bytes : Bytes) : LogDir :=
  dir.modify generation fun old => old ++ bytes

/-- Remove a number of segments up to a generation, the oldest first. -/
def retire (dir : LogDir) (covered count : ℕ) : LogDir :=
  dir.eraseAll ((listGenerations dir).filter (· ≤ covered) |>.take count)

end LogDir

/-! ## Runs -/

/-- What happens to a log. -/
inductive LogAction where
  | openLog
  | append (op : Op)
  /-- An append that fails, and leaves so many bytes of its frame. -/
  | appendFails (op : Op) (written : ℕ)
  | cut
  /-- A retirement that removes so many segments before it ends, fails or is cut off. -/
  | retire (covered count : ℕ)
  | crash

/-- A log directory with the process that has it open, if there is one. -/
structure OpLogRun where
  dir : LogDir
  writer : Option ℕ
  /-- The records whose append has returned and whose segment was not removed, in order, with their
  generations. -/
  acknowledged : List (ℕ × Op)

namespace OpLogRun

variable (codec : OpCodec) (s : OpLogRun)

/-- The generation that a log that is opened goes on with. -/
def nextGeneration (dir : LogDir) : ℕ :=
  match (LogDir.listGenerations dir).getLast? with
  | none => 1
  | some g => g + 1

/-- One step.  A record that cannot be encoded or is too large is refused. -/
def step : LogAction → Option OpLogRun
  | .openLog =>
      match s.writer with
      | some _ => none
      | none =>
          let next := nextGeneration s.dir
          some { s with dir := LogDir.createSegment s.dir next, writer := some next }
  | .append op =>
      match s.writer, codec.serialize op with
      | some g, some payload =>
          if payload.length ≤ maxRecordBytes then
            some { s with
              dir := LogDir.write s.dir g (frame payload)
              acknowledged := s.acknowledged ++ [(g, op)] }
          else none
      | _, _ => none
  | .appendFails op written =>
      match s.writer, codec.serialize op with
      | some g, some payload =>
          if payload.length ≤ maxRecordBytes then
            some { s with dir := LogDir.write s.dir g ((frame payload).take written) }
          else none
      | _, _ => none
  | .cut =>
      match s.writer with
      | none => none
      | some g =>
          some { s with dir := LogDir.createSegment s.dir (g + 1), writer := some (g + 1) }
  | .retire covered count =>
      let dir := LogDir.retire s.dir covered count
      if s.writer.isSome then
        some { s with
          dir
          acknowledged := s.acknowledged.filter fun e => e.1 ∈ dir || e.1 ∉ s.dir }
      else none
  | .crash => some { s with writer := none }

def system : System OpLogRun LogAction where
  init := { dir := ∅, writer := none, acknowledged := [] }
  step := step codec

/-- Whoever opens the log next finds every record whose append has returned, in order. -/
def Complete : Prop :=
  (s.acknowledged.map Prod.snd).Sublist (LogDir.recover codec s.dir)

/-- An append that returns goes into a segment that is there and does not end in a torn frame. -/
def Clean : LogAction → Prop
  | .append _ => ∀ g ∈ s.writer, ∃ bytes, s.dir.lookup g = some bytes ∧
      (readSegment codec bytes).2 = true
  | _ => True

/-! ## The directory after a step -/

section Dir

variable {dir : LogDir}

theorem lt_nextGeneration {g : ℕ} (h : g ∈ dir) : g < nextGeneration dir := by
  unfold nextGeneration LogDir.listGenerations
  cases hlast : dir.sortedKeys.getLast? with
  | none =>
    have hmem := mem_sortedKeys.mpr h
    rw [List.getLast?_eq_none_iff.mp hlast] at hmem
    cases hmem
  | some l => exact Nat.lt_succ_of_le (le_of_getLast?_sortedKeys hlast h)

theorem lookup_createSegment (g g' : ℕ) :
    (LogDir.createSegment dir g).lookup g' =
      if g' = g then some ((dir.lookup g).getD []) else dir.lookup g' := by
  unfold LogDir.createSegment
  split_ifs with hmem heq heq
  · obtain ⟨bytes, hbytes⟩ := Option.isSome_iff_exists.mp (AList.lookup_isSome.mpr hmem)
    rw [heq, hbytes]
    rfl
  · rfl
  · rw [heq, AList.lookup_insert, AList.lookup_eq_none.mpr hmem]
    rfl
  · exact AList.lookup_insert_ne heq

theorem mem_createSegment (g g' : ℕ) :
    g' ∈ LogDir.createSegment dir g ↔ g' = g ∨ g' ∈ dir := by
  rw [← AList.lookup_isSome, lookup_createSegment]
  split_ifs with h
  · simp [h]
  · simp [h, AList.lookup_isSome]

theorem lookup_write (g : ℕ) (bytes : Bytes) (g' : ℕ) :
    (LogDir.write dir g bytes).lookup g' =
      if g' = g then (dir.lookup g').map fun old => old ++ bytes else dir.lookup g' :=
  Table.lookup_modify _ _ _ _

theorem mem_write (g : ℕ) (bytes : Bytes) (g' : ℕ) :
    g' ∈ LogDir.write dir g bytes ↔ g' ∈ dir := by
  rw [← AList.lookup_isSome, lookup_write, ← AList.lookup_isSome]
  split_ifs <;> simp

theorem lookup_retire {covered count g : ℕ} {bytes : Bytes}
    (h : (LogDir.retire dir covered count).lookup g = some bytes) : dir.lookup g = some bytes := by
  rw [LogDir.retire, lookup_eraseAll] at h
  split_ifs at h
  exact h

end Dir

/-! ## The invariant -/

/-- Acknowledged records stand in the order of generations, in segments that are there, and every
segment is read with those that are its own. -/
structure Invariant : Prop where
  sorted : s.acknowledged.Pairwise fun a b => a.1 ≤ b.1
  known : ∀ e ∈ s.acknowledged, e.1 ∈ s.dir
  last : ∀ w ∈ s.writer, ∀ g ∈ s.dir, g ≤ w
  read : ∀ g bytes, s.dir.lookup g = some bytes →
    (segment s.acknowledged g).Sublist (readSegment codec bytes).1

variable {codec} {s}

theorem Invariant.complete (h : Invariant codec s) : s.Complete codec := by
  unfold Complete LogDir.recover
  rw [← flatMap_segment (sortedKeys_pairwise s.dir) h.sorted
    fun e he => mem_sortedKeys.mpr (h.known e he)]
  refine flatMap_sublist fun g hg => ?_
  obtain ⟨bytes, hbytes⟩ :=
    Option.isSome_iff_exists.mp (AList.lookup_isSome.mpr (mem_sortedKeys.mp hg))
  rw [hbytes]
  exact h.read g bytes hbytes

theorem Invariant.init : Invariant codec (system codec).init where
  sorted := List.Pairwise.nil
  known := by
    intro e he
    cases he
  last := by
    intro w hw
    cases hw
  read := by
    intro g bytes h
    cases h

theorem Invariant.createSegment (h : Invariant codec s) {next : ℕ} (hnext : ∀ g ∈ s.dir, g < next) :
    Invariant codec { s with dir := LogDir.createSegment s.dir next, writer := some next } where
  sorted := h.sorted
  known := fun e he => (mem_createSegment _ _).mpr (.inr (h.known e he))
  last := by
    intro w hw g hg
    obtain rfl := Option.some.inj hw
    rcases (mem_createSegment _ _).mp hg with rfl | hg
    · exact Nat.le_refl _
    · exact (hnext g hg).le
  read := by
    intro g bytes hlookup
    change (LogDir.createSegment s.dir next).lookup g = some bytes at hlookup
    rw [lookup_createSegment] at hlookup
    split_ifs at hlookup with hg
    · have hnew : segment s.acknowledged g = [] := by
        refine segment_eq_nil fun e he heq => ?_
        have := hnext e.1 (h.known e he)
        omega
      change (segment s.acknowledged g).Sublist _
      rw [hnew]
      exact List.nil_sublist _
    · exact h.read g bytes hlookup

theorem Invariant.write (h : Invariant codec s) (g : ℕ) (extra : Bytes) :
    Invariant codec { s with dir := LogDir.write s.dir g extra } where
  sorted := h.sorted
  known := fun e he => (mem_write _ _ _).mpr (h.known e he)
  last := fun w hw g' hg' => h.last w hw g' ((mem_write _ _ _).mp hg')
  read := by
    intro g' bytes hlookup
    change (LogDir.write s.dir g extra).lookup g' = some bytes at hlookup
    rw [lookup_write] at hlookup
    split_ifs at hlookup
    · obtain ⟨old, hold, rfl⟩ := Option.map_eq_some_iff.mp hlookup
      exact (h.read g' old hold).trans (readSegment_isPrefix old extra).sublist
    · exact h.read g' bytes hlookup

/-- A record at the end of a segment that ends with its last record. -/
theorem Invariant.append (h : Invariant codec s) {g : ℕ} {op : Op} {payload : Bytes}
    (hw : s.writer = some g) (hop : codec.serialize op = some payload)
    (hsize : payload.length ≤ maxRecordBytes) {bytes : Bytes}
    (hbytes : s.dir.lookup g = some bytes) (hwhole : (readSegment codec bytes).2 = true) :
    Invariant codec { s with
      dir := LogDir.write s.dir g (frame payload)
      acknowledged := s.acknowledged ++ [(g, op)] } := by
  have hold := h.write g (frame payload)
  refine ⟨?_, ?_, hold.last, ?_⟩
  · refine List.pairwise_append.mpr ⟨h.sorted, List.pairwise_singleton _ _, ?_⟩
    intro e he e' he'
    rw [List.mem_singleton.mp he']
    exact h.last g hw e.1 (h.known e he)
  · intro e he
    rcases List.mem_append.mp he with he | he
    · exact hold.known e he
    · rw [List.mem_singleton.mp he]
      exact (mem_write _ _ _).mpr (AList.lookup_isSome.mp (hbytes ▸ rfl))
  · intro g' bytes' hlookup
    change (segment (s.acknowledged ++ [(g, op)]) g').Sublist _
    rw [segment_append, segment_singleton]
    by_cases hg : g' = g
    · subst hg
      have hlookup' : (LogDir.write s.dir g' (frame payload)).lookup g' = some bytes' := hlookup
      rw [lookup_write, if_pos rfl, hbytes, Option.map_some] at hlookup'
      obtain rfl := Option.some.inj hlookup'
      rw [readSegment_append hwhole, readSegment_frame hop hsize]
      rw [if_pos rfl]
      exact (h.read g' bytes hbytes).append (List.Sublist.refl _)
    · rw [if_neg (Ne.symm hg), List.append_nil]
      exact hold.read g' bytes' hlookup

theorem Invariant.retire (h : Invariant codec s) (covered count : ℕ) :
    Invariant codec { s with
      dir := LogDir.retire s.dir covered count
      acknowledged := s.acknowledged.filter fun e =>
        e.1 ∈ LogDir.retire s.dir covered count || e.1 ∉ s.dir } where
  sorted := h.sorted.sublist List.filter_sublist
  known := by
    intro e he
    obtain ⟨hmem, hkept⟩ := List.mem_filter.mp he
    simpa [h.known e hmem] using hkept
  last := by
    intro w hw g hg
    obtain ⟨bytes, hbytes⟩ := Option.isSome_iff_exists.mp (AList.lookup_isSome.mpr hg)
    exact h.last w hw g (AList.lookup_isSome.mp (lookup_retire hbytes ▸ rfl))
  read := by
    intro g bytes hlookup
    refine List.Sublist.trans ?_ (h.read g bytes (lookup_retire hlookup))
    exact (List.filter_sublist.filter _).map _

/-- One action keeps acknowledged records in segments that are there. -/
theorem Invariant.step (h : Invariant codec s) {a : LogAction} (hclean : s.Clean codec a)
    {s' : OpLogRun} (hstep : s.step codec a = some s') : Invariant codec s' := by
  cases a with
  | openLog =>
    simp only [OpLogRun.step] at hstep
    cases hw : s.writer with
    | some w =>
      rw [hw] at hstep
      cases hstep
    | none =>
      rw [hw] at hstep
      obtain rfl := Option.some.inj hstep
      exact h.createSegment fun g hg => lt_nextGeneration hg
  | append op =>
    simp only [OpLogRun.step] at hstep
    split at hstep
    · rename_i g payload hw hop
      split_ifs at hstep with hsize
      obtain rfl := Option.some.inj hstep
      obtain ⟨bytes, hbytes, hwhole⟩ := hclean g hw
      exact h.append hw hop hsize hbytes hwhole
    · cases hstep
  | appendFails op written =>
    simp only [OpLogRun.step] at hstep
    split at hstep
    · rename_i g payload hw hop
      split_ifs at hstep
      obtain rfl := Option.some.inj hstep
      exact h.write g ((frame payload).take written)
    · cases hstep
  | cut =>
    simp only [OpLogRun.step] at hstep
    cases hw : s.writer with
    | none =>
      rw [hw] at hstep
      cases hstep
    | some g =>
      rw [hw] at hstep
      obtain rfl := Option.some.inj hstep
      exact h.createSegment fun g' hg' => Nat.lt_succ_of_le (h.last g hw g' hg')
  | retire covered count =>
    simp only [OpLogRun.step] at hstep
    split_ifs at hstep
    obtain rfl := Option.some.inj hstep
    exact h.retire covered count
  | crash =>
    obtain rfl := Option.some.inj hstep
    refine ⟨h.sorted, h.known, ?_, h.read⟩
    intro w hw
    cases hw

/-! ## Runs -/

/-- If every append that returns goes into a segment that is there and does not end in a torn frame,
then whoever opens the log, in whatever state, finds every record that was appended and not retired,
in order. -/
theorem complete_of_clean (codec : OpCodec) (s : OpLogRun)
    (h : (system codec).Reach (Clean codec) s) : s.Complete codec := by
  have hinv : Invariant codec s := by
    refine h.invariant Invariant.init ?_
    intro s a s' _ hs hclean hstep
    exact hs.step hclean hstep
  exact hinv.complete

/-- The encoding of deletions of keys in ASCII; other records are refused. -/
def deletionCodec : OpCodec where
  serialize
    | .kvDelete key =>
        if key.toList.all (fun c => c.toNat < 128) ∧ key.toList.length < 256 ^ 8 then
          some (le 4 1 ++ (le 8 key.toList.length ++ key.toList.map fun c => UInt8.ofNat c.toNat))
        else none
    | _ => none
  deserialize bytes :=
    let tag := getLe 4 bytes
    let len := getLe 8 tag.2
    if tag.1 = 1 ∧ len.2.length = len.1 then
      some (.kvDelete (String.ofList (len.2.map fun b => Char.ofNat b.toNat)))
    else none
  deserialize_serialize := by
    intro op bytes h
    cases op with
    | kvDelete key =>
      dsimp only at h
      split_ifs at h with hkey
      obtain rfl := Option.some.inj h
      have hchars : (key.toList.map fun c => UInt8.ofNat c.toNat).map
          (fun b => Char.ofNat b.toNat) = key.toList := by
        rw [List.map_map]
        refine (List.map_congr_left fun c hc => ?_).trans (List.map_id _)
        have hc : c.toNat < 128 := by simpa using List.all_eq_true.mp hkey.1 c hc
        have hbyte : (UInt8.ofNat c.toNat).toNat = c.toNat := by
          rw [UInt8.toNat_ofNat', Nat.mod_eq_of_lt (by omega)]
        change Char.ofNat (UInt8.ofNat c.toNat).toNat = c
        rw [hbyte, Char.ofNat_toNat]
      dsimp only
      rw [getLe_le]
      dsimp only
      rw [getLe_le]
      dsimp only
      rw [Nat.mod_eq_of_lt hkey.2, hchars, String.ofList_toList, if_pos]
      exact ⟨by norm_num, List.length_map _⟩
    | _ => cases h

instance (codec : OpCodec) (s : OpLogRun) : (a : LogAction) → Decidable (s.Clean codec a)
  | .append _ =>
      letI (g : ℕ) : Decidable (∃ bytes, s.dir.lookup g = some bytes ∧
          (readSegment codec bytes).2 = true) :=
        decidable_of_iff _ (Option.any_eq_true (fun bytes => (readSegment codec bytes).2)
          (s.dir.lookup g))
      Option.decidableForallMem _
  | .openLog | .appendFails _ _ | .cut | .retire _ _ | .crash => .isTrue trivial

/-- An append fails and leaves a torn frame; the log goes on in a new segment, the first segment is
retired, and the log is opened again. -/
def retiredRun : List LogAction :=
  [.openLog, .append (.kvDelete "a"), .cut, .append (.kvDelete "b"),
    .appendFails (.kvDelete "lost") 3, .cut, .append (.kvDelete "c"), .retire 1 1, .crash,
    .openLog, .append (.kvDelete "d")]

/-- What was appended in front of the torn frame, behind it in a new segment, and after the log was
opened again is found; what was retired is not asked for. -/
theorem complete_of_clean_retiredRun :
    ∃ s, (system deletionCodec).run (Clean deletionCodec) retiredRun = some s ∧
      s.acknowledged = [(2, .kvDelete "b"), (3, .kvDelete "c"), (4, .kvDelete "d")] ∧
      s.Complete deletionCodec := by
  have hrun : ((system deletionCodec).run (Clean deletionCodec) retiredRun).any (fun s =>
      s.acknowledged = [(2, .kvDelete "b"), (3, .kvDelete "c"), (4, .kvDelete "d")]) = true := by
    decide +kernel
  obtain ⟨s, hs, hreach, hack⟩ := System.exists_reach_of_any hrun
  exact ⟨s, hs, of_decide_eq_true hack, complete_of_clean deletionCodec s hreach⟩

/-- An append fails after three bytes of its frame, and the next one returns. -/
def tornRun : List LogAction :=
  [.openLog, .appendFails (.kvDelete "lost") 3, .append (.kvDelete "kept"), .crash]

/-- What was appended behind a torn frame is not found. -/
theorem not_complete :
    ¬ ∀ codec s, (system codec).Reachable s → s.Complete codec := by
  intro h
  have hrun : ((system deletionCodec).run (fun _ _ => True) tornRun).map
      (fun s => (s.acknowledged, LogDir.recover deletionCodec s.dir)) =
      some ([(1, .kvDelete "kept")], []) := by
    decide +kernel
  obtain ⟨s, hs, heq⟩ := Option.map_eq_some_iff.mp hrun
  obtain ⟨hack, hrecover⟩ := Prod.mk.inj heq
  have hcomplete := h deletionCodec s (System.reach_of_run hs)
  rw [Complete, hack, hrecover] at hcomplete
  exact absurd (List.sublist_nil.mp hcomplete) (by simp)

end OpLogRun

end Server

end AegisDB
