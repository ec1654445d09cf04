import AegisDB.TimeSeries.ColdStore

/-!
# What the cold tier keeps

The cold tier is a map from series to lists of blocks as long as its files are files of whole
frames.  An append looks at nothing that is there: it writes behind a frame that a crash has torn,
where no frame is found again, and behind frames of an append that was not finished, which then
appear with it.  A compaction forgets what was appended to a file between reading and replacing it.
Where none of this happens, what is read is what was appended and not yet compacted or removed.
-/

namespace AegisDB

namespace TimeSeries

namespace ColdStore

variable {store : ColdStore} {id id' : String}

theorem file_setFile (bytes : Option Bytes) :
    (store.setFile id bytes).file id' =
      if fnv1a64 id' = fnv1a64 id then bytes else store.file id' := by
  unfold file setFile
  cases bytes with
  | none => exact Table.lookup_erase _ _ _
  | some bytes => exact Table.lookup_insert _ _ _ _

theorem content_setFile (bytes : Option Bytes) :
    (store.setFile id bytes).content id' =
      if fnv1a64 id' = fnv1a64 id then bytes.getD [] else store.content id' := by
  rw [content, file_setFile]
  split_ifs <;> rfl

theorem lookup_foldl_erase (ids : List String) (index : Table String ColdSeriesMeta) :
    (ids.foldl (fun index id => index.erase id) index).lookup id =
      if id ∈ ids then none else index.lookup id := by
  induction ids generalizing index with
  | nil => rfl
  | cons id' ids ih =>
    rw [List.foldl_cons, ih, Table.lookup_erase]
    by_cases hmem : id ∈ ids
    · rw [if_pos hmem, if_pos (List.mem_cons_of_mem _ hmem)]
    · rw [if_neg hmem]
      by_cases heq : id = id'
      · rw [if_pos heq, if_pos (heq ▸ List.mem_cons_self)]
      · rw [if_neg heq, if_neg (by simp [heq, hmem])]

theorem mem_forget {ids : List String} :
    id ∈ (store.forget ids).index ↔ id ∉ ids ∧ id ∈ store.index := by
  rw [← AList.lookup_isSome, ← AList.lookup_isSome, forget, lookup_foldl_erase]
  by_cases hmem : id ∈ ids <;> simp [hmem]

theorem index_enter (seriesId : String) (series : ColdSeriesMeta) :
    (store.enter seriesId series).index = store.index.insert seriesId series := by
  unfold enter
  dsimp only
  split_ifs <;> rfl

theorem content_enter (seriesId : String) (series : ColdSeriesMeta) :
    (store.enter seriesId series).content id = store.content id := by
  have hfiles : (store.enter seriesId series).dir.files = store.dir.files := by
    unfold enter
    dsimp only
    split_ifs <;> rfl
  rw [content, content, file, file, hfiles]

/-- The blocks that are read are those of the file that overlap. -/
theorem readRange_eq (startMs endMs : Int64) :
    store.readRange id startMs endMs =
      if id ∈ store.index then
        (coldFormat.read (store.content id)).filter fun b =>
          startMs ≤ b.lastTimestamp && b.firstTimestamp ≤ endMs
      else [] := by
  unfold readRange contains content
  by_cases hmem : id ∈ store.index
  · rw [decide_eq_true hmem, Bool.not_true, if_neg Bool.false_ne_true, if_pos hmem]
    cases store.file id with
    | none => rfl
    | some bytes =>
      dsimp only
      rw [(readFrames_spec le_rfl).1]
      refine List.filter_congr fun b _ => ?_
      rw [CompressedBlock.skippedBy, outside, Bool.not_or, ← decide_not, ← decide_not]
      exact congrArg₂ and (decide_eq_decide.mpr Int64.not_lt) (decide_eq_decide.mpr Int64.not_lt)
  · rw [decide_eq_false hmem, Bool.not_false, if_pos rfl, if_neg hmem]

end ColdStore

namespace ColdRun

variable {s s' : ColdRun} {ids : Finset String}

/-- An append can break off without anybody noticing: either the series is not in the index, or not
even its first frame was written. -/
def BreaksOffUnseen (s : ColdRun) : Prop :=
  ∀ a ∈ s.appending, a.seriesId ∉ s.store.index ∨
    ∀ b ∈ a.blocks.head?, a.written < (writeFrame b).length

instance (s : ColdRun) : Decidable s.BreaksOffUnseen :=
  inferInstanceAs (Decidable (∀ _ ∈ _, _ ∨ _))

/-- Blocks are appended only behind whole frames that are in use, appends break off before their
first frame is whole, and what a compaction has read does not change before it is replaced. -/
def Clean (ids : Finset String) (s : ColdRun) : ColdAction → Prop
  | .beginAppend id _ blocks =>
      id ∈ ids ∧ (∀ b ∈ blocks, b.Storable) ∧ coldFormat.Whole (s.store.content id) ∧
        (id ∈ s.store.index ∨ s.store.content id = [])
  | .failAppend => s.BreaksOffUnseen
  | .crash => s.BreaksOffUnseen
  | .replaceFile =>
      ∀ c ∈ s.compacting, ∀ current ∈ c.current,
        (current.1 ∈ s.store.index → s.store.file current.1 = some current.2.1) ∧
          ∀ a ∈ s.appending, a.seriesId ≠ current.1
  | .endCompact =>
      ∀ c ∈ s.compacting, ∀ id ∈ c.removed, id ∈ s.store.index → s.store.content id = []
  | .remove seriesIds =>
      ∀ a ∈ s.appending, a.seriesId ∈ seriesIds → a.seriesId ∉ s.store.index
  | _ => True

instance (ids : Finset String) (s : ColdRun) (a : ColdAction) : Decidable (Clean ids s a) :=
  match a with
  | .beginAppend .. => inferInstanceAs (Decidable (_ ∧ _))
  | .write _ => inferInstanceAs (Decidable True)
  | .endAppend => inferInstanceAs (Decidable True)
  | .failAppend => inferInstanceAs (Decidable s.BreaksOffUnseen)
  | .beginCompact _ => inferInstanceAs (Decidable True)
  | .readFile => inferInstanceAs (Decidable True)
  | .replaceFile => inferInstanceAs (Decidable (∀ _ ∈ _, _))
  | .endCompact => inferInstanceAs (Decidable (∀ _ ∈ _, _))
  | .remove _ => inferInstanceAs (Decidable (∀ _ ∈ _, _))
  | .crash => inferInstanceAs (Decidable s.BreaksOffUnseen)

/-- What was written of an append is behind whole frames. -/
structure InFlight (ids : Finset String) (store : ColdStore)
    (expected : String → List CompressedBlock) (a : Appending) : Prop where
  mem : a.seriesId ∈ ids
  attached : a.attached = true
  storable : ∀ b ∈ a.blocks, b.Storable
  nonempty : a.blocks ≠ []
  content : ∃ before, coldFormat.Whole before ∧
    coldFormat.read before = expected a.seriesId ∧
    store.content a.seriesId = before ++ (coldFormat.encodeAll a.blocks).take a.written

/-- What a compaction has read is what it keeps. -/
structure Reading (ids : Finset String) (c : Compacting) : Prop where
  remaining : ∀ id ∈ c.remaining, id ∈ ids
  removed : ∀ id ∈ c.removed, id ∈ ids
  current : ∀ id bytes keep, c.current = some (id, bytes, keep) → id ∈ ids ∧
    keep = (coldFormat.read bytes).filter fun b => c.cutoffMs ≤ b.lastTimestamp

/-- Files have the blocks that are expected of them. -/
structure Kept (ids : Finset String) (s : ColdRun) : Prop where
  known : ∀ id ∈ s.store.index, id ∈ ids
  saved : ∀ id, id ∈ s.store.dir.index.getD ∅ ↔ id ∈ s.store.index
  absent : ∀ id ∉ s.store.index, s.expected id = []
  present : ∀ id ∈ s.store.index, (∀ a ∈ s.appending, a.seriesId ≠ id) →
    coldFormat.read (s.store.content id) = s.expected id
  appending : ∀ a ∈ s.appending, InFlight ids s.store s.expected a
  compacting : ∀ c ∈ s.compacting, Reading ids c

theorem Kept.refines (h : Kept ids s) : s.Refines := by
  intro id happending startMs endMs
  rw [ColdStore.readRange_eq]
  split_ifs with hmem
  · rw [h.present id hmem happending]
  · rw [h.absent id hmem]
    rfl

theorem kept_init : Kept ids ({} : ColdRun) where
  known id hid := absurd hid (AList.notMem_empty id)
  saved _ := Iff.rfl
  absent _ _ := rfl
  present id hid := absurd hid (AList.notMem_empty id)
  appending a ha := by cases ha
  compacting c hc := by cases hc

/-! ### Steps -/

theorem eq_of_fnv1a64 (hinj : Set.InjOn fnv1a64 ids) {id id' : String} (hid : id ∈ ids)
    (hid' : id' ∈ ids) (h : fnv1a64 id = fnv1a64 id') : id = id' :=
  hinj hid hid' h

theorem Kept.beginAppend (h : Kept ids s) {id : String} {series : ColdSeriesMeta}
    {blocks : List CompressedBlock} (hclean : Clean ids s (.beginAppend id series blocks))
    (hstep : s.act (.beginAppend id series blocks) = some s') : Kept ids s' := by
  obtain ⟨hid, hstorable, hwhole, huse⟩ := hclean
  unfold act at hstep
  dsimp only at hstep
  split_ifs at hstep with hbusy hempty
  · obtain rfl := Option.some.inj hstep
    exact h
  obtain rfl := Option.some.inj hstep
  have hidle : s.appending = none := by simpa using hbusy
  have hcontent (id' : String) : (s.store.setFile id (some (s.store.content id))).content id' =
      s.store.content id' := by
    rw [ColdStore.content_setFile]
    split_ifs with heq
    · rw [Option.getD_some, ColdStore.content, ColdStore.content, ColdStore.file, ColdStore.file,
        heq]
    · rfl
  refine ⟨h.known, h.saved, h.absent, fun id' hid' _ => ?_, fun a ha => ?_, h.compacting⟩
  · dsimp only
    rw [hcontent]
    exact h.present id' hid' (by simp [hidle])
  · obtain rfl := Option.some.inj ha
    refine ⟨hid, rfl, hstorable, by simpa using hempty, s.store.content id, hwhole, ?_, ?_⟩
    · rcases huse with hknown | hnone
      · exact h.present id hknown (by simp [hidle])
      · by_cases hknown : id ∈ s.store.index
        · exact h.present id hknown (by simp [hidle])
        · rw [hnone, h.absent id hknown]
          rfl
    · dsimp only
      rw [hcontent, List.take_zero, List.append_nil]

theorem Kept.write (hinj : Set.InjOn fnv1a64 ids) (h : Kept ids s) {n : ℕ}
    (hstep : s.act (.write n) = some s') : Kept ids s' := by
  unfold act at hstep
  cases happending : s.appending with
  | none =>
    rw [happending] at hstep
    cases hstep
  | some a =>
    have hflight := h.appending a happending
    obtain ⟨before, hwhole, hread, hbefore⟩ := hflight.content
    rw [happending] at hstep
    dsimp only at hstep
    rw [if_pos hflight.attached] at hstep
    obtain rfl := Option.some.inj hstep
    refine ⟨h.known, h.saved, h.absent, fun id hid hother => ?_, fun a' ha' => ?_, h.compacting⟩
    · have hne : a.seriesId ≠ id := hother { a with written := a.written + n } rfl
      dsimp only
      rw [ColdStore.content_setFile, if_neg fun heq =>
        hne (eq_of_fnv1a64 hinj (h.known id hid) hflight.mem heq).symm]
      refine h.present id hid fun a' ha' => ?_
      rw [happending] at ha'
      obtain rfl := Option.some.inj ha'
      exact hne
    · obtain rfl := Option.some.inj ha'
      refine ⟨hflight.mem, hflight.attached, hflight.storable, hflight.nonempty, before, hwhole,
        hread, ?_⟩
      dsimp only
      rw [ColdStore.content_setFile, if_pos rfl, Option.getD_some, hbefore, List.append_assoc,
        List.take_add]
      rfl

theorem InFlight.read_content {a : Appending} {store : ColdStore}
    {expected : String → List CompressedBlock} (h : InFlight ids store expected a) :
    (a.IsWritten → coldFormat.read (store.content a.seriesId) =
        expected a.seriesId ++ a.blocks) ∧
      ((∀ b ∈ a.blocks.head?, a.written < (writeFrame b).length) →
        coldFormat.read (store.content a.seriesId) = expected a.seriesId) := by
  obtain ⟨before, hwhole, hread, hcontent⟩ := h.content
  rw [hcontent, coldFormat.read_append hwhole, coldFormat.read_take h.storable, hread]
  constructor
  · intro hwritten
    rw [coldFormat.fitting_of_length_le hwritten]
  · intro hshort
    obtain ⟨b, blocks, hblocks⟩ := List.exists_cons_of_ne_nil h.nonempty
    rw [hblocks, List.head?_cons] at hshort
    have hlt : ¬ (coldFormat.encode b).length ≤ a.written := Nat.not_le.mpr (hshort b rfl)
    rw [hblocks, FrameFormat.fitting, if_neg hlt, List.append_nil]

theorem Kept.endAppend (h : Kept ids s) (hstep : s.act .endAppend = some s') : Kept ids s' := by
  unfold act at hstep
  cases happending : s.appending with
  | none =>
    rw [happending] at hstep
    cases hstep
  | some a =>
    have hflight := h.appending a happending
    rw [happending] at hstep
    dsimp only at hstep
    split_ifs at hstep with hwritten
    obtain rfl := Option.some.inj hstep
    refine ⟨fun id hid => ?_, fun id => ?_, fun id hid => ?_, fun id hid _ => ?_,
      fun a' ha' => (by cases ha'), h.compacting⟩
    · dsimp only at hid
      rw [ColdStore.index_enter, AList.mem_insert] at hid
      rcases hid with rfl | hid
      · exact hflight.mem
      · exact h.known id hid
    · dsimp only
      rw [ColdStore.index_enter, AList.mem_insert]
      unfold ColdStore.enter
      dsimp only
      split_ifs with hknown
      · rw [h.saved id, or_iff_right_of_imp]
        rintro rfl
        exact hknown
      · exact AList.mem_insert _
    · dsimp only at hid ⊢
      rw [ColdStore.index_enter, AList.mem_insert, not_or] at hid
      rw [Function.update_of_ne hid.1]
      exact h.absent id hid.2
    · dsimp only at hid ⊢
      rw [ColdStore.content_enter]
      by_cases hsame : id = a.seriesId
      · rw [hsame, Function.update_self]
        exact hflight.read_content.1 hwritten
      · rw [Function.update_of_ne hsame]
        rw [ColdStore.index_enter, AList.mem_insert] at hid
        refine h.present id (hid.resolve_left hsame) fun a' ha' => ?_
        rw [happending] at ha'
        obtain rfl := Option.some.inj ha'
        exact Ne.symm hsame

theorem Kept.read_of_breaksOff (h : Kept ids s) (hunseen : s.BreaksOffUnseen) {id : String}
    (hid : id ∈ s.store.index) : coldFormat.read (s.store.content id) = s.expected id := by
  by_cases hother : ∀ a ∈ s.appending, a.seriesId ≠ id
  · exact h.present id hid hother
  · push Not at hother
    obtain ⟨a, ha, rfl⟩ := hother
    exact (h.appending a ha).read_content.2 ((hunseen a ha).resolve_left (not_not_intro hid))

theorem Kept.failAppend (h : Kept ids s) (hclean : Clean ids s .failAppend)
    (hstep : s.act .failAppend = some s') : Kept ids s' := by
  unfold act at hstep
  dsimp only at hstep
  split_ifs at hstep
  obtain rfl := Option.some.inj hstep
  exact ⟨h.known, h.saved, h.absent, fun id hid _ => h.read_of_breaksOff hclean hid,
    fun a ha => (by cases ha), h.compacting⟩

theorem Kept.crash (h : Kept ids s) (hclean : Clean ids s .crash)
    (hstep : s.act .crash = some s') : Kept ids s' := by
  obtain rfl := Option.some.inj hstep
  refine ⟨fun id hid => h.known id ((h.saved id).mp hid), fun id => Iff.rfl,
    fun id hid => h.absent id (mt (h.saved id).mpr hid),
    fun id hid _ => h.read_of_breaksOff hclean ((h.saved id).mp hid), fun a ha => (by cases ha),
    fun c hc => (by cases hc)⟩

theorem Kept.beginCompact (h : Kept ids s) {cutoffMs : Int64}
    (hstep : s.act (.beginCompact cutoffMs) = some s') : Kept ids s' := by
  unfold act at hstep
  dsimp only at hstep
  split_ifs at hstep
  obtain rfl := Option.some.inj hstep
  refine ⟨h.known, h.saved, h.absent, h.present, h.appending, fun c hc => ?_⟩
  obtain rfl := Option.some.inj hc
  exact ⟨fun id hid => h.known id (AList.mem_keys.mpr hid), fun id hid => (by cases hid),
    fun id bytes keep hcurrent => (by cases hcurrent)⟩

theorem readFrames_tooOld {cutoffMs : Int64} {bytes : Bytes} :
    (readFrames (ColdStore.tooOld cutoffMs) bytes.length bytes).1 =
      (coldFormat.read bytes).filter fun b => cutoffMs ≤ b.lastTimestamp := by
  rw [(readFrames_spec le_rfl).1]
  refine List.filter_congr fun b _ => ?_
  rw [CompressedBlock.skippedBy, ColdStore.tooOld, ← decide_not]
  exact decide_eq_decide.mpr Int64.not_lt

theorem Reading.readFile {c : Compacting} (h : Reading ids c) {store : ColdStore} {id : String}
    {rest : List String} (hremaining : c.remaining = id :: rest) (hcurrent : c.current = none) :
    Reading ids (c.readFile store id rest) := by
  have hid : id ∈ ids := h.remaining id (by rw [hremaining]; exact List.mem_cons_self)
  have hrest : ∀ id' ∈ rest, id' ∈ ids := fun id' hid' =>
    h.remaining id' (by rw [hremaining]; exact List.mem_cons_of_mem _ hid')
  unfold Compacting.readFile
  cases store.file id with
  | none =>
    refine ⟨hrest, fun id' hid' => ?_, fun id' bytes keep hkeep => ?_⟩
    · rcases List.mem_append.mp hid' with hid' | hid'
      · exact h.removed id' hid'
      · rw [List.mem_singleton.mp hid']
        exact hid
    · dsimp only at hkeep
      rw [hcurrent] at hkeep
      cases hkeep
  | some bytes =>
    dsimp only
    split_ifs with hzero
    · refine ⟨hrest, h.removed, fun id' bytes' keep hkeep => ?_⟩
      dsimp only at hkeep
      rw [hcurrent] at hkeep
      cases hkeep
    · refine ⟨hrest, h.removed, fun id' bytes' keep hkeep => ?_⟩
      obtain ⟨rfl, rfl, rfl⟩ := by simpa using hkeep
      exact ⟨hid, readFrames_tooOld⟩

theorem Kept.readFile (h : Kept ids s) (hstep : s.act .readFile = some s') : Kept ids s' := by
  unfold act at hstep
  dsimp only at hstep
  split at hstep
  · next c hc =>
    split at hstep
    · next id rest hcurrent hremaining =>
      obtain rfl := Option.some.inj hstep
      refine ⟨h.known, h.saved, h.absent, h.present, h.appending, fun c' hc' => ?_⟩
      obtain rfl := Option.some.inj hc'
      exact (h.compacting c hc).readFile hremaining hcurrent
    · cases hstep
  · cases hstep

theorem detach_eq_self {a : Appending} {id : String} (h : fnv1a64 a.seriesId ≠ fnv1a64 id) :
    a.detach id = a := by
  rw [Appending.detach, decide_eq_true h, Bool.and_true]

theorem InFlight.congr {a : Appending} {store store' : ColdStore}
    {expected expected' : String → List CompressedBlock} (h : InFlight ids store expected a)
    (hcontent : store'.content a.seriesId = store.content a.seriesId)
    (hexpected : expected' a.seriesId = expected a.seriesId) :
    InFlight ids store' expected' a := by
  refine ⟨h.mem, h.attached, h.storable, h.nonempty, ?_⟩
  rw [hcontent, hexpected]
  exact h.content

theorem Reading.replaced {c : Compacting} (h : Reading ids c) {id : String} (hid : id ∈ ids)
    {keep : List CompressedBlock} : Reading ids (c.replaced id keep) := by
  have hcurrent (id' : String) (bytes : Bytes) (keep' : List CompressedBlock)
      (hnone : (none : Option (String × Bytes × List CompressedBlock)) = some (id', bytes, keep')) :
      id' ∈ ids ∧ keep' = (coldFormat.read bytes).filter fun b => c.cutoffMs ≤ b.lastTimestamp := by
    cases hnone
  unfold Compacting.replaced
  split_ifs
  · refine ⟨h.remaining, fun id' hid' => ?_, hcurrent⟩
    rcases List.mem_append.mp hid' with hid' | hid'
    · exact h.removed id' hid'
    · rw [List.mem_singleton.mp hid']
      exact hid
  · exact ⟨h.remaining, h.removed, hcurrent⟩

/-- A file that has not changed since it was read is replaced by what is not too old of it. -/
theorem Kept.replaceFile (hinj : Set.InjOn fnv1a64 ids) (h : Kept ids s)
    (hclean : Clean ids s .replaceFile) (hstep : s.act .replaceFile = some s') : Kept ids s' := by
  unfold act at hstep
  dsimp only at hstep
  split at hstep
  · next c hc =>
    split at hstep
    · next id bytes keep hcurrent =>
      obtain rfl := Option.some.inj hstep
      obtain ⟨hid, hkeep⟩ := (h.compacting c hc).current id bytes keep hcurrent
      obtain ⟨hsame, hidle⟩ := hclean c hc (id, bytes, keep) hcurrent
      have hstorable : ∀ b ∈ keep, b.Storable := by
        rw [hkeep]
        exact fun b hb => coldFormat.valid_of_mem_read bytes b (List.mem_of_mem_filter hb)
      have hread : coldFormat.read ((if keep.isEmpty then none
          else some (ColdStore.frames keep)).getD []) = keep := by
        split_ifs with hempty
        · rw [List.isEmpty_iff.mp hempty]
          rfl
        · have hall := coldFormat.read_encodeAll_append hstorable []
          rw [List.append_nil, FrameFormat.read_nil, List.append_nil] at hall
          exact hall
      refine ⟨h.known, h.saved, fun id' hid' => ?_, fun id' hid' hother => ?_, fun a ha => ?_,
        fun c' hc' => ?_⟩
      · dsimp only
        by_cases heq : id' = id
        · rw [heq, Function.update_self, h.absent id (heq ▸ hid')]
          rfl
        · rw [Function.update_of_ne heq]
          exact h.absent id' hid'
      · dsimp only at hid' ⊢
        rw [ColdStore.replaceFile, ColdStore.content_setFile]
        by_cases heq : id' = id
        · subst heq
          have hbefore := h.present id' hid' fun a ha => hidle a ha
          rw [ColdStore.content, hsame hid', Option.getD_some] at hbefore
          rw [if_pos rfl, Function.update_self, hread, hkeep, hbefore]
        · rw [if_neg fun hfile => heq (eq_of_fnv1a64 hinj (h.known id' hid') hid hfile),
            Function.update_of_ne heq]
          refine h.present id' hid' fun a ha => ?_
          exact hother (a.detach id) (Option.mem_map_of_mem _ ha)
      · obtain ⟨a', ha', rfl⟩ := Option.mem_map.mp ha
        have hne := hidle a' ha'
        have hflight := h.appending a' ha'
        have hfile : fnv1a64 a'.seriesId ≠ fnv1a64 id := fun heq =>
          hne (eq_of_fnv1a64 hinj hflight.mem hid heq)
        rw [detach_eq_self hfile]
        refine hflight.congr ?_ (Function.update_of_ne hne _ _)
        dsimp only
        rw [ColdStore.replaceFile, ColdStore.content_setFile, if_neg hfile]
      · obtain rfl := Option.some.inj hc'
        exact (h.compacting c hc).replaced hid
    · cases hstep
  · cases hstep

theorem Kept.expected_eq_nil (h : Kept ids s) {id : String} (hid : id ∈ s.store.index)
    (hnone : s.store.content id = []) : s.expected id = [] := by
  by_cases hother : ∀ a ∈ s.appending, a.seriesId ≠ id
  · rw [← h.present id hid hother, hnone]
    rfl
  · push Not at hother
    obtain ⟨a, ha, rfl⟩ := hother
    obtain ⟨before, -, hread, hcontent⟩ := (h.appending a ha).content
    rw [hnone] at hcontent
    rw [← hread, (List.append_eq_nil_iff.mp hcontent.symm).1]
    rfl

theorem Kept.endCompact (h : Kept ids s) (hclean : Clean ids s .endCompact)
    (hstep : s.act .endCompact = some s') : Kept ids s' := by
  unfold act at hstep
  dsimp only at hstep
  split at hstep
  · next c hc =>
    split_ifs at hstep
    obtain rfl := Option.some.inj hstep
    unfold Compacting.finish
    split_ifs with hnone
    · exact ⟨h.known, h.saved, h.absent, h.present, h.appending, fun c' hc' => (by cases hc')⟩
    · refine ⟨fun id hid => h.known id (ColdStore.mem_forget.mp hid).2, fun id => Iff.rfl,
        fun id hid => ?_, fun id hid hother => ?_,
        fun a ha => (h.appending a ha).congr rfl rfl, fun c' hc' => (by cases hc')⟩
      · by_cases hknown : id ∈ s.store.index
        · have hremoved : id ∈ c.removed := by
            by_contra hnot
            exact hid (ColdStore.mem_forget.mpr ⟨hnot, hknown⟩)
          exact h.expected_eq_nil hknown (hclean c hc id hremoved hknown)
        · exact h.absent id hknown
      · exact h.present id (ColdStore.mem_forget.mp hid).2 hother
  · cases hstep

theorem content_foldl_setFile (removed : List String) (store : ColdStore) (id : String) :
    (removed.foldl (fun store id => store.setFile id none) store).content id =
      if ∃ id' ∈ removed, fnv1a64 id = fnv1a64 id' then [] else store.content id := by
  induction removed generalizing store with
  | nil => simp
  | cons id' removed ih =>
    rw [List.foldl_cons, ih, ColdStore.content_setFile]
    by_cases hrest : ∃ id'' ∈ removed, fnv1a64 id = fnv1a64 id''
    · simp [hrest]
    · by_cases heq : fnv1a64 id = fnv1a64 id' <;> simp [hrest, heq]

theorem index_foldl_setFile (removed : List String) (store : ColdStore) :
    (removed.foldl (fun store id => store.setFile id none) store).index = store.index := by
  induction removed generalizing store with
  | nil => rfl
  | cons id removed ih => exact ih _

theorem dirIndex_foldl_setFile (removed : List String) (store : ColdStore) :
    (removed.foldl (fun store id => store.setFile id none) store).dir.index = store.dir.index := by
  induction removed generalizing store with
  | nil => rfl
  | cons id removed ih => exact ih _

theorem foldl_detach_eq_self {a : Appending} {removed : List String}
    (h : ∀ id ∈ removed, fnv1a64 a.seriesId ≠ fnv1a64 id) :
    removed.foldl Appending.detach a = a := by
  induction removed with
  | nil => rfl
  | cons id removed ih =>
    rw [List.foldl_cons, detach_eq_self (h id List.mem_cons_self)]
    exact ih fun id' hid' => h id' (List.mem_cons_of_mem _ hid')

theorem removeMany_spec (store : ColdStore) (seriesIds : List String) :
    (∀ id, id ∈ (store.removeMany seriesIds).1.index ↔ id ∉ seriesIds ∧ id ∈ store.index) ∧
      (∀ id, (store.removeMany seriesIds).1.content id =
        if ∃ id' ∈ seriesIds, id' ∈ store.index ∧ fnv1a64 id = fnv1a64 id' then []
        else store.content id) ∧
      ((∀ id, id ∈ store.dir.index.getD ∅ ↔ id ∈ store.index) →
        ∀ id, id ∈ (store.removeMany seriesIds).1.dir.index.getD ∅ ↔
          id ∈ (store.removeMany seriesIds).1.index) := by
  have hremoved (id : String) :
      id ∈ seriesIds.dedup.filter (fun id => id ∈ store.index) ↔
        id ∈ seriesIds ∧ id ∈ store.index := by
    rw [List.mem_filter, List.mem_dedup, decide_eq_true_iff]
  have hindex (id : String) :
      id ∈ (store.forget (seriesIds.dedup.filter fun id => id ∈ store.index)).index ↔
        id ∉ seriesIds ∧ id ∈ store.index := by
    rw [ColdStore.mem_forget, hremoved]
    tauto
  have hcontent (id : String) : (∃ id' ∈ seriesIds.dedup.filter (fun id => id ∈ store.index),
      fnv1a64 id = fnv1a64 id') ↔
        ∃ id' ∈ seriesIds, id' ∈ store.index ∧ fnv1a64 id = fnv1a64 id' := by
    simp only [hremoved, and_assoc]
  unfold ColdStore.removeMany
  dsimp only
  refine ⟨fun id => ?_, fun id => ?_, fun hsaved id => ?_⟩
  · split_ifs
    · rw [index_foldl_setFile, hindex]
    · rw [ColdStore.saveIndex, index_foldl_setFile, hindex]
  · have hfiles := content_foldl_setFile (seriesIds.dedup.filter fun id => id ∈ store.index)
      (store.forget (seriesIds.dedup.filter fun id => id ∈ store.index)) id
    simp only [hcontent] at hfiles
    split_ifs at hfiles ⊢ <;> exact hfiles
  · split_ifs with hnone
    · rw [index_foldl_setFile, dirIndex_foldl_setFile, List.isEmpty_iff.mp hnone]
      exact hsaved id
    · exact Iff.rfl

theorem Kept.remove (hinj : Set.InjOn fnv1a64 ids) (h : Kept ids s) {seriesIds : List String}
    (hclean : Clean ids s (.remove seriesIds)) (hstep : s.act (.remove seriesIds) = some s') :
    Kept ids s' := by
  obtain rfl := Option.some.inj hstep
  obtain ⟨hindex, hcontent, hsaved⟩ := removeMany_spec s.store seriesIds
  -- only the files of the series that are removed are gone
  have hsame (id : String) (hid : id ∈ ids) (hkept : id ∈ seriesIds → id ∉ s.store.index) :
      (s.store.removeMany seriesIds).1.content id = s.store.content id := by
    rw [hcontent, if_neg]
    rintro ⟨id', hid', hknown, hfile⟩
    obtain rfl := eq_of_fnv1a64 hinj hid (h.known id' hknown) hfile
    exact hkept hid' hknown
  have hdetach (a : Appending) (ha : a ∈ s.appending) :
      (seriesIds.filter fun id => id ∈ s.store.index).foldl Appending.detach a = a := by
    refine foldl_detach_eq_self fun id hid hfile => ?_
    obtain ⟨hid, hknown⟩ := List.mem_filter.mp hid
    have hknown := of_decide_eq_true hknown
    obtain rfl := eq_of_fnv1a64 hinj (h.appending a ha).mem (h.known id hknown) hfile
    exact hclean a ha hid hknown
  refine ⟨fun id hid => h.known id ((hindex id).mp hid).2, hsaved h.saved, fun id hid => ?_,
    fun id hid hother => ?_, fun a ha => ?_, h.compacting⟩
  · dsimp only at hid ⊢
    split_ifs with hmem
    · rfl
    · exact h.absent id fun hknown => hid ((hindex id).mpr ⟨hmem, hknown⟩)
  · dsimp only at hid ⊢
    obtain ⟨hmem, hknown⟩ := (hindex id).mp hid
    rw [if_neg hmem, hsame id (h.known id hknown) fun hmem' => absurd hmem' hmem]
    refine h.present id hknown fun a ha => ?_
    have hother' := hother _ (Option.mem_map_of_mem _ ha)
    rwa [hdetach a ha] at hother'
  · obtain ⟨a', ha', rfl⟩ := Option.mem_map.mp ha
    rw [hdetach a' ha']
    have hflight := h.appending a' ha'
    refine hflight.congr (hsame _ hflight.mem (hclean a' ha')) ?_
    dsimp only
    split_ifs with hmem
    · exact (h.absent _ (hclean a' ha' hmem)).symm
    · rfl

theorem kept_act (hinj : Set.InjOn fnv1a64 ids) (h : Kept ids s) {a : ColdAction}
    (hclean : Clean ids s a) (hstep : s.act a = some s') : Kept ids s' := by
  cases a with
  | beginAppend id series blocks => exact h.beginAppend hclean hstep
  | write n => exact h.write hinj hstep
  | endAppend => exact h.endAppend hstep
  | failAppend => exact h.failAppend hclean hstep
  | beginCompact cutoffMs => exact h.beginCompact hstep
  | readFile => exact h.readFile hstep
  | replaceFile => exact h.replaceFile hinj hclean hstep
  | endCompact => exact h.endCompact hclean hstep
  | remove seriesIds => exact h.remove hinj hclean hstep
  | crash => exact h.crash hclean hstep

theorem kept_of_reach (hinj : Set.InjOn fnv1a64 ids) (h : system.Reach (Clean ids) s) :
    Kept ids s :=
  h.invariant kept_init fun _ _ _ _ hkept hclean hstep => kept_act hinj hkept hclean hstep

def smallBlock (time : Int64) : CompressedBlock :=
  ⟨[7], time, time, 1, Crc32.hash [7]⟩

def smallSeries : ColdSeriesMeta :=
  ⟨.gauge "m", ∅⟩

/-- Two blocks are appended; the next append breaks off within its first frame, and after that the
older of the two blocks is compacted away. -/
def compactedOnce : List ColdAction :=
  [.beginAppend "m:" smallSeries [smallBlock 1, smallBlock 2], .write 50, .write 50, .endAppend,
    .beginAppend "m:" smallSeries [smallBlock 3], .write 6, .crash,
    .beginCompact 2, .readFile, .replaceFile, .endCompact]

/-- An append breaks off in the middle of a frame, and after the crash a block is appended. -/
def tornThenAppended : List ColdAction :=
  [.beginAppend "m:" smallSeries [smallBlock 1], .write 50, .endAppend,
    .beginAppend "m:" smallSeries [smallBlock 2], .write 6, .crash,
    .beginAppend "m:" smallSeries [smallBlock 3], .write 50, .endAppend]

end ColdRun

end TimeSeries

end AegisDB
