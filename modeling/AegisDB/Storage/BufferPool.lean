import AegisDB.Library.Table
import AegisDB.Library.Transition
import AegisDB.Storage.Block

/-!
# The buffer pool

The pages of `page.rs` and the pool of `buffer.rs` that keeps them in frames.  A page that is not
in the pool gets a free frame, or the frame of the page that was used least recently and is not
pinned; that page is dropped.

The pool has no storage behind it: a page that was dropped comes back blank, also if it was dirty.
`fetchesLast_of_reach` says that a page otherwise has what was last written through a handle to it,
as long as each write through a handle finds the page of the handle in its frame.
-/

namespace AegisDB

namespace Storage

/-! ## Pages -/

def pageSize : ℕ := 8192

def pageHeaderSize : ℕ := 24

def slotSize : ℕ := 4

def maxTupleSize : ℕ := pageSize - pageHeaderSize - 8

abbrev PageId := UInt64

/-- Classification of page contents. -/
inductive PageType
  | data
  | index
  | overflow
  | freeList
  | metadata
  deriving DecidableEq

/-- The byte of a type. -/
def PageType.toByte : PageType → ℕ
  | data => 1
  | index => 2
  | overflow => 3
  | freeList => 4
  | metadata => 5

/-- The type of a byte. -/
def PageType.ofByte : ℕ → PageType
  | 1 => data
  | 2 => index
  | 3 => overflow
  | 4 => freeList
  | _ => metadata

/-- Page header containing metadata and slot directory info. -/
structure PageHeader where
  pageId : PageId
  pageType : PageType
  numSlots : UInt16 := 0
  freeSpaceStart : UInt16 := 24
  freeSpaceEnd : UInt16 := 8192
  flags : UInt16 := 0
  deriving DecidableEq

namespace PageHeader

def freeSpace (h : PageHeader) : ℕ :=
  (h.freeSpaceEnd - h.freeSpaceStart).toNat

def toBytes (h : PageHeader) : Bytes :=
  le 8 h.pageId.toNat ++ (le 1 h.pageType.toByte ++ (le 1 0 ++ (le 2 h.numSlots.toNat ++
    (le 2 h.freeSpaceStart.toNat ++ (le 2 h.freeSpaceEnd.toNat ++ le 2 h.flags.toNat)))))

end PageHeader

/-- A fixed-size page in the buffer pool. -/
structure Page where
  header : PageHeader
  data : Bytes
  pinCount : UInt32 := 0
  isDirty : Bool := false

namespace Page

def splice (data : Bytes) (offset : ℕ) (bytes : Bytes) : Bytes :=
  data.take offset ++ bytes ++ data.drop (offset + bytes.length)

def writeHeader (data : Bytes) (h : PageHeader) : Bytes :=
  splice data 0 h.toBytes

def new (pageId : PageId) (pageType : PageType) : Page :=
  let header : PageHeader := { pageId := pageId, pageType := pageType }
  { header := header, data := writeHeader (List.replicate pageSize 0) header }

/-- Create a page from raw bytes. -/
def fromBytes (data : Bytes) : Except AegisError Page :=
  if data.length ≠ pageSize then
    .error (.corruption s!"Invalid page size: {data.length} (expected {pageSize})")
  else
    let (pageId, buf) := getLe 8 data
    let (pageType, buf) := getLe 1 buf
    let (_, buf) := getLe 1 buf
    let (numSlots, buf) := getLe 2 buf
    let (freeSpaceStart, buf) := getLe 2 buf
    let (freeSpaceEnd, buf) := getLe 2 buf
    let (flags, _) := getLe 2 buf
    .ok
      { header :=
          { pageId := UInt64.ofNat pageId
            pageType := PageType.ofByte pageType
            numSlots := UInt16.ofNat numSlots
            freeSpaceStart := UInt16.ofNat freeSpaceStart
            freeSpaceEnd := UInt16.ofNat freeSpaceEnd
            flags := UInt16.ofNat flags }
        data := data }

/-- Insert a tuple into a page whose header is within its bytes. -/
def insertTuple (p : Page) (tuple : Bytes) : Except AegisError UInt16 × Page :=
  if p.header.freeSpace < tuple.length + slotSize then (.error (.storage "Page full"), p)
  else if maxTupleSize < tuple.length then (.error (.storage "Tuple too large"), p)
  else
    let slotOffset := pageHeaderSize + p.header.numSlots.toNat * slotSize
    let tupleOffset := p.header.freeSpaceEnd.toNat - tuple.length
    let data := splice p.data tupleOffset tuple
    let data := splice data slotOffset (le 2 tupleOffset ++ le 2 tuple.length)
    let header :=
      { p.header with
        numSlots := p.header.numSlots + 1
        freeSpaceStart := UInt16.ofNat (slotOffset + slotSize)
        freeSpaceEnd := UInt16.ofNat tupleOffset }
    (.ok p.header.numSlots,
      { p with header := header, data := writeHeader data header, isDirty := true })

/-- Delete a tuple from the page. -/
def deleteTuple (p : Page) (slotId : UInt16) : Except AegisError Unit × Page :=
  if p.header.numSlots ≤ slotId then (.error (.storage "Invalid slot ID"), p)
  else
    (.ok (),
      { p with
        data := splice p.data (pageHeaderSize + slotId.toNat * slotSize) (le 4 0)
        isDirty := true })

def pin (p : Page) : Page :=
  { p with pinCount := p.pinCount + 1 }

def unpin (p : Page) : Page :=
  { p with pinCount := p.pinCount - 1 }

def isPinned (p : Page) : Bool :=
  0 < p.pinCount

def clearDirty (p : Page) : Page :=
  { p with isDirty := false }

def contents (p : Page) : PageHeader × Bytes :=
  (p.header, p.data)

@[simp] theorem contents_pin (p : Page) : p.pin.contents = p.contents := rfl

@[simp] theorem contents_unpin (p : Page) : p.unpin.contents = p.contents := rfl

@[simp] theorem contents_clearDirty (p : Page) : p.clearDirty.contents = p.contents := rfl

end Page

/-! ## The pool -/

/-- A frame in the buffer pool holding a page. -/
structure BufferFrame where
  page : Option Page := none
  pageId : Option PageId := none

/-- LRU buffer pool for page caching. -/
structure BufferPool where
  frames : ℕ → BufferFrame
  pageTable : Table PageId ℕ := ∅
  freeList : List ℕ
  /-- The frames that have one, the least recently used first. -/
  lruList : List ℕ := []

/-- A handle for accessing a page in the buffer pool. -/
structure PageHandle where
  frame : ℕ
  pageId : PageId

namespace BufferPool

def new (poolSize : ℕ) : BufferPool where
  frames _ := {}
  freeList := List.range poolSize

/-- Put a frame at the end of the list of recently used ones. -/
def updateLru (pool : BufferPool) (frameId : ℕ) : BufferPool :=
  { pool with lruList := pool.lruList.filter (fun id => id ≠ frameId) ++ [frameId] }

/-- Change the page of a frame, if there is one. -/
def modifyPage (pool : BufferPool) (frameId : ℕ) (f : Page → Page) : BufferPool :=
  { pool with
    frames := Function.update pool.frames frameId
      { pool.frames frameId with page := (pool.frames frameId).page.map f } }

def pinned (pool : BufferPool) (frameId : ℕ) : Bool :=
  (pool.frames frameId).page.any Page.isPinned

/-- The turns of the loop of an eviction: a pinned frame goes to the end of the list, the first one
that is not pinned is taken off. -/
def evictLoop (pool : BufferPool) : ℕ → List ℕ → Option ℕ × List ℕ
  | 0, lru => (none, lru)
  | turns + 1, [] => evictLoop pool turns []
  | turns + 1, frameId :: lru =>
    if pool.pinned frameId then evictLoop pool turns (lru ++ [frameId]) else (some frameId, lru)

/-- Drop the page of a frame. -/
def dropPage (pool : BufferPool) (frameId : ℕ) : BufferPool :=
  { pool with
    frames := Function.update pool.frames frameId {}
    pageTable :=
      match (pool.frames frameId).pageId with
      | some pageId => pool.pageTable.erase pageId
      | none => pool.pageTable }

/-- Drop the page that was used least recently and is not pinned. -/
def evictPage (pool : BufferPool) : Except AegisError ℕ × BufferPool :=
  match evictLoop pool pool.lruList.length pool.lruList with
  | (some frameId, lru) => (.ok frameId, { pool.dropPage frameId with lruList := lru })
  | (none, lru) =>
    (.error (.resourceExhausted "No evictable pages in buffer pool"), { pool with lruList := lru })

def getFreeFrame (pool : BufferPool) : Except AegisError ℕ × BufferPool :=
  match pool.freeList with
  | frameId :: rest => (.ok frameId, { pool with freeList := rest })
  | [] => pool.evictPage

/-- Put a new page, which is pinned, into a frame. -/
def fillFrame (pool : BufferPool) (frameId : ℕ) (pageId : PageId) (page : Page) : BufferPool :=
  { pool with
    frames := Function.update pool.frames frameId { page := some page.pin, pageId := some pageId }
    pageTable := pool.pageTable.insert pageId frameId }

/-- Get a frame for a new page. -/
def place (pool : BufferPool) (pageId : PageId) (page : Page) :
    Except AegisError PageHandle × BufferPool :=
  match pool.getFreeFrame with
  | (.error e, pool) => (.error e, pool)
  | (.ok frameId, pool) =>
    (.ok { frame := frameId, pageId := pageId }, (pool.fillFrame frameId pageId page).updateLru frameId)

/-- The frame of a page, if it has one that holds a page. -/
def hit (pool : BufferPool) (pageId : PageId) : Option ℕ :=
  (pool.pageTable.lookup pageId).filter fun frameId => (pool.frames frameId).page.isSome

/-- Fetch a page from the pool, loading it if necessary. -/
def fetchPage (pool : BufferPool) (pageId : PageId) : Except AegisError PageHandle × BufferPool :=
  match pool.hit pageId with
  | some frameId =>
    (.ok { frame := frameId, pageId := pageId },
      (pool.modifyPage frameId Page.pin).updateLru frameId)
  | none => pool.place pageId (Page.new pageId .data)

/-- Create a new page in the pool. -/
def newPage (pool : BufferPool) (pageId : PageId) (pageType : PageType) :
    Except AegisError PageHandle × BufferPool :=
  if pageId ∈ pool.pageTable then
    (.error (.storage s!"Page {pageId.toNat} already exists"), pool)
  else pool.place pageId (Page.new pageId pageType)

/-- Flush a specific page: a copy of it, if it is dirty. -/
def flushPage (pool : BufferPool) (pageId : PageId) :
    Except AegisError (Option Page) × BufferPool :=
  match pool.pageTable.lookup pageId with
  | none => (.ok none, pool)
  | some frameId =>
    match (pool.frames frameId).page with
    | none => (.ok none, pool)
    | some page =>
      if page.isDirty then
        match Page.fromBytes page.data with
        | .error e => (.error e, pool)
        | .ok cloned => (.ok (some cloned), pool.modifyPage frameId Page.clearDirty)
      else (.ok none, pool)

def unpinPage (pool : BufferPool) (pageId : PageId) : BufferPool :=
  match pool.pageTable.lookup pageId with
  | none => pool
  | some frameId => pool.modifyPage frameId Page.unpin

/-! ### What the operations do -/

/-- A pool whose tables fit together, with pages that hold what is expected. -/
structure Sound (pool : BufferPool) (expected : PageId → PageHeader × Bytes) : Prop where
  frame_of_table : ∀ id f, pool.pageTable.lookup id = some f → (pool.frames f).pageId = some id
  table_of_frame : ∀ f id, (pool.frames f).pageId = some id → pool.pageTable.lookup id = some f
  page : ∀ f id, (pool.frames f).pageId = some id →
    (pool.frames f).page.map Page.contents = some (expected id)
  /-- A page that is not in the pool is expected to be blank. -/
  missing : ∀ id, pool.pageTable.lookup id = none → expected id = (Page.new id .data).contents
  free_nodup : pool.freeList.Nodup
  free : ∀ f ∈ pool.freeList, (pool.frames f).pageId = none
  lru_nodup : pool.lruList.Nodup
  lru : ∀ f ∈ pool.lruList, (pool.frames f).pageId ≠ none

/-- The page that would be evicted, if one has to be, is blank. -/
def EvictsBlank (pool : BufferPool) : Prop :=
  pool.freeList = [] → ∀ f ∈ pool.lruList.find? (fun f => !pool.pinned f),
    ∀ id ∈ (pool.frames f).pageId,
      (pool.frames f).page.map Page.contents = some (Page.new id .data).contents

instance (pool : BufferPool) : Decidable pool.EvictsBlank :=
  -- only the page of the frame is looked at, not every number that a page may have
  haveI (f : ℕ) : Decidable (∀ id ∈ (pool.frames f).pageId,
      (pool.frames f).page.map Page.contents = some (Page.new id .data).contents) :=
    @Option.decidableForallMem _ _ (fun _ => inferInstance) _
  inferInstanceAs (Decidable (_ → ∀ f ∈ pool.lruList.find? (fun f => !pool.pinned f), _))

variable {pool pool' : BufferPool} {expected : PageId → PageHeader × Bytes} {frameId : ℕ}
  {pageId : PageId}

theorem sound_new (poolSize : ℕ) :
    (new poolSize).Sound fun id => (Page.new id .data).contents where
  frame_of_table _ _ h := nomatch h
  table_of_frame _ _ h := nomatch h
  page _ _ h := nomatch h
  missing _ _ := rfl
  free_nodup := List.nodup_range
  free _ _ := rfl
  lru_nodup := List.nodup_nil
  lru _ h := nomatch h

@[simp] theorem pageId_modifyPage (pool : BufferPool) (frameId f : ℕ) (g : Page → Page) :
    ((pool.modifyPage frameId g).frames f).pageId = (pool.frames f).pageId := by
  by_cases hf : f = frameId
  · simp [modifyPage, hf]
  · simp [modifyPage, hf]

theorem page_modifyPage (pool : BufferPool) (frameId f : ℕ) (g : Page → Page) :
    ((pool.modifyPage frameId g).frames f).page =
      if f = frameId then (pool.frames f).page.map g else (pool.frames f).page := by
  by_cases hf : f = frameId
  · simp [modifyPage, hf]
  · simp [modifyPage, hf]

/-- The page of a frame is changed, and what is expected of it with it. -/
theorem Sound.modifyPage (h : pool.Sound expected) {g : Page → Page}
    {expected' : PageId → PageHeader × Bytes}
    (hpage : ∀ id, (pool.frames frameId).pageId = some id →
      ((pool.frames frameId).page.map g).map Page.contents = some (expected' id))
    (hother : ∀ id, (pool.frames frameId).pageId ≠ some id → expected' id = expected id) :
    (pool.modifyPage frameId g).Sound expected' where
  frame_of_table id f hf := by
    rw [pageId_modifyPage]
    exact h.frame_of_table id f hf
  table_of_frame f id hf := by
    rw [pageId_modifyPage] at hf
    exact h.table_of_frame f id hf
  page f id hf := by
    rw [pageId_modifyPage] at hf
    rw [page_modifyPage]
    split_ifs with heq
    · subst heq
      exact hpage id hf
    · -- no other frame has the page
      have hne : (pool.frames frameId).pageId ≠ some id := by
        intro hid
        have hsame := (h.table_of_frame f id hf).symm.trans (h.table_of_frame frameId id hid)
        exact heq (Option.some.inj hsame)
      rw [hother id hne]
      exact h.page f id hf
  missing id hid := by
    have hne : (pool.frames frameId).pageId ≠ some id := by
      intro hframe
      have hlookup := h.table_of_frame frameId id hframe
      rw [show pool.pageTable.lookup id = none from hid] at hlookup
      cases hlookup
    rw [hother id hne]
    exact h.missing id hid
  free_nodup := h.free_nodup
  free f hf := by
    rw [pageId_modifyPage]
    exact h.free f hf
  lru_nodup := h.lru_nodup
  lru f hf := by
    rw [pageId_modifyPage]
    exact h.lru f hf

theorem Sound.modifyPage_same (h : pool.Sound expected) (frameId : ℕ) {g : Page → Page}
    (hg : ∀ p, (g p).contents = p.contents) : (pool.modifyPage frameId g).Sound expected := by
  refine h.modifyPage (fun id hid => ?_) fun _ _ => rfl
  have hpage := h.page frameId id hid
  rw [Option.map_map]
  rw [← hpage]
  cases (pool.frames frameId).page with
  | none => rfl
  | some p => exact congrArg some (hg p)

theorem Sound.updateLru (h : pool.Sound expected) (hframe : (pool.frames frameId).pageId ≠ none) :
    (pool.updateLru frameId).Sound expected where
  frame_of_table := h.frame_of_table
  table_of_frame := h.table_of_frame
  page := h.page
  missing := h.missing
  free_nodup := h.free_nodup
  free := h.free
  lru_nodup := by
    rw [BufferPool.updateLru, List.nodup_append]
    refine ⟨h.lru_nodup.filter _, List.nodup_singleton _, fun a ha b hb => ?_⟩
    rw [List.mem_singleton] at hb
    rw [hb]
    exact of_decide_eq_true (List.mem_filter.mp ha).2
  lru f hf := by
    rw [BufferPool.updateLru, List.mem_append, List.mem_filter, List.mem_singleton] at hf
    obtain ⟨hold, -⟩ | rfl := hf
    · exact h.lru f hold
    · exact hframe

/-- What the loop of an eviction returns: it takes off the first frame that is not pinned. -/
theorem evictLoop_spec (pool : BufferPool) (turns : ℕ) (lru : List ℕ) (hturns : turns ≤ lru.length) :
    ((evictLoop pool turns lru).1.toList ++ (evictLoop pool turns lru).2).Perm lru ∧
      ∀ f ∈ (evictLoop pool turns lru).1,
        (lru.take turns).find? (fun f => !pool.pinned f) = some f := by
  induction turns generalizing lru with
  | zero => exact ⟨List.Perm.refl _, fun f hf => (nomatch hf)⟩
  | succ turns ih =>
    cases lru with
    | nil => exact absurd hturns (by simp)
    | cons a lru =>
      rw [evictLoop]
      by_cases hpinned : pool.pinned a = true
      · have hlen : turns ≤ lru.length := by
          simpa using hturns
        obtain ⟨hperm, hfound⟩ := ih (lru ++ [a]) (by rw [List.length_append]; omega)
        rw [if_pos hpinned]
        refine ⟨hperm.trans (List.perm_append_singleton a lru), fun f hf => ?_⟩
        have hfirst := hfound f hf
        rw [List.take_append_of_le_length hlen] at hfirst
        rw [List.take_succ_cons, List.find?_cons_of_neg (by simp [hpinned])]
        exact hfirst
      · rw [if_neg hpinned]
        refine ⟨List.Perm.refl _, fun f hf => ?_⟩
        obtain rfl := Option.mem_some_iff.mp hf
        rw [List.take_succ_cons, List.find?_cons_of_pos (by simp [hpinned])]

/-- The table of pages and the frames name each other. -/
def Linked (pool : BufferPool) : Prop :=
  (∀ id f, pool.pageTable.lookup id = some f → (pool.frames f).pageId = some id) ∧
    ∀ f id, (pool.frames f).pageId = some id → pool.pageTable.lookup id = some f

theorem frames_dropPage (pool : BufferPool) (frameId f : ℕ) :
    (pool.dropPage frameId).frames f = if f = frameId then {} else pool.frames f :=
  Function.update_apply _ _ _ _

theorem lookup_dropPage {pool : BufferPool} {frameId : ℕ} {pageId : PageId}
    (hid : (pool.frames frameId).pageId = some pageId) (id : PageId) :
    (pool.dropPage frameId).pageTable.lookup id =
      if id = pageId then none else pool.pageTable.lookup id := by
  rw [BufferPool.dropPage, hid]
  exact Table.lookup_erase _ _ _

theorem lookup_dropPage_of_missing {pool : BufferPool} {frameId : ℕ} {id : PageId}
    (h : pool.pageTable.lookup id = none) :
    (pool.dropPage frameId).pageTable.lookup id = none := by
  cases hid : (pool.frames frameId).pageId with
  | none => rwa [BufferPool.dropPage, hid]
  | some pageId => rw [lookup_dropPage hid, h, ite_self]

theorem Linked.dropPage {pool : BufferPool} {frameId : ℕ} {pageId : PageId} (h : pool.Linked)
    (hid : (pool.frames frameId).pageId = some pageId) : (pool.dropPage frameId).Linked := by
  refine ⟨fun id f hf => ?_, fun f id hf => ?_⟩
  · rw [lookup_dropPage hid] at hf
    split_ifs at hf with heq
    have hold := h.1 id f hf
    have hne : f ≠ frameId := by
      rintro rfl
      exact heq (Option.some.inj (hold.symm.trans hid))
    rw [frames_dropPage, if_neg hne]
    exact hold
  · rw [frames_dropPage] at hf
    split_ifs at hf with heq
    have hold := h.2 f id hf
    have hne : id ≠ pageId := by
      rintro rfl
      exact heq (Option.some.inj (hold.symm.trans (h.2 frameId id hid)))
    rw [lookup_dropPage hid, if_neg hne]
    exact hold

/-- The page of a frame is dropped: the frame has no page, and the pool is sound without it in the
list of frames to evict, if nothing is expected of the page. -/
theorem Sound.dropPage (h : pool.Sound expected)
    (hblank : ∀ id ∈ (pool.frames frameId).pageId, expected id = (Page.new id .data).contents)
    (hoccupied : (pool.frames frameId).pageId ≠ none) {lru : List ℕ}
    (hperm : (frameId :: lru).Perm pool.lruList) :
    ({ pool.dropPage frameId with lruList := lru } : BufferPool).Sound expected := by
  obtain ⟨pageId, hid⟩ := Option.ne_none_iff_exists'.mp hoccupied
  have hnodup := (hperm.nodup_iff.mpr h.lru_nodup)
  rw [List.nodup_cons] at hnodup
  have hlinked := Linked.dropPage ⟨h.frame_of_table, h.table_of_frame⟩ hid
  refine ⟨hlinked.1, hlinked.2, fun f id hf => ?_, fun id hmissing => ?_,
    h.free_nodup, fun f hf => ?_, hnodup.2, fun f hf => ?_⟩
  · change ((pool.dropPage frameId).frames f).pageId = some id at hf
    change ((pool.dropPage frameId).frames f).page.map Page.contents = _
    rw [frames_dropPage] at hf ⊢
    split_ifs at hf ⊢ with heq
    exact h.page f id hf
  · change (pool.dropPage frameId).pageTable.lookup id = none at hmissing
    rw [lookup_dropPage hid] at hmissing
    split_ifs at hmissing with heq
    · rw [heq]
      exact hblank pageId hid
    · exact h.missing id hmissing
  · change ((pool.dropPage frameId).frames f).pageId = none
    rw [frames_dropPage]
    split_ifs
    · rfl
    · exact h.free f hf
  · change ((pool.dropPage frameId).frames f).pageId ≠ none
    have hne : f ≠ frameId := by
      rintro rfl
      exact hnodup.1 hf
    rw [frames_dropPage, if_neg hne]
    exact h.lru f (hperm.mem_iff.mp (List.mem_cons_of_mem _ hf))

/-- A frame for a new page: it has no page, is no longer listed as free, and the pool is sound as
before. -/
theorem Sound.getFreeFrame (h : pool.Sound expected) (hblank : pool.EvictsBlank) :
    pool.getFreeFrame.2.Sound expected ∧
      (∀ id, pool.pageTable.lookup id = none →
        pool.getFreeFrame.2.pageTable.lookup id = none) ∧
      ∀ f, pool.getFreeFrame.1 = .ok f →
        (pool.getFreeFrame.2.frames f).pageId = none ∧ f ∉ pool.getFreeFrame.2.freeList := by
  rw [BufferPool.getFreeFrame]
  cases hlist : pool.freeList with
  | cons frameId rest =>
    have hnodup := h.free_nodup
    have hfree := h.free
    rw [hlist] at hnodup hfree
    rw [List.nodup_cons] at hnodup
    refine ⟨⟨h.frame_of_table, h.table_of_frame, h.page, h.missing, hnodup.2,
      fun f hf => hfree f (List.mem_cons_of_mem _ hf), h.lru_nodup, h.lru⟩, fun _ hid => hid, ?_⟩
    intro f hf
    obtain rfl := Except.ok.inj hf
    exact ⟨hfree frameId List.mem_cons_self, hnodup.1⟩
  | nil =>
    obtain ⟨hperm, hfirst⟩ := evictLoop_spec pool pool.lruList.length pool.lruList le_rfl
    rw [List.take_length] at hfirst
    simp only [evictPage]
    generalize evictLoop pool pool.lruList.length pool.lruList = r at hperm hfirst
    obtain ⟨_ | frameId, lru⟩ := r
    · refine ⟨⟨h.frame_of_table, h.table_of_frame, h.page, h.missing, h.free_nodup, h.free,
        hperm.nodup_iff.mpr h.lru_nodup, fun f hf => h.lru f (hperm.mem_iff.mp hf)⟩,
        fun _ hid => hid, fun f hf => (nomatch hf)⟩
    · have hmem : frameId ∈ pool.lruList := hperm.mem_iff.mp List.mem_cons_self
      have hexpected : ∀ id ∈ (pool.frames frameId).pageId,
          expected id = (Page.new id .data).contents := by
        intro id hid
        have hpage := h.page frameId id hid
        rw [hblank hlist frameId (hfirst frameId rfl) id hid] at hpage
        exact (Option.some.inj hpage).symm
      refine ⟨h.dropPage hexpected (h.lru frameId hmem) hperm,
        fun id hid => lookup_dropPage_of_missing hid, fun f hf => ?_⟩
      obtain rfl := Except.ok.inj hf
      constructor
      · change ((pool.dropPage frameId).frames frameId).pageId = none
        rw [frames_dropPage, if_pos rfl]
      · change frameId ∉ pool.freeList
        rw [hlist]
        exact List.not_mem_nil

theorem frames_fillFrame (pool : BufferPool) (frameId : ℕ) (pageId : PageId) (page : Page)
    (f : ℕ) : (pool.fillFrame frameId pageId page).frames f =
      if f = frameId then { page := some page.pin, pageId := some pageId } else pool.frames f :=
  Function.update_apply _ _ _ _

theorem lookup_fillFrame (pool : BufferPool) (frameId : ℕ) (pageId : PageId) (page : Page)
    (id : PageId) : (pool.fillFrame frameId pageId page).pageTable.lookup id =
      if id = pageId then some frameId else pool.pageTable.lookup id :=
  Table.lookup_insert _ _ _ _

theorem Linked.fillFrame {pool : BufferPool} {frameId : ℕ} {pageId : PageId} (h : pool.Linked)
    (hframe : (pool.frames frameId).pageId = none)
    (hmissing : pool.pageTable.lookup pageId = none) (page : Page) :
    (pool.fillFrame frameId pageId page).Linked := by
  refine ⟨fun id f hf => ?_, fun f id hf => ?_⟩
  · rw [lookup_fillFrame] at hf
    rw [frames_fillFrame]
    split_ifs at hf with hid
    · rw [if_pos (Option.some.inj hf).symm, hid]
    · have hold := h.1 id f hf
      have hne : f ≠ frameId := by
        rintro rfl
        rw [hframe] at hold
        cases hold
      rw [if_neg hne]
      exact hold
  · rw [frames_fillFrame] at hf
    rw [lookup_fillFrame]
    split_ifs at hf with heq
    · rw [if_pos (Option.some.inj hf).symm, heq]
    · have hold := h.2 f id hf
      have hne : id ≠ pageId := by
        rintro rfl
        rw [hmissing] at hold
        cases hold
      rw [if_neg hne]
      exact hold

theorem Sound.fillFrame (h : pool.Sound expected) (hframe : (pool.frames frameId).pageId = none)
    (hfree : frameId ∉ pool.freeList) (hmissing : pool.pageTable.lookup pageId = none)
    (page : Page) :
    (pool.fillFrame frameId pageId page).Sound
      (Function.update expected pageId page.contents) := by
  have hlinked := Linked.fillFrame ⟨h.frame_of_table, h.table_of_frame⟩ hframe hmissing page
  refine ⟨hlinked.1, hlinked.2, fun f id hf => ?_, fun id hid => ?_,
    h.free_nodup, fun f hf => ?_, h.lru_nodup, fun f hf => ?_⟩
  · rw [frames_fillFrame] at hf ⊢
    split_ifs at hf ⊢ with heq
    · obtain rfl := Option.some.inj hf
      rw [Function.update_self]
      rfl
    · have hne : id ≠ pageId := by
        rintro rfl
        have hold := h.table_of_frame f _ hf
        rw [hmissing] at hold
        cases hold
      rw [Function.update_of_ne hne]
      exact h.page f id hf
  · rw [lookup_fillFrame] at hid
    split_ifs at hid with heq
    rw [Function.update_of_ne heq]
    exact h.missing id hid
  · rw [frames_fillFrame, if_neg (by rintro rfl; exact hfree hf)]
    exact h.free f hf
  · rw [frames_fillFrame]
    split_ifs
    · exact fun hnone => (nomatch hnone)
    · exact h.lru f hf

theorem page_place (pool : BufferPool) (pageId : PageId) (page : Page) {handle : PageHandle}
    (h : (pool.place pageId page).1 = .ok handle) :
    ((pool.place pageId page).2.frames handle.frame).page.map Page.contents =
      some page.contents := by
  rw [BufferPool.place] at h ⊢
  generalize pool.getFreeFrame = r at h ⊢
  obtain ⟨e | frameId, pool'⟩ := r
  · cases h
  · obtain rfl := Except.ok.inj h
    change ((pool'.fillFrame frameId pageId page).frames frameId).page.map Page.contents = _
    rw [frames_fillFrame, if_pos rfl]
    rfl

theorem Sound.place (h : pool.Sound expected) (hblank : pool.EvictsBlank)
    (hmissing : pool.pageTable.lookup pageId = none) (page : Page) :
    match pool.place pageId page with
    | (.ok _, pool') => pool'.Sound (Function.update expected pageId page.contents)
    | (.error _, pool') => pool'.Sound expected := by
  obtain ⟨hsound, htable, hframe⟩ := h.getFreeFrame hblank
  rw [BufferPool.place]
  generalize pool.getFreeFrame = r at hsound htable hframe
  obtain ⟨e | frameId, pool'⟩ := r
  · exact hsound
  · obtain ⟨hnone, hfree⟩ := hframe frameId rfl
    refine (hsound.fillFrame hnone hfree (htable pageId hmissing) page).updateLru ?_
    rw [frames_fillFrame, if_pos rfl]
    exact fun hnone => (nomatch hnone)

theorem Sound.hit (h : pool.Sound expected) (pageId : PageId) :
    pool.hit pageId = pool.pageTable.lookup pageId := by
  rw [BufferPool.hit]
  cases hlookup : pool.pageTable.lookup pageId with
  | none => rfl
  | some frameId =>
    have hpage := h.page frameId pageId (h.frame_of_table pageId frameId hlookup)
    have hsome : (pool.frames frameId).page.isSome = true := by
      cases hpage' : (pool.frames frameId).page with
      | none =>
        rw [hpage'] at hpage
        cases hpage
      | some p => rfl
    rw [Option.filter_some, if_pos hsome]

theorem Sound.fetchPage (h : pool.Sound expected)
    (hblank : pool.hit pageId = none → pool.EvictsBlank) :
    (pool.fetchPage pageId).2.Sound expected := by
  rw [BufferPool.fetchPage]
  cases hhit : pool.hit pageId with
  | some frameId =>
    rw [h.hit] at hhit
    refine (h.modifyPage_same frameId Page.contents_pin).updateLru ?_
    rw [pageId_modifyPage, h.frame_of_table pageId frameId hhit]
    exact fun hnone => (nomatch hnone)
  | none =>
    have hplace := h.place (hblank hhit) (h.hit pageId ▸ hhit) (Page.new pageId .data)
    rw [h.hit] at hhit
    rw [← h.missing pageId hhit, Function.update_eq_self] at hplace
    dsimp only
    generalize pool.place pageId (Page.new pageId .data) = r at hplace
    obtain ⟨e | handle, pool'⟩ := r
    · exact hplace
    · exact hplace

theorem Sound.page_fetchPage (h : pool.Sound expected) {handle : PageHandle}
    (hok : (pool.fetchPage pageId).1 = .ok handle) :
    ((pool.fetchPage pageId).2.frames handle.frame).page.map Page.contents =
      some (expected pageId) := by
  rw [BufferPool.fetchPage] at hok ⊢
  cases hhit : pool.hit pageId with
  | some frameId =>
    rw [hhit] at hok
    obtain rfl := Except.ok.inj hok
    rw [h.hit] at hhit
    change ((pool.modifyPage frameId Page.pin).frames frameId).page.map Page.contents = _
    rw [page_modifyPage, if_pos rfl, Option.map_map]
    exact h.page frameId pageId (h.frame_of_table pageId frameId hhit)
  | none =>
    rw [hhit] at hok
    rw [h.hit] at hhit
    rw [h.missing pageId hhit]
    exact page_place pool pageId _ hok

theorem Sound.flushPage (h : pool.Sound expected) (pageId : PageId) :
    (pool.flushPage pageId).2.Sound expected := by
  rw [BufferPool.flushPage]
  split
  · exact h
  · split
    · exact h
    · split_ifs
      · split
        · exact h
        · exact h.modifyPage_same _ Page.contents_clearDirty
      · exact h

theorem Sound.unpinPage (h : pool.Sound expected) (pageId : PageId) :
    (pool.unpinPage pageId).Sound expected := by
  rw [BufferPool.unpinPage]
  split
  · exact h
  · exact h.modifyPage_same _ Page.contents_unpin

end BufferPool

/-! ## Runs -/

/-- A pool, the handles that callers hold, and what was last written through a handle to each
page, or when it was created. -/
structure PoolRun where
  pool : BufferPool
  handles : Table ℕ PageHandle := ∅
  nextHandle : ℕ := 0
  last : PageId → Option (PageHeader × Bytes) := fun _ => none

/-- A call of the pool or through a handle. -/
inductive PoolAction
  | newPage (pageId : PageId) (pageType : PageType)
  | fetchPage (pageId : PageId)
  | write (handle : ℕ) (edit : Page → Page)
  | drop (handle : ℕ)
  | unpinPage (pageId : PageId)
  | flushPage (pageId : PageId)

namespace PoolRun

/-- What a page should hold: what was last written, or nothing. -/
def expected (r : PoolRun) (pageId : PageId) : PageHeader × Bytes :=
  (r.last pageId).getD (Page.new pageId .data).contents

/-- The caller gets a handle, or an error. -/
def hold (r : PoolRun) (result : Except AegisError PageHandle × BufferPool) : PoolRun :=
  match result with
  | (.ok handle, pool) =>
    { r with
      pool := pool
      handles := r.handles.insert r.nextHandle handle
      nextHandle := r.nextHandle + 1 }
  | (.error _, pool) => { r with pool := pool }

/-- One call.  A write through a handle whose frame has no page panics. -/
def step (r : PoolRun) : PoolAction → Option PoolRun
  | .newPage pageId pageType =>
    match r.pool.newPage pageId pageType with
    | (.ok handle, pool) =>
      some { r.hold (.ok handle, pool) with
        last := Function.update r.last pageId (some (Page.new pageId pageType).contents) }
    | (.error e, pool) => some (r.hold (.error e, pool))
  | .fetchPage pageId => some (r.hold (r.pool.fetchPage pageId))
  | .write n edit =>
    (r.handles.lookup n).bind fun handle =>
      (r.pool.frames handle.frame).page.map fun page =>
        { r with
          pool := r.pool.modifyPage handle.frame edit
          last := Function.update r.last handle.pageId (some (edit page).contents) }
  | .drop n =>
    (r.handles.lookup n).map fun handle =>
      { r with
        pool := r.pool.modifyPage handle.frame Page.unpin
        handles := r.handles.erase n }
  | .unpinPage pageId => some { r with pool := r.pool.unpinPage pageId }
  | .flushPage pageId => some { r with pool := (r.pool.flushPage pageId).2 }

def system (poolSize : ℕ) : System PoolRun PoolAction where
  init := { pool := BufferPool.new poolSize }
  step := step

/-- A fetch that gets a handle gets what was last written. -/
def FetchesLast (r : PoolRun) (pageId : PageId) : Prop :=
  ∀ handle, (r.pool.fetchPage pageId).1 = .ok handle →
    ((r.pool.fetchPage pageId).2.frames handle.frame).page.map Page.contents =
      some (r.expected pageId)

/-- The calls that keep what was written: a page that is evicted for another one is blank, and a
write through a handle finds the page of the handle in its frame. -/
def Keeps (r : PoolRun) : PoolAction → Prop
  | .newPage pageId _ => pageId ∉ r.pool.pageTable → r.pool.EvictsBlank
  | .fetchPage pageId => r.pool.hit pageId = none → r.pool.EvictsBlank
  | .write n _ =>
    ∀ handle ∈ r.handles.lookup n, (r.pool.frames handle.frame).pageId = some handle.pageId
  | _ => True

instance (r : PoolRun) (a : PoolAction) : Decidable (r.Keeps a) :=
  match a with
  | .newPage _ _ => inferInstanceAs (Decidable (_ → r.pool.EvictsBlank))
  | .fetchPage _ => inferInstanceAs (Decidable (_ → r.pool.EvictsBlank))
  | .write n _ => inferInstanceAs (Decidable (∀ handle ∈ r.handles.lookup n, _))
  | .drop _ | .unpinPage _ | .flushPage _ => .isTrue trivial

theorem expected_hold (r : PoolRun) (result : Except AegisError PageHandle × BufferPool) :
    (r.hold result).expected = r.expected := by
  obtain ⟨e | handle, pool⟩ := result
  · rfl
  · rfl

theorem pool_hold (r : PoolRun) (result : Except AegisError PageHandle × BufferPool) :
    (r.hold result).pool = result.2 := by
  obtain ⟨e | handle, pool⟩ := result
  · rfl
  · rfl

theorem getD_update_last (r : PoolRun) (pageId : PageId) (contents : PageHeader × Bytes) :
    (fun id => (Function.update r.last pageId (some contents) id).getD
      (Page.new id .data).contents) = Function.update r.expected pageId contents := by
  funext id
  by_cases hid : id = pageId
  · rw [hid, Function.update_self, Function.update_self]
    rfl
  · rw [Function.update_of_ne hid, Function.update_of_ne hid]
    rfl

/-- A call that keeps what was written leaves the pool sound. -/
theorem sound_step {r r' : PoolRun} {a : PoolAction} (h : r.pool.Sound r.expected)
    (ha : r.Keeps a) (hstep : r.step a = some r') : r'.pool.Sound r'.expected := by
  cases a with
  | newPage pageId pageType =>
    rw [PoolRun.step, BufferPool.newPage] at hstep
    split_ifs at hstep with hmem
    · obtain rfl := Option.some.inj hstep
      exact h
    · have hplace := h.place (ha hmem) (AList.lookup_eq_none.mpr hmem) (Page.new pageId pageType)
      generalize r.pool.place pageId (Page.new pageId pageType) = result at hplace hstep
      obtain ⟨e | handle, pool'⟩ := result
      · obtain rfl := Option.some.inj hstep
        exact hplace
      · obtain rfl := Option.some.inj hstep
        rw [← getD_update_last] at hplace
        exact hplace
  | fetchPage pageId =>
    obtain rfl := Option.some.inj hstep
    rw [pool_hold, expected_hold]
    exact h.fetchPage ha
  | write n edit =>
    obtain ⟨handle, hhandle, hwrite⟩ := Option.bind_eq_some_iff.mp hstep
    obtain ⟨page, hpage, rfl⟩ := Option.map_eq_some_iff.mp hwrite
    have hframe := ha handle hhandle
    have hwritten : (r.pool.modifyPage handle.frame edit).Sound
        (Function.update r.expected handle.pageId (edit page).contents) := by
      refine h.modifyPage (fun id hid => ?_) fun id hid => Function.update_of_ne ?_ _ _
      · obtain rfl := Option.some.inj (hframe.symm.trans hid)
        rw [hpage, Function.update_self]
        rfl
      · rintro rfl
        exact hid hframe
    rw [← getD_update_last] at hwritten
    exact hwritten
  | drop n =>
    obtain ⟨handle, -, rfl⟩ := Option.map_eq_some_iff.mp hstep
    exact h.modifyPage_same handle.frame Page.contents_unpin
  | unpinPage pageId =>
    obtain rfl := Option.some.inj hstep
    exact h.unpinPage pageId
  | flushPage pageId =>
    obtain rfl := Option.some.inj hstep
    exact h.flushPage pageId

/-- In a run that evicts blank pages only, and writes through each handle to its own page, a fetch
gets what was last written. -/
theorem fetchesLast_of_reach {poolSize : ℕ} {r : PoolRun} (h : (system poolSize).Reach Keeps r)
    (pageId : PageId) : r.FetchesLast pageId := by
  have hsound : r.pool.Sound r.expected := by
    refine h.invariant (P := fun r => r.pool.Sound r.expected)
      (BufferPool.sound_new poolSize) ?_
    intro s a s' _ hs ha hstep
    exact sound_step hs ha hstep
  exact fun handle hok => hsound.page_fetchPage hok

/-- Page `1` is created and written, page `2` is created next to it. -/
def script : List PoolAction :=
  [.newPage 1 .data, .write 0 fun p => (p.insertTuple [7]).2, .drop 0, .newPage 2 .index, .drop 1]

set_option maxRecDepth 100000 in
/-- A blank page is evicted for a third one, and the page that was written stays. -/
theorem fetchesLast_of_reach_script : ∃ r, (system 2).run Keeps ([.newPage 3 .data, .drop 0,
      .newPage 1 .data, .write 1 fun p => (p.insertTuple [7]).2, .drop 1, .newPage 2 .data]) =
        some r ∧
    r.pool.pageTable.lookup 3 = none ∧ r.FetchesLast 1 := by
  have hrun : ((system 2).run Keeps ([.newPage 3 .data, .drop 0, .newPage 1 .data,
      .write 1 fun p => (p.insertTuple [7]).2, .drop 1, .newPage 2 .data])).map
        (fun r => r.pool.pageTable.lookup 3) = some none := by
    decide +kernel
  obtain ⟨r, hr, hevicted⟩ := Option.map_eq_some_iff.mp hrun
  exact ⟨r, hr, hevicted, fetchesLast_of_reach (System.reach_of_run hr) 1⟩

/-- In a pool of one frame page `1` is written, evicted for page `2`, and comes back blank. -/
theorem dirty_page_evicted : ¬ ∀ poolSize r pageId, (system poolSize).Reachable r →
    r.FetchesLast pageId := by
  intro h
  have hrun : ((system 1).run (fun _ _ => True) script).any (fun r =>
      match r.pool.fetchPage 1 with
      | (.ok handle, pool) =>
        decide ((pool.frames handle.frame).page.map Page.contents ≠ some (r.expected 1))
      | (.error _, _) => false) = true := by
    decide +kernel
  cases hr : (system 1).run (fun _ _ => True) script with
  | none =>
    rw [hr] at hrun
    cases hrun
  | some r =>
    have hlast := h 1 r 1 (System.reach_of_run hr)
    rw [hr, Option.any_some] at hrun
    rw [FetchesLast] at hlast
    generalize r.pool.fetchPage 1 = result at hlast hrun
    obtain ⟨e | handle, pool⟩ := result
    · cases hrun
    · exact of_decide_eq_true hrun (hlast handle rfl)

end PoolRun

end Storage

end AegisDB
