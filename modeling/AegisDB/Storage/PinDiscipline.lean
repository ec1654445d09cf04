import AegisDB.Storage.BufferPool

/-!
# Pins and handles

A page is pinned when a handle to it is made and unpinned when the handle is dropped, so its pin
count is the number of handles that are alive, and a page with a handle stays in its frame.  But
`unpin_page` takes a pin off as well, without a handle: the count is one too small afterwards, the
page may be evicted under its handle, and the drop of the handle takes a pin off whatever page is in
the frame then (`PoolRun.unpinned_page_evicted`).  Without such a call all counts are right
(`PoolRun.disciplined_of_reach`).
-/

namespace AegisDB

namespace Storage

namespace BufferPool

/-- The frames are those that are free and those that have a page, and the page table leads to the
latter. -/
structure Partitioned (poolSize : ℕ) (pool : BufferPool) : Prop where
  frame_of_table : ∀ id f, pool.pageTable.lookup id = some f → (pool.frames f).pageId = some id
  table_of_frame : ∀ f id, (pool.frames f).pageId = some id → pool.pageTable.lookup id = some f
  /-- A frame has a page just if it is marked with one. -/
  occupied : ∀ f, (pool.frames f).page = none ↔ (pool.frames f).pageId = none
  used : ∀ f, f ∈ pool.lruList ↔ (pool.frames f).pageId ≠ none
  /-- Every frame is free or in use, and only one of both. -/
  partition : (pool.freeList ++ pool.lruList).Perm (List.range poolSize)

/-- The same while a frame, which has no page, is taken out. -/
structure PartitionedBut (poolSize frameId : ℕ) (pool : BufferPool) : Prop where
  frame_of_table : ∀ id f, pool.pageTable.lookup id = some f → (pool.frames f).pageId = some id
  table_of_frame : ∀ f id, (pool.frames f).pageId = some id → pool.pageTable.lookup id = some f
  occupied : ∀ f, (pool.frames f).page = none ↔ (pool.frames f).pageId = none
  used : ∀ f, f ∈ pool.lruList ↔ (pool.frames f).pageId ≠ none
  partition : (frameId :: (pool.freeList ++ pool.lruList)).Perm (List.range poolSize)
  empty : (pool.frames frameId).pageId = none

variable {poolSize : ℕ} {pool pool' : BufferPool} {frameId : ℕ} {pageId : PageId}

theorem partitioned_new (poolSize : ℕ) : (new poolSize).Partitioned poolSize where
  frame_of_table _ _ h := nomatch h
  table_of_frame _ _ h := nomatch h
  occupied _ := iff_of_true rfl rfl
  used _ := iff_of_false List.not_mem_nil fun h => h rfl
  partition := List.Perm.of_eq (List.append_nil _)

namespace Partitioned

theorem nodup (h : pool.Partitioned poolSize) : (pool.freeList ++ pool.lruList).Nodup :=
  h.partition.nodup_iff.mpr List.nodup_range

theorem free (h : pool.Partitioned poolSize) {f : ℕ} (hf : f ∈ pool.freeList) :
    (pool.frames f).pageId = none := by
  by_contra hid
  exact (List.nodup_append.mp h.nodup).2.2 f hf f ((h.used f).mpr hid) rfl

theorem injective (h : pool.Partitioned poolSize) {id id' : PageId} {f : ℕ}
    (hid : pool.pageTable.lookup id = some f) (hid' : pool.pageTable.lookup id' = some f) :
    id = id' :=
  Option.some.inj ((h.frame_of_table id f hid).symm.trans (h.frame_of_table id' f hid'))

theorem modifyPage (h : pool.Partitioned poolSize) (frameId : ℕ) (g : Page → Page) :
    (pool.modifyPage frameId g).Partitioned poolSize where
  frame_of_table id f hf := by
    rw [pageId_modifyPage]
    exact h.frame_of_table id f hf
  table_of_frame f id hf := by
    rw [pageId_modifyPage] at hf
    exact h.table_of_frame f id hf
  occupied f := by
    rw [pageId_modifyPage, page_modifyPage, ← h.occupied f]
    split_ifs
    · exact Option.map_eq_none_iff
    · exact Iff.rfl
  used f := by
    rw [pageId_modifyPage]
    exact h.used f
  partition := h.partition

theorem updateLru (h : pool.Partitioned poolSize) (hframe : (pool.frames frameId).pageId ≠ none) :
    (pool.updateLru frameId).Partitioned poolSize := by
  have hmem : frameId ∈ pool.lruList := (h.used frameId).mpr hframe
  have hnodup : pool.lruList.Nodup := (List.nodup_append.mp h.nodup).2.1
  have hperm : (pool.updateLru frameId).lruList.Perm pool.lruList := by
    refine (List.perm_append_singleton _ _).trans ?_
    have herase : pool.lruList.filter (fun id => id ≠ frameId) = pool.lruList.erase frameId := by
      rw [hnodup.erase_eq_filter]
      exact List.filter_congr fun id _ => Bool.eq_iff_iff.mpr (by simp)
    rw [herase]
    exact (List.perm_cons_erase hmem).symm
  exact
    { frame_of_table := h.frame_of_table
      table_of_frame := h.table_of_frame
      occupied := h.occupied
      used := fun f => hperm.mem_iff.trans (h.used f)
      partition := (hperm.append_left pool.freeList).trans h.partition }

theorem dropPage (h : pool.Partitioned poolSize) (hfree : pool.freeList = []) {lru : List ℕ}
    (hperm : (frameId :: lru).Perm pool.lruList) :
    ({ pool.dropPage frameId with lruList := lru } : BufferPool).PartitionedBut poolSize
      frameId := by
  have hmem : frameId ∈ pool.lruList := hperm.mem_iff.mp List.mem_cons_self
  obtain ⟨pageId, hid⟩ := Option.ne_none_iff_exists'.mp ((h.used frameId).mp hmem)
  have hnodup : (frameId :: lru).Nodup :=
    hperm.nodup_iff.mpr (List.nodup_append.mp h.nodup).2.1
  have hlinked := Linked.dropPage ⟨h.frame_of_table, h.table_of_frame⟩ hid
  refine ⟨hlinked.1, hlinked.2, fun f => ?_, fun f => ?_, ?_, ?_⟩
  · change ((pool.dropPage frameId).frames f).page = none ↔
      ((pool.dropPage frameId).frames f).pageId = none
    rw [frames_dropPage]
    split_ifs
    · exact iff_of_true rfl rfl
    · exact h.occupied f
  · change f ∈ lru ↔ ((pool.dropPage frameId).frames f).pageId ≠ none
    rw [frames_dropPage]
    split_ifs with heq
    · rw [heq]
      exact iff_of_false (List.nodup_cons.mp hnodup).1 fun hne => hne rfl
    · rw [← h.used f, ← hperm.mem_iff, List.mem_cons, or_iff_right heq]
  · change (frameId :: (pool.freeList ++ lru)).Perm (List.range poolSize)
    rw [hfree, List.nil_append]
    refine hperm.trans ?_
    have hall := h.partition
    rwa [hfree, List.nil_append] at hall
  · change ((pool.dropPage frameId).frames frameId).pageId = none
    rw [frames_dropPage, if_pos rfl]

/-- A frame for a new page was not pinned; no other frame is touched. -/
theorem getFreeFrame (h : pool.Partitioned poolSize) :
    match pool.getFreeFrame with
    | (.ok frameId, pool') => pool'.PartitionedBut poolSize frameId ∧
        pool.pinned frameId = false ∧ (∀ f ≠ frameId, pool'.frames f = pool.frames f) ∧
        ∀ id, pool.pageTable.lookup id = none → pool'.pageTable.lookup id = none
    | (.error _, pool') => pool'.Partitioned poolSize ∧ pool'.frames = pool.frames := by
  rw [BufferPool.getFreeFrame]
  cases hlist : pool.freeList with
  | cons frameId rest =>
    have hall := h.partition
    rw [hlist] at hall
    have hempty : (pool.frames frameId).pageId = none := by
      refine h.free ?_
      rw [hlist]
      exact List.mem_cons_self
    refine ⟨⟨h.frame_of_table, h.table_of_frame, h.occupied, h.used, hall, hempty⟩, ?_,
      fun _ _ => rfl, fun _ hid => hid⟩
    rw [pinned, (h.occupied frameId).mpr hempty]
    rfl
  | nil =>
    obtain ⟨hperm, hfirst⟩ := evictLoop_spec pool pool.lruList.length pool.lruList le_rfl
    rw [List.take_length] at hfirst
    simp only [evictPage]
    generalize evictLoop pool pool.lruList.length pool.lruList = r at hperm hfirst
    obtain ⟨_ | frameId, lru⟩ := r
    · have hlru : lru.Perm pool.lruList := hperm
      exact ⟨⟨h.frame_of_table, h.table_of_frame, h.occupied,
        fun f => hlru.mem_iff.trans (h.used f),
        (hlru.append_left pool.freeList).trans h.partition⟩, rfl⟩
    · refine ⟨h.dropPage hlist hperm, ?_, fun f hf => Function.update_of_ne hf _ _,
        fun id hid => lookup_dropPage_of_missing hid⟩
      have hunpinned := List.find?_some (hfirst frameId rfl)
      exact (Bool.not_eq_eq_eq_not ..).mp hunpinned

end Partitioned

theorem PartitionedBut.fillFrame (h : pool.PartitionedBut poolSize frameId)
    (hmissing : pool.pageTable.lookup pageId = none) (page : Page) :
    ((pool.fillFrame frameId pageId page).updateLru frameId).Partitioned poolSize := by
  have hfresh : frameId ∉ pool.lruList := fun hmem => (h.used frameId).mp hmem h.empty
  have hlru : pool.lruList.filter (fun id => id ≠ frameId) = pool.lruList := by
    refine List.filter_eq_self.mpr fun id hid => decide_eq_true ?_
    rintro rfl
    exact hfresh hid
  have hlinked := Linked.fillFrame ⟨h.frame_of_table, h.table_of_frame⟩ h.empty hmissing page
  refine ⟨hlinked.1, hlinked.2, fun f => ?_, fun f => ?_, ?_⟩
  · change ((pool.fillFrame frameId pageId page).frames f).page = none ↔
      ((pool.fillFrame frameId pageId page).frames f).pageId = none
    rw [frames_fillFrame]
    split_ifs
    · exact ⟨nofun, nofun⟩
    · exact h.occupied f
  · change f ∈ pool.lruList.filter (fun id => id ≠ frameId) ++ [frameId] ↔
      ((pool.fillFrame frameId pageId page).frames f).pageId ≠ none
    rw [hlru, List.mem_append, List.mem_singleton, frames_fillFrame, h.used f]
    split_ifs with heq
    · exact iff_of_true (Or.inr heq) nofun
    · exact or_iff_left heq
  · change (pool.freeList ++ (pool.lruList.filter (fun id => id ≠ frameId) ++ [frameId])).Perm _
    rw [hlru, ← List.append_assoc]
    exact (List.perm_append_singleton _ _).trans h.partition

/-- A page that is placed is pinned once, in a frame that was not pinned; no other frame is
touched. -/
theorem Partitioned.place (h : pool.Partitioned poolSize)
    (hmissing : pool.pageTable.lookup pageId = none) (page : Page) :
    match pool.place pageId page with
    | (.ok handle, pool') => pool'.Partitioned poolSize ∧ handle.pageId = pageId ∧
        pool.pinned handle.frame = false ∧
        pool'.frames handle.frame = { page := some page.pin, pageId := some pageId } ∧
        ∀ f ≠ handle.frame, pool'.frames f = pool.frames f
    | (.error _, pool') => pool'.Partitioned poolSize ∧ pool'.frames = pool.frames := by
  have hspec := h.getFreeFrame
  rw [BufferPool.place]
  generalize pool.getFreeFrame = r at hspec
  obtain ⟨e | frameId, pool'⟩ := r
  · exact hspec
  · obtain ⟨hbut, hunpinned, hother, htable⟩ := hspec
    refine ⟨hbut.fillFrame (htable pageId hmissing) page, rfl, hunpinned, ?_, fun f hf => ?_⟩
    · change (pool'.fillFrame frameId pageId page).frames frameId = _
      rw [frames_fillFrame, if_pos rfl]
    · change (pool'.fillFrame frameId pageId page).frames f = _
      rw [frames_fillFrame, if_neg hf]
      exact hother f hf

theorem Partitioned.hit (h : pool.Partitioned poolSize) (pageId : PageId) :
    pool.hit pageId = pool.pageTable.lookup pageId := by
  rw [BufferPool.hit]
  cases hlookup : pool.pageTable.lookup pageId with
  | none => rfl
  | some f =>
    have hsome : (pool.frames f).page ≠ none := by
      intro hnone
      rw [h.occupied, h.frame_of_table pageId f hlookup] at hnone
      cases hnone
    rw [Option.filter_some, if_pos (Option.isSome_iff_ne_none.mpr hsome)]

end BufferPool

namespace PoolRun

/-! ## Runs -/

/-- The number of handles to a frame that are alive. -/
def handleCount (r : PoolRun) (f : ℕ) : ℕ :=
  Table.sumValues (fun handle : PageHandle => if handle.frame = f then 1 else 0) r.handles

/-- The pin discipline of a state. -/
structure Disciplined (poolSize : ℕ) (r : PoolRun) : Prop where
  /-- The pin count of a page is the number of handles to its frame. -/
  pins : ∀ f page, (r.pool.frames f).page = some page → page.pinCount.toNat = r.handleCount f
  /-- The page of a handle is in its frame, and is pinned. -/
  held : ∀ n handle, r.handles.lookup n = some handle →
    (r.pool.frames handle.frame).pageId = some handle.pageId ∧ r.pool.pinned handle.frame = true
  injective : ∀ id id' f, r.pool.pageTable.lookup id = some f →
    r.pool.pageTable.lookup id' = some f → id = id'
  /-- Every frame of the pool is free or in use, and only one of both. -/
  partition : (r.pool.freeList ++ r.pool.lruList).Perm (List.range poolSize)
  free : ∀ f ∈ r.pool.freeList,
    (r.pool.frames f).page = none ∧ ∀ id, r.pool.pageTable.lookup id ≠ some f
  used : ∀ f ∈ r.pool.lruList,
    (r.pool.frames f).page ≠ none ∧ ∃ id, r.pool.pageTable.lookup id = some f

/-- The calls that leave pins and handles in step: a pin that does not overflow the count, a write
that leaves the pins alone, and an unpin of a page that is not in the pool. -/
def PinsStay (r : PoolRun) : PoolAction → Prop
  | .fetchPage pageId => ∀ f ∈ r.pool.pageTable.lookup pageId, ∀ page ∈ (r.pool.frames f).page,
      page.pinCount.toNat + 1 < 2 ^ 32
  | .write n edit => ∀ handle ∈ r.handles.lookup n,
      ∀ page ∈ (r.pool.frames handle.frame).page, (edit page).pinCount = page.pinCount
  | .unpinPage pageId => pageId ∉ r.pool.pageTable
  | _ => True

/-- Whatever is done, the page of a handle stays in its frame, and only a write changes it. -/
def KeepsHeld (r : PoolRun) (a : PoolAction) (r' : PoolRun) : Prop :=
  ∀ n handle, r.handles.lookup n = some handle →
    (r'.pool.frames handle.frame).pageId = some handle.pageId ∧
      ((∀ m edit, a ≠ .write m edit) →
        (r'.pool.frames handle.frame).page.map Page.contents =
          (r.pool.frames handle.frame).page.map Page.contents)

/-- What a run keeps: the tables of the pool fit together, and so do pins and handles. -/
structure Kept (poolSize : ℕ) (r : PoolRun) : Prop where
  pool : r.pool.Partitioned poolSize
  pins : ∀ f page, (r.pool.frames f).page = some page → page.pinCount.toNat = r.handleCount f
  held : ∀ n handle, r.handles.lookup n = some handle →
    (r.pool.frames handle.frame).pageId = some handle.pageId
  fresh : ∀ n, r.nextHandle ≤ n → r.handles.lookup n = none

variable {poolSize : ℕ} {r r' : PoolRun}

theorem handleCount_pos {n : ℕ} {handle : PageHandle} (h : r.handles.lookup n = some handle) :
    0 < r.handleCount handle.frame := by
  rw [handleCount, Table.sumValues_eq_add_erase _ h, if_pos rfl]
  omega

theorem exists_handle {f : ℕ} (h : 0 < r.handleCount f) :
    ∃ n handle, r.handles.lookup n = some handle ∧ handle.frame = f := by
  by_contra hnone
  push Not at hnone
  refine absurd (List.sum_eq_zero fun x hx => ?_) h.ne'
  obtain ⟨handle, hhandle, rfl⟩ := List.mem_map.mp hx
  obtain ⟨n, hn⟩ := Table.mem_values.mp hhandle
  exact if_neg (hnone n handle hn)

theorem Kept.pinned (h : r.Kept poolSize) {n : ℕ} {handle : PageHandle}
    (hhandle : r.handles.lookup n = some handle) : r.pool.pinned handle.frame = true := by
  have hid := h.held n handle hhandle
  cases hpage : (r.pool.frames handle.frame).page with
  | none =>
    rw [(h.pool.occupied _).mp hpage] at hid
    cases hid
  | some page =>
    have hcount := h.pins _ page hpage
    have hpos := handleCount_pos hhandle
    rw [BufferPool.pinned, hpage]
    refine decide_eq_true (UInt32.lt_iff_toNat_lt.mpr ?_)
    change 0 < page.pinCount.toNat
    omega

theorem Kept.disciplined (h : r.Kept poolSize) : r.Disciplined poolSize where
  pins := h.pins
  held n handle hhandle := ⟨h.held n handle hhandle, h.pinned hhandle⟩
  injective _ _ _ := h.pool.injective
  partition := h.pool.partition
  free f hf := by
    refine ⟨(h.pool.occupied f).mpr (h.pool.free hf), fun id hid => ?_⟩
    have hmarked := h.pool.frame_of_table id f hid
    rw [h.pool.free hf] at hmarked
    cases hmarked
  used f hf := by
    have hid := (h.pool.used f).mp hf
    obtain ⟨id, hsome⟩ := Option.ne_none_iff_exists'.mp hid
    exact ⟨mt (h.pool.occupied f).mp hid, id, h.pool.table_of_frame f id hsome⟩

theorem Kept.handleCount_of_unpinned (h : r.Kept poolSize) {f : ℕ}
    (hpinned : r.pool.pinned f = false) : r.handleCount f = 0 := by
  by_contra hne
  obtain ⟨n, handle, hhandle, rfl⟩ := exists_handle (Nat.pos_of_ne_zero hne)
  rw [h.pinned hhandle] at hpinned
  cases hpinned

/-! ## Steps -/

theorem handleCount_hold (hfresh : r.handles.lookup r.nextHandle = none) (handle : PageHandle)
    (pool : BufferPool) (f : ℕ) : (r.hold (.ok handle, pool)).handleCount f =
      (if handle.frame = f then 1 else 0) + r.handleCount f := by
  rw [handleCount, handleCount]
  refine (Table.sumValues_insert _ _ _ _).trans ?_
  rw [Table.sumValues_erase_of_none _ hfresh]

theorem lookup_hold {handle : PageHandle} {pool : BufferPool} {n : ℕ} {handle' : PageHandle}
    (h : (r.hold (.ok handle, pool)).handles.lookup n = some handle') :
    handle' = handle ∨ r.handles.lookup n = some handle' := by
  change (r.handles.insert r.nextHandle handle).lookup n = some handle' at h
  rw [Table.lookup_insert] at h
  split_ifs at h
  · exact Or.inl (Option.some.inj h).symm
  · exact Or.inr h

theorem fresh_hold (h : ∀ n, r.nextHandle ≤ n → r.handles.lookup n = none) (handle : PageHandle)
    (pool : BufferPool) (n : ℕ) (hn : r.nextHandle + 1 ≤ n) :
    (r.hold (.ok handle, pool)).handles.lookup n = none := by
  change (r.handles.insert r.nextHandle handle).lookup n = none
  rw [Table.lookup_insert, if_neg (by omega)]
  exact h n (by omega)

/-- A page that is placed gets a handle, and no page with a handle goes. -/
theorem Kept.place (h : r.Kept poolSize) {pageId : PageId}
    (hmissing : r.pool.pageTable.lookup pageId = none) (page : Page) (hpin : page.pinCount = 0) :
    (r.hold (r.pool.place pageId page)).Kept poolSize ∧
      ∀ n handle, r.handles.lookup n = some handle →
        (r.hold (r.pool.place pageId page)).pool.frames handle.frame =
          r.pool.frames handle.frame := by
  have hspec := h.pool.place hmissing page
  generalize r.pool.place pageId page = result at hspec
  obtain ⟨e | handle, pool'⟩ := result
  · obtain ⟨hpool, hframes⟩ := hspec
    refine ⟨⟨hpool, ?_, ?_, h.fresh⟩, fun n handle _ => congrFun hframes _⟩
    · change ∀ f page, (pool'.frames f).page = some page → _
      rw [hframes]
      exact h.pins
    · change ∀ n (handle : PageHandle), _ → (pool'.frames handle.frame).pageId = _
      rw [hframes]
      exact h.held
  · obtain ⟨hpool, hid, hunpinned, hplaced, hother⟩ := hspec
    have hnone := h.handleCount_of_unpinned hunpinned
    -- a frame with a handle is another one
    have hapart : ∀ n handle', r.handles.lookup n = some handle' →
        handle'.frame ≠ handle.frame := by
      intro n handle' hhandle heq
      have hpos := handleCount_pos hhandle
      rw [heq, hnone] at hpos
      exact absurd hpos (Nat.lt_irrefl 0)
    refine ⟨⟨hpool, fun f p hp => ?_, fun n handle' hhandle => ?_, fresh_hold h.fresh handle pool'⟩,
      fun n handle' hhandle => hother _ (hapart n handle' hhandle)⟩
    · change (pool'.frames f).page = some p at hp
      rw [handleCount_hold (h.fresh _ le_rfl)]
      by_cases hf : f = handle.frame
      · rw [hf, hplaced] at hp
        rw [hf, hnone, if_pos rfl, ← Option.some.inj hp, Page.pin, hpin]
        rfl
      · rw [hother f hf] at hp
        rw [if_neg (Ne.symm hf), Nat.zero_add]
        exact h.pins f p hp
    · change (pool'.frames handle'.frame).pageId = _
      rcases lookup_hold hhandle with rfl | hold
      · rw [hplaced, hid]
      · rw [hother _ (hapart n handle' hold)]
        exact h.held n handle' hold

/-- The pins of one page are changed, and the handles to its frame with them. -/
theorem Kept.repin (h : r.Kept poolSize) {f : ℕ} {g : Page → Page}
    (hpool : r'.pool.Partitioned poolSize)
    (hframes : r'.pool.frames = (r.pool.modifyPage f g).frames)
    (hcount : ∀ f', f' ≠ f → r'.handleCount f' = r.handleCount f')
    (hheld : ∀ n handle, r'.handles.lookup n = some handle →
      (r.pool.frames handle.frame).pageId = some handle.pageId)
    (hfresh : ∀ n, r'.nextHandle ≤ n → r'.handles.lookup n = none)
    (hpins : ∀ page, (r.pool.frames f).page = some page →
      (g page).pinCount.toNat = r'.handleCount f) : r'.Kept poolSize where
  pool := hpool
  pins f' page hpage := by
    rw [hframes, BufferPool.page_modifyPage] at hpage
    split_ifs at hpage with heq
    · subst heq
      obtain ⟨old, hold, rfl⟩ := Option.map_eq_some_iff.mp hpage
      exact hpins old hold
    · rw [hcount f' heq]
      exact h.pins f' page hpage
  held n handle hhandle := by
    rw [hframes, BufferPool.pageId_modifyPage]
    exact hheld n handle hhandle
  fresh := hfresh

theorem Kept.keepsHeld_of_frames (h : r.Kept poolSize) {a : PoolAction} {f : ℕ} {g : Page → Page}
    (hframes : r'.pool.frames = (r.pool.modifyPage f g).frames)
    (hg : (∀ m edit, a ≠ .write m edit) → ∀ page, (g page).contents = page.contents) :
    KeepsHeld r a r' := by
  intro n handle hhandle
  rw [hframes, BufferPool.pageId_modifyPage, BufferPool.page_modifyPage]
  refine ⟨h.held n handle hhandle, fun hread => ?_⟩
  split_ifs
  · rw [Option.map_map]
    exact congrArg (fun k => Option.map k _) (funext fun page => hg hread page)
  · rfl

theorem toNat_pin (page : Page) :
    page.pin.pinCount.toNat = (page.pinCount.toNat + 1) % 2 ^ 32 :=
  UInt32.toNat_add _ _

theorem toNat_unpin (page : Page) :
    page.unpin.pinCount.toNat = (2 ^ 32 - 1 + page.pinCount.toNat) % 2 ^ 32 :=
  UInt32.toNat_sub _ _

/-- A page that is in the pool is fetched: its pins are right again just if they do not overflow. -/
theorem Kept.fetch_hit (h : r.Kept poolSize) {pageId : PageId} {f : ℕ}
    (hlookup : r.pool.pageTable.lookup pageId = some f) (hr : r' = r.hold (.ok ⟨f, pageId⟩,
      (r.pool.modifyPage f Page.pin).updateLru f)) :
    KeepsHeld r (.fetchPage pageId) r' ∧ (r.PinsStay (.fetchPage pageId) → r'.Kept poolSize) ∧
      (r'.Disciplined poolSize → r.PinsStay (.fetchPage pageId)) := by
  have hmarked := h.pool.frame_of_table pageId f hlookup
  have hframes : r'.pool.frames = (r.pool.modifyPage f Page.pin).frames := by rw [hr]; rfl
  have hcount (f' : ℕ) : r'.handleCount f' = (if f = f' then 1 else 0) + r.handleCount f' := by
    rw [hr]
    exact handleCount_hold (h.fresh _ le_rfl) _ _ _
  refine ⟨h.keepsHeld_of_frames hframes fun _ => Page.contents_pin, fun hfits => ?_,
    fun hdisciplined f' hf' page hpage => ?_⟩
  · refine h.repin ?_ hframes (fun f' hf' => ?_) (fun n handle hhandle => ?_) ?_ fun page hpage => ?_
    · rw [hr]
      refine (h.pool.modifyPage f Page.pin).updateLru ?_
      rw [BufferPool.pageId_modifyPage, hmarked]
      nofun
    · rw [hcount, if_neg (Ne.symm hf'), Nat.zero_add]
    · rw [hr] at hhandle
      rcases lookup_hold hhandle with rfl | hold
      · exact hmarked
      · exact h.held n handle hold
    · rw [hr]
      exact fresh_hold h.fresh _ _
    · rw [toNat_pin, Nat.mod_eq_of_lt (hfits f hlookup page hpage), hcount, if_pos rfl,
        h.pins f page hpage, Nat.add_comm]
  · -- the count of the frame is one more, so it has not overflowed
    rw [Option.mem_def, hlookup] at hf'
    obtain rfl := Option.some.inj hf'
    have hpinned : (r'.pool.frames f).page = some page.pin := by
      rw [hframes, BufferPool.page_modifyPage, if_pos rfl, Option.mem_def.mp hpage]
      rfl
    have hpins := hdisciplined.pins f page.pin hpinned
    have hold := h.pins f page hpage
    have hsmall := page.pin.pinCount.toNat_lt
    rw [hcount, if_pos rfl, ← hold] at hpins
    omega

/-- A call keeps the pages with handles, and pins and handles in step just if it leaves them so. -/
def KeptBy (poolSize : ℕ) (r : PoolRun) (a : PoolAction) (r' : PoolRun) : Prop :=
  KeepsHeld r a r' ∧ (r.PinsStay a → r'.Kept poolSize) ∧ (r'.Disciplined poolSize → r.PinsStay a)

theorem Kept.keepsHeld_self (h : r.Kept poolSize) {a : PoolAction} : KeepsHeld r a r :=
  fun n handle hhandle => ⟨h.held n handle hhandle, fun _ => rfl⟩

/-- A new page leaves the frames with handles alone. -/
theorem Kept.step_newPage (h : r.Kept poolSize) {pageId : PageId} {pageType : PageType}
    (hstep : r.step (.newPage pageId pageType) = some r') :
    KeptBy poolSize r (.newPage pageId pageType) r' := by
  rw [PoolRun.step, BufferPool.newPage] at hstep
  split_ifs at hstep with hmem
  · obtain rfl := Option.some.inj hstep
    exact ⟨h.keepsHeld_self, fun _ => h, fun _ => trivial⟩
  · obtain ⟨hkept, hframes⟩ := h.place (AList.lookup_eq_none.mpr hmem)
      (Page.new pageId pageType) rfl
    generalize r.pool.place pageId (Page.new pageId pageType) = result at hkept hframes hstep
    have hheld : ∀ n handle, r.handles.lookup n = some handle →
        (result.2.frames handle.frame) = r.pool.frames handle.frame := by
      intro n handle hhandle
      rw [← hframes n handle hhandle, pool_hold]
    obtain ⟨e | handle, pool'⟩ := result
    · obtain rfl := Option.some.inj hstep
      refine ⟨fun n handle hhandle => ?_, fun _ => hkept, fun _ => trivial⟩
      change (pool'.frames handle.frame).pageId = _ ∧ (_ → Option.map _
        (pool'.frames handle.frame).page = _)
      rw [hheld n handle hhandle]
      exact h.keepsHeld_self n handle hhandle
    · obtain rfl := Option.some.inj hstep
      refine ⟨fun n handle hhandle => ?_,
        fun _ => ⟨hkept.pool, hkept.pins, hkept.held, hkept.fresh⟩, fun _ => trivial⟩
      change (pool'.frames handle.frame).pageId = _ ∧ (_ → Option.map _
        (pool'.frames handle.frame).page = _)
      rw [hheld n handle hhandle]
      exact h.keepsHeld_self n handle hhandle

/-- A page that is fetched is pinned once more, or placed. -/
theorem Kept.step_fetchPage (h : r.Kept poolSize) {pageId : PageId}
    (hstep : r.step (.fetchPage pageId) = some r') :
    KeptBy poolSize r (.fetchPage pageId) r' := by
  obtain rfl := Option.some.inj hstep
  cases hlookup : r.pool.pageTable.lookup pageId with
  | some f =>
    refine h.fetch_hit hlookup ?_
    rw [BufferPool.fetchPage, h.pool.hit, hlookup]
  | none =>
    obtain ⟨hkept, hframes⟩ := h.place hlookup (Page.new pageId .data) rfl
    have hfetch : r.pool.fetchPage pageId = r.pool.place pageId (Page.new pageId .data) := by
      rw [BufferPool.fetchPage, h.pool.hit, hlookup]
    rw [hfetch]
    refine ⟨fun n handle hhandle => ?_, fun _ => hkept, fun _ f hf => ?_⟩
    · rw [hframes n handle hhandle]
      exact h.keepsHeld_self n handle hhandle
    · rw [Option.mem_def, hlookup] at hf
      cases hf

/-- A write keeps the pins of the page just if it leaves its count alone. -/
theorem Kept.step_write (h : r.Kept poolSize) {n : ℕ} {edit : Page → Page}
    (hstep : r.step (.write n edit) = some r') :
    KeptBy poolSize r (.write n edit) r' := by
  obtain ⟨handle, hhandle, hwrite⟩ := Option.bind_eq_some_iff.mp hstep
  obtain ⟨page, hpage, rfl⟩ := Option.map_eq_some_iff.mp hwrite
  refine ⟨h.keepsHeld_of_frames rfl fun hread => absurd rfl (hread n edit), fun hedit => ?_,
    fun hdisciplined handle' hhandle' page' hpage' => ?_⟩
  · refine h.repin (h.pool.modifyPage _ _) rfl (fun _ _ => rfl) h.held h.fresh fun p hp => ?_
    rw [hedit handle hhandle p hp]
    exact h.pins _ p hp
  · rw [Option.mem_def, hhandle] at hhandle'
    obtain rfl := Option.some.inj hhandle'
    have hwritten : ((r.pool.modifyPage handle.frame edit).frames handle.frame).page =
        some (edit page') := by
      rw [BufferPool.page_modifyPage, if_pos rfl, Option.mem_def.mp hpage']
      rfl
    refine UInt32.toNat_inj.mp ?_
    rw [h.pins _ page' hpage']
    exact hdisciplined.pins _ _ hwritten

/-- A handle that is dropped takes its pin along. -/
theorem Kept.step_drop (h : r.Kept poolSize) {n : ℕ}
    (hstep : r.step (.drop n) = some r') :
    KeptBy poolSize r (.drop n) r' := by
  obtain ⟨handle, hhandle, rfl⟩ := Option.map_eq_some_iff.mp hstep
  have hcount (f : ℕ) : r.handleCount f = (if handle.frame = f then 1 else 0) +
      Table.sumValues (fun h : PageHandle => if h.frame = f then 1 else 0) (r.handles.erase n) :=
    Table.sumValues_eq_add_erase _ hhandle
  refine ⟨h.keepsHeld_of_frames rfl fun _ => Page.contents_unpin, fun _ => ?_, fun _ => trivial⟩
  have herase : ∀ n' handle', (r.handles.erase n).lookup n' = some handle' →
      r.handles.lookup n' = some handle' := by
    intro n' handle' hlookup
    exact Table.lookup_of_lookup_erase hlookup
  refine h.repin (h.pool.modifyPage _ _) rfl (fun f hf => ?_)
    (fun n' handle' hlookup => h.held n' handle' (herase n' handle' hlookup))
    (fun n' hn' => ?_) fun page hpage => ?_
  · rw [hcount f, if_neg (Ne.symm hf), Nat.zero_add]
    rfl
  · change (r.handles.erase n).lookup n' = none
    rw [Table.lookup_erase, h.fresh n' hn', ite_self]
  · have hpins := h.pins _ page hpage
    have hsmall := page.pinCount.toNat_lt
    rw [hcount, if_pos rfl] at hpins
    rw [toNat_unpin]
    change _ = Table.sumValues _ (r.handles.erase n)
    omega

/-- A pin without a handle is taken only from a page that is not there. -/
theorem Kept.step_unpinPage (h : r.Kept poolSize) {pageId : PageId}
    (hstep : r.step (.unpinPage pageId) = some r') :
    KeptBy poolSize r (.unpinPage pageId) r' := by
  obtain rfl := Option.some.inj hstep
  cases hlookup : r.pool.pageTable.lookup pageId with
  | none =>
    have hunpin : r.pool.unpinPage pageId = r.pool := by
      rw [BufferPool.unpinPage, hlookup]
    rw [hunpin]
    exact ⟨h.keepsHeld_self, fun _ => h, fun _ => AList.lookup_eq_none.mp hlookup⟩
  | some f =>
    have hunpin : r.pool.unpinPage pageId = r.pool.modifyPage f Page.unpin := by
      rw [BufferPool.unpinPage, hlookup]
    rw [hunpin]
    refine ⟨h.keepsHeld_of_frames rfl fun _ => Page.contents_unpin, fun hmissing => ?_,
      fun hdisciplined => ?_⟩
    · rw [AList.lookup_eq_none.mpr hmissing] at hlookup
      cases hlookup
    · -- the page has lost a pin, and its frame no handle
      have hsome : (r.pool.frames f).page ≠ none := by
        intro hnone
        rw [h.pool.occupied, h.pool.frame_of_table pageId f hlookup] at hnone
        cases hnone
      obtain ⟨page, hpage⟩ := Option.ne_none_iff_exists'.mp hsome
      have hunpinned : ((r.pool.modifyPage f Page.unpin).frames f).page = some page.unpin := by
        rw [BufferPool.page_modifyPage, if_pos rfl, hpage]
        rfl
      have hpins := hdisciplined.pins f page.unpin hunpinned
      have hold := h.pins f page hpage
      have hsmall := page.pinCount.toNat_lt
      rw [toNat_unpin] at hpins
      change _ = r.handleCount f at hpins
      omega

/-- A flush leaves the contents and pins alone. -/
theorem Kept.step_flushPage (h : r.Kept poolSize) {pageId : PageId}
    (hstep : r.step (.flushPage pageId) = some r') :
    KeptBy poolSize r (.flushPage pageId) r' := by
  obtain rfl := Option.some.inj hstep
  have hcleared (f : ℕ) : KeepsHeld r (.flushPage pageId)
        { r with pool := r.pool.modifyPage f Page.clearDirty } ∧
      Kept poolSize { r with pool := r.pool.modifyPage f Page.clearDirty } :=
    ⟨h.keepsHeld_of_frames rfl fun _ => Page.contents_clearDirty,
      h.repin (h.pool.modifyPage f Page.clearDirty) rfl (fun _ _ => rfl) h.held h.fresh
        fun page hpage => h.pins f page hpage⟩
  have hflush : (r.pool.flushPage pageId).2 = r.pool ∨
      ∃ f, (r.pool.flushPage pageId).2 = r.pool.modifyPage f Page.clearDirty := by
    rw [BufferPool.flushPage]
    split
    · exact Or.inl rfl
    · split
      · exact Or.inl rfl
      · split_ifs
        · split
          · exact Or.inl rfl
          · exact Or.inr ⟨_, rfl⟩
        · exact Or.inl rfl
  rcases hflush with hflush | ⟨f, hflush⟩
  · rw [hflush]
    exact ⟨h.keepsHeld_self, fun _ => h, fun _ => trivial⟩
  · rw [hflush]
    exact ⟨(hcleared f).1, fun _ => (hcleared f).2, fun _ => trivial⟩

/-- What one call keeps, with a lemma for each kind of call. -/
theorem Kept.step (h : r.Kept poolSize) {a : PoolAction} (hstep : r.step a = some r') :
    KeptBy poolSize r a r' := by
  cases a with
  | newPage _ _ => exact h.step_newPage hstep
  | fetchPage _ => exact h.step_fetchPage hstep
  | write _ _ => exact h.step_write hstep
  | drop _ => exact h.step_drop hstep
  | unpinPage _ => exact h.step_unpinPage hstep
  | flushPage _ => exact h.step_flushPage hstep

theorem kept_init : ({ pool := BufferPool.new poolSize } : PoolRun).Kept poolSize where
  pool := BufferPool.partitioned_new poolSize
  pins _ _ h := nomatch h
  held _ _ h := nomatch h
  fresh _ _ := rfl

/-- In a run whose calls leave pins and handles in step, the pin discipline holds; whatever is done
next, a page with a handle stays in its frame, and the discipline is kept just if the call leaves
pins and handles in step. -/
theorem disciplined_of_reach (h : (system poolSize).Reach PinsStay r) :
    r.Disciplined poolSize ∧ ∀ a r', r.step a = some r' →
      KeepsHeld r a r' ∧ (r'.Disciplined poolSize ↔ r.PinsStay a) := by
  have hkept : r.Kept poolSize :=
    h.invariant (P := Kept poolSize) kept_init
      fun s a s' _ hs ha hstep => (hs.step hstep).2.1 ha
  refine ⟨hkept.disciplined, fun a r' hstep => ?_⟩
  obtain ⟨hheld, hstays, hneeds⟩ := hkept.step hstep
  exact ⟨hheld, hneeds, fun ha => (hstays ha).disciplined⟩

instance (r : PoolRun) (a : PoolAction) : Decidable (r.PinsStay a) :=
  match a with
  | .fetchPage pageId => inferInstanceAs (Decidable (∀ f ∈ r.pool.pageTable.lookup pageId,
      ∀ page ∈ (r.pool.frames f).page, page.pinCount.toNat + 1 < 2 ^ 32))
  | .write n edit => inferInstanceAs (Decidable (∀ handle ∈ r.handles.lookup n,
      ∀ page ∈ (r.pool.frames handle.frame).page, (edit page).pinCount = page.pinCount))
  | .unpinPage pageId => inferInstanceAs (Decidable (pageId ∉ r.pool.pageTable))
  | .newPage _ _ | .drop _ | .flushPage _ => .isTrue trivial

/-- Page `1` is created and fetched once more, and page `2` takes the frame of neither handle. -/
def pinScript : List PoolAction :=
  [.newPage 1 .data, .fetchPage 1, .drop 0, .newPage 2 .index]

theorem disciplined_of_reach_script : ∃ r, (system 2).run PinsStay pinScript = some r ∧
    (r.Disciplined 2 ∧ ∀ a r', r.step a = some r' →
      KeepsHeld r a r' ∧ (r'.Disciplined 2 ↔ r.PinsStay a)) := by
  obtain ⟨r, hr⟩ := Option.isSome_iff_exists.mp
    (show ((system 2).run PinsStay pinScript).isSome = true by decide +kernel)
  exact ⟨r, hr, disciplined_of_reach (System.reach_of_run hr)⟩

/-- Page `1` is created and unpinned while its handle is alive, and page `2` is created. -/
def unpinScript : List PoolAction :=
  [.newPage 1 .data, .unpinPage 1, .newPage 2 .index]

/-- In a pool of one frame the second page takes the frame of the handle to the first. -/
theorem unpinned_page_evicted : ¬ ∀ poolSize r, (system poolSize).Reachable r →
    r.Disciplined poolSize := by
  intro h
  have hrun : (((system 1).run (fun _ _ => True) unpinScript).any fun r =>
      decide (∃ handle ∈ r.handles.lookup 0,
        (r.pool.frames handle.frame).pageId ≠ some handle.pageId)) = true := by
    decide +kernel
  obtain ⟨r, -, hreach, hbad⟩ := System.exists_reach_of_any hrun
  obtain ⟨handle, hhandle, hne⟩ := of_decide_eq_true hbad
  exact hne ((h 1 r hreach).held 0 handle hhandle).1

end PoolRun

end Storage

end AegisDB
