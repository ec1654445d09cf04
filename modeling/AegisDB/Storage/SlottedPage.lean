import AegisDB.Library.Regions
import AegisDB.Storage.BufferPool

/-!
# Tuples on a page

The slots of a page grow from its header on and the tuples from its end, and each slot has the
offset and the length of a tuple.  A slot of length zero counts as deleted, so an empty tuple is
taken but cannot be read (`PageRun.empty_tuple_not_read`).  Everything else is as it should be: the
tuples are apart from each other and from the slots, and are read back until they are deleted
(`PageRun.intact_iff`).
-/

namespace AegisDB

namespace Storage

/-- Slot directory entry pointing to tuple data. -/
structure Slot where
  offset : UInt16
  length : UInt16

def Slot.isEmpty (s : Slot) : Bool :=
  s.length = 0

namespace Page

def slotOffset (slotId : ℕ) : ℕ :=
  pageHeaderSize + slotId * slotSize

/-- The entry of a slot. -/
def readSlot (p : Page) (slotId : UInt16) : Slot :=
  let buf := p.data.drop (pageHeaderSize + slotId.toNat * slotSize)
  let (offset, buf) := getLe 2 buf
  let (length, _) := getLe 2 buf
  { offset := UInt16.ofNat offset, length := UInt16.ofNat length }

/-- Read a tuple from a page whose slots point into its bytes. -/
def readTuple (p : Page) (slotId : UInt16) : Except AegisError Bytes :=
  if p.header.numSlots ≤ slotId then .error (.storage "Invalid slot ID")
  else
    let slot := p.readSlot slotId
    if slot.isEmpty then .error (.storage "Slot is empty")
    else .ok ((p.data.drop slot.offset.toNat).take slot.length.toNat)

def toBytes (p : Page) : Bytes :=
  p.data

end Page

/-! ## Runs -/

/-- A page, and for each slot the tuple that was inserted there, if it was not deleted. -/
structure PageRun where
  page : Page
  tuples : List (Option Bytes)

/-- What is done to a page. -/
inductive PageCall where
  | insert (tuple : Bytes)
  | delete (slotId : UInt16)
  /-- The page is written to bytes and made from them again. -/
  | reload

namespace PageRun

/-- One call. -/
def step (r : PageRun) : PageCall → Option PageRun
  | .insert tuple =>
    match r.page.insertTuple tuple with
    | (.ok _, page) => some { page, tuples := r.tuples ++ [some tuple] }
    | (.error _, page) => some { r with page }
  | .delete slotId =>
    match r.page.deleteTuple slotId with
    | (.ok _, page) => some { page, tuples := r.tuples.set slotId.toNat none }
    | (.error _, page) => some { r with page }
  | .reload =>
    match Page.fromBytes r.page.toBytes with
    | .ok page => some { r with page }
    | .error _ => none

def system (pageId : PageId) (pageType : PageType) : System PageRun PageCall where
  init := ⟨Page.new pageId pageType, []⟩
  step := step

def Live (r : PageRun) (slotId : UInt16) (tuple : Bytes) : Prop :=
  r.tuples[slotId.toNat]? = some (some tuple)

def range (r : PageRun) (slotId : UInt16) : ℕ × ℕ :=
  ((r.page.readSlot slotId).offset.toNat, (r.page.readSlot slotId).length.toNat)

/-- What a page promises. -/
structure Intact (r : PageRun) : Prop where
  /-- An insertion that succeeds returns the slot of the tuple. -/
  inserts : ∀ tuple slotId page, r.page.insertTuple tuple = (.ok slotId, page) →
    slotId.toNat = r.tuples.length
  inside : ∀ slotId tuple, r.Live slotId tuple → (r.range slotId).2 = tuple.length ∧
    Page.slotOffset r.tuples.length ≤ (r.range slotId).1 ∧
      (r.range slotId).1 + (r.range slotId).2 ≤ pageSize
  apart : ∀ slotId slotId' tuple tuple', r.Live slotId tuple → r.Live slotId' tuple' →
    slotId ≠ slotId' →
      Apart (r.range slotId).1 (r.range slotId).2 (r.range slotId').1 (r.range slotId').2
  reads : ∀ slotId tuple, r.Live slotId tuple → r.page.readTuple slotId = .ok tuple
  deleted : ∀ slotId, r.tuples[slotId.toNat]? = some none →
    ∃ e, r.page.readTuple slotId = .error e
  fails : ∀ tuple e page, r.page.insertTuple tuple = (.error e, page) → page = r.page
  reloads : ∃ page, Page.fromBytes r.page.toBytes = .ok page ∧ page.contents = r.page.contents

end PageRun

/-! ## Pages in order -/

theorem PageHeader.length_toBytes (h : PageHeader) : h.toBytes.length = 18 := by
  simp [PageHeader.toBytes]

namespace Page

variable {p : Page} {tuples : List (Option Bytes)}

def Entry (data : Bytes) (slotId offset length : ℕ) : Prop :=
  region data (slotOffset slotId) slotSize = le 2 offset ++ le 2 length

/-- The header of a page is at its front, and its slots and tuples are where it says. -/
structure Sound (p : Page) (tuples : List (Option Bytes)) : Prop where
  length : p.data.length = pageSize
  header : region p.data 0 18 = p.header.toBytes
  slots : p.header.numSlots.toNat = tuples.length
  start : p.header.freeSpaceStart.toNat = slotOffset tuples.length
  fits : slotOffset tuples.length ≤ p.header.freeSpaceEnd.toNat
  bound : p.header.freeSpaceEnd.toNat ≤ pageSize
  /-- Each slot has a tuple behind the free space, and those of earlier slots are behind it. -/
  live : ∃ offset : ℕ → ℕ, (∀ i t, tuples[i]? = some (some t) →
      Entry p.data i (offset i) t.length ∧ p.header.freeSpaceEnd.toNat ≤ offset i ∧
        offset i + t.length ≤ pageSize ∧ region p.data (offset i) t.length = t) ∧
    ∀ i j t u, i < j → tuples[i]? = some (some t) → tuples[j]? = some (some u) →
      offset j + u.length ≤ offset i
  dead : ∀ i, tuples[i]? = some none → Entry p.data i 0 0

theorem readSlot_of_entry {slotId : UInt16} {offset length : ℕ}
    (h : Entry p.data slotId.toNat offset length) :
    p.readSlot slotId = ⟨UInt16.ofNat offset, UInt16.ofNat length⟩ := by
  have htake : (p.data.drop (slotOffset slotId.toNat)).take 4 = le 2 offset ++ le 2 length := h
  have hfront : (p.data.drop (slotOffset slotId.toNat)).take 2 = le 2 offset := by
    have htwo := congrArg (List.take 2) htake
    rwa [List.take_take, List.take_left' (length_le 2 offset)] at htwo
  have hback : ((p.data.drop (slotOffset slotId.toNat)).drop 2).take 2 = le 2 length := by
    have htwo := congrArg (List.drop 2) htake
    rwa [List.drop_take, List.drop_left' (length_le 2 offset)] at htwo
  rw [readSlot]
  change (⟨UInt16.ofNat (ofLe ((p.data.drop (slotOffset slotId.toNat)).take 2)),
    UInt16.ofNat (ofLe (((p.data.drop (slotOffset slotId.toNat)).drop 2).take 2))⟩ : Slot) = _
  rw [hfront, hback, ofLe_le, ofLe_le]
  congr 1
  · exact UInt16.toNat_inj.mp (by simp)
  · exact UInt16.toNat_inj.mp (by simp)

/-! ### Insertion -/

def tupleOffset (p : Page) (tuple : Bytes) : ℕ :=
  p.header.freeSpaceEnd.toNat - tuple.length

/-- The header after an insertion. -/
def insertedHeader (p : Page) (tuple : Bytes) : PageHeader :=
  { p.header with
    numSlots := p.header.numSlots + 1
    freeSpaceStart := UInt16.ofNat (slotOffset p.header.numSlots.toNat + slotSize)
    freeSpaceEnd := UInt16.ofNat (p.tupleOffset tuple) }

def insertedData (p : Page) (tuple : Bytes) : Bytes :=
  overwrite (overwrite (overwrite p.data (p.tupleOffset tuple) tuple)
    (slotOffset p.header.numSlots.toNat) (le 2 (p.tupleOffset tuple) ++ le 2 tuple.length)) 0
    (p.insertedHeader tuple).toBytes

theorem insertTuple_eq (p : Page) (tuple : Bytes) :
    (∃ e, p.insertTuple tuple = (.error e, p)) ∨
      (tuple.length + slotSize ≤ p.header.freeSpace ∧ p.insertTuple tuple =
        (.ok p.header.numSlots,
          { p with
            header := p.insertedHeader tuple
            data := p.insertedData tuple
            isDirty := true })) := by
  rw [insertTuple]
  split_ifs with hfull hlarge
  · exact Or.inl ⟨_, rfl⟩
  · exact Or.inl ⟨_, rfl⟩
  · exact Or.inr ⟨Nat.not_lt.mp hfull, rfl⟩

theorem slotOffset_succ (n : ℕ) : slotOffset (n + 1) = slotOffset n + slotSize := by
  rw [slotOffset, slotOffset, Nat.add_mul]
  omega

theorem Sound.freeSpace_eq (h : p.Sound tuples) :
    p.header.freeSpace = p.header.freeSpaceEnd.toNat - slotOffset tuples.length := by
  have hle : p.header.freeSpaceStart ≤ p.header.freeSpaceEnd := by
    rw [UInt16.le_iff_toNat_le, h.start]
    exact h.fits
  rw [PageHeader.freeSpace, UInt16.toNat_sub_of_le _ _ hle, h.start]

section Insert

variable {tuple : Bytes}

theorem Sound.room (h : p.Sound tuples) (hfits : tuple.length + slotSize ≤ p.header.freeSpace) :
    18 ≤ slotOffset p.header.numSlots.toNat ∧
      slotOffset p.header.numSlots.toNat = slotOffset tuples.length ∧
      slotOffset tuples.length + slotSize ≤ p.tupleOffset tuple ∧
      p.tupleOffset tuple + tuple.length = p.header.freeSpaceEnd.toNat := by
  rw [h.freeSpace_eq] at hfits
  have hroom := h.fits
  rw [tupleOffset, h.slots]
  refine ⟨?_, rfl, ?_, ?_⟩
  · rw [slotOffset, pageHeaderSize]
    omega
  · rw [slotSize] at hfits ⊢
    omega
  · rw [slotSize] at hfits
    omega

theorem Sound.length_insertedData (h : p.Sound tuples)
    (hfits : tuple.length + slotSize ≤ p.header.freeSpace) :
    (overwrite p.data (p.tupleOffset tuple) tuple).length = pageSize ∧
      (overwrite (overwrite p.data (p.tupleOffset tuple) tuple)
        (slotOffset p.header.numSlots.toNat)
        (le 2 (p.tupleOffset tuple) ++ le 2 tuple.length)).length = pageSize ∧
      (p.insertedData tuple).length = pageSize := by
  obtain ⟨hslot, hsame, htuple, hend⟩ := h.room hfits
  have hbound := h.bound
  have hlength := h.length
  have hentry : (le 2 (p.tupleOffset tuple) ++ le 2 tuple.length).length = slotSize := by
    rw [List.length_append, length_le, length_le, slotSize]
  have hone : (overwrite p.data (p.tupleOffset tuple) tuple).length = pageSize := by
    rw [length_overwrite (by omega), hlength]
  have htwo : (overwrite (overwrite p.data (p.tupleOffset tuple) tuple)
      (slotOffset p.header.numSlots.toNat)
      (le 2 (p.tupleOffset tuple) ++ le 2 tuple.length)).length = pageSize := by
    rw [length_overwrite (by omega), hone]
  refine ⟨hone, htwo, ?_⟩
  rw [insertedData, length_overwrite, htwo]
  rw [PageHeader.length_toBytes, htwo, pageSize]
  omega

/-- What is apart from the header, the new slot and the new tuple stays as it is. -/
theorem Sound.region_insertedData (h : p.Sound tuples)
    (hfits : tuple.length + slotSize ≤ p.header.freeSpace) {offset length : ℕ} (hheader : 18 ≤ offset)
    (hslot : Apart offset length (slotOffset tuples.length) slotSize)
    (htuple : Apart offset length (p.tupleOffset tuple) tuple.length) :
    region (p.insertedData tuple) offset length = region p.data offset length := by
  obtain ⟨-, hsame, hroom, hend⟩ := h.room hfits
  obtain ⟨hone, htwo, -⟩ := h.length_insertedData hfits
  have hbound := h.bound
  have hlength := h.length
  have hentry : (le 2 (p.tupleOffset tuple) ++ le 2 tuple.length).length = slotSize := by
    rw [List.length_append, length_le, length_le, slotSize]
  rw [insertedData, region_overwrite_of_apart, region_overwrite_of_apart,
    region_overwrite_of_apart]
  · omega
  · exact htuple
  · omega
  · rw [hentry, hsame]
    exact hslot
  · rw [PageHeader.length_toBytes, htwo, pageSize]
    omega
  · rw [PageHeader.length_toBytes]
    exact Or.inr hheader

theorem Sound.entry_insertedData (h : p.Sound tuples)
    (hfits : tuple.length + slotSize ≤ p.header.freeSpace) :
    Entry (p.insertedData tuple) tuples.length (p.tupleOffset tuple) tuple.length ∧
      region (p.insertedData tuple) (p.tupleOffset tuple) tuple.length = tuple ∧
      region (p.insertedData tuple) 0 18 = (p.insertedHeader tuple).toBytes := by
  obtain ⟨hslot, hsame, hroom, hend⟩ := h.room hfits
  obtain ⟨hone, htwo, -⟩ := h.length_insertedData hfits
  have hbound := h.bound
  have hlength := h.length
  have hentry : (le 2 (p.tupleOffset tuple) ++ le 2 tuple.length).length = slotSize := by
    rw [List.length_append, length_le, length_le, slotSize]
  have hheader : 0 + (p.insertedHeader tuple).toBytes.length ≤
      (overwrite (overwrite p.data (p.tupleOffset tuple) tuple)
        (slotOffset p.header.numSlots.toNat)
        (le 2 (p.tupleOffset tuple) ++ le 2 tuple.length)).length := by
    rw [PageHeader.length_toBytes, htwo, pageSize]
    omega
  refine ⟨?_, ?_, ?_⟩
  · rw [Entry, insertedData, region_overwrite_of_apart hheader, ← hsame, ← hentry,
      region_overwrite]
    · omega
    · rw [PageHeader.length_toBytes]
      exact Or.inr (by omega)
  · rw [insertedData, region_overwrite_of_apart hheader, region_overwrite_of_apart,
      region_overwrite]
    · omega
    · omega
    · rw [hentry]
      exact Or.inr (by omega)
    · rw [PageHeader.length_toBytes]
      exact Or.inr (by omega)
  · have hread := region_overwrite hheader
    rw [PageHeader.length_toBytes] at hread
    rw [insertedData]
    exact hread

theorem Sound.entry_of_lt (h : p.Sound tuples)
    (hfits : tuple.length + slotSize ≤ p.header.freeSpace) {i : ℕ} (hi : i < tuples.length) :
    region (p.insertedData tuple) (slotOffset i) slotSize =
      region p.data (slotOffset i) slotSize := by
  obtain ⟨-, -, hroom, -⟩ := h.room hfits
  have hbefore : slotOffset i + slotSize ≤ slotOffset tuples.length := by
    rw [slotOffset, slotOffset, slotSize]
    omega
  refine h.region_insertedData hfits ?_ (Or.inl hbefore) (Or.inl (by omega))
  rw [slotOffset, pageHeaderSize]
  omega

theorem Sound.insert (h : p.Sound tuples)
    (hfits : tuple.length + slotSize ≤ p.header.freeSpace) :
    Sound { p with
      header := p.insertedHeader tuple
      data := p.insertedData tuple
      isDirty := true } (tuples ++ [some tuple]) := by
  obtain ⟨hslot, hsame, hroom, hend⟩ := h.room hfits
  obtain ⟨-, -, hlength⟩ := h.length_insertedData hfits
  obtain ⟨hentry, hread, hheader⟩ := h.entry_insertedData hfits
  have hbound := h.bound
  have hsmall : pageSize < 2 ^ 16 := by decide
  have hcount : (tuples ++ [some tuple]).length = tuples.length + 1 := by
    rw [List.length_append, List.length_singleton]
  have hfree : (UInt16.ofNat (p.tupleOffset tuple)).toNat = p.tupleOffset tuple :=
    UInt16.toNat_ofNat_of_lt' (by change _ < 2 ^ 16; omega)
  have hlast : (tuples ++ [some tuple])[tuples.length]? = some (some tuple) := by
    rw [List.getElem?_append_right le_rfl, Nat.sub_self]
    rfl
  -- the tuples are those that were there, and the new one
  have hcases : ∀ (i : ℕ) (o : Option Bytes), (tuples ++ [some tuple])[i]? = some o →
      (i < tuples.length ∧ tuples[i]? = some o) ∨ (i = tuples.length ∧ o = some tuple) := by
    intro i o hi
    have hlt : i < tuples.length + 1 := hcount ▸ (List.getElem?_eq_some_iff.mp hi).1
    rcases Nat.lt_or_ge i tuples.length with hold | hnew
    · rw [List.getElem?_append_left hold] at hi
      exact Or.inl ⟨hold, hi⟩
    · obtain rfl : i = tuples.length := by omega
      rw [hlast] at hi
      exact Or.inr ⟨rfl, (Option.some.inj hi).symm⟩
  obtain ⟨offset, hlive, hsorted⟩ := h.live
  refine ⟨hlength, hheader, ?_, ?_, ?_, ?_, ?_, ?_⟩
  · change (p.header.numSlots + 1).toNat = _
    have hslots : slotOffset tuples.length + slotSize ≤ pageSize := by omega
    rw [slotOffset, pageHeaderSize, slotSize, pageSize] at hslots
    rw [UInt16.toNat_add, h.slots, hcount]
    change (tuples.length + 1) % 2 ^ 16 = _
    omega
  · change (UInt16.ofNat (slotOffset p.header.numSlots.toNat + slotSize)).toNat = _
    rw [hsame, hcount, slotOffset_succ]
    exact UInt16.toNat_ofNat_of_lt' (by change _ < 2 ^ 16; omega)
  · change _ ≤ (UInt16.ofNat (p.tupleOffset tuple)).toNat
    rw [hfree, hcount, slotOffset_succ]
    exact hroom
  · change (UInt16.ofNat (p.tupleOffset tuple)).toNat ≤ _
    rw [hfree]
    omega
  · refine ⟨fun i => if i = tuples.length then p.tupleOffset tuple else offset i,
      fun i t hi => ?_, fun i j t u hij hi hj => ?_⟩
    · change Entry (p.insertedData tuple) i _ _ ∧ (UInt16.ofNat (p.tupleOffset tuple)).toNat ≤ _ ∧
        _ ∧ region (p.insertedData tuple) _ _ = t
      rw [hfree]
      rcases hcases i _ hi with ⟨hlt, hold⟩ | ⟨rfl, hnew⟩
      · simp only [if_neg hlt.ne]
        obtain ⟨hold₁, hold₂, hold₃, hold₄⟩ := hlive i t hold
        refine ⟨?_, by omega, hold₃, ?_⟩
        · rw [Entry, h.entry_of_lt hfits hlt]
          exact hold₁
        · rw [h.region_insertedData hfits (by omega) (Or.inr (by omega)) (Or.inr (by omega))]
          exact hold₄
      · obtain rfl := Option.some.inj hnew
        simp only [if_true]
        exact ⟨hentry, le_rfl, by omega, hread⟩
    · dsimp only
      rcases hcases i _ hi with ⟨hlt, hold⟩ | ⟨rfl, -⟩
      · rw [if_neg hlt.ne]
        rcases hcases j _ hj with ⟨hlt', hold'⟩ | ⟨rfl, hnew⟩
        · rw [if_neg hlt'.ne]
          exact hsorted i j t u hij hold hold'
        · obtain rfl := Option.some.inj hnew
          have hbehind := (hlive i t hold).2.1
          rw [if_pos rfl]
          omega
      · have hlt := (List.getElem?_eq_some_iff.mp hj).1
        rw [hcount] at hlt
        omega
  · intro i hi
    rcases hcases i _ hi with ⟨hlt, hold⟩ | ⟨-, hnew⟩
    · change Entry (p.insertedData tuple) i 0 0
      rw [Entry, h.entry_of_lt hfits hlt]
      exact h.dead i hold
    · cases hnew

end Insert

/-! ### Deletion -/

theorem deleteTuple_eq (p : Page) (slotId : UInt16) :
    (∃ e, p.deleteTuple slotId = (.error e, p)) ∨
      (slotId < p.header.numSlots ∧ p.deleteTuple slotId =
        (.ok (), { p with
          data := overwrite p.data (slotOffset slotId.toNat) (le 4 0)
          isDirty := true })) := by
  rw [deleteTuple]
  split_ifs with hle
  · exact Or.inl ⟨_, rfl⟩
  · exact Or.inr ⟨UInt16.not_le.mp hle, rfl⟩

theorem Sound.delete (h : p.Sound tuples) {slotId : UInt16} (hslot : slotId < p.header.numSlots) :
    Sound { p with
      data := overwrite p.data (slotOffset slotId.toNat) (le 4 0)
      isDirty := true } (tuples.set slotId.toNat none) := by
  have hlt : slotId.toNat < tuples.length := by
    rw [← h.slots]
    exact UInt16.lt_iff_toNat_lt.mp hslot
  have hfits := h.fits
  have hbound := h.bound
  have hend : slotOffset slotId.toNat + slotSize ≤ slotOffset tuples.length := by
    rw [slotOffset, slotOffset, slotSize]
    omega
  have hfront : 18 ≤ slotOffset slotId.toNat := by
    rw [slotOffset, pageHeaderSize]
    omega
  have hlen : (le 4 0).length = slotSize := length_le 4 0
  have hroom : slotOffset slotId.toNat + (le 4 0).length ≤ p.data.length := by
    rw [hlen, h.length]
    omega
  have hapart : ∀ {offset length : ℕ}, Apart offset length (slotOffset slotId.toNat) slotSize →
      region (overwrite p.data (slotOffset slotId.toNat) (le 4 0)) offset length =
        region p.data offset length :=
    fun h => region_overwrite_of_apart hroom (hlen ▸ h)
  have hother : ∀ i, i ≠ slotId.toNat →
      Apart (slotOffset i) slotSize (slotOffset slotId.toNat) slotSize := by
    intro i hne
    rw [Apart, slotOffset, slotOffset, slotSize]
    omega
  -- a tuple that is left has another slot
  have hset : ∀ (i : ℕ) (t : Bytes), (tuples.set slotId.toNat none)[i]? = some (some t) →
      i ≠ slotId.toNat ∧ tuples[i]? = some (some t) := by
    intro i t hi
    rw [List.getElem?_set] at hi
    split_ifs at hi with heq
    · cases hi
    · exact ⟨fun h => heq h.symm, hi⟩
  obtain ⟨offset, hlive, hsorted⟩ := h.live
  refine ⟨?_, ?_, ?_, ?_, ?_, h.bound, ⟨offset, fun i t hi => ?_, fun i j t u hij hi hj => ?_⟩,
    fun i hi => ?_⟩
  · exact (length_overwrite hroom).trans h.length
  · exact (hapart (Or.inl (by omega))).trans h.header
  · rw [List.length_set]
    exact h.slots
  · rw [List.length_set]
    exact h.start
  · rw [List.length_set]
    exact h.fits
  · obtain ⟨hne, hold⟩ := hset i t hi
    obtain ⟨hentry, hbehind, hinside, hread⟩ := hlive i t hold
    refine ⟨?_, hbehind, hinside, (hapart (Or.inr (by omega))).trans hread⟩
    exact (hapart (hother i hne)).trans hentry
  · exact hsorted i j t u hij (hset i t hi).2 (hset j u hj).2
  · change region (overwrite p.data (slotOffset slotId.toNat) (le 4 0)) (slotOffset i) slotSize = _
    by_cases hne : i = slotId.toNat
    · rw [hne, ← hlen, region_overwrite hroom]
      rfl
    · rw [List.getElem?_set_ne (Ne.symm hne)] at hi
      exact (hapart (hother i hne)).trans (h.dead i hi)

/-! ### Reloading -/

theorem PageType.ofByte_toByte (t : PageType) : PageType.ofByte t.toByte = t := by
  cases t <;> rfl

theorem Sound.fromBytes (h : p.Sound tuples) :
    Page.fromBytes p.toBytes = .ok { header := p.header, data := p.data } := by
  have hsplit : p.data = p.header.toBytes ++ p.data.drop 18 := by
    have hheader := h.header
    rw [region, List.drop_zero] at hheader
    rw [← hheader, List.take_append_drop]
  rw [Page.fromBytes, toBytes, if_neg (not_not.mpr h.length)]
  conv_lhs => rw [hsplit, PageHeader.toBytes]
  simp only [List.append_assoc, getLe_le]
  have hword : ∀ n : UInt16, UInt16.ofNat (n.toNat % 256 ^ 2) = n := by
    intro n
    rw [Nat.mod_eq_of_lt (show n.toNat < 256 ^ 2 from n.toNat_lt)]
    exact UInt16.ofNat_toNat
  have hid : UInt64.ofNat (p.header.pageId.toNat % 256 ^ 8) = p.header.pageId := by
    rw [Nat.mod_eq_of_lt (show p.header.pageId.toNat < 256 ^ 8 from UInt64.toNat_lt _)]
    exact UInt64.ofNat_toNat
  have htype : PageType.ofByte (p.header.pageType.toByte % 256 ^ 1) = p.header.pageType := by
    rw [← PageType.ofByte_toByte p.header.pageType]
    cases p.header.pageType <;> rfl
  have hdata := hsplit
  rw [PageHeader.toBytes] at hdata
  simp only [List.append_assoc] at hdata
  simp only [hword, hid, htype]
  rw [← hdata]

theorem Sound.reload (h : p.Sound tuples) :
    Sound { header := p.header, data := p.data } tuples :=
  ⟨h.length, h.header, h.slots, h.start, h.fits, h.bound, h.live, h.dead⟩

theorem sound_new (pageId : PageId) (pageType : PageType) : (Page.new pageId pageType).Sound [] := by
  have hzeros : (List.replicate pageSize (0 : UInt8)).length = pageSize := List.length_replicate
  have hroom : 0 + (Page.new pageId pageType).header.toBytes.length ≤
      (List.replicate pageSize (0 : UInt8)).length := by
    rw [PageHeader.length_toBytes, hzeros, pageSize]
    omega
  refine ⟨(length_overwrite hroom).trans hzeros, ?_, rfl, rfl, ?_, le_rfl,
    ⟨fun _ => 0, fun _ _ h => (nomatch h), fun _ _ _ _ _ h => (nomatch h)⟩, fun _ h => nomatch h⟩
  · have hread := region_overwrite hroom
    rw [PageHeader.length_toBytes] at hread
    exact hread
  · change slotOffset 0 ≤ pageSize
    decide

end Page

namespace PageRun

variable {r r' : PageRun}

/-- One call keeps the header, the slots and the tuples together. -/
theorem sound_step (h : r.page.Sound r.tuples) {a : PageCall} (hstep : r.step a = some r') :
    r'.page.Sound r'.tuples := by
  cases a with
  | insert tuple =>
    rw [step] at hstep
    rcases r.page.insertTuple_eq tuple with ⟨e, hinsert⟩ | ⟨hfits, hinsert⟩
    · rw [hinsert] at hstep
      obtain rfl := Option.some.inj hstep
      exact h
    · rw [hinsert] at hstep
      obtain rfl := Option.some.inj hstep
      exact h.insert hfits
  | delete slotId =>
    rw [step] at hstep
    rcases r.page.deleteTuple_eq slotId with ⟨e, hdelete⟩ | ⟨hslot, hdelete⟩
    · rw [hdelete] at hstep
      obtain rfl := Option.some.inj hstep
      exact h
    · rw [hdelete] at hstep
      obtain rfl := Option.some.inj hstep
      exact h.delete hslot
  | reload =>
    rw [step, h.fromBytes] at hstep
    obtain rfl := Option.some.inj hstep
    exact h.reload

theorem sound_of_reachable {pageId : PageId} {pageType : PageType}
    (h : (system pageId pageType).Reachable r) : r.page.Sound r.tuples :=
  h.invariant (P := fun r => r.page.Sound r.tuples) (Page.sound_new pageId pageType)
    fun _ _ _ _ hs _ hstep => sound_step hs hstep

/-- The slot of a tuple that is left has its offset and its length. -/
theorem range_of_live (h : r.page.Sound r.tuples) : ∃ offset : ℕ → ℕ,
    (∀ slotId tuple, r.Live slotId tuple →
      r.range slotId = (offset slotId.toNat, tuple.length) ∧
        Page.slotOffset r.tuples.length ≤ offset slotId.toNat ∧
        offset slotId.toNat + tuple.length ≤ pageSize ∧
        region r.page.data (offset slotId.toNat) tuple.length = tuple) ∧
    ∀ i j t u, i < j → r.tuples[i]? = some (some t) → r.tuples[j]? = some (some u) →
      offset j + u.length ≤ offset i := by
  obtain ⟨offset, hlive, hsorted⟩ := h.live
  refine ⟨offset, fun slotId tuple htuple => ?_, hsorted⟩
  obtain ⟨hentry, hbehind, hinside, hread⟩ := hlive slotId.toNat tuple htuple
  have hsmall : pageSize < 2 ^ 16 := by decide
  have hfits := h.fits
  refine ⟨?_, by omega, hinside, hread⟩
  rw [range, Page.readSlot_of_entry hentry]
  exact Prod.ext (UInt16.toNat_ofNat_of_lt' (by change _ < 2 ^ 16; omega))
    (UInt16.toNat_ofNat_of_lt' (by change _ < 2 ^ 16; omega))

theorem readTuple_iff (h : r.page.Sound r.tuples) {slotId : UInt16} {tuple : Bytes}
    (htuple : r.Live slotId tuple) : r.page.readTuple slotId = .ok tuple ↔ tuple ≠ [] := by
  obtain ⟨offset, hlive, -⟩ := range_of_live h
  obtain ⟨hrange, -, hinside, hread⟩ := hlive slotId tuple htuple
  obtain ⟨hoffset, hlength⟩ := Prod.mk.inj hrange
  have hslot : ¬ r.page.header.numSlots ≤ slotId := by
    rw [UInt16.not_le, UInt16.lt_iff_toNat_lt, h.slots]
    exact (List.getElem?_eq_some_iff.mp htuple).1
  rw [Page.readTuple, if_neg hslot]
  dsimp only
  rw [hoffset, hlength]
  have hempty : (r.page.readSlot slotId).isEmpty = true ↔ tuple = [] := by
    rw [Slot.isEmpty, decide_eq_true_iff, ← UInt16.toNat_inj, hlength]
    exact List.length_eq_zero_iff
  constructor
  · intro hok hnil
    rw [if_pos (hempty.mpr hnil)] at hok
    cases hok
  · intro hne
    rw [if_neg (mt hempty.mp hne)]
    exact congrArg Except.ok hread

/-- In every state of a page all promises are kept just if no tuple that was inserted and not
deleted is empty. -/
theorem intact_iff {pageId : PageId} {pageType : PageType}
    (h : (system pageId pageType).Reachable r) :
    r.Intact ↔ ∀ slotId tuple, r.Live slotId tuple → tuple ≠ [] := by
  have hsound := sound_of_reachable h
  obtain ⟨offset, hlive, hsorted⟩ := range_of_live hsound
  refine ⟨fun hintact slotId tuple htuple =>
    (readTuple_iff hsound htuple).mp (hintact.reads slotId tuple htuple), fun hnonempty => ?_⟩
  refine ⟨fun tuple slotId page hinsert => ?_, fun slotId tuple htuple => ?_,
    fun slotId slotId' tuple tuple' htuple htuple' hne => ?_,
    fun slotId tuple htuple => (readTuple_iff hsound htuple).mpr (hnonempty slotId tuple htuple),
    fun slotId hdeleted => ?_, fun tuple e page hinsert => ?_, ⟨_, hsound.fromBytes, rfl⟩⟩
  · rcases r.page.insertTuple_eq tuple with ⟨e, herror⟩ | ⟨-, hok⟩
    · rw [herror] at hinsert
      cases hinsert
    · rw [hok] at hinsert
      rw [← Except.ok.inj (Prod.mk.inj hinsert).1, hsound.slots]
  · obtain ⟨hrange, hbehind, hinside, -⟩ := hlive slotId tuple htuple
    rw [hrange]
    exact ⟨rfl, hbehind, hinside⟩
  · rw [(hlive slotId tuple htuple).1, (hlive slotId' tuple' htuple').1]
    rcases Nat.lt_or_gt_of_ne (mt UInt16.toNat_inj.mp hne) with hlt | hgt
    · exact Or.inr (hsorted _ _ _ _ hlt htuple htuple')
    · exact Or.inl (hsorted _ _ _ _ hgt htuple' htuple)
  · have hentry := hsound.dead slotId.toNat hdeleted
    rw [Page.readTuple, Page.readSlot_of_entry hentry]
    split_ifs
    · exact ⟨_, rfl⟩
    · exact ⟨_, if_pos rfl⟩
  · rcases r.page.insertTuple_eq tuple with ⟨e, herror⟩ | ⟨-, hok⟩
    · rw [herror] at hinsert
      exact (Prod.mk.inj hinsert).2.symm
    · rw [hok] at hinsert
      cases hinsert

/-- Two tuples are inserted, the first is deleted, and the page is written and read. -/
def pageScript : List PageCall :=
  [.insert [1, 2], .insert [3], .delete 0, .reload]

theorem intact_iff_script : ∃ r, (system 1 .data).run (fun _ _ => True) pageScript = some r ∧
    (r.Intact ↔ ∀ slotId tuple, r.Live slotId tuple → tuple ≠ []) := by
  obtain ⟨r, hr⟩ := Option.isSome_iff_exists.mp
    (show ((system 1 .data).run (fun _ _ => True) pageScript).isSome = true by decide +kernel)
  exact ⟨r, hr, intact_iff (System.reach_of_run hr)⟩

/-- An empty tuple is inserted, and its slot counts as deleted. -/
theorem empty_tuple_not_read : ¬ ∀ r, (system 1 .data).Reachable r → r.Intact := by
  intro h
  have hrun : (((system 1 .data).run (fun _ _ => True) [.insert []]).any fun r =>
      decide (r.tuples = [some []])) = true := by
    decide +kernel
  obtain ⟨r, -, hreach, htuples⟩ := System.exists_reach_of_any hrun
  have hlive : r.Live 0 [] := by
    rw [Live, of_decide_eq_true htuples]
    rfl
  exact (readTuple_iff (sound_of_reachable hreach) hlive).mp ((h r hreach).reads 0 [] hlive) rfl

end PageRun

end Storage

end AegisDB
