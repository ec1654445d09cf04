import AegisDB.Library.Bytes
import AegisDB.Library.Transition

/-!
# The replacement of a file

A file is replaced in steps: a sibling is created, written piece by piece, brought to the medium and
renamed over it, and then the directory is brought to the medium too.  The name of the sibling is
that of the file with one more extension, so it is the same for all that replace the file at once.
After a crash the name may still stand for a file that it stood for since the directory was last
brought to the medium, and what was not brought there of a file can be anything.
-/

namespace AegisDB.Server.AtomicFile

/-! ## The file and its sibling -/

/-- What is in a file, and whether all of it is on the medium. -/
structure Inode where
  bytes : Bytes
  clean : Bool
deriving DecidableEq

/-- The files that the two names have stood for. -/
structure Disk where
  inodes : List Inode
  path : Option ℕ
  temp : Option ℕ
  /-- What the name of the file may stand for after a crash. -/
  entries : List (Option ℕ)
deriving DecidableEq

/-- Bytes with some overwritten from an offset on. -/
def overwrite (bytes : Bytes) (offset : ℕ) (piece : Bytes) : Bytes :=
  bytes.take offset ++ List.replicate (offset - bytes.length) 0 ++ piece ++
    bytes.drop (offset + piece.length)

namespace Disk

variable (d : Disk)

/-- A disk with a file, or without. -/
def ofFile (original : Option Bytes) : Disk :=
  match original with
  | some bytes =>
    { inodes := [{ bytes, clean := true }], path := some 0, temp := none, entries := [some 0] }
  | none => { inodes := [], path := none, temp := none, entries := [none] }

/-- Create the sibling; if there is one it is made empty. -/
def createTemp : ℕ × Disk :=
  match d.temp with
  | some i => (i, { d with inodes := d.inodes.set i { bytes := [], clean := false } })
  | none => (d.inodes.length, { d with
      inodes := d.inodes ++ [{ bytes := [], clean := false }]
      temp := some d.inodes.length })

def writeAt (i offset : ℕ) (piece : Bytes) : Disk :=
  { d with inodes := d.inodes.modify i fun inode =>
      { bytes := overwrite inode.bytes offset piece, clean := false } }

def syncFile (i : ℕ) : Disk :=
  { d with inodes := d.inodes.modify i fun inode => { inode with clean := true } }

/-- Rename the sibling, if there is one, over the file. -/
def renameTemp : Option Disk :=
  d.temp.map fun i => { d with path := some i, temp := none, entries := d.entries ++ [some i] }

def removeTemp : Disk :=
  { d with temp := none }

def syncDir : Disk :=
  { d with entries := [d.path] }

/-- What a name stands for, if all of it is on the medium. -/
def stored : Option ℕ → Option (Option Bytes)
  | none => some none
  | some i => d.inodes[i]?.bind fun inode => if inode.clean then some (some inode.bytes) else none

/-- What may be read of a file after a crash. -/
def Survives (entry : Option ℕ) (content : Option Bytes) : Prop :=
  match entry with
  | none => content = none
  | some i => ∃ inode ∈ d.inodes[i]?, ∃ bytes, content = some bytes ∧
      (inode.clean = true → bytes = inode.bytes)

def Shows (content : Option Bytes) : Prop :=
  content = d.path.bind (fun i => d.inodes[i]?.map Inode.bytes) ∨
    ∃ entry ∈ d.entries, d.Survives entry content

variable {d}

theorem inode_of_stored {i : ℕ} {content : Option Bytes} (h : d.stored (some i) = some content) :
    ∃ bytes, d.inodes[i]? = some { bytes, clean := true } ∧ content = some bytes := by
  rw [stored, Option.bind_eq_some_iff] at h
  obtain ⟨⟨bytes, clean⟩, hinode, hcontent⟩ := h
  cases clean with
  | false => cases hcontent
  | true => exact ⟨bytes, hinode, (Option.some.inj hcontent).symm⟩

theorem content_of_stored {entry content : Option _} (h : d.stored entry = some content) :
    entry.bind (fun i => d.inodes[i]?.map Inode.bytes) = content := by
  cases entry with
  | none => exact Option.some.inj h
  | some i =>
    obtain ⟨bytes, hinode, rfl⟩ := inode_of_stored h
    rw [Option.bind_some, hinode]
    rfl

theorem survives_of_stored {entry : Option ℕ} {content content' : Option Bytes}
    (h : d.stored entry = some content) (hsurvives : d.Survives entry content') :
    content' = content := by
  cases entry with
  | none => exact hsurvives.trans (Option.some.inj h)
  | some i =>
    obtain ⟨bytes, hinode, rfl⟩ := inode_of_stored h
    obtain ⟨inode, hinode', bytes', rfl, hclean⟩ := hsurvives
    obtain rfl := Option.some.inj (hinode.symm.trans hinode')
    rw [hclean rfl]

end Disk

theorem overwrite_take {bytes : Bytes} {offset : ℕ} (h : offset ≤ bytes.length) (count : ℕ) :
    overwrite (bytes.take offset) offset ((bytes.drop offset).take count) =
      bytes.take (offset + ((bytes.drop offset).take count).length) := by
  have hlength : (bytes.take offset).length = offset := List.length_take_of_le h
  have hrest : (bytes.take offset).drop (offset + ((bytes.drop offset).take count).length) = [] :=
    List.drop_of_length_le (by omega)
  rw [overwrite, List.take_of_length_le hlength.le, hlength, Nat.sub_self, List.replicate_zero,
    List.append_nil, hrest, List.append_nil, List.take_add,
    ← List.prefix_iff_eq_take.mp (List.take_prefix count _)]

/-! ## Calls -/

/-- How far a call is. -/
inductive WritePhase where
  | called
  /-- The sibling is open, and so many bytes are written. -/
  | writing (i offset : ℕ)
  | synced
  | renamed
  | renameFailed
  | returned (ok : Bool)
deriving DecidableEq

/-- A call that replaces the file, and the calls that had returned when it began. -/
structure WriteCall where
  bytes : Bytes
  phase : WritePhase := .called
  earlier : List ℕ
deriving DecidableEq

/-- Whether a call has created the sibling, and neither renamed it nor given up. -/
def WritePhase.isOpen : WritePhase → Bool
  | .writing _ _ | .synced | .renameFailed => true
  | _ => false

def WritePhase.hasReturned : WritePhase → Bool
  | .returned _ => true
  | _ => false

/-- A disk, and the calls that replace the file. -/
structure WriteSession where
  disk : Disk
  calls : List WriteCall := []

/-- A call begins, or does its next step; the steps may fail. -/
inductive WriteEvent where
  | call (bytes : Bytes)
  | create (j : ℕ)
  | write (j count : ℕ)
  | sync (j : ℕ)
  | rename (j : ℕ)
  | removeTemp (j : ℕ)
  | syncDir (j : ℕ) (succeeds : Bool)
  | fail (j : ℕ)

namespace WriteSession

def advance (w : WriteSession) (j : ℕ) (phase : WritePhase) (disk : Disk) : WriteSession :=
  { disk, calls := w.calls.modify j fun c => { c with phase } }

def finished (w : WriteSession) : List ℕ :=
  (List.range w.calls.length).filter fun j => (w.calls[j]?).any fun c => c.phase.hasReturned

def step (w : WriteSession) : WriteEvent → Option WriteSession
  | .call bytes => some { w with calls := w.calls ++ [{ bytes, earlier := w.finished }] }
  | .create j => w.calls[j]?.bind fun c =>
      match c.phase with
      | .called => some (w.advance j (.writing w.disk.createTemp.1 0) w.disk.createTemp.2)
      | _ => none
  | .write j count => w.calls[j]?.bind fun c =>
      match c.phase with
      | .writing i offset =>
        let piece := (c.bytes.drop offset).take count
        some (w.advance j (.writing i (offset + piece.length)) (w.disk.writeAt i offset piece))
      | _ => none
  | .sync j => w.calls[j]?.bind fun c =>
      match c.phase with
      | .writing i offset =>
        -- all bytes are written before the file is brought to the medium
        if c.bytes.length ≤ offset then some (w.advance j .synced (w.disk.syncFile i)) else none
      | _ => none
  | .rename j => w.calls[j]?.bind fun c =>
      match c.phase with
      | .synced =>
        match w.disk.renameTemp with
        | some disk => some (w.advance j .renamed disk)
        | none => some (w.advance j .renameFailed w.disk)
      | _ => none
  | .removeTemp j => w.calls[j]?.bind fun c =>
      match c.phase with
      | .renameFailed => some (w.advance j (.returned false) w.disk.removeTemp)
      | _ => none
  | .syncDir j succeeds => w.calls[j]?.bind fun c =>
      match c.phase with
      | .renamed =>
        -- whether it succeeds is not looked at
        some (w.advance j (.returned true) (if succeeds then w.disk.syncDir else w.disk))
      | _ => none
  | .fail j => w.calls[j]?.bind fun c =>
      match c.phase with
      | .called | .writing _ _ => some (w.advance j (.returned false) w.disk)
      | .synced => some (w.advance j .renameFailed w.disk)
      | _ => none

def system (original : Option Bytes) : System WriteSession WriteEvent where
  init := { disk := Disk.ofFile original }
  step := step

/-- What may be read is the original or what a call was to write; and when a call has returned
without an error, it is what a call was to write that had not returned when this one began. -/
def Atomic (original : Option Bytes) (w : WriteSession) : Prop :=
  ∀ content, w.disk.Shows content →
    (content = original ∨ ∃ c ∈ w.calls, content = some c.bytes) ∧
    ∀ c ∈ w.calls, c.phase = .returned true →
      ∃ j ∉ c.earlier, ∃ c' ∈ w.calls[j]?, content = some c'.bytes

/-- The sibling is created only when no other call has it, and bringing the directory to the medium
does not fail. -/
def Exclusive (w : WriteSession) : WriteEvent → Prop
  | .create _ => ∀ c ∈ w.calls, c.phase.isOpen = false
  | .syncDir _ succeeds => succeeds = true
  | _ => True

instance (w : WriteSession) (e : WriteEvent) : Decidable (Exclusive w e) :=
  match e with
  | .create _ => inferInstanceAs (Decidable (∀ c ∈ w.calls, _))
  | .syncDir _ succeeds => inferInstanceAs (Decidable (succeeds = true))
  | .call _ | .write _ _ | .sync _ | .rename _ | .removeTemp _ | .fail _ => isTrue trivial

/-! ## Where the bytes come from -/

def sourceBytes (original : Option Bytes) (calls : List WriteCall) : Option ℕ → Option Bytes
  | none => original
  | some j => calls[j]?.map WriteCall.bytes

/-- What a name stands for is complete and on the medium, and is the original or what a call was to
write. -/
structure Source (original : Option Bytes) (w : WriteSession) (entry k : Option ℕ) : Prop where
  stored : w.disk.stored entry = some (sourceBytes original w.calls k)
  call : ∀ j ∈ k, j < w.calls.length

/-- How far the sibling is written. -/
def Written (d : Disk) (c : WriteCall) : Prop :=
  match c.phase with
  | .writing i offset => d.temp = some i ∧ offset ≤ c.bytes.length ∧
      ∃ clean, d.inodes[i]? = some { bytes := c.bytes.take offset, clean }
  | .synced => ∃ i, d.temp = some i ∧ d.inodes[i]? = some { bytes := c.bytes, clean := true }
  | _ => True

theorem written_of_not_open {d : Disk} {c : WriteCall} (h : c.phase.isOpen = false) :
    Written d c := by
  rw [Written]
  cases hphase : c.phase with
  | writing i offset =>
    rw [hphase] at h
    cases h
  | synced =>
    rw [hphase] at h
    cases h
  | _ => trivial

/-- The names stand for complete files, later than what had been written before the calls that have
returned; the sibling is another file, and one call at most has it. -/
structure Sound (original : Option Bytes) (w : WriteSession) : Prop where
  held : ∀ entry ∈ w.disk.entries, ∃ k, Source original w entry k ∧
    ∀ c ∈ w.calls, c.phase = .returned true → ∃ j ∉ c.earlier, k = some j
  mem : w.disk.path ∈ w.disk.entries
  current : ∃ k, Source original w w.disk.path k ∧
    ∀ c ∈ w.calls, c.phase = .renamed ∨ c.phase = .returned true → ∃ j ∉ c.earlier, k = some j
  apart : ∀ i ∈ w.disk.temp, some i ∉ w.disk.entries ∧ i < w.disk.inodes.length
  written : ∀ c ∈ w.calls, Written w.disk c
  alone : ∀ (j j' : ℕ) (c c' : WriteCall), w.calls[j]? = some c → w.calls[j']? = some c' →
    c.phase.isOpen = true → c'.phase.isOpen = true → j = j'
  earlier : ∀ c ∈ w.calls, ∀ j ∈ c.earlier, ∃ c' ∈ w.calls[j]?, c'.phase.hasReturned = true

variable {original : Option Bytes} {w : WriteSession}

theorem Sound.atomic (h : w.Sound original) : w.Atomic original := by
  intro content hcontent
  have hshown : ∃ entry ∈ w.disk.entries, w.disk.stored entry = some content := by
    rcases hcontent with rfl | ⟨entry, hentry, hsurvives⟩
    · obtain ⟨k, hsource, -⟩ := h.current
      refine ⟨w.disk.path, h.mem, ?_⟩
      rw [hsource.stored]
      exact congrArg some (Disk.content_of_stored hsource.stored).symm
    · obtain ⟨k, hsource, -⟩ := h.held entry hentry
      refine ⟨entry, hentry, ?_⟩
      rw [hsource.stored]
      exact congrArg some (Disk.survives_of_stored hsource.stored hsurvives).symm
  obtain ⟨entry, hentry, hstored⟩ := hshown
  obtain ⟨k, hsource, hlater⟩ := h.held entry hentry
  have hbytes := Option.some.inj (hstored.symm.trans hsource.stored)
  refine ⟨?_, fun c hc hreturned => ?_⟩
  · cases k with
    | none => exact Or.inl hbytes
    | some j =>
      have hj := List.getElem?_eq_getElem (hsource.call j rfl)
      rw [sourceBytes, hj] at hbytes
      exact Or.inr ⟨_, List.mem_of_getElem? hj, hbytes⟩
  · obtain ⟨j, hj, rfl⟩ := hlater c hc hreturned
    have hcall := List.getElem?_eq_getElem (hsource.call j rfl)
    rw [sourceBytes, hcall] at hbytes
    exact ⟨j, hj, _, hcall, hbytes⟩

/-! ## A call goes on -/

section Advance

variable {j : ℕ} {c : WriteCall} {phase : WritePhase} {disk : Disk}

theorem getElem?_advance (hc : w.calls[j]? = some c) (phase : WritePhase) (disk : Disk) (j' : ℕ) :
    (w.advance j phase disk).calls[j']? =
      if j = j' then some { c with phase } else w.calls[j']? := by
  rw [advance, List.getElem?_modify]
  split_ifs with heq
  · rw [← heq, hc]
    rfl
  · exact id_map _

theorem mem_advance (hc : w.calls[j]? = some c) {c' : WriteCall}
    (h : c' ∈ (w.advance j phase disk).calls) :
    c' = { c with phase } ∨ ∃ j', j' ≠ j ∧ w.calls[j']? = some c' := by
  obtain ⟨j', hj'⟩ := List.mem_iff_getElem?.mp h
  rw [getElem?_advance hc] at hj'
  split_ifs at hj' with heq
  · exact Or.inl (Option.some.inj hj').symm
  · exact Or.inr ⟨j', Ne.symm heq, hj'⟩

theorem sourceBytes_advance (hc : w.calls[j]? = some c) (k : Option ℕ) :
    sourceBytes original (w.advance j phase disk).calls k = sourceBytes original w.calls k := by
  cases k with
  | none => rfl
  | some j' =>
    rw [sourceBytes, sourceBytes, getElem?_advance hc]
    split_ifs with heq
    · rw [← heq, hc]
      rfl
    · rfl

theorem Source.advance {entry k : Option ℕ} (h : Source original w entry k)
    (hc : w.calls[j]? = some c) (hstored : disk.stored entry = w.disk.stored entry) :
    Source original (w.advance j phase disk) entry k where
  stored := by
    rw [sourceBytes_advance hc, ← h.stored]
    exact hstored
  call j' hj' := by
    rw [WriteSession.advance, List.length_modify]
    exact h.call j' hj'

theorem Sound.earlier_advance (h : w.Sound original) (hc : w.calls[j]? = some c)
    (hrunning : c.phase.hasReturned = false) (phase : WritePhase) (disk : Disk) :
    ∀ c' ∈ (w.advance j phase disk).calls, ∀ j' ∈ c'.earlier,
      ∃ d ∈ (w.advance j phase disk).calls[j']?, d.phase.hasReturned = true := by
  intro c' hc' j' hj'
  have hold : ∃ d ∈ w.calls[j']?, d.phase.hasReturned = true := by
    rcases mem_advance hc hc' with rfl | ⟨i, -, hi⟩
    · exact h.earlier c (List.mem_of_getElem? hc) j' hj'
    · exact h.earlier c' (List.mem_of_getElem? hi) j' hj'
  obtain ⟨d, hd, hreturned⟩ := hold
  have hne : j ≠ j' := by
    rintro rfl
    obtain rfl := Option.some.inj (hc.symm.trans hd)
    rw [hrunning] at hreturned
    cases hreturned
  refine ⟨d, ?_, hreturned⟩
  rw [getElem?_advance hc, if_neg hne]
  exact hd

/-- The names stand for what they stood for, and no call gets behind its renaming: what is left to
see is the sibling. -/
theorem Sound.advance (h : w.Sound original) (hc : w.calls[j]? = some c)
    (hrunning : c.phase.hasReturned = false) (hpath : disk.path = w.disk.path)
    (hentries : disk.entries = w.disk.entries)
    (hstored : ∀ entry ∈ w.disk.entries, disk.stored entry = w.disk.stored entry)
    (hphase : phase ≠ .renamed ∧ phase ≠ .returned true)
    (hapart : ∀ i ∈ disk.temp, some i ∉ w.disk.entries ∧ i < disk.inodes.length)
    (hwritten : Written disk { c with phase })
    (hothers : disk = w.disk ∧ phase.isOpen = c.phase.isOpen ∨
      ∀ j' c', j' ≠ j → w.calls[j']? = some c' → c'.phase.isOpen = false) :
    (w.advance j phase disk).Sound original := by
  have hsource : ∀ entry ∈ w.disk.entries, ∀ k, Source original w entry k →
      Source original (w.advance j phase disk) entry k :=
    fun entry hentry k hk => hk.advance hc (hstored entry hentry)
  refine ⟨fun entry hentry => ?_, ?_, ?_, ?_, fun c' hc' => ?_, fun i i' d d' hd hd' hopen hopen' =>
    ?_, h.earlier_advance hc hrunning phase disk⟩
  · rw [WriteSession.advance] at hentry
    dsimp only at hentry
    rw [hentries] at hentry
    obtain ⟨k, hk, hlater⟩ := h.held entry hentry
    refine ⟨k, hsource entry hentry k hk, fun c' hc' hreturned => ?_⟩
    rcases mem_advance hc hc' with rfl | ⟨j', -, hj'⟩
    · exact absurd hreturned hphase.2
    · exact hlater c' (List.mem_of_getElem? hj') hreturned
  · rw [WriteSession.advance]
    dsimp only
    rw [hpath, hentries]
    exact h.mem
  · obtain ⟨k, hk, hlater⟩ := h.current
    have hk' := hsource _ h.mem k hk
    rw [← hpath] at hk'
    refine ⟨k, hk', fun c' hc' hbehind => ?_⟩
    rcases mem_advance hc hc' with rfl | ⟨j', -, hj'⟩
    · exact absurd hbehind (not_or.mpr hphase)
    · exact hlater c' (List.mem_of_getElem? hj') hbehind
  · rw [WriteSession.advance]
    dsimp only
    rw [hentries]
    exact hapart
  · rcases mem_advance hc hc' with rfl | ⟨j', hne, hj'⟩
    · exact hwritten
    · rcases hothers with ⟨rfl, -⟩ | hclosed
      · exact h.written c' (List.mem_of_getElem? hj')
      · exact written_of_not_open (hclosed j' c' hne hj')
  · -- the call that has gone on has the sibling only if it had it before, or no other has
    have hother : ∀ i' d', i' ≠ j → w.calls[i']? = some d' → d'.phase.isOpen = true →
        phase.isOpen = true → j = i' := by
      intro i' d' hne hd' hopen' hopen
      rcases hothers with ⟨-, hsame⟩ | hclosed
      · exact h.alone j i' c d' hc hd' (hsame ▸ hopen) hopen'
      · rw [hclosed i' d' hne hd'] at hopen'
        cases hopen'
    rw [getElem?_advance hc] at hd hd'
    split_ifs at hd hd' with hi hi' hi'
    · exact hi.symm.trans hi'
    · obtain rfl := Option.some.inj hd
      exact hi.symm.trans (hother i' d' (Ne.symm hi') hd' hopen' hopen)
    · obtain rfl := Option.some.inj hd'
      exact (hother i d (Ne.symm hi) hd hopen hopen').symm.trans hi'
    · exact h.alone i i' d d' hd hd' hopen hopen'

end Advance

/-! ## Steps -/

section Steps

variable {j : ℕ} {c : WriteCall}

theorem Sound.closed_of_open (h : w.Sound original) (hc : w.calls[j]? = some c)
    (hopen : c.phase.isOpen = true) :
    ∀ j' c', j' ≠ j → w.calls[j']? = some c' → c'.phase.isOpen = false := by
  intro j' c' hne hc'
  by_contra hopen'
  rw [Bool.not_eq_false] at hopen'
  exact hne (h.alone j' j c' c hc' hc hopen' hopen)

theorem stored_eq_of_ne {d d' : Disk} {i : ℕ} (h : ∀ i', i' ≠ i → d'.inodes[i']? = d.inodes[i']?)
    {entry : Option ℕ} (hne : entry ≠ some i) : d'.stored entry = d.stored entry := by
  cases entry with
  | none => rfl
  | some i' => rw [Disk.stored, Disk.stored, h i' fun heq => hne (congrArg some heq)]

theorem Sound.lt_of_entry (h : w.Sound original) {i : ℕ} (hentry : some i ∈ w.disk.entries) :
    i < w.disk.inodes.length := by
  obtain ⟨k, hsource, -⟩ := h.held _ hentry
  obtain ⟨bytes, hinode, -⟩ := Disk.inode_of_stored hsource.stored
  exact (List.getElem?_eq_some_iff.mp hinode).1

theorem Sound.create (h : w.Sound original) (hc : w.calls[j]? = some c) (hphase : c.phase = .called)
    (hclosed : ∀ c ∈ w.calls, c.phase.isOpen = false) :
    (w.advance j (.writing w.disk.createTemp.1 0) w.disk.createTemp.2).Sound original := by
  have hrunning : c.phase.hasReturned = false := by
    rw [hphase]
    rfl
  have hothers : ∀ j' c', j' ≠ j → w.calls[j']? = some c' → c'.phase.isOpen = false :=
    fun j' c' _ hc' => hclosed c' (List.mem_of_getElem? hc')
  rw [Disk.createTemp]
  cases htemp : w.disk.temp with
  | some i =>
    obtain ⟨hentries, hlt⟩ := h.apart i htemp
    refine h.advance hc hrunning rfl rfl (fun entry hentry => ?_) ⟨nofun, nofun⟩ (fun i' hi' => ?_)
      ⟨rfl, Nat.zero_le _, false, ?_⟩ (Or.inr hothers)
    · refine stored_eq_of_ne (fun i' hne => List.getElem?_set_ne (Ne.symm hne)) ?_
      rintro rfl
      exact hentries hentry
    · obtain rfl := Option.some.inj hi'
      exact ⟨hentries, by rw [List.length_set]; exact hlt⟩
    · rw [List.getElem?_set_self hlt]
      rfl
  | none =>
    refine h.advance hc hrunning rfl rfl (fun entry hentry => ?_) ⟨nofun, nofun⟩ (fun i' hi' => ?_)
      ⟨rfl, Nat.zero_le _, false, ?_⟩ (Or.inr hothers)
    · cases entry with
      | none => rfl
      | some i =>
        rw [Disk.stored, Disk.stored, List.getElem?_append_left (h.lt_of_entry hentry)]
    · obtain rfl := Option.some.inj hi'
      refine ⟨fun hentry => Nat.lt_irrefl _ (h.lt_of_entry hentry), ?_⟩
      rw [List.length_append]
      exact Nat.lt_succ_self _
    · rw [List.getElem?_concat_length]
      rfl

theorem Sound.written_of_getElem? (h : w.Sound original) (hc : w.calls[j]? = some c) :
    Written w.disk c :=
  h.written c (List.mem_of_getElem? hc)

theorem Sound.write (h : w.Sound original) (hc : w.calls[j]? = some c) {i offset : ℕ}
    (hphase : c.phase = .writing i offset) (count : ℕ) :
    (w.advance j (.writing i (offset + ((c.bytes.drop offset).take count).length))
      (w.disk.writeAt i offset ((c.bytes.drop offset).take count))).Sound original := by
  have hwritten := h.written_of_getElem? hc
  rw [Written, hphase] at hwritten
  obtain ⟨htemp, hle, clean, hinode⟩ := hwritten
  obtain ⟨hentries, hlt⟩ := h.apart i htemp
  refine h.advance hc (by rw [hphase]; rfl) rfl rfl (fun entry hentry => ?_) ⟨nofun, nofun⟩
    (fun i' hi' => ?_) ⟨htemp, ?_, false, ?_⟩
    (Or.inr (h.closed_of_open hc (by rw [hphase]; rfl)))
  · exact stored_eq_of_ne (fun i' hne => List.getElem?_modify_ne _ _ (Ne.symm hne))
      fun heq => hentries (heq ▸ hentry)
  · obtain rfl := Option.some.inj (htemp.symm.trans hi')
    exact ⟨hentries, by rw [Disk.writeAt, List.length_modify]; exact hlt⟩
  · rw [List.length_take, List.length_drop]
    dsimp only
    omega
  · rw [Disk.writeAt]
    dsimp only
    rw [List.getElem?_modify_eq, hinode, ← overwrite_take hle]
    rfl

theorem Sound.sync (h : w.Sound original) (hc : w.calls[j]? = some c) {i offset : ℕ}
    (hphase : c.phase = .writing i offset) (hall : c.bytes.length ≤ offset) :
    (w.advance j .synced (w.disk.syncFile i)).Sound original := by
  have hwritten := h.written_of_getElem? hc
  rw [Written, hphase] at hwritten
  obtain ⟨htemp, -, clean, hinode⟩ := hwritten
  obtain ⟨hentries, hlt⟩ := h.apart i htemp
  refine h.advance hc (by rw [hphase]; rfl) rfl rfl (fun entry hentry => ?_) ⟨nofun, nofun⟩
    (fun i' hi' => ?_) ⟨i, htemp, ?_⟩ (Or.inr (h.closed_of_open hc (by rw [hphase]; rfl)))
  · exact stored_eq_of_ne (fun i' hne => List.getElem?_modify_ne _ _ (Ne.symm hne))
      fun heq => hentries (heq ▸ hentry)
  · obtain rfl := Option.some.inj (htemp.symm.trans hi')
    exact ⟨hentries, by rw [Disk.syncFile, List.length_modify]; exact hlt⟩
  · rw [Disk.syncFile]
    dsimp only
    rw [List.getElem?_modify_eq, hinode, List.take_of_length_le hall]
    rfl

theorem Sound.giveUp (h : w.Sound original) (hc : w.calls[j]? = some c)
    (hrunning : c.phase.hasReturned = false) {phase : WritePhase}
    (hphase : phase = .renameFailed ∨ phase = .returned false)
    (hopen : phase.isOpen = true → c.phase.isOpen = true) :
    (w.advance j phase w.disk).Sound original := by
  have hnot : phase ≠ .renamed ∧ phase ≠ .returned true := by
    rcases hphase with rfl | rfl <;> exact ⟨nofun, nofun⟩
  refine h.advance hc hrunning rfl rfl (fun _ _ => rfl) hnot h.apart ?_ ?_
  · rcases hphase with rfl | rfl <;> exact trivial
  · cases hc' : c.phase.isOpen with
    | true => exact Or.inr (h.closed_of_open hc hc')
    | false =>
      refine Or.inl ⟨rfl, ?_⟩
      by_contra hne
      rw [Bool.not_eq_false] at hne
      rw [hopen hne] at hc'
      cases hc'

theorem Sound.removeTemp (h : w.Sound original) (hc : w.calls[j]? = some c)
    (hphase : c.phase = .renameFailed) :
    (w.advance j (.returned false) w.disk.removeTemp).Sound original :=
  h.advance hc (by rw [hphase]; rfl) rfl rfl (fun entry _ => by cases entry <;> rfl)
    ⟨nofun, nofun⟩ nofun trivial (Or.inr (h.closed_of_open hc (by rw [hphase]; rfl)))

theorem Sound.rename (h : w.Sound original) (hc : w.calls[j]? = some c) (hphase : c.phase = .synced)
    {disk : Disk} (hdisk : w.disk.renameTemp = some disk) :
    (w.advance j .renamed disk).Sound original := by
  have hrunning : c.phase.hasReturned = false := by
    rw [hphase]
    rfl
  have hwritten := h.written_of_getElem? hc
  rw [Written, hphase] at hwritten
  obtain ⟨i, htemp, hinode⟩ := hwritten
  rw [Disk.renameTemp, htemp] at hdisk
  obtain rfl := Option.some.inj hdisk
  have hothers := h.closed_of_open hc (by rw [hphase]; rfl)
  -- a call that is still running is not one of those that had returned before another began
  have hlate : ∀ c' ∈ (w.advance j .renamed { w.disk with
      path := some i, temp := none, entries := w.disk.entries ++ [some i] }).calls,
      j ∉ c'.earlier := by
    intro c' hc' hj
    have hold : ∃ d ∈ w.calls, d.earlier = c'.earlier := by
      rcases mem_advance hc hc' with rfl | ⟨j', -, hj'⟩
      · exact ⟨c, List.mem_of_getElem? hc, rfl⟩
      · exact ⟨c', List.mem_of_getElem? hj', rfl⟩
    obtain ⟨d, hd, hearlier⟩ := hold
    obtain ⟨c'', hc'', hreturned⟩ := h.earlier d hd j (hearlier ▸ hj)
    obtain rfl := Option.some.inj (hc.symm.trans hc'')
    rw [hrunning] at hreturned
    cases hreturned
  have hnew : Source original (w.advance j .renamed { w.disk with
      path := some i, temp := none, entries := w.disk.entries ++ [some i] }) (some i) (some j) := by
    refine ⟨?_, fun j' hj' => ?_⟩
    · rw [sourceBytes_advance hc, sourceBytes, hc]
      change (w.disk.inodes[i]?.bind _) = _
      rw [hinode]
      rfl
    · obtain rfl := Option.some.inj hj'
      rw [WriteSession.advance, List.length_modify]
      exact (List.getElem?_eq_some_iff.mp hc).1
  refine ⟨fun entry hentry => ?_, List.mem_append_right _ List.mem_cons_self,
    ⟨some j, hnew, fun c' hc' _ => ⟨j, hlate c' hc', rfl⟩⟩, nofun, fun c' hc' => ?_,
    fun i' i'' d d' hd hd' hopen hopen' => ?_, h.earlier_advance hc hrunning _ _⟩
  · rcases List.mem_append.mp hentry with hold | hlast
    · obtain ⟨k, hk, hlater⟩ := h.held entry hold
      refine ⟨k, hk.advance hc (by cases entry <;> rfl), fun c' hc' hreturned => ?_⟩
      rcases mem_advance hc hc' with rfl | ⟨j', -, hj'⟩
      · cases hreturned
      · exact hlater c' (List.mem_of_getElem? hj') hreturned
    · rw [List.mem_singleton.mp hlast]
      exact ⟨some j, hnew, fun c' hc' _ => ⟨j, hlate c' hc', rfl⟩⟩
  · rcases mem_advance hc hc' with rfl | ⟨j', hne, hj'⟩
    · exact trivial
    · exact written_of_not_open (hothers j' c' hne hj')
  · rw [getElem?_advance hc] at hd hd'
    split_ifs at hd hd' with hi hi' hi'
    · exact hi.symm.trans hi'
    · obtain rfl := Option.some.inj hd
      cases hopen
    · obtain rfl := Option.some.inj hd'
      cases hopen'
    · exact h.alone i' i'' d d' hd hd' hopen hopen'

theorem Sound.syncDir (h : w.Sound original) (hc : w.calls[j]? = some c)
    (hphase : c.phase = .renamed) : (w.advance j (.returned true) w.disk.syncDir).Sound original := by
  have hrunning : c.phase.hasReturned = false := by
    rw [hphase]
    rfl
  obtain ⟨k, hk, hlater⟩ := h.current
  have hsource : Source original (w.advance j (.returned true) w.disk.syncDir) w.disk.path k :=
    hk.advance hc (by cases w.disk.path <;> rfl)
  have hlater' : ∀ c' ∈ (w.advance j (.returned true) w.disk.syncDir).calls,
      c'.phase = .renamed ∨ c'.phase = .returned true → ∃ j ∉ c'.earlier, k = some j := by
    intro c' hc' hbehind
    rcases mem_advance hc hc' with rfl | ⟨j', -, hj'⟩
    · exact hlater c (List.mem_of_getElem? hc) (Or.inl hphase)
    · exact hlater c' (List.mem_of_getElem? hj') hbehind
  refine ⟨fun entry hentry => ?_, List.mem_cons_self, ⟨k, hsource, hlater'⟩, fun i hi => ?_,
    fun c' hc' => ?_, fun i' i'' d d' hd hd' hopen hopen' => ?_,
    h.earlier_advance hc hrunning _ _⟩
  · rw [List.mem_singleton.mp hentry]
    exact ⟨k, hsource, fun c' hc' hreturned => hlater' c' hc' (Or.inr hreturned)⟩
  · obtain ⟨hentries, hlt⟩ := h.apart i hi
    exact ⟨fun hentry => hentries (List.mem_singleton.mp hentry ▸ h.mem), hlt⟩
  · rcases mem_advance hc hc' with rfl | ⟨j', hne, hj'⟩
    · exact trivial
    · exact h.written c' (List.mem_of_getElem? hj')
  · rw [getElem?_advance hc] at hd hd'
    split_ifs at hd hd' with hi hi' hi'
    · exact hi.symm.trans hi'
    · obtain rfl := Option.some.inj hd
      cases hopen
    · obtain rfl := Option.some.inj hd'
      cases hopen'
    · exact h.alone i' i'' d d' hd hd' hopen hopen'

theorem getElem?_concat {calls : List WriteCall} {new d : WriteCall}
    (hd : (calls ++ [new])[j]? = some d) : calls[j]? = some d ∨ d = new := by
  by_cases hlt : j < calls.length
  · rw [List.getElem?_append_left hlt] at hd
    exact Or.inl hd
  · rw [List.getElem?_append_right (Nat.le_of_not_lt hlt)] at hd
    exact Or.inr (List.mem_singleton.mp (List.mem_of_getElem? hd))

theorem Source.concat {entry k : Option ℕ} (h : Source original w entry k) (new : WriteCall) :
    Source original { w with calls := w.calls ++ [new] } entry k where
  stored := by
    rw [h.stored]
    cases k with
    | none => rfl
    | some j =>
      rw [sourceBytes, sourceBytes]
      dsimp only
      rw [List.getElem?_append_left (h.call j rfl)]
  call j hj := by
    dsimp only
    rw [List.length_append]
    exact Nat.lt_add_right _ (h.call j hj)

theorem Sound.call (h : w.Sound original) (bytes : Bytes) :
    Sound original { w with calls := w.calls ++ [{ bytes, earlier := w.finished }] } := by
  -- a call that has just begun is not behind any step
  have hcases : ∀ c' ∈ w.calls ++ [{ bytes, earlier := w.finished }],
      c' ∈ w.calls ∨ c' = { bytes, earlier := w.finished } :=
    fun c' hc' => (List.mem_append.mp hc').imp_right List.mem_singleton.mp
  refine ⟨fun entry hentry => ?_, h.mem, ?_, h.apart, fun c' hc' => ?_,
    fun i i' d d' hd hd' hopen hopen' => ?_, fun c' hc' j hj => ?_⟩
  · obtain ⟨k, hk, hlater⟩ := h.held entry hentry
    refine ⟨k, hk.concat _, fun c' hc' hreturned => ?_⟩
    rcases hcases c' hc' with hold | rfl
    · exact hlater c' hold hreturned
    · cases hreturned
  · obtain ⟨k, hk, hlater⟩ := h.current
    refine ⟨k, hk.concat _, fun c' hc' hbehind => ?_⟩
    rcases hcases c' hc' with hold | rfl
    · exact hlater c' hold hbehind
    · rcases hbehind with hrenamed | hreturned
      · cases hrenamed
      · cases hreturned
  · rcases hcases c' hc' with hold | rfl
    · exact h.written c' hold
    · exact trivial
  · rcases getElem?_concat hd with hd | rfl
    · rcases getElem?_concat hd' with hd' | rfl
      · exact h.alone i i' d d' hd hd' hopen hopen'
      · cases hopen'
    · cases hopen
  · have hold : ∃ c'' ∈ w.calls[j]?, c''.phase.hasReturned = true := by
      rcases hcases c' hc' with hold | rfl
      · exact h.earlier c' hold j hj
      · exact (Option.any_eq_true _ _).mp (List.mem_filter.mp hj).2
    obtain ⟨c'', hc'', hreturned⟩ := hold
    refine ⟨c'', ?_, hreturned⟩
    dsimp only
    rw [List.getElem?_append_left (List.getElem?_eq_some_iff.mp hc'').1]
    exact hc''

/-- Every step keeps the names standing for complete files, if the sibling is created only when no
other call has it. -/
theorem Sound.step (h : w.Sound original) {e : WriteEvent} {w' : WriteSession}
    (hexclusive : w.Exclusive e) (hstep : w.step e = some w') : w'.Sound original := by
  cases e with
  | call bytes =>
    obtain rfl := Option.some.inj hstep
    exact h.call bytes
  | create j =>
    obtain ⟨c, hc, hnext⟩ := Option.bind_eq_some_iff.mp hstep
    split at hnext
    next hphase =>
      obtain rfl := Option.some.inj hnext
      exact h.create hc hphase hexclusive
    next => cases hnext
  | write j count =>
    obtain ⟨c, hc, hnext⟩ := Option.bind_eq_some_iff.mp hstep
    split at hnext
    next i offset hphase =>
      obtain rfl := Option.some.inj hnext
      exact h.write hc hphase count
    next => cases hnext
  | sync j =>
    obtain ⟨c, hc, hnext⟩ := Option.bind_eq_some_iff.mp hstep
    split at hnext
    next i offset hphase =>
      split_ifs at hnext with hall
      obtain rfl := Option.some.inj hnext
      exact h.sync hc hphase hall
    next => cases hnext
  | rename j =>
    obtain ⟨c, hc, hnext⟩ := Option.bind_eq_some_iff.mp hstep
    split at hnext
    next hphase =>
      split at hnext
      next disk hdisk =>
        obtain rfl := Option.some.inj hnext
        exact h.rename hc hphase hdisk
      next =>
        obtain rfl := Option.some.inj hnext
        exact h.giveUp hc (by rw [hphase]; rfl) (Or.inl rfl) fun _ => by rw [hphase]; rfl
    next => cases hnext
  | removeTemp j =>
    obtain ⟨c, hc, hnext⟩ := Option.bind_eq_some_iff.mp hstep
    split at hnext
    next hphase =>
      obtain rfl := Option.some.inj hnext
      exact h.removeTemp hc hphase
    next => cases hnext
  | syncDir j succeeds =>
    obtain ⟨c, hc, hnext⟩ := Option.bind_eq_some_iff.mp hstep
    split at hnext
    next hphase =>
      obtain rfl : succeeds = true := hexclusive
      obtain rfl := Option.some.inj hnext
      exact h.syncDir hc hphase
    next => cases hnext
  | fail j =>
    obtain ⟨c, hc, hnext⟩ := Option.bind_eq_some_iff.mp hstep
    split at hnext
    next hphase =>
      obtain rfl := Option.some.inj hnext
      exact h.giveUp hc (by rw [hphase]; rfl) (Or.inr rfl) nofun
    next i offset hphase =>
      obtain rfl := Option.some.inj hnext
      exact h.giveUp hc (by rw [hphase]; rfl) (Or.inr rfl) nofun
    next hphase =>
      obtain rfl := Option.some.inj hnext
      exact h.giveUp hc (by rw [hphase]; rfl) (Or.inl rfl) fun _ => by rw [hphase]; rfl
    next => cases hnext

end Steps

theorem sound_init (original : Option Bytes) : (system original).init.Sound original := by
  cases original with
  | none =>
    refine ⟨fun entry hentry => ?_, List.mem_cons_self, ⟨none, ⟨rfl, nofun⟩, nofun⟩, nofun, nofun,
      nofun, nofun⟩
    rw [List.mem_singleton.mp hentry]
    exact ⟨none, ⟨rfl, nofun⟩, nofun⟩
  | some bytes =>
    refine ⟨fun entry hentry => ?_, List.mem_cons_self, ⟨none, ⟨rfl, nofun⟩, nofun⟩, nofun, nofun,
      nofun, nofun⟩
    rw [List.mem_singleton.mp hentry]
    exact ⟨none, ⟨rfl, nofun⟩, nofun⟩

/-! ## The result -/

/-- If the sibling is created only when no other call has it, and bringing the directory to the
medium does not fail, the replacement of the file is atomic, also if it ends in a crash. -/
theorem atomic_of_reach {original : Option Bytes} {w : WriteSession}
    (h : (system original).Reach Exclusive w) : w.Atomic original :=
  (System.Reach.invariant (P := Sound original) (sound_init original)
    (fun _ _ _ _ ih hΦ hs => ih.step hΦ hs) h).atomic

/-- Two calls at once, of which one creates the sibling when the other has renamed it, and a third
that fails in the midst of its writing. -/
def inTurns : List WriteEvent :=
  [.call [1, 2], .call [3], .create 0, .write 0 1, .write 0 5, .sync 0, .rename 0, .create 1,
    .syncDir 0 true, .write 1 9, .sync 1, .call [4, 5], .rename 1, .syncDir 1 true, .create 2,
    .write 2 1, .fail 2]

/-- The two that succeed replace the file one after the other. -/
theorem atomic_of_reach_inTurns : ∃ w, (system (some [0])).run Exclusive inTurns = some w ∧
    w.calls.map WriteCall.phase = [.returned true, .returned true, .returned false] ∧
    w.Atomic (some [0]) := by
  have hrun : ((system (some [0])).run Exclusive inTurns).any (fun w => decide
      (w.calls.map WriteCall.phase = [.returned true, .returned true, .returned false])) =
      true := by
    decide +kernel
  obtain ⟨w, hw, hreach, hphases⟩ := System.exists_reach_of_any hrun
  exact ⟨w, hw, of_decide_eq_true hphases, atomic_of_reach hreach⟩

/-- A call that creates the sibling anew while another writes it, and renames it before the other
goes on. -/
def atOnce : List WriteEvent :=
  [.call [1, 1], .call [2, 2], .create 0, .write 0 1, .create 1, .write 1 2, .sync 1, .rename 1,
    .syncDir 1 true, .write 0 1]

/-- The file then has bytes of both. -/
theorem not_atomic : ∃ w, (system none).Reachable w ∧ w.disk.Shows (some [2, 1]) ∧
    w.calls.map WriteCall.bytes = [[1, 1], [2, 2]] ∧ ¬w.Atomic none := by
  have hrun : ((system none).run (fun _ _ => True) atOnce).any (fun w => decide
      (w.calls.map WriteCall.bytes = [[1, 1], [2, 2]] ∧
        some [2, 1] = w.disk.path.bind (fun i => w.disk.inodes[i]?.map Inode.bytes))) = true := by
    decide +kernel
  obtain ⟨w, -, hreach, hw⟩ := System.exists_reach_of_any hrun
  obtain ⟨hcalls, hshown⟩ := of_decide_eq_true hw
  refine ⟨w, hreach, Or.inl hshown, hcalls, fun hatomic => ?_⟩
  rcases (hatomic _ (Or.inl hshown)).1 with hnone | ⟨c, hc, hbytes⟩
  · cases hnone
  · have hmem := List.mem_map_of_mem (f := WriteCall.bytes) hc
    rw [hcalls, ← Option.some.inj hbytes] at hmem
    revert hmem
    decide

end WriteSession

end AegisDB.Server.AtomicFile
