import AegisDB.Library.Stepwise
import AegisDB.Storage.LocalBackend

/-!
# Commits of the local backend

A commit renames the written blocks into place one after another, and then removes the deleted
ones.  So it is not all or nothing when it stops in between, which it does by itself when a block
was written twice: the second rename finds no temporary file.  And since all writes come before all
deletions, a block that is written after it was deleted is gone.

`commit_allOrNothing_iff` says exactly when the commit is all or nothing and in program order.
-/

namespace AegisDB

namespace Storage

namespace Local

open Layers

/-! ## Programs of a commit -/

namespace FileOp

/-- The operation renames the temporary file of a block. -/
def renames (id : BlockId) : FileOp → Bool
  | rename id' _ => id' = id
  | _ => false

/-- The temporary file that is written, with its contents. -/
def asStage : FileOp → Option (BlockId × Bytes)
  | writeTemp id data => some (id, data)
  | _ => none

/-- The phase of a commit that an operation belongs to. -/
def phase : FileOp → ℕ
  | writeTemp _ _ | syncTemp _ => 0
  | rename _ _ => 1
  | remove _ | removeBlock _ => 2
  | syncDirectory => 3

@[simp] theorem broken_dataFiles (torn : Option Bytes) (op : FileOp) (files : Files) :
    (op.broken torn files).dataFiles = files.dataFiles := by
  cases op with
  | writeTemp id data => cases torn <;> rfl
  | _ => rfl

end FileOp

/-- The temporary file of a block has been renamed. -/
def renamed (id : BlockId) (done : List FileOp) : Bool :=
  done.any (FileOp.renames id)

/-- The operation fails after the ones before it: it renames a file that has been renamed. -/
def stuck (done : List FileOp) : FileOp → Bool
  | .rename id _ => renamed id done
  | _ => false

/-- What was last written to the temporary file of a block. -/
def lastStaged (id : BlockId) (done : List FileOp) : Option Bytes :=
  (lastAt Prod.fst id (done.filterMap FileOp.asStage)).map Prod.snd

/-- The file operations of a commit that are carried out before the one that fails, if one does. -/
def commitStops (syncWrites : Bool) (fault : Option Fault) (ops : List PendingOperation) :
    Option (List FileOp) :=
  FailStop.stopsAfter stuck (fault.map Fault.position) []
    (LocalBackend.commitProgram syncWrites ops)

section Program

open LocalBackend

variable {syncWrites : Bool} {ops : List PendingOperation} {done rest : List FileOp} {op : FileOp}
  {id : BlockId}

theorem renamed_eq_true : renamed id done = true ↔ ∃ data, FileOp.rename id data ∈ done := by
  rw [renamed, List.any_eq_true]
  constructor
  · rintro ⟨op, hop, hid⟩
    cases op with
    | rename id' data =>
      obtain rfl : id' = id := of_decide_eq_true hid
      exact ⟨data, hop⟩
    | _ => cases hid
  · rintro ⟨data, hop⟩
    exact ⟨_, hop, decide_eq_true rfl⟩

theorem renamed_concat : renamed id (done ++ [op]) = (renamed id done || op.renames id) := by
  rw [renamed, List.any_append, List.any_cons, List.any_nil, Bool.or_false, renamed]

theorem lastStaged_concat_writeTemp (id' : BlockId) (data : Bytes) :
    lastStaged id (done ++ [.writeTemp id' data]) =
      if id' = id then some data else lastStaged id done := by
  have hstage : (done ++ [FileOp.writeTemp id' data]).filterMap FileOp.asStage =
      done.filterMap FileOp.asStage ++ [(id', data)] := List.filterMap_append
  rw [lastStaged, hstage, lastAt_concat]
  split_ifs
  · rfl
  · rfl

theorem lastStaged_concat (h : op.asStage = none) :
    lastStaged id (done ++ [op]) = lastStaged id done := by
  rw [lastStaged, List.filterMap_append, List.filterMap_cons, h]
  simp only [List.filterMap_nil, List.append_nil]
  rfl

theorem mem_stage {id' : BlockId} {data : Bytes} : op ∈ stage syncWrites id' data ↔
    op = .writeTemp id' data ∨ syncWrites = true ∧ op = .syncTemp id' := by
  cases syncWrites <;> simp [stage]

theorem mem_sync : op ∈ sync syncWrites ↔ syncWrites = true ∧ op = .syncDirectory := by
  cases syncWrites <;> simp [sync]

theorem mem_commitProgram : op ∈ commitProgram syncWrites ops ↔
    (∃ id data, .put id data ∈ ops ∧ op ∈ stage syncWrites id data) ∨
      (∃ id data, .put id data ∈ ops ∧ op = .rename id data) ∨
        (∃ id, .del id ∈ ops ∧ op = .remove id) ∨ op ∈ sync syncWrites := by
  simp only [commitProgram, List.mem_append, List.mem_flatMap, List.mem_map, Prod.exists,
    Batch.mem_puts, Batch.mem_dels, or_assoc, eq_comm (b := op)]

theorem pairwise_commitProgram (syncWrites : Bool) (ops : List PendingOperation) :
    (commitProgram syncWrites ops).Pairwise fun a b => a.phase ≤ b.phase := by
  have hphase {l : List FileOp} {n : ℕ} (h : ∀ op ∈ l, op.phase = n) :
      l.Pairwise fun a b => a.phase ≤ b.phase :=
    List.pairwise_of_forall_mem_list fun a ha b hb => (by rw [h a ha, h b hb])
  have hstage : ∀ op ∈ (Batch.puts ops).flatMap (fun w => stage syncWrites w.1 w.2),
      op.phase = 0 := by
    intro op hop
    obtain ⟨w, -, hw⟩ := List.mem_flatMap.mp hop
    obtain rfl | ⟨-, rfl⟩ := mem_stage.mp hw <;> rfl
  have hrename : ∀ op ∈ (Batch.puts ops).map (fun w => FileOp.rename w.1 w.2), op.phase = 1 := by
    intro op hop
    obtain ⟨w, -, rfl⟩ := List.mem_map.mp hop
    rfl
  have hremove : ∀ op ∈ (Batch.dels ops).map FileOp.remove, op.phase = 2 := by
    intro op hop
    obtain ⟨id, -, rfl⟩ := List.mem_map.mp hop
    rfl
  have hsync : ∀ op ∈ sync syncWrites, op.phase = 3 := by
    intro op hop
    obtain ⟨-, rfl⟩ := mem_sync.mp hop
    rfl
  rw [commitProgram]
  refine List.pairwise_append.mpr ⟨List.pairwise_append.mpr ⟨List.pairwise_append.mpr
    ⟨hphase hstage, hphase hrename, ?_⟩, hphase hremove, ?_⟩, hphase hsync, ?_⟩
  · intro a ha b hb
    rw [hstage a ha, hrename b hb]
    omega
  · intro a ha b hb
    rw [hremove b hb]
    obtain ha | ha := List.mem_append.mp ha
    · rw [hstage a ha]
      omega
    · rw [hrename a ha]
      omega
  · intro a ha b hb
    rw [hsync b hb]
    cases a <;> simp [FileOp.phase]

theorem filterMap_asStage_commitProgram (syncWrites : Bool) (ops : List PendingOperation) :
    (commitProgram syncWrites ops).filterMap FileOp.asStage = Batch.puts ops := by
  have hrename : ((Batch.puts ops).map fun w => FileOp.rename w.1 w.2).filterMap FileOp.asStage =
      [] := by
    rw [List.filterMap_eq_nil_iff]
    intro op hop
    obtain ⟨w, -, rfl⟩ := List.mem_map.mp hop
    rfl
  have hremove : ((Batch.dels ops).map FileOp.remove).filterMap FileOp.asStage = [] := by
    rw [List.filterMap_eq_nil_iff]
    intro op hop
    obtain ⟨id, -, rfl⟩ := List.mem_map.mp hop
    rfl
  have hsync : (sync syncWrites).filterMap FileOp.asStage = [] := by
    cases syncWrites <;> rfl
  have hstage (l : List (BlockId × Bytes)) :
      (l.flatMap fun w => stage syncWrites w.1 w.2).filterMap FileOp.asStage = l := by
    induction l with
    | nil => rfl
    | cons w l ih =>
      rw [List.flatMap_cons, List.filterMap_append, ih]
      cases syncWrites <;> rfl
  rw [commitProgram, List.filterMap_append, List.filterMap_append, List.filterMap_append, hstage,
    hrename, hremove, hsync, List.append_nil, List.append_nil, List.append_nil]

theorem stepwise_commitProgram (syncWrites : Bool) (ops : List PendingOperation) :
    Stepwise (fun done op => ∀ id, op = .syncTemp id → ∃ data, FileOp.writeTemp id data ∈ done)
      (commitProgram syncWrites ops) := by
  have hstage (l : List (BlockId × Bytes)) :
      Stepwise (fun done op => ∀ id, op = .syncTemp id → ∃ data, FileOp.writeTemp id data ∈ done)
        (l.flatMap fun w => stage syncWrites w.1 w.2) := by
    induction l using List.reverseRecOn with
    | nil => exact Stepwise.nil
    | append_singleton l w ih =>
      have hwrite := ih.concat (a := .writeTemp w.1 w.2) (by rintro id ⟨⟩)
      rw [List.flatMap_append, List.flatMap_cons, List.flatMap_nil, List.append_nil, stage]
      cases syncWrites with
      | false => exact hwrite
      | true =>
        have hsync := hwrite.concat (a := .syncTemp w.1) (by
          intro id hid
          obtain rfl := FileOp.syncTemp.inj hid
          exact ⟨w.2, by simp⟩)
        rw [List.append_assoc] at hsync
        exact hsync
  rw [commitProgram]
  refine Stepwise.append (Stepwise.append (Stepwise.append (hstage _) ?_) ?_) ?_
  · rintro op hop l id rfl
    obtain ⟨w, -, hw⟩ := List.mem_map.mp hop
    cases hw
  · rintro op hop l id rfl
    obtain ⟨w, -, hw⟩ := List.mem_map.mp hop
    cases hw
  · rintro op hop l id rfl
    cases (mem_sync.mp hop).2

/-! ## What the file operations of a commit do -/

/-- What the files are after the first operations of a commit. -/
structure Performed (old : BlockId → Option Bytes) (ops : List PendingOperation)
    (done : List FileOp) (files : Files) : Prop where
  data : ∀ id, files.dataFiles.lookup id =
    if .remove id ∈ done then none else if renamed id done = true then Batch.lastPut id ops
      else old id
  temp_none : ∀ id, renamed id done = true → files.tempFiles.lookup id = none
  /-- A temporary file that is not renamed has what was last written to it. -/
  temp_some : ∀ id data, renamed id done = false → lastStaged id done = some data →
    files.tempFiles.lookup id = some data

theorem phase_le (h : commitProgram syncWrites ops = done ++ op :: rest) :
    (∀ a ∈ done, a.phase ≤ op.phase) ∧ ∀ a ∈ rest, op.phase ≤ a.phase := by
  have hpair := pairwise_commitProgram syncWrites ops
  rw [h, List.pairwise_append, List.pairwise_cons] at hpair
  exact ⟨fun a ha => hpair.2.2 a ha op (by simp), hpair.2.1.1⟩

theorem renamed_eq_false (h : ∀ a ∈ done, a.phase ≤ 0) : renamed id done = false := by
  rw [← Bool.not_eq_true, renamed_eq_true]
  rintro ⟨data, hop⟩
  exact absurd (h _ hop) (by simp [FileOp.phase])

theorem lastStaged_of_rename {data : Bytes}
    (h : commitProgram syncWrites ops = done ++ .rename id data :: rest) (id' : BlockId) :
    lastStaged id' done = Batch.lastPut id' ops := by
  have hrest : rest.filterMap FileOp.asStage = [] := by
    rw [List.filterMap_eq_nil_iff]
    intro a ha
    have hphase := (phase_le h).2 a ha
    cases a with
    | writeTemp _ _ => exact absurd hphase (by simp [FileOp.phase])
    | _ => rfl
  have hputs := filterMap_asStage_commitProgram syncWrites ops
  rw [h, List.filterMap_append, List.filterMap_cons] at hputs
  simp only [FileOp.asStage, hrest, List.append_nil] at hputs
  rw [lastStaged, Batch.lastPut, ← hputs]

theorem put_mem_of_rename {data : Bytes}
    (h : .rename id data ∈ commitProgram syncWrites ops) : .put id data ∈ ops := by
  obtain ⟨id', data', -, hop⟩ | ⟨id', data', hput, hop⟩ | ⟨id', -, hop⟩ | hop :=
    mem_commitProgram.mp h
  · obtain hop | ⟨-, hop⟩ := mem_stage.mp hop <;> cases hop
  · obtain ⟨rfl, rfl⟩ := FileOp.rename.inj hop
    exact hput
  · cases hop
  · cases (mem_sync.mp hop).2

theorem mem_concat_of_ne {a : FileOp} (h : a ≠ op) : a ∈ done ++ [op] ↔ a ∈ done := by
  rw [List.mem_append, List.mem_singleton, or_iff_left h]

/-- An operation that writes, syncs or renames nothing keeps what is said about the temporary
files. -/
theorem Performed.concat {old : BlockId → Option Bytes} {files files' : Files}
    (h : Performed old ops done files) (hstage : op.asStage = none)
    (hrename : ∀ id, op.renames id = false) (htemp : files'.tempFiles = files.tempFiles)
    (hdata : ∀ id, files'.dataFiles.lookup id = if op = .remove id then none
      else files.dataFiles.lookup id) : Performed old ops (done ++ [op]) files' where
  data id := by
    rw [hdata, h.data, renamed_concat, hrename, Bool.or_false]
    by_cases hop : op = .remove id
    · rw [if_pos hop, if_pos (by simp [hop])]
    · rw [if_neg hop]
      simp only [mem_concat_of_ne (Ne.symm hop)]
  temp_none id hid := by
    rw [renamed_concat, hrename, Bool.or_false] at hid
    rw [htemp]
    exact h.temp_none id hid
  temp_some id data hid hlast := by
    rw [renamed_concat, hrename, Bool.or_false] at hid
    rw [lastStaged_concat hstage] at hlast
    rw [htemp]
    exact h.temp_some id data hid hlast

theorem performed_rename {old : BlockId → Option Bytes} {files : Files} {data : Bytes}
    (hprogram : commitProgram syncWrites ops = done ++ .rename id data :: rest)
    (h : Performed old ops done files) (hfresh : renamed id done = false) :
    ∃ files', (FileOp.rename id data).run files = .ok files' ∧
      Performed old ops (done ++ [.rename id data]) files' := by
  have hmem : FileOp.rename id data ∈ commitProgram syncWrites ops := by
    rw [hprogram]
    simp
  obtain ⟨data', hput⟩ := Option.isSome_iff_exists.mp
    (Batch.lastPut_isSome.mpr ⟨data, put_mem_of_rename hmem⟩)
  have hlookup : files.tempFiles.lookup id = some data' :=
    h.temp_some id data' hfresh (by rw [lastStaged_of_rename hprogram, hput])
  have hrun : (FileOp.rename id data).run files = .ok
      { dataFiles := files.dataFiles.insert id data', tempFiles := files.tempFiles.erase id } := by
    simp only [FileOp.run, hlookup]
  -- no block has been removed before a rename
  have hremove (id' : BlockId) : FileOp.remove id' ∉ done := fun hop =>
    absurd ((phase_le hprogram).1 _ hop) (by simp [FileOp.phase])
  have hother {id' : BlockId} (hkey : id' ≠ id) : (FileOp.rename id data).renames id' = false :=
    decide_eq_false (Ne.symm hkey)
  refine ⟨_, hrun, ⟨fun id' => ?_, fun id' hid => ?_, fun id' bytes hid hlast => ?_⟩⟩
  · have hold := h.data id'
    rw [if_neg (hremove id')] at hold
    rw [if_neg (by rw [mem_concat_of_ne (by simp)]; exact hremove id'), renamed_concat,
      Table.lookup_insert]
    by_cases hkey : id' = id
    · rw [if_pos hkey, if_pos (by simp [FileOp.renames, hkey]), hkey, hput]
    · rw [if_neg hkey, hother hkey, Bool.or_false]
      exact hold
  · rw [Table.lookup_erase]
    split_ifs with hkey
    · rfl
    · rw [renamed_concat, hother hkey, Bool.or_false] at hid
      exact h.temp_none id' hid
  · rw [renamed_concat, Bool.or_eq_false_iff] at hid
    have hkey : id' ≠ id := Ne.symm (of_decide_eq_false hid.2)
    rw [lastStaged_concat rfl] at hlast
    rw [Table.lookup_erase, if_neg hkey]
    exact h.temp_some id' bytes hid.1 hlast

/-- One file operation of a commit: it fails exactly if it renames a file that was renamed. -/
theorem performed_step {old : BlockId → Option Bytes} {files : Files}
    (hprogram : commitProgram syncWrites ops = done ++ op :: rest)
    (h : Performed old ops done files) :
    if stuck done op = true then ∃ e, op.run files = .error e
    else ∃ files', op.run files = .ok files' ∧ Performed old ops (done ++ [op]) files' := by
  obtain ⟨hbefore, -⟩ := phase_le hprogram
  have hmem : op ∈ commitProgram syncWrites ops := by
    rw [hprogram]
    simp
  cases op with
  | writeTemp id data =>
    rw [if_neg (by simp [stuck])]
    have hnone (id : BlockId) : renamed id done = false := renamed_eq_false hbefore
    refine ⟨_, rfl, ⟨fun id' => ?_, fun id' hid => ?_, fun id' data' hid hlast => ?_⟩⟩
    · have hremove : FileOp.remove id' ∈ done ++ [.writeTemp id data] ↔ .remove id' ∈ done :=
        mem_concat_of_ne (by simp)
      simp only [renamed_concat, hremove, FileOp.renames, Bool.or_false]
      exact h.data id'
    · rw [renamed_concat, hnone] at hid
      cases hid
    · rw [lastStaged_concat_writeTemp] at hlast
      change (files.tempFiles.insert id data).lookup id' = some data'
      rw [Table.lookup_insert]
      by_cases hkey : id = id'
      · rw [if_pos hkey] at hlast
        rw [if_pos hkey.symm, hlast]
      · rw [if_neg hkey] at hlast
        rw [if_neg (Ne.symm hkey)]
        exact h.temp_some id' data' (hnone id') hlast
  | syncTemp id =>
    rw [if_neg (by simp [stuck])]
    obtain ⟨data, hdata⟩ := stepwise_commitProgram syncWrites ops done (.syncTemp id) rest hprogram
      id rfl
    obtain ⟨w, hw⟩ : ∃ w, lastAt Prod.fst id (done.filterMap FileOp.asStage) = some w := by
      rw [← Option.ne_none_iff_exists', Ne, lastAt_eq_none]
      exact fun hnone => hnone (id, data) (List.mem_filterMap.mpr ⟨_, hdata, rfl⟩) rfl
    have hlookup : files.tempFiles.lookup id = some w.2 :=
      h.temp_some id w.2 (renamed_eq_false hbefore) (by rw [lastStaged, hw]; rfl)
    refine ⟨files, by simp only [FileOp.run, hlookup], ?_⟩
    exact h.concat rfl (fun _ => rfl) rfl fun id' => (if_neg (by simp)).symm
  | rename id data =>
    by_cases hstuck : stuck done (.rename id data) = true
    · rw [if_pos hstuck]
      exact ⟨.io, by simp only [FileOp.run, h.temp_none id hstuck]⟩
    · rw [if_neg hstuck]
      exact performed_rename hprogram h (Bool.not_eq_true _ ▸ hstuck)
  | remove id =>
    rw [if_neg (by simp [stuck])]
    refine ⟨_, rfl, h.concat rfl (fun _ => rfl) rfl fun id' => ?_⟩
    simp only [Table.lookup_erase, FileOp.remove.injEq, eq_comm (a := id)]
  | removeBlock id =>
    obtain ⟨id', data', -, hop⟩ | ⟨id', data', -, hop⟩ | ⟨id', -, hop⟩ | hop :=
      mem_commitProgram.mp hmem
    · obtain hop | ⟨-, hop⟩ := mem_stage.mp hop <;> cases hop
    · cases hop
    · cases hop
    · cases (mem_sync.mp hop).2
  | syncDirectory =>
    rw [if_neg (by simp [stuck])]
    exact ⟨files, rfl, h.concat rfl (fun _ => rfl) rfl fun id' => (if_neg (by simp)).symm⟩

/-- What the blocks are where a commit stops: at the end, as if all writes had come before all
deletions, or with the renames and removals before the failure. -/
theorem perform_commitProgram (syncWrites : Bool) (fault : Option Fault)
    (ops : List PendingOperation) (files : Files) :
    match commitStops syncWrites fault ops with
    | none => ∃ files', perform fault (commitProgram syncWrites ops) files = (files', none) ∧
        ∀ id, files'.dataFiles.lookup id = Batch.putsThenDels files.dataFiles.lookup ops id
    | some done => ∃ files' e, perform fault (commitProgram syncWrites ops) files =
        (files', some e) ∧ ∀ id, files'.dataFiles.lookup id =
          if .remove id ∈ done then none else if renamed id done = true then Batch.lastPut id ops
            else files.dataFiles.lookup id := by
  have hbreaks (n : ℕ) (op : FileOp) (files : Files) :
      (breaks fault n op files).isSome = true ↔ fault.map Fault.position = some n := by
    cases fault with
    | none => simp [breaks]
    | some f =>
      by_cases hn : f.position = n
      · simp [breaks, hn]
      · simp [breaks, hn]
  have hinit : Performed files.dataFiles.lookup ops [] files :=
    ⟨fun _ => rfl, fun _ hid => (nomatch hid), fun _ _ _ hlast => (nomatch hlast)⟩
  have hrun := FailStop.run_spec hbreaks (fun _ _ _ _ => performed_step)
    (commitProgram syncWrites ops) [] files (List.nil_append _).symm hinit
  rw [commitStops]
  cases hstop : FailStop.stopsAfter stuck (fault.map Fault.position) []
      (commitProgram syncWrites ops) with
  | none =>
    rw [hstop] at hrun
    obtain ⟨files', hperform, hdone⟩ := hrun
    refine ⟨files', hperform, fun id => ?_⟩
    have hremove : .remove id ∈ commitProgram syncWrites ops ↔ id ∈ Batch.dels ops := by
      rw [Batch.mem_dels, mem_commitProgram]
      simp [mem_stage, mem_sync]
    have hrename : renamed id (commitProgram syncWrites ops) = (Batch.lastPut id ops).isSome := by
      rw [Bool.eq_iff_iff, renamed_eq_true, Batch.lastPut_isSome]
      simp [mem_commitProgram, mem_stage, mem_sync]
    simp only [hdone.data id, Batch.putsThenDels, hremove, hrename]
    cases Batch.lastPut id ops with
    | none => rfl
    | some data => rfl
  | some done =>
    rw [hstop] at hrun
    obtain ⟨files₀, files', e, hperform, hdone, hstopped⟩ := hrun
    refine ⟨files', e, hperform, fun id => ?_⟩
    have hsame : files'.dataFiles = files₀.dataFiles := by
      obtain rfl | ⟨op, -, hbreak⟩ := hstopped
      · rfl
      · cases fault with
        | none => cases hbreak
        | some f =>
          rw [breaks] at hbreak
          split_ifs at hbreak
          obtain ⟨rfl, -⟩ := Prod.mk.inj (Option.some.inj hbreak)
          exact FileOp.broken_dataFiles _ _ _
    rw [hsame]
    exact hdone.data id

end Program

/-! ## The operations of one transaction -/

/-- A call of a transaction. -/
inductive TxCall
  | write (block : Block)
  | delete (id : BlockId)

namespace LocalBackend

def runCall (txId : TransactionId) (b : LocalBackend) : TxCall → LocalBackend
  | .write block => (b.writeBlockInTx txId block).2
  | .delete id => (b.deleteBlockInTx txId id).2

def started (calls : List TxCall) (b : LocalBackend) : LocalBackend :=
  calls.foldl (runCall b.nextTxId) b.beginTransaction.2

def directCall (b : LocalBackend) : TxCall → LocalBackend
  | .write block => (writeBlock none b block).2
  | .delete id => (deleteBlock none b id).2

def direct (calls : List TxCall) (b : LocalBackend) : LocalBackend :=
  calls.foldl directCall b

/-- A transaction is all or nothing: its commit leaves the blocks that its calls one by one would
leave, or fails, leaves the blocks as they were, and the transaction can be rolled back; and a
rollback in place of the commit leaves the blocks as they were. -/
structure AllOrNothing (fault : Option Fault) (kept : List BlockId) (b : LocalBackend)
    (calls : List TxCall) : Prop where
  commit :
    (commitTransaction fault (started calls b) b.nextTxId).1 = .ok () ∧
        (commitTransaction fault (started calls b) b.nextTxId).2.blocks = (direct calls b).blocks ∨
      (commitTransaction fault (started calls b) b.nextTxId).1 ≠ .ok () ∧
        (commitTransaction fault (started calls b) b.nextTxId).2.blocks = b.blocks ∧
        (rollbackTransaction kept (commitTransaction fault (started calls b) b.nextTxId).2
          b.nextTxId).1 = .ok ()
  rollback :
    (rollbackTransaction kept (started calls b) b.nextTxId).1 = .ok () ∧
      (rollbackTransaction kept (started calls b) b.nextTxId).2.blocks = b.blocks

/-- The pending operations of the calls, from the next block to allocate. -/
def operations : BlockId → List TxCall → List PendingOperation
  | _, [] => []
  | next, .write block :: calls =>
    if block.header.blockId = 0 then
      .put next (encode block next) :: operations (next + 1) calls
    else .put block.header.blockId (encode block block.header.blockId) :: operations next calls
  | next, .delete id :: calls => .del id :: operations next calls

/-- A file operation before the failure that is no longer seen: a block that was put in place had
these contents already, or was removed again; one that was removed was not there. -/
def NoTrace (old : BlockId → Option Bytes) (ops : List PendingOperation) (done : List FileOp) :
    FileOp → Prop
  | .remove id => old id = none
  | .rename id _ => .remove id ∉ done → old id = Batch.lastPut id ops
  | _ => True

/-- When a transaction is all or nothing.  If no file operation of its commit fails and no block is
written twice, no block may be written after it was deleted.  Else the file operations up to the
one that fails leave no trace. -/
def CommitFits (fault : Option Fault) (b : LocalBackend) (calls : List TxCall) : Prop :=
  match commitStops b.syncWrites fault (operations b.nextBlockId calls) with
  | none => Batch.NoPutAfterDel (operations b.nextBlockId calls)
  | some done => ∀ op ∈ done, NoTrace b.blocks (operations b.nextBlockId calls) done op

/-- The calls of a transaction change its pending operations only. -/
theorem foldl_runCall {txId : TransactionId} (calls : List TxCall) {b : LocalBackend}
    {ops : List PendingOperation} (hactive : b.transactions.lookup txId = some .active)
    (hpending : b.pendingOps.lookup txId = some ops) :
    (calls.foldl (runCall txId) b).files = b.files ∧
      (calls.foldl (runCall txId) b).syncWrites = b.syncWrites ∧
      (calls.foldl (runCall txId) b).transactions = b.transactions ∧
      (calls.foldl (runCall txId) b).pendingOps.lookup txId =
        some (ops ++ operations b.nextBlockId calls) := by
  induction calls generalizing b ops with
  | nil =>
    rw [operations, List.append_nil]
    exact ⟨rfl, rfl, rfl, hpending⟩
  | cons call calls ih =>
    have hcheck : b.checkActive txId = .ok () := by
      rw [checkActive, hactive]
    have hpush (b' : LocalBackend) (op : PendingOperation)
        (h : b'.pendingOps.lookup txId = some ops) :
        (b'.push txId op).pendingOps.lookup txId = some (ops ++ [op]) := by
      rw [push, h]
      exact AList.lookup_insert _
    rw [List.foldl_cons]
    cases call with
    | write block =>
      by_cases hid : block.header.blockId = 0
      · have hcall : runCall txId b (.write block) =
            { b with nextBlockId := b.nextBlockId + 1 }.push txId
              (.put b.nextBlockId (encode block b.nextBlockId)) := by
          simp only [runCall, writeBlockInTx, hcheck, blockIdOf, if_pos hid]
        rw [hcall, operations, if_pos hid, List.append_cons]
        exact ih hactive (hpush _ _ hpending)
      · have hcall : runCall txId b (.write block) =
            b.push txId (.put block.header.blockId (encode block block.header.blockId)) := by
          simp only [runCall, writeBlockInTx, hcheck, blockIdOf, if_neg hid]
        rw [hcall, operations, if_neg hid, List.append_cons]
        exact ih hactive (hpush _ _ hpending)
    | delete id =>
      have hcall : runCall txId b (.delete id) = b.push txId (.del id) := by
        simp only [runCall, deleteBlockInTx, hcheck]
      rw [hcall, operations, List.append_cons]
      exact ih hactive (hpush _ _ hpending)

theorem started_spec (calls : List TxCall) (b : LocalBackend) :
    (started calls b).files = b.files ∧ (started calls b).syncWrites = b.syncWrites ∧
      (started calls b).transactions.lookup b.nextTxId = some .active ∧
      (started calls b).pendingOps.lookup b.nextTxId = some (operations b.nextBlockId calls) := by
  have hactive : b.beginTransaction.2.transactions.lookup b.nextTxId = some .active :=
    AList.lookup_insert _
  have hcalls := foldl_runCall calls hactive
    (show b.beginTransaction.2.pendingOps.lookup b.nextTxId = some [] from AList.lookup_insert _)
  rw [started]
  refine ⟨hcalls.1, hcalls.2.1, ?_, hcalls.2.2.2⟩
  rw [hcalls.2.2.1]
  exact hactive

theorem perform_writeProgram (syncWrites : Bool) (id : BlockId) (data : Bytes) (files : Files) :
    ∃ files', perform none (writeProgram syncWrites id data) files = (files', none) ∧
      files'.dataFiles = files.dataFiles.insert id data := by
  have hlookup : (files.tempFiles.insert id data).lookup id = some data := AList.lookup_insert _
  refine ⟨{ dataFiles := files.dataFiles.insert id data
            tempFiles := (files.tempFiles.insert id data).erase id }, ?_, rfl⟩
  cases syncWrites with
  | false =>
    simp only [perform, writeProgram, stage, sync, Bool.false_eq_true, if_false,
      List.cons_append, List.nil_append, FailStop.run, breaks, FileOp.run, hlookup]
  | true =>
    simp only [perform, writeProgram, stage, sync, if_true, List.cons_append, List.nil_append,
      FailStop.run, breaks, FileOp.run, hlookup]

theorem writeBlock_none (b : LocalBackend) (block : Block) :
    (writeBlock none b block).2.blocks =
        Function.update b.blocks (b.blockIdOf block).1 (encode block (b.blockIdOf block).1) ∧
      (writeBlock none b block).2.nextBlockId = (b.blockIdOf block).2.nextBlockId := by
  have hfiles : (b.blockIdOf block).2.files = b.files := by
    rw [blockIdOf]
    split_ifs
    · rfl
    · rfl
  obtain ⟨files', hperform, hdata⟩ := perform_writeProgram (b.blockIdOf block).2.syncWrites
    (b.blockIdOf block).1 (encode block (b.blockIdOf block).1) (b.blockIdOf block).2.files
  simp only [writeBlock, hperform, and_true]
  funext id
  simp only [blocks, hdata, hfiles, Table.lookup_insert, Function.update_apply]

theorem deleteBlock_none (b : LocalBackend) (id : BlockId) :
    (deleteBlock none b id).2.blocks = Function.update b.blocks id none ∧
      (deleteBlock none b id).2.nextBlockId = b.nextBlockId := by
  have hsync (syncWrites : Bool) (n : ℕ) (files : Files) :
      FailStop.run FileOp.run (breaks none) n (sync syncWrites) files = (files, none) := by
    cases syncWrites <;> rfl
  cases hlookup : b.files.dataFiles.lookup id with
  | none =>
    simp only [deleteBlock, perform, deleteProgram, FailStop.run, breaks, FileOp.run, hlookup,
      and_true]
    exact (Function.update_eq_self_iff.mpr hlookup.symm).symm
  | some data =>
    simp only [deleteBlock, perform, deleteProgram, FailStop.run, breaks, FileOp.run, hlookup,
      hsync, and_true]
    funext id'
    simp only [blocks, Table.lookup_erase, Function.update_apply]

/-- The calls one by one do what the batch of their operations means. -/
theorem blocks_direct (calls : List TxCall) (b : LocalBackend) :
    (direct calls b).blocks = Batch.applyAll b.blocks (operations b.nextBlockId calls) := by
  induction calls generalizing b with
  | nil => rfl
  | cons call calls ih =>
    rw [direct, List.foldl_cons]
    refine (ih _).trans ?_
    cases call with
    | write block =>
      obtain ⟨hblocks, hnext⟩ := writeBlock_none b block
      rw [directCall, hblocks, hnext, operations, blockIdOf]
      split_ifs
      · rfl
      · rfl
    | delete id =>
      obtain ⟨hblocks, hnext⟩ := deleteBlock_none b id
      rw [directCall, hblocks, hnext]
      rfl

theorem rollbackTransaction_of_active (kept : List BlockId) {b : LocalBackend}
    {txId : TransactionId} (h : b.transactions.lookup txId = some .active) :
    (rollbackTransaction kept b txId).1 = .ok () ∧
      (rollbackTransaction kept b txId).2.blocks = b.blocks := by
  rw [rollbackTransaction, h]
  exact ⟨rfl, rfl⟩

/-- What was done before a failure leaves the blocks as they were exactly if none of it leaves a
trace. -/
theorem noTrace_iff {old : BlockId → Option Bytes} {ops : List PendingOperation}
    {done : List FileOp} :
    (∀ id, (if FileOp.remove id ∈ done then none else if renamed id done = true then
        Batch.lastPut id ops else old id) = old id) ↔
      ∀ op ∈ done, NoTrace old ops done op := by
  constructor
  · intro h op hop
    cases op with
    | remove id =>
      have hid := h id
      rw [if_pos hop] at hid
      exact hid.symm
    | rename id data =>
      intro hremove
      have hid := h id
      rw [if_neg hremove, if_pos (renamed_eq_true.mpr ⟨data, hop⟩)] at hid
      exact hid.symm
    | _ => trivial
  · intro h id
    split_ifs with hremove hrename
    · exact (h _ hremove).symm
    · obtain ⟨data, hop⟩ := renamed_eq_true.mp hrename
      exact (h _ hop hremove).symm
    · rfl

/-- A commit of an active transaction carries out its file operations. -/
theorem commitTransaction_of_active (fault : Option Fault) {b : LocalBackend}
    {txId : TransactionId} {ops : List PendingOperation}
    (hactive : b.transactions.lookup txId = some .active)
    (hpending : b.pendingOps.lookup txId = some ops) {files : Files} {failure : Option AegisError}
    (hrun : perform fault (commitProgram b.syncWrites ops) b.files = (files, failure)) :
    (commitTransaction fault b txId).2.files = files ∧
      match failure with
      | none => (commitTransaction fault b txId).1 = .ok ()
      | some e => (commitTransaction fault b txId).1 = .error e ∧
          (commitTransaction fault b txId).2.transactions = b.transactions := by
  have hbegin : b.beginCommit txId = (.ok (commitProgram b.syncWrites ops),
      { b with pendingOps := b.pendingOps.erase txId }) := by
    simp only [beginCommit, hactive, hpending]
    rfl
  cases failure with
  | none =>
    simp only [commitTransaction, hbegin, hrun]
    exact ⟨rfl, trivial⟩
  | some e =>
    simp only [commitTransaction, hbegin, hrun]
    exact ⟨trivial, trivial, trivial⟩

/-- A transaction is all or nothing exactly if its commit fits: its commit gets to its end and no
block is written after it was deleted, or it stops and what was done before leaves no trace. -/
theorem commit_allOrNothing_iff (fault : Option Fault) (kept : List BlockId) (b : LocalBackend)
    (calls : List TxCall) : AllOrNothing fault kept b calls ↔ CommitFits fault b calls := by
  obtain ⟨hfiles, hsync, hactive, hpending⟩ := started_spec calls b
  have hblocks : (started calls b).blocks = b.blocks := by
    funext id
    rw [blocks, hfiles, blocks]
  have hrollback := rollbackTransaction_of_active kept hactive
  rw [hblocks] at hrollback
  have hperform := perform_commitProgram b.syncWrites fault (operations b.nextBlockId calls) b.files
  rw [CommitFits]
  cases hstop : commitStops b.syncWrites fault (operations b.nextBlockId calls) with
  | none =>
    rw [hstop] at hperform
    obtain ⟨files', hrun, hdata⟩ := hperform
    rw [← hsync, ← hfiles] at hrun
    obtain ⟨hafter, hok⟩ := commitTransaction_of_active fault hactive hpending hrun
    have hcommit : (commitTransaction fault (started calls b) b.nextTxId).2.blocks =
        Batch.putsThenDels b.blocks (operations b.nextBlockId calls) := by
      funext id
      rw [blocks, hafter]
      exact hdata id
    rw [← Batch.putsThenDels_eq_iff (m := b.blocks), ← blocks_direct, ← hcommit]
    constructor
    · intro h
      obtain ⟨-, hsame⟩ | ⟨herror, -⟩ := h.commit
      · exact hsame
      · exact absurd hok herror
    · intro h
      exact ⟨Or.inl ⟨hok, h⟩, hrollback⟩
  | some done =>
    rw [hstop] at hperform
    obtain ⟨files', e, hrun, hdata⟩ := hperform
    rw [← hsync, ← hfiles] at hrun
    obtain ⟨hafter, herror, htransactions⟩ := commitTransaction_of_active fault hactive hpending hrun
    have hne : (commitTransaction fault (started calls b) b.nextTxId).1 ≠ .ok () := by
      rw [herror]
      intro h
      cases h
    dsimp only
    rw [← noTrace_iff]
    constructor
    · intro h id
      obtain ⟨hok, -⟩ | ⟨-, hsame, -⟩ := h.commit
      · exact absurd hok hne
      · have hid := congrFun hsame id
        rw [blocks, hafter, hdata] at hid
        exact hid
    · intro h
      refine ⟨Or.inr ⟨hne, ?_, ?_⟩, hrollback⟩
      · funext id
        rw [blocks, hafter, hdata]
        exact h id
      · refine (rollbackTransaction_of_active kept ?_).1
        rw [htransactions]
        exact hactive

/-- A transaction that writes a block twice: the commit fails and the block is there. -/
theorem written_twice_not_allOrNothing :
    ¬ AllOrNothing none [] (new ⟨∅, ∅⟩ false)
      [.write ⟨{ blockId := 1, blockType := .tableData }, [1]⟩,
        .write ⟨{ blockId := 1, blockType := .tableData }, [2]⟩] := by
  intro h
  have hblock := h.commit.imp (fun hok => hok.1) (fun hfail => congrFun hfail.2.1 1)
  revert hblock
  decide +kernel

end LocalBackend

end Local

end Storage

end AegisDB
