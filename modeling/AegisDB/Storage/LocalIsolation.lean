import AegisDB.Library.Transition
import AegisDB.Storage.LocalBackend

/-!
# Isolation of the local backend

Any number of calls run at the same time: a call that changes files is interrupted between any two
of its file operations, all else a call does is one step.  Next to the backend a run keeps what
reads should go by: the blocks as the calls outside transactions and the completed commits have
left them, and the blocks that commits under way (or commits that failed) have changed already.

The backend does not isolate: a read looks through the pending operations of all active
transactions, a block that a commit has renamed is there before the commit is complete, all calls
share one temporary file for each block, and a rollback removes the temporary files of everyone.
`isolated_of_reach` says that these are the only ways.
-/

namespace AegisDB

namespace Storage

namespace Local

open Layers

/-! ## What is committed -/

/-- The blocks by what is committed and what is not. -/
structure Published where
  /-- The blocks as calls outside transactions and completed commits have left them. -/
  committed : BlockId → Option Bytes
  /-- The blocks that the commit of a transaction has changed last, without being complete, and to
  what. -/
  early : BlockId → Option (TransactionId × Option Bytes)

namespace Published

/-- A block is changed by a commit that is under way, or by a call outside a transaction. -/
def publish (p : Published) (owner : Option TransactionId) (id : BlockId) (value : Option Bytes) :
    Published :=
  match owner with
  | some txId => { p with early := Function.update p.early id (some (txId, value)) }
  | none =>
    { committed := Function.update p.committed id value
      early := Function.update p.early id none }

/-- The commit of a transaction is complete. -/
def settle (p : Published) (txId : TransactionId) : Published where
  committed id :=
    match p.early id with
    | some (txId', value) => if txId' = txId then value else p.committed id
    | none => p.committed id
  early id := (p.early id).filter fun e => e.1 ≠ txId

/-- The blocks with what commits under way have changed. -/
def current (p : Published) (id : BlockId) : Option Bytes :=
  match p.early id with
  | some (_, value) => value
  | none => p.committed id

/-- The blocks for a reader: of the commits under way it sees its own. -/
def view (p : Published) (reader : Option TransactionId) (id : BlockId) : Option Bytes :=
  match p.early id with
  | some (txId, value) => if reader = some txId then value else p.committed id
  | none => p.committed id

theorem current_publish (p : Published) (owner : Option TransactionId) (id : BlockId)
    (value : Option Bytes) :
    (p.publish owner id value).current = Function.update p.current id value := by
  funext id'
  by_cases hid : id' = id
  · subst hid
    cases owner with
    | some txId => simp [publish, current]
    | none => simp [publish, current]
  · cases owner with
    | some txId => simp [publish, current, hid]
    | none => simp [publish, current, hid]

theorem current_settle (p : Published) (txId : TransactionId) :
    (p.settle txId).current = p.current := by
  funext id
  cases hearly : p.early id with
  | none => simp [settle, current, hearly]
  | some e =>
    by_cases htx : e.1 = txId
    · simp [settle, current, hearly, htx, Option.filter]
    · simp [settle, current, hearly, htx, Option.filter]

theorem view_eq_current {p : Published} {reader : Option TransactionId} {id : BlockId}
    (h : ∀ e ∈ p.early id, reader = some e.1) : p.view reader id = p.current id := by
  rw [view, current]
  cases hearly : p.early id with
  | none => rfl
  | some e => exact if_pos (h e hearly)

end Published

/-! ## Runs -/

/-- A call that changes files, with the file operations that it has left. -/
structure Call where
  /-- The transaction that is committed, if it is a commit. -/
  owner : Option TransactionId
  program : List FileOp

/-- The backend, the calls under way, and what is committed. -/
structure World where
  backend : LocalBackend
  calls : Table ℕ Call := ∅
  nextCall : ℕ := 0
  published : Published

/-- A step of a run. -/
inductive Action
  | begin
  | writeBlockInTx (txId : TransactionId) (block : Block)
  | deleteBlockInTx (txId : TransactionId) (id : BlockId)
  | writeBlock (block : Block)
  | deleteBlock (id : BlockId)
  /-- `commit_transaction` up to its first file operation. -/
  | commit (txId : TransactionId)
  /-- The next file operation of a call, which may be made to fail, or its end. -/
  | resume (call : ℕ) (fault : Option (Option Bytes))
  /-- `read_block` by a transaction, or outside any; the pending operations are searched in some
  order. -/
  | read (reader : Option TransactionId) (order : List TransactionId) (ioError : Bool)
    (id : BlockId)
  | blockExists (reader : Option TransactionId) (order : List TransactionId) (ioError : Bool)
    (id : BlockId)
  /-- `rollback_transaction`; the removal of some temporary files may fail. -/
  | rollback (kept : List BlockId) (txId : TransactionId)

namespace World

def start (w : World) (b : LocalBackend) (call : Call) : World :=
  { w with backend := b, calls := w.calls.insert w.nextCall call, nextCall := w.nextCall + 1 }

def setFiles (w : World) (files : Files) : World :=
  { w with backend := { w.backend with files := files } }

/-- What a file operation changes of what is committed. -/
def publishOp (p : Published) (owner : Option TransactionId) : FileOp → Published
  | .rename id data => p.publish owner id (some data)
  | .remove id | .removeBlock id => p.publish owner id none
  | _ => p

/-- The next file operation of a call, or its end. -/
def resume (w : World) (n : ℕ) (call : Call) (fault : Option (Option Bytes)) : World :=
  match call.program with
  | [] =>
    match call.owner with
    | some txId =>
      { w with
        backend := w.backend.finishCommit txId
        calls := w.calls.erase n
        published := w.published.settle txId }
    | none => { w with calls := w.calls.erase n }
  | op :: rest =>
    match fault with
    | some torn =>
      { w.setFiles (op.broken torn w.backend.files) with calls := w.calls.erase n }
    | none =>
      match op.run w.backend.files with
      | .error _ => { w with calls := w.calls.erase n }
      | .ok files =>
        { w.setFiles files with
          calls := w.calls.insert n { call with program := rest }
          published := publishOp w.published call.owner op }

/-- One step. -/
def step (w : World) : Action → Option World
  | .begin => some { w with backend := w.backend.beginTransaction.2 }
  | .writeBlockInTx txId block =>
    some { w with backend := (w.backend.writeBlockInTx txId block).2 }
  | .deleteBlockInTx txId id =>
    some { w with backend := (w.backend.deleteBlockInTx txId id).2 }
  | .writeBlock block =>
    let (blockId, b) := w.backend.blockIdOf block
    some (w.start b
      { owner := none
        program := LocalBackend.writeProgram b.syncWrites blockId
          (LocalBackend.encode block blockId) })
  | .deleteBlock id =>
    some (w.start w.backend
      { owner := none, program := LocalBackend.deleteProgram w.backend.syncWrites id })
  | .commit txId =>
    match w.backend.beginCommit txId with
    | (.error _, b) => some { w with backend := b }
    | (.ok program, b) => some (w.start b { owner := some txId, program := program })
  | .resume n fault => (w.calls.lookup n).map fun call => w.resume n call fault
  | .read _ order _ _ => if order.Perm w.backend.pendingOps.keys then some w else none
  | .blockExists _ order _ _ => if order.Perm w.backend.pendingOps.keys then some w else none
  | .rollback kept txId => some { w with backend := (w.backend.rollbackTransaction kept txId).2 }

/-- A run from a data directory. -/
def system (files : Files) (syncWrites : Bool) : System World Action where
  init :=
    { backend := LocalBackend.new files syncWrites
      published := { committed := files.dataFiles.lookup, early := fun _ => none } }
  step := step

/-! ## Isolation -/

/-- The newest pending operation of a transaction on a block. -/
def pendingOf (b : LocalBackend) (id : BlockId) (txId : TransactionId) : Option PendingOperation :=
  if b.transactions.lookup txId = some .active then
    lastAt BatchOp.key id ((b.pendingOps.lookup txId).getD [])
  else none

/-- The bytes that a reader should find: those of its own pending operation, or the block without
what other transactions have not committed. -/
def expected (w : World) (reader : Option TransactionId) (id : BlockId) : Option Bytes :=
  ((reader.bind (pendingOf w.backend id)).map BatchOp.value).getD (w.published.view reader id)

/-- A step is isolated.  A read and an existence test see nothing of what other transactions have
not committed.  A rollback leaves the pending operations of the other transactions, the blocks,
and the temporary files that other calls have still to rename. -/
def Isolated (w : World) : Action → Prop
  | .read reader order ioError id => ioError = false →
    w.backend.readBlock order ioError id = LocalBackend.decode id (w.expected reader id)
  | .blockExists reader order ioError id => ioError = false →
    w.backend.blockExists order ioError id = (w.expected reader id).isSome
  | .rollback kept txId =>
    (∀ txId', txId' ≠ txId →
      (w.backend.rollbackTransaction kept txId).2.pendingOps.lookup txId' =
          w.backend.pendingOps.lookup txId' ∧
        (w.backend.rollbackTransaction kept txId).2.transactions.lookup txId' =
          w.backend.transactions.lookup txId') ∧
      (w.backend.rollbackTransaction kept txId).2.blocks = w.backend.blocks ∧
      ∀ call ∈ w.calls.values, call.owner ≠ some txId → ∀ id data,
        .rename id data ∈ call.program →
          (w.backend.rollbackTransaction kept txId).2.files.tempFiles.lookup id =
            w.backend.files.tempFiles.lookup id
  | _ => True

/-- A reader is alone on a block: no other active transaction has a pending operation on it, and it
was not last changed by the commit of another transaction that is not complete. -/
def Alone (w : World) (reader : Option TransactionId) (id : BlockId) : Prop :=
  (∀ txId ∈ w.backend.pendingOps.keys, reader ≠ some txId → pendingOf w.backend id txId = none) ∧
    ∀ e ∈ w.published.early id, reader = some e.1

/-- The temporary file that an operation renames, if it is there, has what its call wrote. -/
def OwnTemp (files : Files) : FileOp → Prop
  | .rename id data => ∀ bytes ∈ files.tempFiles.lookup id, bytes = data
  | _ => True

/-- The temporary file that an operation renames, if it is there, is kept. -/
def TempKept (files : Files) (kept : List BlockId) : FileOp → Prop
  | .rename id _ => (files.tempFiles.lookup id).isSome = true → id ∈ kept
  | _ => True

/-- A rollback finds no temporary file that another call has still to rename. -/
def NoTempOfOthers (w : World) (kept : List BlockId) (txId : TransactionId) : Prop :=
  w.backend.transactions.lookup txId = some .active → ∀ call ∈ w.calls.values,
    call.owner ≠ some txId → ∀ op ∈ call.program, TempKept w.backend.files kept op

/-- The steps that keep the backend isolated. -/
def Apart (w : World) : Action → Prop
  | .read reader _ _ id | .blockExists reader _ _ id => w.Alone reader id
  | .resume n _ =>
    ∀ call ∈ w.calls.lookup n, ∀ op ∈ call.program.head?, OwnTemp w.backend.files op
  | .rollback kept txId => w.NoTempOfOthers kept txId
  | _ => True

instance (w : World) (reader : Option TransactionId) (id : BlockId) :
    Decidable (w.Alone reader id) :=
  @instDecidableAnd _ _
    (List.decidableBAll (fun txId => reader ≠ some txId → pendingOf w.backend id txId = none)
      w.backend.pendingOps.keys)
    (inferInstanceAs (Decidable (∀ e ∈ w.published.early id, reader = some e.1)))

instance (files : Files) (op : FileOp) : Decidable (OwnTemp files op) :=
  match op with
  | .rename id _ => inferInstanceAs (Decidable (∀ bytes ∈ files.tempFiles.lookup id, _))
  | .writeTemp _ _ | .syncTemp _ | .remove _ | .removeBlock _ | .syncDirectory => .isTrue trivial

instance (files : Files) (kept : List BlockId) (op : FileOp) :
    Decidable (TempKept files kept op) :=
  match op with
  | .rename _ _ => inferInstanceAs (Decidable (_ → _))
  | .writeTemp _ _ | .syncTemp _ | .remove _ | .removeBlock _ | .syncDirectory => .isTrue trivial

instance (w : World) (kept : List BlockId) (txId : TransactionId) :
    Decidable (w.NoTempOfOthers kept txId) :=
  inferInstanceAs (Decidable (_ → ∀ call ∈ w.calls.values, _ → ∀ op ∈ call.program, _))

instance (w : World) (a : Action) : Decidable (w.Apart a) :=
  match a with
  | .read reader _ _ id => inferInstanceAs (Decidable (w.Alone reader id))
  | .blockExists reader _ _ id => inferInstanceAs (Decidable (w.Alone reader id))
  | .resume n _ =>
    inferInstanceAs (Decidable (∀ call ∈ w.calls.lookup n, ∀ op ∈ call.program.head?, _))
  | .rollback kept txId => inferInstanceAs (Decidable (w.NoTempOfOthers kept txId))
  | .begin | .writeBlockInTx _ _ | .deleteBlockInTx _ _ | .writeBlock _ | .deleteBlock _
  | .commit _ => .isTrue trivial

/-! ### One step -/

/-- The block files are what is committed, with what the commits under way have changed. -/
def Coherent (w : World) : Prop :=
  w.backend.blocks = w.published.current

/-- A file operation that keeps to its own temporary file changes the block files as it changes
what is committed. -/
theorem blocks_run {op : FileOp} {files files' : Files} {p : Published}
    (owner : Option TransactionId) (h : ∀ id, files.dataFiles.lookup id = p.current id)
    (hown : OwnTemp files op) (hrun : op.run files = .ok files') (id' : BlockId) :
    files'.dataFiles.lookup id' = (publishOp p owner op).current id' := by
  have herase (id : BlockId) :
      (files.dataFiles.erase id).lookup id' = Function.update p.current id none id' := by
    rw [Table.lookup_erase, Function.update_apply, h]
  cases op with
  | writeTemp id data =>
    obtain rfl := Except.ok.inj hrun
    exact h id'
  | syncTemp id =>
    simp only [FileOp.run] at hrun
    cases hlookup : files.tempFiles.lookup id with
    | none => simp [hlookup] at hrun
    | some bytes =>
      simp only [hlookup, Except.ok.injEq] at hrun
      rw [← hrun]
      exact h id'
  | rename id data =>
    simp only [FileOp.run] at hrun
    cases hlookup : files.tempFiles.lookup id with
    | none => simp [hlookup] at hrun
    | some bytes =>
      simp only [hlookup, Except.ok.injEq] at hrun
      rw [← hrun, publishOp, Published.current_publish, ← hown bytes hlookup]
      rw [Table.lookup_insert, Function.update_apply, h]
  | remove id =>
    obtain rfl := Except.ok.inj hrun
    rw [publishOp, Published.current_publish]
    exact herase id
  | removeBlock id =>
    simp only [FileOp.run] at hrun
    cases hlookup : files.dataFiles.lookup id with
    | none => simp [hlookup] at hrun
    | some bytes =>
      simp only [hlookup, Except.ok.injEq] at hrun
      rw [← hrun, publishOp, Published.current_publish]
      exact herase id
  | syncDirectory =>
    obtain rfl := Except.ok.inj hrun
    exact h id'

theorem dataFiles_broken (torn : Option Bytes) (op : FileOp) (files : Files) :
    (op.broken torn files).dataFiles = files.dataFiles := by
  cases op with
  | writeTemp id data => cases torn <;> rfl
  | _ => rfl

/-- A resumed call keeps the block files and what is committed together. -/
theorem Coherent.resume {w : World} (h : w.Coherent) (n : ℕ) (call : Call)
    (fault : Option (Option Bytes))
    (hown : ∀ op ∈ call.program.head?, OwnTemp w.backend.files op) :
    (w.resume n call fault).Coherent := by
  rw [World.resume]
  cases hprogram : call.program with
  | nil =>
    cases howner : call.owner with
    | none => exact h
    | some txId =>
      rw [Coherent]
      exact (Published.current_settle _ _).symm ▸ h
  | cons op rest =>
    rw [hprogram] at hown
    cases fault with
    | some torn =>
      refine Eq.trans ?_ h
      funext id
      simp only [LocalBackend.blocks, setFiles, dataFiles_broken]
    | none =>
      dsimp only
      cases hrun : op.run w.backend.files with
      | error e => exact h
      | ok files => exact funext (blocks_run call.owner (congrFun h) (hown op rfl) hrun)

theorem files_blockIdOf (b : LocalBackend) (block : Block) :
    (b.blockIdOf block).2.files = b.files := by
  rw [LocalBackend.blockIdOf]
  split_ifs
  · rfl
  · rfl

theorem files_beginCommit (b : LocalBackend) (txId : TransactionId) :
    (b.beginCommit txId).2.files = b.files := by
  rw [LocalBackend.beginCommit]
  split <;> rfl

theorem files_writeBlockInTx (b : LocalBackend) (txId : TransactionId) (block : Block) :
    (b.writeBlockInTx txId block).2.files = b.files := by
  rw [LocalBackend.writeBlockInTx]
  split
  · rfl
  · exact files_blockIdOf b block

theorem files_deleteBlockInTx (b : LocalBackend) (txId : TransactionId) (id : BlockId) :
    (b.deleteBlockInTx txId id).2.files = b.files := by
  rw [LocalBackend.deleteBlockInTx]
  split <;> rfl

theorem dataFiles_rollback (kept : List BlockId) (b : LocalBackend) (txId : TransactionId) :
    (b.rollbackTransaction kept txId).2.files.dataFiles = b.files.dataFiles := by
  rw [LocalBackend.rollbackTransaction]
  split <;> rfl

/-- A step keeps the block files and what is committed together. -/
theorem Coherent.step {w w' : World} {a : Action} (h : w.Coherent) (ha : w.Apart a)
    (hstep : w.step a = some w') : w'.Coherent := by
  have hkeep {b : LocalBackend} (hfiles : b.files.dataFiles = w.backend.files.dataFiles) :
      b.blocks = w.published.current := by
    funext id
    rw [LocalBackend.blocks, hfiles]
    exact congrFun h id
  cases a with
  | begin =>
    obtain rfl := Option.some.inj hstep
    exact h
  | writeBlockInTx txId block =>
    obtain rfl := Option.some.inj hstep
    exact hkeep (by rw [files_writeBlockInTx])
  | deleteBlockInTx txId id =>
    obtain rfl := Option.some.inj hstep
    exact hkeep (by rw [files_deleteBlockInTx])
  | writeBlock block =>
    obtain rfl := Option.some.inj hstep
    exact hkeep (congrArg Files.dataFiles (files_blockIdOf w.backend block))
  | deleteBlock id =>
    obtain rfl := Option.some.inj hstep
    exact h
  | commit txId =>
    have hfiles := files_beginCommit w.backend txId
    rw [World.step] at hstep
    generalize w.backend.beginCommit txId = r at hfiles hstep
    obtain ⟨e | program, b⟩ := r
    · obtain rfl := Option.some.inj hstep
      exact hkeep (by rw [hfiles])
    · obtain rfl := Option.some.inj hstep
      exact hkeep (by rw [World.start, hfiles])
  | resume n fault =>
    obtain ⟨call, hcall, rfl⟩ := Option.map_eq_some_iff.mp hstep
    exact h.resume n call fault (ha call hcall)
  | read reader order ioError id =>
    simp only [World.step, Option.ite_none_right_eq_some, Option.some.injEq] at hstep
    exact hstep.2 ▸ h
  | blockExists reader order ioError id =>
    simp only [World.step, Option.ite_none_right_eq_some, Option.some.injEq] at hstep
    exact hstep.2 ▸ h
  | rollback kept txId =>
    obtain rfl := Option.some.inj hstep
    exact hkeep (dataFiles_rollback kept w.backend txId)

/-- A reader that is alone on a block finds its own pending operation, or none. -/
theorem pendingOp_of_alone {w : World} {reader : Option TransactionId} {id : BlockId}
    (h : w.Alone reader id) {order : List TransactionId}
    (horder : order.Perm w.backend.pendingOps.keys) :
    w.backend.pendingOp order id = reader.bind (pendingOf w.backend id) := by
  have hother (txId : TransactionId) (hmem : txId ∈ order) (hne : reader ≠ some txId) :
      pendingOf w.backend id txId = none :=
    h.1 txId (horder.mem_iff.mp hmem) hne
  change order.findSome? (pendingOf w.backend id) = _
  cases hfind : order.findSome? (pendingOf w.backend id) with
  | none =>
    rw [List.findSome?_eq_none_iff] at hfind
    cases reader with
    | none => rfl
    | some txId =>
      -- the transaction has no pending operations at all if it is not met
      by_cases hmem : txId ∈ order
      · exact (hfind txId hmem).symm
      · have hnone : w.backend.pendingOps.lookup txId = none :=
          AList.lookup_eq_none.mpr fun hkey => hmem (horder.mem_iff.mpr (AList.mem_keys.mp hkey))
        simp [pendingOf, hnone, lastAt, firstAt]
  | some op =>
    obtain ⟨txId, hmem, hop⟩ := List.exists_of_findSome?_eq_some hfind
    have hreader : reader = some txId := by
      by_contra hne
      rw [hother txId hmem hne] at hop
      cases hop
    rw [hreader]
    exact hop.symm

/-- A rollback that finds no temporary file of another call is isolated. -/
theorem isolated_rollback {w : World} {kept : List BlockId} {txId : TransactionId}
    (h : w.NoTempOfOthers kept txId) : w.Isolated (.rollback kept txId) := by
  rw [Isolated]
  by_cases hactive : w.backend.transactions.lookup txId = some .active
  · simp only [LocalBackend.rollbackTransaction, hactive]
    refine ⟨fun txId' hne => ⟨AList.lookup_erase_ne hne, AList.lookup_insert_ne hne⟩, rfl, ?_⟩
    intro call hcall howner id data hop
    have hkept : (w.backend.files.tempFiles.lookup id).isSome = true → id ∈ kept :=
      h hactive call hcall howner _ hop
    rw [Table.lookup_filterValues]
    cases hlookup : w.backend.files.tempFiles.lookup id with
    | none => rfl
    | some bytes =>
      rw [hlookup] at hkept
      rw [Option.filter_some, decide_eq_true (hkept rfl)]
      rfl
  · have hsame : (w.backend.rollbackTransaction kept txId).2 = w.backend := by
      rw [LocalBackend.rollbackTransaction]
      split
      · exact absurd ‹_› hactive
      · rfl
      · rfl
      · rfl
    rw [hsame]
    exact ⟨fun _ _ => ⟨rfl, rfl⟩, rfl, fun _ _ _ _ _ _ => rfl⟩

theorem Coherent.isolated {w w' : World} {a : Action} (h : w.Coherent) (ha : w.Apart a)
    (hstep : w.step a = some w') : w.Isolated a := by
  have hfind {reader : Option TransactionId} {id : BlockId} (halone : w.Alone reader id)
      {order : List TransactionId} (horder : order.Perm w.backend.pendingOps.keys) :
      ((w.backend.pendingOp order id).map BatchOp.value).getD (w.backend.blocks id) =
        w.expected reader id := by
    rw [pendingOp_of_alone halone horder, expected, Published.view_eq_current halone.2,
      congrFun h id]
  cases a with
  | read reader order ioError id =>
    rintro rfl
    simp only [World.step, Option.ite_none_right_eq_some] at hstep
    rw [LocalBackend.readBlock_eq, hfind ha hstep.1]
  | blockExists reader order ioError id =>
    rintro rfl
    simp only [World.step, Option.ite_none_right_eq_some] at hstep
    rw [LocalBackend.blockExists_eq, hfind ha hstep.1]
  | rollback kept txId => exact isolated_rollback ha
  | _ => trivial

/-- In a run whose steps keep apart, every step is isolated: each reader is alone on the block that
it reads, each rename finds what its call wrote, and each rollback finds no temporary file that
another call has still to rename. -/
theorem isolated_of_reach {files : Files} {syncWrites : Bool} {w w' : World}
    (h : (system files syncWrites).Reach Apart w) {a : Action} (ha : w.Apart a)
    (hstep : w.step a = some w') : w.Isolated a := by
  have hcoherent : w.Coherent := by
    refine h.invariant (P := Coherent) (show Coherent (system files syncWrites).init from rfl) ?_
    intro s a s' _ hs ha hstep
    exact hs.step ha hstep
  exact hcoherent.isolated ha hstep

/-- A transaction has a pending write of block `5`, and block `7` is written outside it. -/
def script : List Action :=
  [.begin, .writeBlockInTx 1 ⟨{ blockId := 5, blockType := .tableData }, [1]⟩,
    .writeBlock ⟨{ blockId := 7, blockType := .tableData }, [2]⟩, .resume 0 none, .resume 0 none,
    .resume 0 none]

theorem isolated_of_reach_script : ∃ w, (system ⟨∅, ∅⟩ false).run Apart script = some w ∧
    w.Isolated (.read none [1] false 7) := by
  have hrun : ((system ⟨∅, ∅⟩ false).run Apart script).any (fun w =>
      decide (w.Apart (.read none [1] false 7)) && (w.step (.read none [1] false 7)).isSome) =
        true := by
    decide +kernel
  cases hw : (system ⟨∅, ∅⟩ false).run Apart script with
  | none =>
    rw [hw] at hrun
    cases hrun
  | some w =>
    rw [hw, Option.any_some, Bool.and_eq_true, decide_eq_true_eq] at hrun
    obtain ⟨w', hstep⟩ := Option.isSome_iff_exists.mp hrun.2
    exact ⟨w, rfl, isolated_of_reach (System.reach_of_run hw) hrun.1 hstep⟩

/-- The pending write of block `5` is read outside its transaction. -/
theorem pending_write_read : ¬ ∀ files syncWrites w w' a,
    (system files syncWrites).Reachable w → w.step a = some w' → w.Isolated a := by
  intro h
  have hrun : ((system ⟨∅, ∅⟩ false).run (fun _ _ => True) script).any (fun w =>
      (w.step (.read none [1] false 5)).isSome &&
        decide (w.backend.readBlock [1] false 5 ≠
          LocalBackend.decode 5 (w.expected none 5))) = true := by
    decide +kernel
  cases hw : (system ⟨∅, ∅⟩ false).run (fun _ _ => True) script with
  | none =>
    rw [hw] at hrun
    cases hrun
  | some w =>
    rw [hw, Option.any_some, Bool.and_eq_true, decide_eq_true_eq] at hrun
    obtain ⟨w', hstep⟩ := Option.isSome_iff_exists.mp hrun.1
    exact hrun.2 (h _ _ w w' _ (System.reach_of_run hw) hstep rfl)

end World

end Local

end Storage

end AegisDB
