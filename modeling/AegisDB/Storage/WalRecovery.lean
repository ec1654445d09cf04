import AegisDB.Library.Stepwise
import AegisDB.Storage.WalFiles

/-!
# Recovery from the log

Recovery folds over the records of the directory, and keeps what it finds under the numbers of the
transactions.  If no number is used twice, if every record of a transaction lies between its begin
and its end, and if a truncation drops neither the begin of a transaction whose data it keeps nor
the last mention of one that is in progress, then recovery finds the data of the committed
transactions in their order, and the transactions in progress.  Truncation goes by the numbers of
the segments: it may drop what was logged after the last checkpoint, or before it by a transaction
that had not finished, and that is still required.
-/

namespace AegisDB

namespace Storage

variable {F : LogFormat}

/-! ## What a list of records says about a transaction -/

/-- There is a record of this type about the transaction. -/
def Logs (recordType : LogRecordType) (txId : UInt64) (rs : List LogRecord) : Prop :=
  ∃ r ∈ rs, r.recordType = recordType ∧ r.txId = txId

instance (recordType : LogRecordType) (txId : UInt64) (rs : List LogRecord) :
    Decidable (Logs recordType txId rs) :=
  inferInstanceAs (Decidable (∃ r ∈ rs, _ ∧ _))

def Finished (txId : UInt64) (rs : List LogRecord) : Prop :=
  Logs .commit txId rs ∨ Logs .abort txId rs

instance (txId : UInt64) (rs : List LogRecord) : Decidable (Finished txId rs) :=
  inferInstanceAs (Decidable (_ ∨ _))

/-- The transactions that a record lists as active. -/
def LogRecord.listed (F : LogFormat) (r : LogRecord) : List UInt64 :=
  match r.recordType with
  | .checkpoint => ((F.deserialize r.data).map CheckpointData.activeTransactions).getD []
  | _ => []

def Listed (F : LogFormat) (txId : UInt64) (rs : List LogRecord) : Prop :=
  ∃ r ∈ rs, txId ∈ r.listed F

instance (txId : UInt64) (rs : List LogRecord) : Decidable (Listed F txId rs) :=
  inferInstanceAs (Decidable (∃ r ∈ rs, _))

section Snoc

variable {recordType : LogRecordType} {txId : UInt64} {rs rs' : List LogRecord} {r : LogRecord}

@[simp] theorem logs_nil : ¬ Logs recordType txId [] :=
  fun ⟨_, hr, _⟩ => nomatch hr

@[simp] theorem logs_append :
    Logs recordType txId (rs ++ rs') ↔ Logs recordType txId rs ∨ Logs recordType txId rs' := by
  simp only [Logs, List.mem_append, or_and_right, exists_or]

@[simp] theorem logs_singleton :
    Logs recordType txId [r] ↔ r.recordType = recordType ∧ r.txId = txId := by
  simp [Logs]

@[simp] theorem listed_nil : ¬ Listed F txId [] :=
  fun ⟨_, hr, _⟩ => nomatch hr

@[simp] theorem listed_append :
    Listed F txId (rs ++ rs') ↔ Listed F txId rs ∨ Listed F txId rs' := by
  simp only [Listed, List.mem_append, or_and_right, exists_or]

@[simp] theorem listed_singleton : Listed F txId [r] ↔ txId ∈ r.listed F := by
  simp [Listed]

theorem finished_append :
    Finished txId (rs ++ rs') ↔ Finished txId rs ∨ Finished txId rs' := by
  simp only [Finished, logs_append]
  tauto

theorem Logs.mono (h : Logs recordType txId rs) (hsub : ∀ r ∈ rs, r ∈ rs') :
    Logs recordType txId rs' := by
  obtain ⟨r, hr, hrest⟩ := h
  exact ⟨r, hsub r hr, hrest⟩

end Snoc

def dataOf (txId : UInt64) (rs : List LogRecord) : List LogRecord :=
  rs.filter fun r => r.recordType.isData && r.txId == txId

/-! ## Logs that make sense -/

/-- The type of a record that is written while its transaction is in progress. -/
def LogRecordType.inTransaction (recordType : LogRecordType) : Bool :=
  recordType.isData || recordType = .commit || recordType = .abort

/-- A record may follow these: a transaction begins under a number that was not used, it is in
progress as long as there are records of it, and a checkpoint lists transactions in progress. -/
def Follows (F : LogFormat) (rs : List LogRecord) (r : LogRecord) : Prop :=
  r.recordType ≠ .compensationLogRecord ∧
    (r.recordType = .begin → ∀ r' ∈ rs, r'.recordType = .checkpoint ∨ r'.txId ≠ r.txId) ∧
      (r.recordType.inTransaction = true → Logs .begin r.txId rs ∧ ¬ Finished r.txId rs) ∧
        ∀ txId ∈ r.listed F, Logs .begin txId rs ∧ ¬ Finished txId rs

instance (rs : List LogRecord) (r : LogRecord) : Decidable (Follows F rs r) :=
  -- the listed transactions are tried, not all numbers
  have : Decidable (∀ txId ∈ r.listed F, Logs .begin txId rs ∧ ¬ Finished txId rs) :=
    List.decidableBAll _ _
  inferInstanceAs (Decidable (_ ∧ (_ → ∀ r' ∈ rs, _) ∧ (_ → _) ∧ ∀ txId ∈ r.listed F, _))

/-- The begin of the transaction is among the records, if this one is about data. -/
def AfterBegin (rs : List LogRecord) (r : LogRecord) : Prop :=
  r.recordType.isData = true → Logs .begin r.txId rs

instance (rs : List LogRecord) (r : LogRecord) : Decidable (AfterBegin rs r) :=
  inferInstanceAs (Decidable (_ → _))

/-! ## Checkpoints -/

/-- The records before the last checkpoint. -/
def beforeCheckpoint : List LogRecord → List LogRecord
  | [] => []
  | r :: rs => if ∃ r' ∈ rs, r'.recordType = .checkpoint then r :: beforeCheckpoint rs else []

/-- What a record is about is not settled by the last checkpoint: the record comes after it, or its
transaction had not finished before. -/
def Required (rs : List LogRecord) (r : LogRecord) : Prop :=
  r ∈ rs.drop (beforeCheckpoint rs).length ∨ ¬ Finished r.txId (beforeCheckpoint rs)

theorem beforeCheckpoint_isPrefix (rs : List LogRecord) : beforeCheckpoint rs <+: rs := by
  induction rs with
  | nil => exact List.prefix_rfl
  | cons r rs ih =>
    rw [beforeCheckpoint]
    split_ifs
    · exact (List.prefix_cons_inj r).mpr ih
    · exact List.nil_prefix

/-- As the log grows, more is before the last checkpoint. -/
theorem beforeCheckpoint_append (rs rs' : List LogRecord) :
    beforeCheckpoint rs <+: beforeCheckpoint (rs ++ rs') := by
  induction rs with
  | nil => exact List.nil_prefix
  | cons r rs ih =>
    rw [List.cons_append, beforeCheckpoint, beforeCheckpoint]
    by_cases h : ∃ r' ∈ rs, r'.recordType = .checkpoint
    · obtain ⟨r', hr', htype⟩ := h
      rw [if_pos ⟨r', hr', htype⟩, if_pos ⟨r', List.mem_append_left _ hr', htype⟩]
      exact (List.prefix_cons_inj r).mpr ih
    · rw [if_neg h]
      exact List.nil_prefix

theorem Finished.mono {txId : UInt64} {rs rs' : List LogRecord} (h : Finished txId rs)
    (hsub : ∀ r ∈ rs, r ∈ rs') : Finished txId rs' :=
  h.imp (·.mono hsub) (·.mono hsub)

/-- In a log that makes sense the data after the last checkpoint is of transactions that had not
finished before. -/
theorem Required.not_finished {rs : List LogRecord} (hall : Stepwise (Follows F) rs)
    {r : LogRecord} (hdata : r.recordType.isData = true) (h : Required rs r) :
    ¬ Finished r.txId (beforeCheckpoint rs) := by
  rcases h with hafter | hnot
  · obtain ⟨rest, hrest⟩ := beforeCheckpoint_isPrefix rs
    have hdrop : (beforeCheckpoint rs ++ rest).drop (beforeCheckpoint rs).length = rest :=
      List.drop_left
    rw [hrest] at hdrop
    rw [hdrop] at hafter
    obtain ⟨rs₁, rs₂, rfl⟩ := List.append_of_mem hafter
    have hnext := hall (beforeCheckpoint rs ++ rs₁) r rs₂ (by rw [List.append_assoc, hrest])
    obtain ⟨-, hnot⟩ := hnext.2.2.1 (by simp [LogRecordType.inTransaction, hdata])
    exact fun hfinished => hnot (finished_append.mpr (.inl hfinished))
  · exact hnot

/-! ## The fold -/

/-- What recovery should have found in `rs`, which follow the removed records `rs₀`. -/
structure Found (F : LogFormat) (rs : List LogRecord) (s : RecoveryState) : Prop where
  txStatus : ∀ txId, s.txStatus.lookup txId =
    if Logs .commit txId rs then some true
    else if Logs .abort txId rs then none
    else if Logs .begin txId rs ∨ Listed F txId rs then some false
    else none
  txRecords : ∀ txId, s.txRecords.lookup txId =
    if Logs .abort txId rs then none
    else if Logs .begin txId rs then some (dataOf txId rs)
    else none

/-- What the checkpoint does to the table of the transactions. -/
theorem lookup_listActive (active : List UInt64) (status : Table UInt64 Bool) (txId : UInt64) :
    (active.foldl (fun status txId =>
        if txId ∈ status then status else status.insert txId false) status).lookup txId =
      if txId ∈ active ∧ status.lookup txId = none then some false else status.lookup txId := by
  induction active generalizing status with
  | nil => simp
  | cons t active ih =>
    rw [List.foldl_cons, ih]
    by_cases hmem : t ∈ status
    · rw [if_pos hmem]
      by_cases heq : txId = t
      · have hsome : status.lookup txId ≠ none := by
          rw [heq]
          exact Option.isSome_iff_ne_none.mp (AList.lookup_isSome.mpr hmem)
        simp [hsome]
      · simp [heq]
    · rw [if_neg hmem, Table.lookup_insert]
      by_cases heq : txId = t
      · subst heq
        have hnone : status.lookup txId = none := AList.lookup_eq_none.mpr hmem
        simp [hnone]
      · simp [heq]

theorem dataOf_concat (txId : UInt64) (rs : List LogRecord) (r : LogRecord) :
    dataOf txId (rs ++ [r]) =
      if r.recordType.isData = true ∧ r.txId = txId then dataOf txId rs ++ [r]
      else dataOf txId rs := by
  rw [dataOf, List.filter_append]
  by_cases h : r.recordType.isData = true ∧ r.txId = txId
  · simp [dataOf, h]
  · rw [if_neg h]
    simp only [not_and] at h
    simp [dataOf]
    exact h

section

variable {rs₀ rs : List LogRecord} {r : LogRecord} {s : RecoveryState}

theorem Follows.fresh (h : Follows F (rs₀ ++ rs) r) (hr : r.recordType = .begin)
    {recordType : LogRecordType} (hne : recordType ≠ .checkpoint) :
    ¬ Logs recordType r.txId (rs₀ ++ rs) := by
  rintro ⟨r', hmem, rfl, htx⟩
  rcases h.2.1 hr r' hmem with hcheckpoint | hother
  · exact hne hcheckpoint
  · exact hother htx

theorem dataOf_eq_nil {txId : UInt64} (h : ∀ r ∈ rs, r.recordType.isData = true → r.txId ≠ txId) :
    dataOf txId rs = [] := by
  refine List.filter_eq_nil_iff.mpr fun r hr => ?_
  simpa using h r hr

theorem dataOf_concat_of_not (rs : List LogRecord) (txId : UInt64)
    (hr : r.recordType.isData = false) : dataOf txId (rs ++ [r]) = dataOf txId rs := by
  rw [dataOf_concat, if_neg]
  simp [hr]

theorem Follows.inProgress (h : Follows F (rs₀ ++ rs) r) (hr : r.recordType.inTransaction = true) :
    ¬ Logs .commit r.txId rs ∧ ¬ Logs .abort r.txId rs := by
  obtain ⟨-, hnot⟩ := h.2.2.1 hr
  rw [finished_append] at hnot
  exact not_or.mp (not_or.mp hnot).2

theorem Found.begin (h : Found F rs s) (hnext : Follows F (rs₀ ++ rs) r)
    (hr : r.recordType = .begin) : Found F (rs ++ [r]) (s.process F r) := by
  have hfresh {recordType : LogRecordType} (hne : recordType ≠ .checkpoint) :
      ¬ Logs recordType r.txId rs := fun hlogs =>
    hnext.fresh hr hne (logs_append.mpr (.inr hlogs))
  have hdata : dataOf r.txId rs = [] := by
    refine dataOf_eq_nil fun r' hr' hd htx => ?_
    have hlogs : Logs r'.recordType r.txId rs := ⟨r', hr', rfl, htx⟩
    refine hfresh ?_ hlogs
    intro hcheckpoint
    rw [hcheckpoint] at hd
    cases hd
  have hlisted : r.listed F = [] := by simp [LogRecord.listed, hr]
  have hnot : r.recordType.isData = false := by rw [hr]; rfl
  refine ⟨fun txId => ?_, fun txId => ?_⟩
  · simp only [RecoveryState.process, hr, Table.lookup_insert, logs_append, logs_singleton,
      listed_append, listed_singleton, hlisted, h.txStatus txId]
    by_cases htx : txId = r.txId
    · subst htx
      simp [hfresh]
    · simp [htx, Ne.symm htx]
  · simp only [RecoveryState.process, hr, Table.lookup_insert, logs_append, logs_singleton,
      dataOf_concat_of_not rs txId hnot, h.txRecords txId]
    by_cases htx : txId = r.txId
    · subst htx
      simp [hfresh, hdata]
    · simp [htx, Ne.symm htx]

theorem Found.commit (h : Found F rs s) (hr : r.recordType = .commit) :
    Found F (rs ++ [r]) (s.process F r) := by
  have hlisted : r.listed F = [] := by simp [LogRecord.listed, hr]
  have hnot : r.recordType.isData = false := by rw [hr]; rfl
  refine ⟨fun txId => ?_, fun txId => ?_⟩
  · simp only [RecoveryState.process, hr, Table.lookup_insert, logs_append, logs_singleton,
      listed_append, listed_singleton, hlisted, h.txStatus txId]
    by_cases htx : txId = r.txId
    · subst htx
      simp
    · simp [htx, Ne.symm htx]
  · simp only [RecoveryState.process, hr, logs_append, logs_singleton,
      dataOf_concat_of_not rs txId hnot, h.txRecords txId]
    simp

theorem Found.abort (h : Found F rs s) (hnext : Follows F (rs₀ ++ rs) r)
    (hr : r.recordType = .abort) : Found F (rs ++ [r]) (s.process F r) := by
  obtain ⟨hcommit, -⟩ := hnext.inProgress (by rw [hr]; rfl)
  have hlisted : r.listed F = [] := by simp [LogRecord.listed, hr]
  have hnot : r.recordType.isData = false := by rw [hr]; rfl
  refine ⟨fun txId => ?_, fun txId => ?_⟩
  · simp only [RecoveryState.process, hr, logs_append, logs_singleton,
      listed_append, listed_singleton, hlisted]
    by_cases htx : txId = r.txId
    · subst htx
      simp [hcommit]
    · rw [AList.lookup_erase_ne htx, h.txStatus txId]
      simp [Ne.symm htx]
  · simp only [RecoveryState.process, hr, logs_append, logs_singleton,
      dataOf_concat_of_not rs txId hnot]
    by_cases htx : txId = r.txId
    · subst htx
      simp
    · rw [AList.lookup_erase_ne htx, h.txRecords txId]
      simp [Ne.symm htx]

theorem Found.data (h : Found F rs s) (hnext : Follows F (rs₀ ++ rs) r) (hbegin : AfterBegin rs r)
    (hr : r.recordType.isData = true) : Found F (rs ++ [r]) (s.process F r) := by
  obtain ⟨-, habort⟩ := hnext.inProgress (by simp [LogRecordType.inTransaction, hr])
  have hhas := hbegin hr
  have hlisted : r.listed F = [] := by
    unfold LogRecord.listed
    split
    · next heq => simp [heq, LogRecordType.isData] at hr
    · rfl
  have hlogs (recordType : LogRecordType) (hne : recordType.isData = false) (txId : UInt64) :
      Logs recordType txId (rs ++ [r]) ↔ Logs recordType txId rs := by
    rw [logs_append, logs_singleton, or_iff_left]
    rintro ⟨rfl, -⟩
    rw [hne] at hr
    cases hr
  have hrecords : s.txRecords.lookup r.txId = some (dataOf r.txId rs) := by
    rw [h.txRecords, if_neg habort, if_pos hhas]
  have hprocess : s.process F r =
      { s with
        recordsProcessed := s.recordsProcessed + 1
        maxLsn := max s.maxLsn r.lsn
        txRecords := s.txRecords.insert r.txId (dataOf r.txId rs ++ [r]) } := by
    unfold RecoveryState.process
    cases htype : r.recordType <;> simp [htype, LogRecordType.isData] at hr <;> simp [hrecords]
  rw [hprocess]
  refine ⟨fun txId => ?_, fun txId => ?_⟩
  · simp only [hlogs .commit rfl, hlogs .abort rfl,
      hlogs .begin rfl, listed_append, listed_singleton, hlisted, h.txStatus txId]
    simp
  · simp only [hlogs .abort rfl, hlogs .begin rfl,
      Table.lookup_insert, dataOf_concat, hr, h.txRecords txId]
    by_cases htx : txId = r.txId
    · subst htx
      simp [habort, hhas]
    · simp [htx, Ne.symm htx]

theorem Found.checkpoint (h : Found F rs s) (hnext : Follows F (rs₀ ++ rs) r)
    (hr : r.recordType = .checkpoint) : Found F (rs ++ [r]) (s.process F r) := by
  have hlogs (recordType : LogRecordType) (hne : recordType ≠ .checkpoint) (txId : UInt64) :
      Logs recordType txId (rs ++ [r]) ↔ Logs recordType txId rs := by
    rw [logs_append, logs_singleton, or_iff_left]
    rintro ⟨rfl, -⟩
    exact hne hr
  have hstatus (txId : UInt64) : (s.process F r).txStatus.lookup txId =
      if txId ∈ r.listed F ∧ s.txStatus.lookup txId = none then some false
      else s.txStatus.lookup txId := by
    unfold RecoveryState.process LogRecord.listed
    simp only [hr]
    cases F.deserialize r.data with
    | none => simp
    | some checkpoint => exact lookup_listActive _ _ _
  have hrecords : (s.process F r).txRecords = s.txRecords := by
    unfold RecoveryState.process
    simp only [hr]
    cases F.deserialize r.data <;> rfl
  refine ⟨fun txId => ?_, fun txId => ?_⟩
  · simp only [hstatus, hlogs .commit (by decide),
      hlogs .abort (by decide), hlogs .begin (by decide),
      listed_append, listed_singleton, h.txStatus txId]
    by_cases hmem : txId ∈ r.listed F
    · obtain ⟨-, hnot⟩ := hnext.2.2.2 txId hmem
      rw [finished_append] at hnot
      obtain ⟨hcommit, habort⟩ := not_or.mp (not_or.mp hnot).2
      simp only [hmem, hcommit, habort, if_false, true_and, or_true, if_true]
      split_ifs <;> simp_all
    · simp [hmem]
  · rw [hrecords, h.txRecords txId, dataOf_concat_of_not rs txId (by rw [hr]; rfl)]
    simp only [hlogs .abort (by decide), hlogs .begin (by decide)]

theorem Found.process (h : Found F rs s) (hnext : Follows F (rs₀ ++ rs) r)
    (hbegin : AfterBegin rs r) : Found F (rs ++ [r]) (s.process F r) := by
  cases hr : r.recordType with
  | begin => exact h.begin hnext hr
  | commit => exact h.commit hr
  | abort => exact h.abort hnext hr
  | insert | update | delete => exact h.data hnext hbegin (by rw [hr]; rfl)
  | checkpoint => exact h.checkpoint hnext hr
  | compensationLogRecord => exact absurd hr hnext.1

theorem found (hall : Stepwise (Follows F) (rs₀ ++ rs)) (hbegin : Stepwise AfterBegin rs) :
    Found F rs (rs.foldl (RecoveryState.process F) {}) := by
  induction rs using List.reverseRecOn with
  | nil => exact ⟨fun txId => by simp, fun txId => by simp⟩
  | append_singleton rs r ih =>
    rw [← List.append_assoc] at hall
    rw [List.foldl_append]
    exact (ih hall.of_append hbegin.of_append).process hall.last hbegin.last

end

/-! ## The result of a recovery -/

/-- Elements collected key by key are the elements with these keys. -/
theorem flatMap_filter_perm {α κ : Type*} [DecidableEq κ] (p : α → Bool) (key : α → κ)
    (l : List α) {keys : List κ} (hkeys : keys.Nodup) :
    (keys.flatMap fun k => l.filter fun a => p a && key a == k).Perm
      (l.filter fun a => p a && decide (key a ∈ keys)) := by
  induction keys with
  | nil => simp
  | cons k keys ih =>
    obtain ⟨hk, hkeys⟩ := List.nodup_cons.mp hkeys
    rw [List.flatMap_cons]
    refine ((ih hkeys).append_left _).trans ?_
    have hsplit := List.filter_append_perm (fun a => key a == k)
      (l.filter fun a => p a && decide (key a ∈ k :: keys))
    rw [List.filter_filter, List.filter_filter] at hsplit
    convert hsplit using 2
    · refine List.filter_congr fun a _ => ?_
      by_cases heq : key a = k
      · simp [heq]
      · simp [beq_eq_false_iff_ne.mpr heq]
    · refine List.filter_congr fun a _ => ?_
      by_cases heq : key a = k
      · simp [heq, hk]
      · simp [heq]

section

variable {rs₀ rs : List LogRecord}

theorem not_abort_of_commit (hall : Stepwise (Follows F) (rs₀ ++ rs)) {txId : UInt64}
    (h : Logs .commit txId rs) : ¬ Logs .abort txId rs := by
  induction rs using List.reverseRecOn with
  | nil => exact logs_nil
  | append_singleton rs r ih =>
    rw [← List.append_assoc] at hall
    have hlast := hall.last
    rw [logs_append, logs_singleton] at h ⊢
    rintro (habort | ⟨htype, rfl⟩)
    · rcases h with hcommit | ⟨htype, rfl⟩
      · exact ih hall.of_append hcommit habort
      · exact (hlast.inProgress (by rw [htype]; rfl)).2 habort
    · rcases h with hcommit | ⟨htype', -⟩
      · exact (hlast.inProgress (by rw [htype]; rfl)).1 hcommit
      · rw [htype] at htype'
        cases htype'

theorem begin_of_data (hbegin : Stepwise AfterBegin rs) {r : LogRecord} (hr : r ∈ rs)
    (hdata : r.recordType.isData = true) : Logs .begin r.txId rs := by
  obtain ⟨rs₁, rs₂, rfl⟩ := List.append_of_mem hr
  exact (hbegin rs₁ r rs₂ rfl hdata).mono fun r' hr' => List.mem_append_left _ hr'

/-- The redo records are the data of the committed transactions in their order. -/
theorem Found.redoRecords {s : RecoveryState} (h : Found F rs s)
    (hall : Stepwise (Follows F) (rs₀ ++ rs)) (hbegin : Stepwise AfterBegin rs)
    (hsorted : rs.Pairwise fun a b => a.lsn < b.lsn) {order : List UInt64}
    (horder : order.Perm s.txStatus.keys) :
    s.redoRecords order =
      rs.filter fun r => r.recordType.isData && decide (Logs .commit r.txId rs) := by
  have hcommitted (txId : UInt64) :
      txId ∈ order.filter (fun txId => s.txStatus.lookup txId = some true) ↔
        Logs .commit txId rs := by
    rw [List.mem_filter, horder.mem_iff, ← AList.mem_keys, ← AList.lookup_isSome, decide_eq_true_eq,
      h.txStatus txId]
    split_ifs <;> simp_all
  have hdata (txId : UInt64)
      (hmem : txId ∈ order.filter (fun txId => s.txStatus.lookup txId = some true)) :
      (s.txRecords.lookup txId).getD [] = dataOf txId rs := by
    rw [h.txRecords, if_neg (not_abort_of_commit hall ((hcommitted txId).mp hmem))]
    split_ifs with hb
    · rfl
    · refine (dataOf_eq_nil fun r hr hd htx => hb ?_).symm
      rw [← htx]
      exact begin_of_data hbegin hr hd
  have hnodup : (order.filter fun txId => s.txStatus.lookup txId = some true).Nodup :=
    (horder.nodup_iff.mpr s.txStatus.keys_nodup).filter _
  have hperm : ((order.filter fun txId => s.txStatus.lookup txId = some true).flatMap fun txId =>
      (s.txRecords.lookup txId).getD []).Perm
        (rs.filter fun r => r.recordType.isData && decide (Logs .commit r.txId rs)) := by
    rw [List.flatMap_congr hdata]
    refine (flatMap_filter_perm _ LogRecord.txId rs hnodup).trans (List.Perm.of_eq ?_)
    exact List.filter_congr fun r _ => by simp only [hcommitted]
  have hle : (rs.filter fun r => r.recordType.isData && decide (Logs .commit r.txId rs)).Pairwise
      fun a b => a.lsn ≤ b.lsn :=
    (hsorted.imp fun hlt => UInt64.le_of_lt hlt).sublist List.filter_sublist
  unfold RecoveryState.redoRecords
  -- both lists are sorted, and no two records have the same number
  refine List.Perm.eq_of_pairwise ?_ ?_ hle ((List.perm_insertionSort _ _).trans hperm)
  · intro a b ha hb hab hba
    have ha' : a ∈ rs := List.mem_of_mem_filter
      (hperm.mem_iff.mp ((List.mem_insertionSort _).mp ha))
    have hb' : b ∈ rs := List.mem_of_mem_filter hb
    have hdistinct : rs.Pairwise fun a b => a.lsn ≠ b.lsn :=
      hsorted.imp fun hlt => UInt64.ne_of_lt hlt
    have : Std.Symm fun a b : LogRecord => a.lsn ≠ b.lsn := ⟨fun a b h => h.symm⟩
    by_contra hne
    exact hdistinct.forall ha' hb' hne (UInt64.le_antisymm hab hba)
  · have : Std.Total fun a b : LogRecord => a.lsn ≤ b.lsn := ⟨fun a b => UInt64.le_total _ _⟩
    have : IsTrans LogRecord fun a b => a.lsn ≤ b.lsn := ⟨fun a b c => UInt64.le_trans⟩
    exact List.pairwise_insertionSort _ _

/-- A transaction that begins here, or is in progress at a checkpoint, was not finished before. -/
theorem not_finished_before (hall : Stepwise (Follows F) (rs₀ ++ rs)) {txId : UInt64}
    (h : Logs .begin txId rs ∨ Listed F txId rs) :
    Logs .begin txId (rs₀ ++ rs) ∧ ¬ Finished txId rs₀ := by
  rcases h with ⟨r, hr, htype, rfl⟩ | ⟨r, hr, hlisted⟩
  · obtain ⟨rs₁, rs₂, rfl⟩ := List.append_of_mem hr
    have hnext := hall (rs₀ ++ rs₁) r rs₂ (by rw [List.append_assoc])
    refine ⟨⟨r, List.mem_append_right _ hr, htype, rfl⟩, ?_⟩
    rintro (hcommit | habort)
    · exact hnext.fresh htype (by decide) (logs_append.mpr (.inl hcommit))
    · exact hnext.fresh htype (by decide) (logs_append.mpr (.inl habort))
  · obtain ⟨rs₁, rs₂, rfl⟩ := List.append_of_mem hr
    have hnext := hall (rs₀ ++ rs₁) r rs₂ (by rw [List.append_assoc])
    obtain ⟨hbegun, hnot⟩ := hnext.2.2.2 txId hlisted
    refine ⟨hbegun.mono fun r' hr' => ?_,
      fun hfinished => hnot (finished_append.mpr (.inl hfinished))⟩
    rw [← List.append_assoc]
    exact List.mem_append_left _ hr'

/-- The incomplete transactions are those that have begun and are not finished, if those that have
begun before are mentioned. -/
theorem Found.incompleteTransactions {s : RecoveryState} (h : Found F rs s)
    (hall : Stepwise (Follows F) (rs₀ ++ rs))
    (hmention : ∀ txId, Logs .begin txId rs₀ → ¬ Finished txId (rs₀ ++ rs) →
      Logs .begin txId rs ∨ Listed F txId rs) (txId : UInt64) :
    txId ∈ s.incompleteTransactions ↔
      Logs .begin txId (rs₀ ++ rs) ∧ ¬ Finished txId (rs₀ ++ rs) := by
  have hstatus : txId ∈ s.incompleteTransactions ↔ s.txStatus.lookup txId = some false := by
    rw [RecoveryState.incompleteTransactions, List.mem_toFinset, ← AList.mem_keys,
      ← AList.lookup_isSome, Table.lookup_filterValues]
    cases hlookup : s.txStatus.lookup txId with
    | none => simp
    | some committed => cases committed <;> simp
  have hfound : s.txStatus.lookup txId = some false ↔
      ¬ Finished txId rs ∧ (Logs .begin txId rs ∨ Listed F txId rs) := by
    rw [h.txStatus txId, Finished]
    split_ifs <;> simp_all
  rw [hstatus, hfound]
  constructor
  · rintro ⟨hnot, hmentioned⟩
    obtain ⟨hbegun, hbefore⟩ := not_finished_before hall hmentioned
    refine ⟨hbegun, fun hfinished => ?_⟩
    rcases finished_append.mp hfinished with h₀ | h₁
    · exact hbefore h₀
    · exact hnot h₁
  · rintro ⟨hbegun, hnot⟩
    refine ⟨fun hfinished => hnot (finished_append.mpr (.inr hfinished)), ?_⟩
    rcases logs_append.mp hbegun with h₀ | h₁
    · exact hmention txId h₀ hnot
    · exact .inl h₁

end

/-! ## Sequence numbers -/

/-- The largest sequence number, which is never allocated. -/
def lastLsn : UInt64 :=
  UInt64.ofNat (2 ^ 64 - 1)

theorem process_maxLsn (s : RecoveryState) (r : LogRecord) :
    (s.process F r).maxLsn = max s.maxLsn r.lsn := by
  unfold RecoveryState.process
  cases r.recordType with
  | begin | commit | abort | compensationLogRecord => rfl
  | insert | update | delete => dsimp only; split <;> rfl
  | checkpoint => dsimp only; split <;> rfl

/-- The highest sequence number that recovery finds is the highest one. -/
theorem maxLsn_foldl (rs : List LogRecord) (s : RecoveryState) :
    s.maxLsn ≤ (rs.foldl (RecoveryState.process F) s).maxLsn ∧
      (∀ r ∈ rs, r.lsn ≤ (rs.foldl (RecoveryState.process F) s).maxLsn) ∧
        ∀ bound, s.maxLsn < bound → (∀ r ∈ rs, r.lsn < bound) →
          (rs.foldl (RecoveryState.process F) s).maxLsn < bound := by
  induction rs generalizing s with
  | nil => exact ⟨UInt64.le_refl _, (fun r hr => nomatch hr), fun bound hb _ => hb⟩
  | cons r rs ih =>
    obtain ⟨hle, hmem, hlt⟩ := ih (s.process F r)
    have hmax : (s.process F r).maxLsn.toNat = max s.maxLsn.toNat r.lsn.toNat := by
      rw [process_maxLsn]
      show (if s.maxLsn ≤ r.lsn then r.lsn else s.maxLsn).toNat = _
      split_ifs with h <;> rw [UInt64.le_iff_toNat_le] at h <;> omega
    rw [List.foldl_cons]
    rw [UInt64.le_iff_toNat_le, hmax] at hle
    refine ⟨?_, fun r' hr' => ?_, fun bound hb hrs => hlt bound ?_ fun r' hr' =>
      hrs r' (List.mem_cons_of_mem _ hr')⟩
    · rw [UInt64.le_iff_toNat_le]
      omega
    · rcases List.mem_cons.mp hr' with rfl | hr'
      · rw [UInt64.le_iff_toNat_le]
        omega
      · exact hmem r' hr'
    · have hr := hrs r List.mem_cons_self
      rw [UInt64.lt_iff_toNat_lt] at hb hr ⊢
      omega

/-- After a recovery, the next sequence number is larger than all that were found. -/
theorem lt_lsnAfter {rs : List LogRecord} (hrs : ∀ r ∈ rs, r.lsn < lastLsn) :
    ∀ r ∈ rs, r.lsn <
      WriteAheadLog.lsnAfter (rs.foldl (RecoveryState.process F) {}).maxLsn := by
  obtain ⟨-, hmem, hlt⟩ := maxLsn_foldl (F := F) rs {}
  have hlast := hlt lastLsn (by decide) hrs
  intro r hr
  have hle := hmem r hr
  generalize (rs.foldl (RecoveryState.process F) {}).maxLsn = maxLsn at hlast hle
  have hafter : WriteAheadLog.lsnAfter maxLsn = max (maxLsn + 1) 1 := by
    unfold WriteAheadLog.lsnAfter
    rw [if_neg]
    exact UInt64.ne_of_lt hlast
  rw [hafter]
  have hnat : lastLsn.toNat = 2 ^ 64 - 1 := by decide
  have hsucc : (maxLsn + 1).toNat = maxLsn.toNat + 1 := by
    rw [UInt64.lt_iff_toNat_lt, hnat] at hlast
    rw [UInt64.toNat_add, Nat.mod_eq_of_lt]
    · rfl
    · have hone : (1 : UInt64).toNat = 1 := rfl
      omega
  have hmax : (maxLsn + 1).toNat ≤ (max (maxLsn + 1) 1).toNat := by
    show _ ≤ (if maxLsn + 1 ≤ 1 then 1 else maxLsn + 1).toNat
    split_ifs with h
    · exact UInt64.le_iff_toNat_le.mp h
    · exact Nat.le_refl _
  rw [UInt64.le_iff_toNat_le] at hle
  rw [UInt64.lt_iff_toNat_lt]
  omega

/-! ## Runs -/

/-- The action is one of the calls of the log's clients. -/
def WalAction.isCall : WalAction → Bool
  | .append _ => false
  | _ => true

def WalAction.isNew : WalAction → Bool
  | .new _ => true
  | _ => false

def WalAction.isTruncate : WalAction → Bool
  | .truncate => true
  | _ => false

namespace WalRun

open WriteAheadLog

variable {s s' : WalRun} {w w' : WriteAheadLog} {a : WalAction} {r : LogRecord}

/-- The records that a truncation would remove. -/
def removed (F : LogFormat) (w : WriteAheadLog) : List LogRecord :=
  WalDir.records F { segments := w.dir.segments.filterValues fun number _ => w.removes number }

def kept (F : LogFormat) (w : WriteAheadLog) : List LogRecord :=
  w.truncateBeforeCheckpoint.1.dir.records F

/-- A truncation that would remove the begin of a transaction keeps none of its data, every
transaction in progress is still mentioned, and only data of transactions that had finished before
the last checkpoint is removed. -/
def TruncatesSafely (F : LogFormat) (s : WalRun) (w : WriteAheadLog) : Prop :=
  (∀ r ∈ removed F w, r.recordType = .begin →
    ∀ r' ∈ kept F w ++ s.unflushed, r'.recordType.isData = true → r'.txId ≠ r.txId) ∧
  (∀ r ∈ s.history, r.recordType = .begin →
    Finished r.txId s.history ∨ Logs .begin r.txId (kept F w) ∨ Listed F r.txId (kept F w)) ∧
  ∀ r ∈ removed F w, r.recordType.isData = true → Finished r.txId (beforeCheckpoint s.history)

instance (s : WalRun) (w : WriteAheadLog) : Decidable (TruncatesSafely F s w) :=
  inferInstanceAs (Decidable ((∀ r ∈ removed F w, _ → ∀ r' ∈ kept F w ++ s.unflushed, _) ∧
    (∀ r ∈ s.history, _ → _) ∧ ∀ r ∈ removed F w, _ → _))

/-- The step is a call after which recovery finds what it should: records are appended safely, they
make sense behind what was logged, the sequence numbers do not run out, a log is created without
recovery only where there are no records, and truncation drops nothing that is needed. -/
def LogsSafely (F : LogFormat) (s : WalRun) (a : WalAction) : Prop :=
  AppendsSafely F s a ∧ a.isCall = true ∧ (a.isNew = true → s.dir.records F = []) ∧
    (∀ w ∈ s.wal, ∀ r ∈ a.record F w.currentLsn, w.currentLsn < lastLsn ∧
      Follows F (s.history ++ s.unflushed) r ∧ AfterBegin s.logged r) ∧
    (a.isTruncate = true → ∀ w ∈ s.wal, TruncatesSafely F s w)

instance (s : WalRun) (a : WalAction) : Decidable (LogsSafely F s a) :=
  inferInstanceAs (Decidable (_ ∧ _ ∧ (_ → _) ∧
    (∀ w ∈ s.wal, ∀ r ∈ a.record F w.currentLsn, _ ∧ _ ∧ _) ∧ (_ → ∀ w ∈ s.wal, _)))

/-- The log makes sense, and what recovery needs is there. -/
structure RecoveryInv (F : LogFormat) (s : WalRun) : Prop where
  consistent : Stepwise (Follows F) (s.history ++ s.unflushed)
  /-- The begin of a transaction is kept with its data. -/
  afterBegin : Stepwise AfterBegin s.logged
  mention : ∀ txId, Logs .begin txId s.history → ¬ Finished txId s.history →
    Logs .begin txId s.stored ∨ Listed F txId s.stored
  /-- What was truncated is settled by the last checkpoint. -/
  dropped : ∀ r ∈ s.history.take s.truncated, r.recordType.isData = true →
    Finished r.txId (beforeCheckpoint s.history)
  /-- The records are in the order of their sequence numbers. -/
  sorted : s.logged.Pairwise fun a b => a.lsn < b.lsn
  bound : ∀ r ∈ s.logged, r.lsn < lastLsn
  lsn : ∀ w, s.process = .running w → ∀ r ∈ s.logged, r.lsn < w.currentLsn

theorem RecoveryInv.mention_append (h : RecoveryInv F s) (rs : List LogRecord) (txId : UInt64)
    (hbegun : Logs .begin txId (s.history ++ rs)) (hnot : ¬ Finished txId (s.history ++ rs)) :
    Logs .begin txId (s.stored ++ rs) ∨ Listed F txId (s.stored ++ rs) := by
  rw [logs_append, listed_append]
  rw [finished_append, not_or] at hnot
  rcases logs_append.mp hbegun with hbegun | hbegun
  · rcases h.mention txId hbegun hnot.1 with hlogs | hlisted
    · exact .inl (.inl hlogs)
    · exact .inr (.inl hlisted)
  · exact .inl (.inr hbegun)

/-- Some of what was kept back reaches the disk, and the rest is lost or kept back. -/
theorem RecoveryInv.write (h : RecoveryInv F s) (htruncated : s.truncated ≤ s.history.length)
    {rs rs' : List LogRecord} (hrs : rs ++ rs' <+: s.unflushed) {process : WalProcess}
    (hprocess : ∀ w', process = .running w' → ∃ w, s.process = .running w ∧
      w'.currentLsn = w.currentLsn) :
    RecoveryInv F
      { s with
        process := process
        history := s.history ++ rs
        unflushed := rs' } := by
  have hlogged : WalRun.logged
      { s with process := process, history := s.history ++ rs, unflushed := rs' } =
        s.stored ++ (rs ++ rs') := by
    show (s.history ++ rs).drop s.truncated ++ rs' = _
    rw [List.drop_append_of_le_length htruncated, List.append_assoc]
    rfl
  have hfront : s.stored ++ (rs ++ rs') <+: s.logged := List.prefix_append_right_inj _ |>.mpr hrs
  refine
    { consistent := ?_
      afterBegin := ?_
      mention := fun txId hbegun hnot => ?_
      dropped := fun r hr hdata => ?_
      sorted := ?_
      bound := fun r hr => ?_
      lsn := fun w' hw' r hr => ?_ }
  · refine h.consistent.of_isPrefix ?_
    rw [List.append_assoc]
    exact (List.prefix_append_right_inj _).mpr hrs
  · rw [hlogged]
    exact h.afterBegin.of_isPrefix hfront
  · have hstored : WalRun.stored
        { s with process := process, history := s.history ++ rs, unflushed := rs' } =
          s.stored ++ rs := List.drop_append_of_le_length htruncated
    rw [hstored]
    exact h.mention_append rs txId hbegun hnot
  · change r ∈ (s.history ++ rs).take s.truncated at hr
    rw [List.take_append_of_le_length htruncated] at hr
    exact (h.dropped r hr hdata).mono (beforeCheckpoint_append s.history rs).subset
  · rw [hlogged]
    exact h.sorted.sublist hfront.sublist
  · rw [hlogged] at hr
    exact h.bound r (hfront.subset hr)
  · rw [hlogged] at hr
    obtain ⟨w, hw, heq⟩ := hprocess w' hw'
    rw [heq]
    exact h.lsn w hw r (hfront.subset hr)

/-- A record with the next sequence number that makes sense is appended. -/
theorem RecoveryInv.push (h : RecoveryInv F s) (hw : s.process = .running w)
    (hlsn : r.lsn = w.currentLsn) (hnext : w'.currentLsn = w.currentLsn + 1)
    (hlast : w.currentLsn < lastLsn) (hfollows : Follows F (s.history ++ s.unflushed) r)
    (hbegin : AfterBegin s.logged r) :
    RecoveryInv F { s with process := .running w', unflushed := s.unflushed ++ [r] } := by
  have hlogged : WalRun.logged { s with process := .running w', unflushed := s.unflushed ++ [r] } =
      s.logged ++ [r] := (List.append_assoc _ _ _).symm
  have hlt := h.lsn w hw
  have hsucc : w'.currentLsn.toNat = w.currentLsn.toNat + 1 := by
    have hnat : lastLsn.toNat = 2 ^ 64 - 1 := by decide
    have hone : (1 : UInt64).toNat = 1 := rfl
    rw [UInt64.lt_iff_toNat_lt, hnat] at hlast
    rw [hnext, UInt64.toNat_add, Nat.mod_eq_of_lt] <;> omega
  refine
    { consistent := ?_
      afterBegin := ?_
      mention := h.mention
      dropped := h.dropped
      sorted := ?_
      bound := fun r' hr' => ?_
      lsn := fun w₁ hw₁ r' hr' => ?_ }
  · rw [← List.append_assoc]
    exact h.consistent.concat hfollows
  · rw [hlogged]
    exact h.afterBegin.concat hbegin
  · rw [hlogged]
    refine List.pairwise_append.mpr ⟨h.sorted, List.pairwise_singleton _ _, ?_⟩
    intro r' hr' r'' hr''
    rw [List.mem_singleton.mp hr'', hlsn]
    exact hlt r' hr'
  · rw [hlogged] at hr'
    rcases List.mem_append.mp hr' with hr' | hr'
    · exact h.bound r' hr'
    · rw [List.mem_singleton.mp hr', hlsn]
      exact hlast
  · obtain rfl := WalProcess.running.inj hw₁
    rw [hlogged] at hr'
    rw [UInt64.lt_iff_toNat_lt]
    rcases List.mem_append.mp hr' with hr' | hr'
    · have := UInt64.lt_iff_toNat_lt.mp (hlt r' hr')
      omega
    · rw [List.mem_singleton.mp hr', hlsn]
      omega

theorem RecoveryInv.appended (h : RecoveryInv F s) (hfiles : FilesInv F s)
    (hw : s.process = .running w) (hlsn : r.lsn = w.currentLsn)
    (hnext : w'.currentLsn = w.currentLsn + 1) (hlast : w.currentLsn < lastLsn)
    (hfollows : Follows F (s.history ++ s.unflushed) r) (hbegin : AfterBegin s.logged r) :
    RecoveryInv F (s.appended F w w' r) := by
  unfold WalRun.appended
  split_ifs with hrot
  · have hwrite : RecoveryInv F { s with history := s.history ++ s.unflushed, unflushed := [] } :=
      h.write hfiles.truncated (by rw [List.append_nil]) fun w₁ hw₁ => ⟨w₁, hw₁, rfl⟩
    refine hwrite.push hw hlsn hnext hlast ?_ ?_
    · rwa [List.append_nil]
    · have hlogged : WalRun.logged { s with history := s.history ++ s.unflushed, unflushed := [] } =
          s.logged := by
        show (s.history ++ s.unflushed).drop s.truncated ++ [] = _
        rw [List.append_nil, hfiles.stored_append]
        rfl
      rwa [hlogged]
  · exact h.push hw hlsn hnext hlast hfollows hbegin

theorem RecoveryInv.truncate (h : RecoveryInv F s) (hfiles : FilesInv F s)
    (hw : s.process = .running w) (hsafe : TruncatesSafely F s w) :
    RecoveryInv F
      { s with
        process := .running w.truncateBeforeCheckpoint.1
        truncated := s.truncated + (removed F w).length } := by
  have hdir : s.dir = w.dir := by rw [dir, hw]; rfl
  have hdown : ∀ m n, m ≤ n → w.removes n = true → w.removes m = true := by
    intro m n hmn hn
    simp only [removes, Bool.and_eq_true, decide_eq_true_eq] at hn ⊢
    exact ⟨hn.1, by omega⟩
  have hsplit : s.stored = removed F w ++ kept F w := by
    rw [← hfiles.records, hdir]
    exact w.dir.records_filterValues hdown
  have hstored : WalRun.stored
      { s with
        process := .running w.truncateBeforeCheckpoint.1
        truncated := s.truncated + (removed F w).length } = kept F w := by
    show s.history.drop (s.truncated + (removed F w).length) = _
    have hdrop : s.history.drop s.truncated = s.stored := rfl
    rw [← List.drop_drop, hdrop, hsplit, List.drop_left]
  have hlogged : s.logged = removed F w ++ (kept F w ++ s.unflushed) := by
    rw [logged, hsplit, List.append_assoc]
  have hlogged' : WalRun.logged
      { s with
        process := .running w.truncateBeforeCheckpoint.1
        truncated := s.truncated + (removed F w).length } = kept F w ++ s.unflushed := by
    rw [logged, hstored]
  have hsub : ∀ r ∈ kept F w ++ s.unflushed, r ∈ s.logged := by
    intro r hr
    rw [hlogged]
    exact List.mem_append_right _ hr
  refine
    { consistent := h.consistent
      afterBegin := ?_
      mention := fun txId hbegun hnot => ?_
      dropped := fun r hr hdata => ?_
      sorted := ?_
      bound := fun r hr => h.bound r (hsub r (hlogged' ▸ hr))
      lsn := fun w₁ hw₁ r hr => ?_ }
  · rw [hlogged']
    intro rs₁ r rs₂ hrs hdata
    have hbegin := h.afterBegin (removed F w ++ rs₁) r rs₂ (by rw [hlogged, hrs]; simp) hdata
    rcases logs_append.mp hbegin with ⟨r', hr', htype, htx⟩ | hkept
    · have hr : r ∈ kept F w ++ s.unflushed := by
        rw [hrs]
        simp
      exact absurd htx.symm (hsafe.1 r' hr' htype r hr hdata)
    · exact hkept
  · rw [hstored]
    obtain ⟨r, hr, htype, rfl⟩ := hbegun
    exact (hsafe.2.1 r hr htype).resolve_left hnot
  · change r ∈ s.history.take (s.truncated + (removed F w).length) at hr
    have hdrop : s.history.drop s.truncated = removed F w ++ kept F w := hsplit
    rw [List.take_add, hdrop, List.take_left] at hr
    rcases List.mem_append.mp hr with hr | hr
    · exact h.dropped r hr hdata
    · exact hsafe.2.2 r hr hdata
  · rw [hlogged']
    have hsorted := h.sorted
    rw [hlogged] at hsorted
    exact (List.pairwise_append.mp hsorted).2.1
  · obtain rfl := WalProcess.running.inj hw₁
    exact h.lsn w hw r (hsub r (hlogged' ▸ hr))

/-- One action keeps what the recovery finds, by cases on the process. -/
theorem recoveryInv_step (h : RecoveryInv F s) (hfiles : FilesInv F s) (ha : LogsSafely F s a)
    (hstep : s.step F a = some s') : RecoveryInv F s' := by
  obtain ⟨happends, hcall, hnew, hrecord, htruncate⟩ := ha
  cases hp : s.process with
  | closed dir =>
    have hunflushed := hfiles.closed dir hp
    have hdir : s.dir = dir := by rw [WalRun.dir, hp]; rfl
    have hlogged : s.logged = dir.records F := by
      rw [logged, hunflushed, List.append_nil, ← hfiles.records, hdir]
    have hopen (w : WriteAheadLog) (hw : ∀ r ∈ s.logged, r.lsn < w.currentLsn) :
        RecoveryInv F { s with process := .running w } :=
      { h with
        lsn := fun w₁ hw₁ r hr => by
          obtain rfl := WalProcess.running.inj hw₁
          exact hw r hr }
    rcases step_closed hp hstep with ⟨syncOnCommit, rfl, rfl⟩ | ⟨syncOnCommit, rfl, rfl⟩
    · refine hopen _ fun r hr => ?_
      rw [hlogged, ← hdir, hnew rfl] at hr
      cases hr
    · refine hopen _ fun r hr => ?_
      have hbound := h.bound
      rw [hlogged] at hr hbound
      exact lt_lsnAfter hbound r hr
  | running w =>
    have hact : s.act F w a = some s' := by rwa [step, hp] at hstep
    have hwal : w ∈ s.wal := by simp [wal, hp]
    rcases act_cases hact with ⟨kept, -, rfl⟩ | ⟨-, rfl⟩ | ⟨rfl, rfl⟩ | ⟨r, w', hr, hlsn, hs'⟩
    · refine h.write hfiles.truncated ?_ ?_
      · rw [List.append_nil]
        exact FrameFormat.fitting_isPrefix _ _ _
      · intro w' hw'
        cases hw'
    · refine h.write hfiles.truncated (by rw [List.append_nil]) fun w' hw' => ⟨w, hp, ?_⟩
      obtain rfl := WalProcess.running.inj hw'
      rfl
    · exact h.truncate hfiles hp (htruncate rfl w hwal)
    · obtain ⟨hlast, hfollows, hbegin⟩ := hrecord w hwal r hr
      obtain ⟨hencodable, hwhole, hfree⟩ := happends w hwal r hr
      obtain ⟨hlsn, hnext⟩ : r.lsn = w.currentLsn ∧ w'.currentLsn = w.currentLsn + 1 := by
        rcases hlsn with rfl | hlsn
        · cases hcall
        · exact hlsn
      rcases hs' with ⟨rfl, -⟩ | ⟨rfl, hs'⟩
      · exact h.appended hfiles hp hlsn hnext hlast hfollows hbegin
      · have happended := h.appended hfiles hp hlsn hnext hlast hfollows hbegin
        have hprocess : (s.appended F w w' r).process = .running w' := by
          unfold WalRun.appended
          split <;> rfl
        have htruncated :
            (s.appended F w w' r).truncated ≤ (s.appended F w w' r).history.length := by
          have := hfiles.truncated
          unfold WalRun.appended
          split <;> simp only [List.length_append] <;> omega
        rw [flushed_appended s w (w.append F r) w' w' r]
        refine happended.write htruncated (by rw [List.append_nil]) fun w₁ hw₁ => ⟨w', hprocess, ?_⟩
        obtain rfl := WalProcess.running.inj hw₁
        rfl

theorem recoveryInv (h : (system F).Reach (LogsSafely F) s) : FilesInv F s ∧ RecoveryInv F s := by
  refine h.invariant (P := fun s => FilesInv F s ∧ RecoveryInv F s) ?_
    fun s a s' _ hinv ha hstep =>
      ⟨filesInv_step hinv.1 ha.1 hstep, recoveryInv_step hinv.2 hinv.1 ha hstep⟩
  refine ⟨filesInv .init, ?_⟩
  exact
    { consistent := .nil
      afterBegin := .nil
      mention := fun txId hbegun => absurd hbegun logs_nil
      dropped := fun r hr => nomatch hr
      sorted := List.Pairwise.nil
      bound := fun r hr => nomatch hr
      lsn := fun w hw => nomatch hw }

/-! ## Recovery finds what was logged -/

/-- Whatever the order in which the map of the transactions is walked, the redo records are the
data records on disk of the transactions whose commit is on disk, in the order in which they were
appended, none is missing that is still required after the last checkpoint, and the incomplete
transactions are those that have begun and were neither committed nor aborted. -/
def RecoversExactly (F : LogFormat) (s : WalRun) : Prop :=
  ∀ order : List UInt64, order.Perm (s.dir.recoveryState F).txStatus.keys →
    (recoverFromDirectory F s.dir order).redoRecords =
      s.stored.filter (fun r => r.recordType.isData && decide (Logs .commit r.txId s.stored)) ∧
    (∀ r ∈ s.history, r.recordType.isData = true → Logs .commit r.txId s.history →
      Required s.history r → r ∈ (recoverFromDirectory F s.dir order).redoRecords) ∧
    ∀ txId, txId ∈ (recoverFromDirectory F s.dir order).incompleteTransactions ↔
      Logs .begin txId s.history ∧ ¬ Logs .commit txId s.history ∧ ¬ Logs .abort txId s.history

/-- Recovery finds exactly what was logged in every state of every run of safe steps, over any
number of processes that may stop at any time. -/
theorem recovers_exactly (h : (system F).Reach (LogsSafely F) s) : RecoversExactly F s := by
  obtain ⟨hfiles, hinv⟩ := recoveryInv h
  have hhistory : s.history = s.history.take s.truncated ++ s.stored :=
    (List.take_append_drop _ _).symm
  have hall : Stepwise (Follows F) (s.history.take s.truncated ++ s.stored) := by
    rw [← hhistory]
    exact hinv.consistent.of_append
  have hbegin : Stepwise AfterBegin s.stored := hinv.afterBegin.of_append
  have hsorted : s.stored.Pairwise fun a b => a.lsn < b.lsn :=
    (List.pairwise_append.mp hinv.sorted).1
  have hfound := found hall hbegin
  intro order horder
  unfold WalDir.recoveryState at horder
  rw [hfiles.records] at horder
  have hstate : s.dir.recoveryState F = s.stored.foldl (RecoveryState.process F) {} := by
    rw [WalDir.recoveryState, hfiles.records]
  unfold recoverFromDirectory
  dsimp only
  rw [hstate]
  have hmention (txId : UInt64) (hbegun : Logs .begin txId (s.history.take s.truncated))
      (hnot : ¬ Finished txId (s.history.take s.truncated ++ s.stored)) :
      Logs .begin txId s.stored ∨ Listed F txId s.stored := by
    rw [← hhistory] at hnot
    exact hinv.mention txId (hbegun.mono fun r hr => List.mem_of_mem_take hr) hnot
  have hredo := hfound.redoRecords hall hbegin hsorted horder
  refine ⟨hredo, fun r hr hdata hcommit hrequired => ?_, fun txId => ?_⟩
  · have hconsistent : Stepwise (Follows F) s.history := hinv.consistent.of_append
    have hnot := hrequired.not_finished hconsistent hdata
    have hr : r ∈ s.stored := by
      rw [hhistory] at hr
      exact (List.mem_append.mp hr).resolve_left fun hr => hnot (hinv.dropped r hr hdata)
    rw [hredo, List.mem_filter, hdata, Bool.true_and, decide_eq_true_eq]
    refine ⟨hr, ?_⟩
    -- the commit comes after the data
    obtain ⟨rs₁, rs₂, hsplit⟩ := List.append_of_mem hr
    have hnext := hall (s.history.take s.truncated ++ rs₁) r rs₂ (by rw [hsplit, List.append_assoc])
    obtain ⟨-, hprogress⟩ := hnext.2.2.1 (by simp [LogRecordType.inTransaction, hdata])
    rw [hhistory] at hcommit
    refine (logs_append.mp hcommit).resolve_left fun hbefore => hprogress ?_
    exact finished_append.mpr (.inl (.inl hbefore))
  rw [hfound.incompleteTransactions hall hmention, ← hhistory, Finished, not_or]

/-- A committed and an aborted transaction, and one that is in progress at a checkpoint and when
the first of two processes stops. -/
def threeTransactions : List WalAction :=
  [.new true, .logBegin 1, .logInsert 1 (some 1) 0 [7], .logBegin 2, .logUpdate 2 (some 3) 0 [8],
    .logCheckpoint [1, 2] [0], .logCommit 1 2, .truncate, .logBegin 3, .flush, .stop 0,
    .openAndRecover true, .logAbort 2 4, .flush]

set_option maxRecDepth 20000 in
/-- After this run, recovery finds the data of the first transaction, and that the third one is
incomplete. -/
theorem recovers_exactly_threeTransactions : ∃ s, s.history.length = 8 ∧
    RecoversExactly .plain s := by
  have hrun : ((system .plain).run (LogsSafely .plain) threeTransactions).map
      (fun s => s.history.length) = some 8 := by
    decide +kernel
  obtain ⟨s, hs, hhistory⟩ := Option.map_eq_some_iff.mp hrun
  exact ⟨s, hhistory, recovers_exactly (System.reach_of_run hs)⟩

/-- The number of a committed transaction is used again by the next process. -/
def reusedNumber : List WalAction :=
  [.new true, .logBegin 1, .logInsert 1 (some 1) 0 [7], .logCommit 1 2, .stop 0,
    .openAndRecover true, .logBegin 1, .flush]

/-- Recovery loses the data of a committed transaction. -/
theorem not_recovers_exactly : ∃ s, (system .plain).Reach (fun _ a => a.isCall = true) s ∧
    ¬ RecoversExactly .plain s := by
  have hrun : ((system .plain).run (fun _ a => a.isCall = true) reusedNumber).map
      (fun s => ((recoverFromDirectory .plain s.dir
          (s.dir.recoveryState .plain).txStatus.keys).redoRecords,
        s.stored.filter fun r => r.recordType.isData && decide (Logs .commit r.txId s.stored))) =
          some ([], [.dataRecord 2 (some 1) 1 .insert 0 [7]]) := by
    decide +kernel
  obtain ⟨s, hs, hproj⟩ := Option.map_eq_some_iff.mp hrun
  obtain ⟨hredo, hdata⟩ := Prod.mk.inj hproj
  refine ⟨s, System.reach_of_run hs, fun hexact => ?_⟩
  have heq := (hexact _ (List.Perm.refl _)).1
  rw [hredo, hdata] at heq
  cases heq

end WalRun

end Storage

end AegisDB
