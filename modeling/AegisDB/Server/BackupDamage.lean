import AegisDB.Server.Backup

/-!
# Damaged backups

A restore checks some files of a backup before it copies them: all of them when there are at most
ten, and five of them when there are more.  A file that is not there, or cannot be read, passes the
check.  The copy ends at the first file that cannot be copied, and what was copied before stays.
-/

namespace AegisDB

namespace Server

variable {κ : Type*} (codec : BackupCodec κ) (env : BackupEnv κ)

/-- Some file of a backup is not there as it was made. -/
def Damaged (made found : Folder Bytes) (metadata : BackupMetadata) : Prop :=
  ∃ file ∈ metadata.files, found.entries.fileAt file.path ≠ made.entries.fileAt file.path

/-- A damaged backup does not verify and is not restored, unless by force, and a restore that fails
leaves the data as they were. -/
def Guarded (later : BackupManager) (made found : Folder Bytes) (metadata : BackupMetadata) :
    Prop :=
  (Damaged made found metadata →
    codec.verifyBackupIntegrity env found metadata = false ∧
      (∃ e, (codec.restoreBackup env later metadata.id false).2 = .error e) ∧
      (codec.restoreBackup env later metadata.id false).1.data = later.data) ∧
  ∀ force e, (codec.restoreBackup env later metadata.id force).2 = .error e →
    (codec.restoreBackup env later metadata.id force).1.data = later.data

/-- Some file that is checked can be read, and does not load as it was in the data. -/
def Caught (data found : Folder Bytes) (metadata : BackupMetadata) : Prop :=
  BackupCodec.keyError env metadata.encrypted = none ∧
    ∃ idx ∈ BackupCodec.filesToCheck metadata.files.length, ∃ file,
      metadata.files[idx]? = some file ∧ ∃ contents,
        found.entries.fileAt file.path = some contents ∧ env.openError file.path = none ∧
        ∀ plain, (backedUp data).entries.fileAt file.path = some plain →
          codec.loaded env metadata.encrypted contents ≠ .ok plain

/-- When some item cannot be restored, those before it are in the data as they would be restored. -/
def RestoredBefore (data found : Folder Bytes) (metadata : BackupMetadata) : Prop :=
  (∃ x ∈ (backedUp found).entries.items,
    Directory.doable (codec.restoreFile env metadata.encrypted) [] data.entries x = false) →
  ∀ x ∈ (backedUp found).entries.items.takeWhile
      (Directory.doable (codec.restoreFile env metadata.encrypted) [] data.entries),
    Directory.InPlace (codec.restoreFile env metadata.encrypted) [] data.entries x

section Damage

variable {codec env} {env' : BackupEnv κ} {m later : BackupManager} {timestamp : String}
  {encrypt : Bool} {nonce : List String → Nonce} {data made found : Folder Bytes}
  {metadata : BackupMetadata} {file : BackupFile}

theorem exists_of_mem_backupFiles (h : file ∈ codec.backupFiles data) :
    ∃ plain, data.entries.fileAt file.path = some plain ∧ file.checksum = codec.sha256Hex plain := by
  rw [BackupCodec.backupFiles, List.mem_filterMap] at h
  obtain ⟨⟨path, contents⟩, hmem, hfile⟩ := h
  cases contents with
  | none => cases hfile
  | some plain =>
    obtain rfl := Option.some.inj hfile
    exact ⟨plain, Directory.fileAt_of_mem_items data.nodup hmem, rfl⟩

/-- The check of a file fails just if the file can be read and does not load as it was. -/
theorem fileVerifies_eq_false_iff (hsha : Function.Injective codec.sha256Hex)
    {encrypted : Bool} (hfile : file ∈ codec.backupFiles data) :
    codec.fileVerifies env found encrypted file = false ↔
      ∃ contents, found.entries.fileAt file.path = some contents ∧
        env.openError file.path = none ∧
        ∀ plain, data.entries.fileAt file.path = some plain →
          codec.loaded env encrypted contents ≠ .ok plain := by
  obtain ⟨plain, hplain, hchecksum⟩ := exists_of_mem_backupFiles hfile
  simp only [hplain, Option.some.injEq, forall_eq']
  rw [BackupCodec.fileVerifies]
  cases hfound : found.entries.fileAt file.path with
  | none => simp
  | some contents =>
    cases hopen : env.openError file.path with
    | some e => simp
    | none =>
      cases hloaded : codec.loaded env encrypted contents with
      | error e => simp [hloaded]
      | ok bytes => simp [hloaded, hchecksum, hsha.eq_iff]

theorem verifyBackupIntegrity_eq_false_iff (hsha : Function.Injective codec.sha256Hex)
    (hfiles : metadata.files = codec.backupFiles (backedUp data)) :
    codec.verifyBackupIntegrity env found metadata = false ↔ Caught codec env data found metadata := by
  rw [BackupCodec.verifyBackupIntegrity, Caught]
  cases hkey : BackupCodec.keyError env metadata.encrypted with
  | some e => simp
  | none =>
    simp only [Option.isSome_none, Bool.false_eq_true, if_false, true_and, List.all_eq_false]
    refine exists_congr fun idx => and_congr_right fun _ => ?_
    cases hidx : metadata.files[idx]? with
    | none => simp
    | some file =>
      have hfile : file ∈ codec.backupFiles (backedUp data) :=
        hfiles ▸ List.mem_of_getElem? hidx
      simp only [Option.some.injEq, exists_eq_left', Bool.not_eq_true]
      exact fileVerifies_eq_false_iff hsha hfile

theorem of_createBackup {after : BackupManager}
    (h : codec.createBackup env m timestamp encrypt nonce = (after, .ok metadata)) :
    metadata.id = "backup_" ++ timestamp ∧ metadata.encrypted = encrypt ∧
      metadata.files = codec.backupFiles (backedUp m.data) := by
  rcases codec.createBackup_cases env m timestamp encrypt nonce with
    ⟨e, heq⟩ | ⟨backup, copied, -, -, ⟨e, -, heq⟩ | ⟨-, made, hid, hfiles, hencrypted, heq⟩⟩
  · rw [heq] at h
    cases h
  · rw [heq] at h
    cases h
  · rw [heq] at h
    cases h
    exact ⟨hid, hencrypted, hfiles⟩

theorem copyInto_unchanged_iff (f : List String → Bytes → Except FileError Bytes)
    (src t : Folder Bytes) :
    ((src.copyInto f t).2 ≠ none → (src.copyInto f t).1 = t) ↔
      ((∃ x ∈ src.entries.items, Directory.doable f [] t.entries x = false) →
        ∀ x ∈ src.entries.items.takeWhile (Directory.doable f [] t.entries),
          Directory.InPlace f [] t.entries x) := by
  have hsame : (src.copyInto f t).1 = t ↔ (Directory.copyInto f [] src.entries t.entries).1 =
      t.entries := by
    rw [Folder.copyInto]
    obtain ⟨entries, nodup⟩ := t
    simp
  have hfails : (src.copyInto f t).2 ≠ none ↔
      ∃ x ∈ src.entries.items, Directory.doable f [] t.entries x = false := by
    rw [Folder.copyInto, ne_eq, Directory.copyInto_succeeds_iff src.nodup]
    simp
  rw [hsame, hfails, Directory.copyInto_eq_iff src.nodup]

theorem restoreBackup_of_lookup (codec : BackupCodec κ) (env : BackupEnv κ) (force : Bool)
    (hid : validateName metadata.id = .ok ())
    (hfound : later.backups.lookup metadata.id = some ⟨found, some metadata⟩) :
    (∃ e, BackupCodec.keyError env metadata.encrypted = some e ∧
      codec.restoreBackup env later metadata.id force = (later, .error (.noKey e))) ∨
    BackupCodec.keyError env metadata.encrypted = none ∧
      (codec.verifyBackupIntegrity env found metadata = false ∧ force = false ∧
          codec.restoreBackup env later metadata.id force = (later, .error .integrityCheckFailed) ∨
        (codec.verifyBackupIntegrity env found metadata = true ∨ force = true) ∧
          ∃ copied, copied = (backedUp found).copyInto (codec.restoreFile env metadata.encrypted)
              later.data ∧
            (codec.restoreBackup env later metadata.id force).1.data = copied.1 ∧
            ((∃ e, (codec.restoreBackup env later metadata.id force).2 = .error e) ↔
              copied.2 ≠ none)) := by
  rw [BackupCodec.restoreBackup]
  simp only [hid, hfound]
  cases hkey : BackupCodec.keyError env metadata.encrypted with
  | some e => exact .inl ⟨e, rfl, rfl⟩
  | none =>
    refine .inr ⟨rfl, ?_⟩
    by_cases hcheck : codec.verifyBackupIntegrity env found metadata = false ∧ force = false
    · exact .inl ⟨hcheck.1, hcheck.2, by simp [hcheck]⟩
    · have hpass : codec.verifyBackupIntegrity env found metadata = true ∨ force = true := by
        rw [not_and_or, Bool.not_eq_false, Bool.not_eq_false] at hcheck
        exact hcheck
      have hif : ¬(!codec.verifyBackupIntegrity env found metadata && !force) = true := by
        rcases hpass with h | h <;> simp [h]
      refine .inr ⟨hpass, _, rfl, ?_⟩
      simp only [if_neg hif]
      cases ((backedUp found).copyInto (codec.restoreFile env metadata.encrypted) later.data).2 with
      | some e => simp
      | none => simp

/-- A backup is guarded just if each damage is caught by the check, and what is copied before the
first item that cannot be restored is in the data already. -/
theorem guarded_iff (hsha : Function.Injective codec.sha256Hex) {after : BackupManager}
    (hmade : codec.createBackup env' m timestamp encrypt nonce = (after, .ok metadata))
    (hid : validateName metadata.id = .ok ())
    (hfound : later.backups.lookup metadata.id = some ⟨found, some metadata⟩) :
    Guarded codec env later made found metadata ↔
      (Damaged made found metadata → Caught codec env m.data found metadata) ∧
      (BackupCodec.keyError env metadata.encrypted = none →
        RestoredBefore codec env later.data found metadata) := by
  have hverify : codec.verifyBackupIntegrity env found metadata = false ↔
      Caught codec env m.data found metadata :=
    verifyBackupIntegrity_eq_false_iff hsha (of_createBackup hmade).2.2
  have hcopied := copyInto_unchanged_iff (codec.restoreFile env metadata.encrypted)
    (backedUp found) later.data
  refine and_congr (forall_congr' fun _ => ?_) ?_
  · -- a backup that does not verify is not restored, and one that is caught does not verify
    rw [← hverify]
    refine and_iff_left_of_imp fun hfails => ?_
    rcases restoreBackup_of_lookup codec env false hid hfound with
      ⟨e, -, heq⟩ | ⟨-, ⟨-, -, heq⟩ | ⟨hpass, -⟩⟩
    · rw [heq]
      exact ⟨⟨_, rfl⟩, rfl⟩
    · rw [heq]
      exact ⟨⟨_, rfl⟩, rfl⟩
    · rw [hfails] at hpass
      exact absurd hpass (by simp)
  · rw [RestoredBefore, ← hcopied]
    constructor
    · intro hall hkey hfails
      rcases restoreBackup_of_lookup codec env true hid hfound with
        ⟨e, hkey', -⟩ | ⟨-, ⟨-, hforce, -⟩ | ⟨-, copied, rfl, hdata, herror⟩⟩
      · rw [hkey] at hkey'
        cases hkey'
      · cases hforce
      · obtain ⟨e, he⟩ := herror.2 hfails
        rw [← hdata]
        exact hall true e he
    · intro hall force e he
      rcases restoreBackup_of_lookup codec env force hid hfound with
        ⟨e', -, heq⟩ | ⟨hkey, ⟨-, -, heq⟩ | ⟨-, copied, rfl, hdata, herror⟩⟩
      · rw [heq]
      · rw [heq]
      · rw [hdata]
        exact hall hkey (herror.1 ⟨e, he⟩)

end Damage

/-! ## Damages that are not caught -/

theorem injective_tagCodec : Function.Injective BackupRun.tagCodec.sha256Hex := by
  intro bytes bytes' h
  have hchar : ∀ n < 256, (Char.ofNat n).toNat = n := by decide +kernel
  refine List.map_injective_iff.2 (fun b b' hb => ?_) (String.ofList_injective h)
  have hnat := congrArg Char.toNat hb
  rw [hchar _ b.toNat_lt, hchar _ b'.toNat_lt] at hnat
  exact UInt8.toNat_inj.1 hnat

namespace BackupRun

def backupOfBlock (encrypt : Bool) : BackupManager × Except BackupError BackupMetadata :=
  tagCodec.createBackup tagEnv ⟨oneBlock, ∅⟩ "20240101_000000" encrypt fun _ => zeroNonce

def metadataOfBlock (encrypt : Bool) : BackupMetadata where
  id := "backup_20240101_000000"
  files := tagCodec.backupFiles (backedUp oneBlock)
  encrypted := encrypt

theorem backupOfBlock_eq (encrypt : Bool) :
    tagCodec.createBackup tagEnv ⟨oneBlock, ∅⟩ "20240101_000000" encrypt (fun _ => zeroNonce) =
      ((backupOfBlock encrypt).1, .ok (metadataOfBlock encrypt)) := by
  cases encrypt <;> rfl

def filesOfBlock (encrypt : Bool) : Folder Bytes :=
  (((backupOfBlock encrypt).1.backups.lookup "backup_20240101_000000").map Backup.files).getD .empty

/-- A backup of one block whose files were replaced, and data with two blocks. -/
def replaced (encrypt : Bool) (found : Folder Bytes) : BackupManager where
  data := twoBlocks
  backups := (∅ : Table String Backup).insert "backup_20240101_000000"
    ⟨found, some (metadataOfBlock encrypt)⟩

def withoutBlock : Folder Bytes where
  entries := .dir "blocks" .nil (.file "kv_store.json" [1] .nil)
  nodup := by decide

/-- The files of the encrypted backup, of which the store of keys is cut off. -/
def withoutStore : Folder Bytes where
  entries := .dir "blocks" (.file "a" (zeroNonce.bytes ++ [7, 2]) .nil)
    (.file "kv_store.json" [] .nil)
  nodup := by decide

end BackupRun

section Replaced

open BackupRun

/-- An encrypted backup whose store of keys is cut off. -/
theorem guarded_iff_withoutStore :
    Guarded tagCodec tagEnv (replaced true withoutStore) (filesOfBlock true) withoutStore
        (metadataOfBlock true) ↔
      (Damaged (filesOfBlock true) withoutStore (metadataOfBlock true) →
        Caught tagCodec tagEnv oneBlock withoutStore (metadataOfBlock true)) ∧
      (BackupCodec.keyError tagEnv (metadataOfBlock true).encrypted = none →
        RestoredBefore tagCodec tagEnv twoBlocks withoutStore (metadataOfBlock true)) :=
  guarded_iff injective_tagCodec (backupOfBlock_eq true) (by decide +kernel) rfl

/-- A backup without one of its files verifies, and a restore by force that fails at the second file
has written the first. -/
theorem not_guarded :
    ¬Guarded tagCodec tagEnv (replaced false withoutBlock) (filesOfBlock false) withoutBlock
        (metadataOfBlock false) ∧
    ¬Guarded tagCodec tagEnv (replaced true withoutStore) (filesOfBlock true) withoutStore
        (metadataOfBlock true) := by
  refine ⟨fun h => ?_, fun h => ?_⟩
  · have hdamaged : Damaged (filesOfBlock false) withoutBlock (metadataOfBlock false) :=
      ⟨⟨["blocks", "a"], 1, tagCodec.sha256Hex [2]⟩, by decide +kernel, by decide +kernel⟩
    have hverifies : tagCodec.verifyBackupIntegrity tagEnv withoutBlock (metadataOfBlock false) =
        true := by decide +kernel
    rw [(h.1 hdamaged).1] at hverifies
    cases hverifies
  · have hdata := h.2 true
      (.copy (.contents ["kv_store.json"] (.cipher "Encrypted data too short: missing nonce")))
      (by decide +kernel)
    revert hdata
    decide +kernel

end Replaced

end Server

end AegisDB
