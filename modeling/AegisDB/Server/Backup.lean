import AegisDB.Library.Aead
import AegisDB.Library.Directory
import AegisDB.Library.Table
import AegisDB.Library.Transition

/-!
# Backups

A backup has copies of some directories and files of the data directory, encrypted or not.  Its name
is the second in which it is made, so two backups of one second are written over each other.  A
restore writes the files of a backup back, and removes nothing, so the data are as they were just if
they have no files that the backup does not have.
-/

namespace AegisDB

namespace Server

/-! ## Encryption -/

/-- What backups are made with: the encryption and the hash of bytes in hexadecimal digits. -/
structure BackupCodec (κ : Type*) where
  cipher : Aes256Gcm κ
  sha256Hex : Bytes → String

/-- What an operation finds in its surroundings.  Listing and making directories, and writing to a
file that is open, are taken to succeed. -/
structure BackupEnv (κ : Type*) where
  encryptionKey : Except String κ
  openError : List String → Option String
  createError : List String → Option String

/-- Why a file is not copied. -/
inductive FileError where
  | opening (error : String)
  | cipher (error : String)
  | creating (error : String)
deriving DecidableEq

namespace BackupCodec

variable {κ : Type*} (codec : BackupCodec κ) (env : BackupEnv κ)

/-- Encrypt data, with the nonce before them. -/
def encryptAes256gcm (nonce : Nonce) (plaintext : Bytes) : Except String Bytes :=
  match env.encryptionKey with
  | .error e => .error e
  | .ok key =>
      match codec.cipher.encrypt key nonce.bytes plaintext with
      | .error e => .error ("Encryption failed: " ++ e)
      | .ok ciphertext => .ok (nonce.bytes ++ ciphertext)

/-- Decrypt data that have their nonce before them. -/
def decryptAes256gcm (encryptedData : Bytes) : Except String Bytes :=
  if encryptedData.length < 12 then .error "Encrypted data too short: missing nonce"
  else
    match env.encryptionKey with
    | .error e => .error e
    | .ok key =>
        match codec.cipher.decrypt key (encryptedData.take 12) (encryptedData.drop 12) with
        | .error e => .error ("Decryption failed: " ++ e ++
            ". Ensure AEGIS_ENCRYPTION_KEY matches the key used during backup.")
        | .ok plaintext => .ok plaintext

/-- The bytes that are stored for the contents of a file. -/
def stored (encrypt : Bool) (nonce : Nonce) (contents : Bytes) : Except String Bytes :=
  if encrypt then codec.encryptAes256gcm env nonce contents else .ok contents

/-- The contents of a file for the bytes that are stored. -/
def loaded (encrypted : Bool) (contents : Bytes) : Except String Bytes :=
  if encrypted then codec.decryptAes256gcm env contents else .ok contents

/-- Open a file, convert its contents and create the file to be written. -/
def transfer (convert : Bytes → Except String Bytes) (path : List String) (contents : Bytes) :
    Except FileError Bytes :=
  match env.openError path with
  | some e => .error (.opening e)
  | none =>
      match convert contents with
      | .error e => .error (.cipher e)
      | .ok data =>
          match env.createError path with
          | some e => .error (.creating e)
          | none => .ok data

/-- Copy a single file, optionally encrypting it. -/
def copyFile (encrypt : Bool) (nonce : List String → Nonce) (path : List String)
    (contents : Bytes) : Except FileError Bytes :=
  transfer env (codec.stored env encrypt (nonce path)) path contents

/-- Restore a single file, optionally decrypting it. -/
def restoreFile (encrypted : Bool) (path : List String) (contents : Bytes) :
    Except FileError Bytes :=
  transfer env (codec.loaded env encrypted) path contents

end BackupCodec

/-! ## Names -/

/-- Why a name was rejected. -/
inductive NameError where
  | empty | tooLong | invalidCharacter | reserved
deriving DecidableEq

/-- Accept names of letters, digits and the marks `_`, `-` and `.`, but not `.` and `..`. -/
def validateName (name : String) : Except NameError Unit :=
  if name.isEmpty then .error .empty
  else if name.utf8ByteSize > 128 then .error .tooLong
  else if name.toList.all fun c => c.isAlphanum || c = '_' || c = '-' || c = '.' then
    if name = "." || name = ".." then .error .reserved else .ok ()
  else .error .invalidCharacter

/-! ## Backups -/

def dirsToBackup : List String :=
  ["blocks", "wal", "documents"]

def filesToBackup : List String :=
  ["kv_store.json", "sql_tables.json"]

/-- What of a directory is backed up, or restored. -/
def backedUp (t : Folder Bytes) : Folder Bytes where
  entries := Directory.dirsOf dirsToBackup t.entries (Directory.filesOf filesToBackup t.entries)
  nodup := by
    refine Directory.nodup_dirsOf t.nodup (by decide) (Directory.nodup_filesOf (by decide))
      fun name hname => ?_
    have hother : name ∉ filesToBackup := by
      intro h
      simp only [dirsToBackup, filesToBackup, List.mem_cons, List.not_mem_nil, or_false]
        at hname h
      rcases hname with rfl | rfl | rfl <;> simp at h
    rw [Directory.find_filesOf]
    match t.entries.find name with
    | none => rfl
    | some (.inl contents) => exact if_neg hother
    | some (.inr sub) => rfl

/-- Information about a file in the backup. -/
structure BackupFile where
  path : List String
  sizeBytes : ℕ
  checksum : String
deriving DecidableEq

/-- Backup metadata stored with each backup. -/
structure BackupMetadata where
  id : String
  files : List BackupFile
  encrypted : Bool
deriving DecidableEq

/-- The directory of a backup, with its metadata when they can be read. -/
structure Backup where
  files : Folder Bytes
  metadata : Option BackupMetadata
deriving DecidableEq

/-- The data directory, and the directories of backups. -/
structure BackupManager where
  data : Folder Bytes
  backups : Table String Backup

/-- Why a backup is not made or not restored. -/
inductive BackupError where
  | invalidId (error : NameError)
  | notFound
  | unreadableMetadata
  | noKey (error : String)
  | integrityCheckFailed
  | copy (error : Directory.CopyError FileError)
deriving DecidableEq

namespace BackupCodec

variable {κ : Type*} (codec : BackupCodec κ) (env : BackupEnv κ)

/-- The files of a directory, with the checksums of their contents. -/
def backupFiles (t : Folder Bytes) : List BackupFile :=
  t.entries.items.filterMap fun item => item.2.map fun contents =>
    { path := item.1, sizeBytes := contents.length, checksum := codec.sha256Hex contents }

/-- Whether a backup that is encrypted or not lacks its key. -/
def keyError (encrypted : Bool) : Option String :=
  if encrypted then
    match env.encryptionKey with
    | .error e => some e
    | .ok _ => none
  else none

/-- Create a new backup at a time. -/
def createBackup (m : BackupManager) (timestamp : String) (encrypt : Bool)
    (nonce : List String → Nonce) : BackupManager × Except BackupError BackupMetadata :=
  match keyError env encrypt with
  | some e => (m, .error (.noKey e))
  | none =>
      let backupId := "backup_" ++ timestamp
      -- the directory of the backup is used as it is, if there is one
      let backup := (m.backups.lookup backupId).getD ⟨.empty, none⟩
      let copied := (backedUp m.data).copyInto (codec.copyFile env encrypt nonce) backup.files
      match copied.2 with
      | some e =>
          ({ m with backups := m.backups.insert backupId { backup with files := copied.1 } },
            .error (.copy e))
      | none =>
          let metadata : BackupMetadata :=
            { id := backupId, files := codec.backupFiles (backedUp m.data), encrypted := encrypt }
          ({ m with backups := m.backups.insert backupId ⟨copied.1, some metadata⟩ }, .ok metadata)

/-- The files that are checked of a number of files. -/
def filesToCheck (files : ℕ) : List ℕ :=
  if files > 10 then [0, files - 1, files / 2, files / 4, 3 * files / 4] else List.range files

/-- Whether the check of a file finds nothing wrong.  A file that is not there, or cannot be read, is
left out. -/
def fileVerifies (backup : Folder Bytes) (encrypted : Bool) (file : BackupFile) : Bool :=
  match backup.entries.fileAt file.path with
  | none => true
  | some contents =>
      if (env.openError file.path).isSome then true
      else
        match codec.loaded env encrypted contents with
        | .error _ => false
        | .ok data => codec.sha256Hex data = file.checksum

/-- Verify backup integrity by checking file checksums. -/
def verifyBackupIntegrity (backup : Folder Bytes) (metadata : BackupMetadata) : Bool :=
  if (keyError env metadata.encrypted).isSome then true
  else (filesToCheck metadata.files.length).all fun idx =>
    match metadata.files[idx]? with
    | none => true
    | some file => codec.fileVerifies env backup metadata.encrypted file

/-- Restore from a backup. -/
def restoreBackup (m : BackupManager) (backupId : String) (force : Bool) :
    BackupManager × Except BackupError ℕ :=
  match validateName backupId with
  | .error e => (m, .error (.invalidId e))
  | .ok _ =>
      match m.backups.lookup backupId with
      | none => (m, .error .notFound)
      | some ⟨_, none⟩ => (m, .error .unreadableMetadata)
      | some ⟨files, some metadata⟩ =>
          match keyError env metadata.encrypted with
          | some e => (m, .error (.noKey e))
          | none =>
              if !codec.verifyBackupIntegrity env files metadata && !force then
                (m, .error .integrityCheckFailed)
              else
                let restored :=
                  (backedUp files).copyInto (codec.restoreFile env metadata.encrypted) m.data
                match restored.2 with
                | some e => ({ m with data := restored.1 }, .error (.copy e))
                | none => ({ m with data := restored.1 },
                    .ok ((backedUp files).entries.items.countP fun item => item.2.isSome))

/-- Delete a backup. -/
def deleteBackup (m : BackupManager) (backupId : String) :
    BackupManager × Except BackupError Unit :=
  match validateName backupId with
  | .error e => (m, .error (.invalidId e))
  | .ok _ =>
      if backupId ∈ m.backups then ({ m with backups := m.backups.erase backupId }, .ok ())
      else (m, .error .notFound)

/-! ## What operations do -/

section Operations

variable {codec env} {m m' : BackupManager} {timestamp backupId : String} {encrypt force : Bool}
  {nonce : List String → Nonce} {path : List String} {contents data : Bytes}

/-- What is stored loads as what it was, under any key under which it loads. -/
theorem eq_of_loaded {env' : BackupEnv κ} {n : Nonce} {bytes : Bytes}
    (hstored : codec.stored env encrypt n contents = .ok bytes)
    (hloaded : codec.loaded env' encrypt bytes = .ok data) : data = contents := by
  cases encrypt with
  | false =>
    obtain rfl := Except.ok.inj hstored
    exact (Except.ok.inj hloaded).symm
  | true =>
    simp only [stored, if_true, encryptAes256gcm] at hstored
    cases hkey : env.encryptionKey with
    | error e => simp [hkey] at hstored
    | ok key =>
      cases hencrypt : codec.cipher.encrypt key n.bytes contents with
      | error e => simp [hkey, hencrypt] at hstored
      | ok ciphertext =>
        simp only [hkey, hencrypt, Except.ok.injEq] at hstored
        subst hstored
        have htake : (n.bytes ++ ciphertext).take 12 = n.bytes := List.take_left' n.length_eq
        have hdrop : (n.bytes ++ ciphertext).drop 12 = ciphertext := List.drop_left' n.length_eq
        simp only [loaded, if_true, decryptAes256gcm, htake, hdrop] at hloaded
        split_ifs at hloaded
        cases hkey' : env'.encryptionKey with
        | error e => simp [hkey'] at hloaded
        | ok key' =>
          cases hdecrypt : codec.cipher.decrypt key' n.bytes ciphertext with
          | error e => simp [hkey', hdecrypt] at hloaded
          | ok plaintext =>
            simp only [hkey', hdecrypt, Except.ok.injEq] at hloaded
            obtain rfl := codec.cipher.authentic hencrypt hdecrypt
            rw [codec.cipher.decrypt_encrypt hencrypt] at hdecrypt
            rw [← hloaded, Except.ok.inj hdecrypt]

theorem converted_of_transfer {convert : Bytes → Except String Bytes}
    (h : transfer env convert path contents = .ok data) : convert contents = .ok data := by
  rw [transfer] at h
  cases hopen : env.openError path with
  | some e => simp [hopen] at h
  | none =>
    cases hconvert : convert contents with
    | error e => simp [hopen, hconvert] at h
    | ok bytes =>
      cases hcreate : env.createError path with
      | some e => simp [hopen, hconvert, hcreate] at h
      | none =>
        simp only [hopen, hconvert, hcreate, Except.ok.injEq] at h
        rw [h]

theorem createBackup_cases (codec : BackupCodec κ) (env : BackupEnv κ) (m : BackupManager)
    (timestamp : String) (encrypt : Bool) (nonce : List String → Nonce) :
    (∃ e, codec.createBackup env m timestamp encrypt nonce = (m, .error (.noKey e))) ∨
    ∃ backup copied, backup = (m.backups.lookup ("backup_" ++ timestamp)).getD ⟨.empty, none⟩ ∧
      copied = (backedUp m.data).copyInto (codec.copyFile env encrypt nonce) backup.files ∧
      ((∃ e, copied.2 = some e ∧ codec.createBackup env m timestamp encrypt nonce =
          (⟨m.data, m.backups.insert ("backup_" ++ timestamp) ⟨copied.1, backup.metadata⟩⟩,
            .error (.copy e))) ∨
        (copied.2 = none ∧ ∃ metadata : BackupMetadata, metadata.id = "backup_" ++ timestamp ∧
          metadata.files = codec.backupFiles (backedUp m.data) ∧ metadata.encrypted = encrypt ∧
          codec.createBackup env m timestamp encrypt nonce =
            (⟨m.data, m.backups.insert ("backup_" ++ timestamp) ⟨copied.1, some metadata⟩⟩,
              .ok metadata))) := by
  rw [createBackup]
  cases hkey : keyError env encrypt with
  | some e => exact .inl ⟨e, rfl⟩
  | none =>
    refine .inr ⟨_, _, rfl, rfl, ?_⟩
    dsimp only
    cases hcopied : ((backedUp m.data).copyInto (codec.copyFile env encrypt nonce)
        ((m.backups.lookup ("backup_" ++ timestamp)).getD ⟨.empty, none⟩).files).2 with
    | some e => exact .inl ⟨e, rfl, rfl⟩
    | none => exact .inr ⟨rfl, _, rfl, rfl, rfl, rfl⟩

theorem restoreBackup_ok {n : ℕ} (h : (codec.restoreBackup env m backupId force).2 = .ok n) :
    ∃ files metadata, m.backups.lookup backupId = some ⟨files, some metadata⟩ ∧
      ((backedUp files).copyInto (codec.restoreFile env metadata.encrypted) m.data).2 = none ∧
      (codec.restoreBackup env m backupId force).1 =
        ⟨((backedUp files).copyInto (codec.restoreFile env metadata.encrypted) m.data).1,
          m.backups⟩ := by
  rw [restoreBackup] at h ⊢
  cases hname : validateName backupId with
  | error e => simp [hname] at h
  | ok _ =>
    match hlookup : m.backups.lookup backupId with
    | none => simp [hname, hlookup] at h
    | some ⟨_, none⟩ => simp [hname, hlookup] at h
    | some ⟨files, some metadata⟩ =>
      refine ⟨files, metadata, rfl, ?_⟩
      cases hkey : keyError env metadata.encrypted with
      | some e => simp [hname, hlookup, hkey] at h
      | none =>
        simp only [hname, hlookup, hkey] at h ⊢
        split_ifs at h ⊢
        cases hcopied : ((backedUp files).copyInto (codec.restoreFile env metadata.encrypted)
            m.data).2 with
        | some e => simp [hcopied] at h
        | none => exact ⟨rfl, rfl⟩

end Operations

end BackupCodec

def isBackedUp : List String → Bool
  | [] => false
  | [name] => filesToBackup.contains name
  | name :: _ :: _ => dirsToBackup.contains name

theorem fileAt_backedUp (t : Folder Bytes) (q : List String) :
    (backedUp t).entries.fileAt q = if isBackedUp q then t.entries.fileAt q else none := by
  have hother : ∀ name ∈ dirsToBackup, name ∉ filesToBackup := by decide
  cases q with
  | nil => rfl
  | cons name q =>
    rw [Directory.fileAt_cons, Directory.fileAt_cons, backedUp, Directory.find_dirsOf,
      Directory.find_filesOf]
    match hfind : t.entries.find name with
    | none => simp
    | some (.inl contents) =>
      cases q with
      | nil => by_cases hname : name ∈ filesToBackup <;> simp [isBackedUp, hname]
      | cons name' q => by_cases hname : name ∈ filesToBackup <;> simp [hname]
    | some (.inr sub) =>
      cases q with
      | nil => by_cases hname : name ∈ dirsToBackup <;> simp [hname]
      | cons name' q => by_cases hname : name ∈ dirsToBackup <;> simp [isBackedUp, hname]

/-! ## Runs -/

/-- The data and the backups, with the data of which each backup was made. -/
structure BackupRun where
  manager : BackupManager
  taken : Table String (Folder Bytes)

/-- What happens to the data and the backups. -/
inductive BackupAction (κ : Type*) where
  | changeData (data : Folder Bytes)
  | createBackup (env : BackupEnv κ) (timestamp : String) (encrypt : Bool)
      (nonce : List String → Nonce)
  | restoreBackup (env : BackupEnv κ) (backupId : String) (force : Bool)
  | deleteBackup (backupId : String)

namespace BackupRun

variable {κ : Type*} (codec : BackupCodec κ)

def new : BackupRun where
  manager := ⟨.empty, ∅⟩
  taken := ∅

def step (s : BackupRun) : BackupAction κ → BackupRun
  | .changeData data => { s with manager := { s.manager with data := data } }
  | .createBackup env timestamp encrypt nonce =>
      let created := codec.createBackup env s.manager timestamp encrypt nonce
      match created.2 with
      | .ok metadata => ⟨created.1, s.taken.insert metadata.id s.manager.data⟩
      | .error _ => { s with manager := created.1 }
  | .restoreBackup env backupId force =>
      { s with manager := (codec.restoreBackup env s.manager backupId force).1 }
  | .deleteBackup backupId =>
      { s with manager := (BackupCodec.deleteBackup s.manager backupId).1 }

/-- The runs of backups, from a state without any. -/
def system : System BackupRun (BackupAction κ) where
  init := new
  step s a := some (s.step codec a)

/-- A new backup is made in a second of which there is none. -/
def FreshId (s : BackupRun) : BackupAction κ → Prop
  | .createBackup _ timestamp _ _ => s.manager.backups.lookup ("backup_" ++ timestamp) = none
  | _ => True

/-- A backup has the files of the data of which it was made, and no others. -/
def Holds (files : Folder Bytes) (encrypted : Bool) (taken : Folder Bytes) : Prop :=
  ∀ q, (∃ env nonce contents bytes, (backedUp taken).entries.fileAt q = some contents ∧
      codec.stored env encrypted nonce contents = .ok bytes ∧
      files.entries.fileAt q = some bytes) ∨
    (backedUp taken).entries.fileAt q = none ∧ files.entries.fileAt q = none

/-- Each backup that was made has the files of its data. -/
def Intact (s : BackupRun) : Prop :=
  ∀ id files metadata, s.manager.backups.lookup id = some ⟨files, some metadata⟩ →
    ∃ taken, s.taken.lookup id = some taken ∧ Holds codec files metadata.encrypted taken

/-- The parts of the data that are backed up are those of other data. -/
def SameParts (data data' : Folder Bytes) : Prop :=
  ∀ q, (backedUp data).entries.fileAt q = (backedUp data').entries.fileAt q

/-- The parts of the data that are backed up have no files that other data do not have. -/
def NoOtherFiles (data data' : Folder Bytes) : Prop :=
  ∀ q, (backedUp data').entries.fileAt q = none → (backedUp data).entries.fileAt q = none

/-- A new backup leaves the others as they are, and a restore that succeeds makes the parts what they
were when the backup was made. -/
def Exact (s : BackupRun) : BackupAction κ → Prop
  | .createBackup env timestamp encrypt nonce => ∀ id b, s.manager.backups.lookup id = some b →
      (s.step codec (.createBackup env timestamp encrypt nonce)).manager.backups.lookup id = some b
  | .restoreBackup env backupId force =>
      (∃ n, (codec.restoreBackup env s.manager backupId force).2 = .ok n) →
        ∃ taken, s.taken.lookup backupId = some taken ∧
          SameParts (s.step codec (.restoreBackup env backupId force)).manager.data taken
  | _ => True

/-- A new backup is made in a second of which there is none, and a backup is restored over data that
have no files that it does not have. -/
def Orderly (s : BackupRun) : BackupAction κ → Prop
  | .createBackup _ timestamp _ _ => s.manager.backups.lookup ("backup_" ++ timestamp) = none
  | .restoreBackup _ backupId _ =>
      ∀ taken, s.taken.lookup backupId = some taken → NoOtherFiles s.manager.data taken
  | _ => True

section Runs

variable {codec} {s : BackupRun} {env : BackupEnv κ} {m : BackupManager} {id backupId : String}
  {encrypt force : Bool} {timestamp : String} {nonce : List String → Nonce}

theorem holds_of_copied {data : Folder Bytes}
    (h : ((backedUp data).copyInto (codec.copyFile env encrypt nonce) .empty).2 = none) :
    Holds codec ((backedUp data).copyInto (codec.copyFile env encrypt nonce) .empty).1 encrypt
      data := by
  intro q
  rcases Directory.fileAt_copyInto (backedUp data).nodup h q with
    ⟨contents, bytes, hfile, hcopied, hstored⟩ | ⟨hnone, hcopied⟩
  · exact .inl ⟨env, _, contents, bytes, hfile, BackupCodec.converted_of_transfer hcopied, hstored⟩
  · exact .inr ⟨hnone, hcopied.trans Directory.nil_fileAt⟩

theorem backups_restoreBackup :
    (codec.restoreBackup env m backupId force).1.backups = m.backups := by
  rw [BackupCodec.restoreBackup]
  cases validateName backupId with
  | error e => rfl
  | ok _ =>
    match m.backups.lookup backupId with
    | none => rfl
    | some ⟨_, none⟩ => rfl
    | some ⟨files, some metadata⟩ =>
      cases hkey : BackupCodec.keyError env metadata.encrypted with
      | some e => simp only [hkey]
      | none =>
        simp only [hkey]
        split_ifs
        · rfl
        · cases ((backedUp files).copyInto (codec.restoreFile env metadata.encrypted) m.data).2 with
          | some e => rfl
          | none => rfl

theorem lookup_of_deleteBackup {b : Backup}
    (h : (BackupCodec.deleteBackup m backupId).1.backups.lookup id = some b) :
    m.backups.lookup id = some b := by
  rw [BackupCodec.deleteBackup] at h
  cases hname : validateName backupId with
  | error e => simpa [hname] using h
  | ok _ =>
    simp only [hname] at h
    split_ifs at h
    · exact Table.lookup_of_lookup_erase h
    · exact h

theorem lookup_createBackup (hfresh : m.backups.lookup ("backup_" ++ timestamp) = none) {b : Backup}
    (h : m.backups.lookup id = some b) :
    (codec.createBackup env m timestamp encrypt nonce).1.backups.lookup id = some b := by
  have hne : id ≠ "backup_" ++ timestamp := by
    rintro rfl
    rw [hfresh] at h
    cases h
  rcases codec.createBackup_cases env m timestamp encrypt nonce with
    ⟨e, heq⟩ | ⟨backup, copied, -, -, ⟨e, -, heq⟩ | ⟨-, metadata, -, -, -, heq⟩⟩
  · rw [heq]
    exact h
  · rw [heq, Table.lookup_insert, if_neg hne]
    exact h
  · rw [heq, Table.lookup_insert, if_neg hne]
    exact h

/-- Each step keeps the backups of the data of which they were made, when a new one has a second of
its own. -/
theorem Intact.step {a : BackupAction κ} (h : Intact codec s) (hfresh : s.FreshId a) :
    Intact codec (s.step codec a) := by
  intro id files metadata hlookup
  cases a with
  | changeData data => exact h id files metadata hlookup
  | restoreBackup env backupId force =>
    rw [BackupRun.step, backups_restoreBackup] at hlookup
    exact h id files metadata hlookup
  | deleteBackup backupId => exact h id files metadata (lookup_of_deleteBackup hlookup)
  | createBackup env timestamp encrypt nonce =>
    have hfresh : s.manager.backups.lookup ("backup_" ++ timestamp) = none := hfresh
    rw [BackupRun.step] at hlookup ⊢
    rcases codec.createBackup_cases env s.manager timestamp encrypt nonce with
      ⟨e, heq⟩ | ⟨backup, copied, hbackup, hcopied, ⟨e, -, heq⟩ | ⟨hdone, made, hid, -, hmade, heq⟩⟩
    · rw [heq] at hlookup ⊢
      exact h id files metadata hlookup
    · -- a backup that is not finished has no metadata
      rw [heq] at hlookup ⊢
      dsimp only at hlookup ⊢
      rw [hbackup, hfresh, Option.getD_none, Table.lookup_insert] at hlookup
      split_ifs at hlookup
      · cases hlookup
      · exact h id files metadata hlookup
    · rw [heq] at hlookup ⊢
      dsimp only at hlookup ⊢
      rw [Table.lookup_insert] at hlookup
      rw [Table.lookup_insert, hid]
      split_ifs at hlookup ⊢
      · cases hlookup
        rw [hbackup, hfresh, Option.getD_none] at hcopied
        subst hcopied hmade
        exact ⟨s.manager.data, rfl, holds_of_copied hdone⟩
      · exact h id files metadata hlookup

theorem intact_of_freshIds (h : (system codec).Reach FreshId s) : Intact codec s :=
  h.invariant (P := fun s => Intact codec s) (fun _ _ _ hlookup => by cases hlookup)
    fun s a s' _ ih hfresh hstep => by
      obtain rfl : s.step codec a = s' := Option.some.inj hstep
      exact ih.step hfresh

/-- A restore of an intact backup makes the parts what they were just if they have no other files. -/
theorem sameParts_iff {files taken : Folder Bytes} (hholds : Holds codec files encrypt taken)
    {data : Folder Bytes}
    (h : ((backedUp files).copyInto (codec.restoreFile env encrypt) data).2 = none) :
    SameParts ((backedUp files).copyInto (codec.restoreFile env encrypt) data).1 taken ↔
      NoOtherFiles data taken := by
  refine forall_congr' fun q => ?_
  have hparts := fileAt_backedUp
    ((backedUp files).copyInto (codec.restoreFile env encrypt) data).1 q
  have hfiles := fileAt_backedUp files q
  have htaken := fileAt_backedUp taken q
  have hdata := fileAt_backedUp data q
  by_cases hq : isBackedUp q = true
  · rw [if_pos hq] at hparts hfiles hdata
    rw [hparts, hdata]
    have hcopied := Directory.fileAt_copyInto (backedUp files).nodup h q
    rcases hholds q with ⟨env', n, contents, bytes, hfile, hstored, hbytes⟩ | ⟨hnone, hnone'⟩
    · -- the file is written as it was, whatever there is in its place
      rcases hcopied with ⟨bytes', data', hread, hrestored, hresult⟩ | ⟨hread, -⟩
      · rw [hfiles, hbytes, Option.some.injEq] at hread
        subst hread
        obtain rfl := BackupCodec.eq_of_loaded hstored
          (BackupCodec.converted_of_transfer hrestored)
        rw [hfile]
        exact iff_of_true hresult fun h => nomatch h
      · rw [hfiles, hbytes] at hread
        cases hread
    · rcases hcopied with ⟨bytes', data', hread, -⟩ | ⟨-, hresult⟩
      · rw [hfiles, hnone'] at hread
        cases hread
      · rw [hnone]
        exact (Eq.congr hresult rfl).trans ⟨fun h _ => h, fun h => h rfl⟩
  · rw [if_neg hq] at hparts htaken hdata
    rw [hparts, htaken, hdata]
    exact iff_of_true rfl fun _ => rfl

/-- A restore that succeeds is exact just if the data have no files that the backup does not have. -/
theorem exact_restoreBackup_iff (h : Intact codec s) {n : ℕ}
    (hok : (codec.restoreBackup env s.manager backupId force).2 = .ok n) :
    s.Exact codec (.restoreBackup env backupId force) ↔
      s.Orderly (.restoreBackup env backupId force) := by
  obtain ⟨files, metadata, hlookup, hdone, hresult⟩ := BackupCodec.restoreBackup_ok hok
  obtain ⟨taken, htaken, hholds⟩ := h backupId files metadata hlookup
  have hsame := sameParts_iff hholds hdone
  have hdata : (s.step codec (.restoreBackup env backupId force)).manager.data =
      ((backedUp files).copyInto (codec.restoreFile env metadata.encrypted) s.manager.data).1 :=
    congrArg BackupManager.data hresult
  simp only [Exact, Orderly, hdata, htaken, Option.some.injEq]
  constructor
  · rintro hexact taken' rfl
    obtain ⟨taken', rfl, hparts⟩ := hexact ⟨n, hok⟩
    exact hsame.1 hparts
  · intro horderly _
    exact ⟨taken, rfl, hsame.2 (horderly taken rfl)⟩

/-- When no backup is made in a second of which there is one, backups stay as they were made, and a
restore is exact just if the data have no files that the backup does not have. -/
theorem exact_of_orderly (h : (system codec).Reach FreshId s) :
    (∀ a, s.Orderly a → s.Exact codec a) ∧
    ∀ env backupId force n, (codec.restoreBackup env s.manager backupId force).2 = .ok n →
      (s.Exact codec (.restoreBackup env backupId force) ↔
        s.Orderly (.restoreBackup env backupId force)) := by
  have hintact := intact_of_freshIds h
  refine ⟨fun a horderly => ?_, fun env backupId force n hok => exact_restoreBackup_iff hintact hok⟩
  cases a with
  | changeData data => trivial
  | deleteBackup backupId => trivial
  | createBackup env timestamp encrypt nonce =>
    intro id b hlookup
    have hkept : (codec.createBackup env s.manager timestamp encrypt nonce).1.backups.lookup id =
        some b := lookup_createBackup horderly hlookup
    rw [BackupRun.step]
    cases (codec.createBackup env s.manager timestamp encrypt nonce).2 with
    | ok metadata => exact hkept
    | error e => exact hkept
  | restoreBackup env backupId force =>
    intro hok
    obtain ⟨n, hn⟩ := hok
    exact (exact_restoreBackup_iff hintact hn).2 horderly ⟨n, hn⟩

end Runs

/-! ## A file that is made after a backup -/

/-- An encryption that puts the key before what it encrypts. -/
def tagCipher : Aes256Gcm UInt8 where
  encrypt key _ plaintext := .ok (key :: plaintext)
  decrypt key _ ciphertext :=
    match ciphertext with
    | [] => .error "aead::Error"
    | key' :: plaintext => if key' = key then .ok plaintext else .error "aead::Error"
  decrypt_encrypt h := by
    obtain rfl := Except.ok.inj h
    exact if_pos rfl
  authentic h h' := by
    obtain rfl := Except.ok.inj h
    dsimp only at h'
    split_ifs at h' with hkey
    exact hkey.symm

def tagCodec : BackupCodec UInt8 where
  cipher := tagCipher
  sha256Hex bytes := String.ofList (bytes.map fun b => Char.ofNat b.toNat)

/-- A key, and files that can be read and written. -/
def tagEnv : BackupEnv UInt8 where
  encryptionKey := .ok 7
  openError _ := none
  createError _ := none

def zeroNonce : Nonce where
  bytes := List.replicate 12 0
  length_eq := rfl

def oneBlock : Folder Bytes where
  entries := .file "kv_store.json" [1] (.dir "blocks" (.file "a" [2] .nil) .nil)
  nodup := by decide

def twoBlocks : Folder Bytes where
  entries := .file "kv_store.json" [3]
    (.dir "blocks" (.file "a" [4] (.file "b" [5] .nil)) .nil)
  nodup := by decide

/-- An encrypted backup of one block, and then another one. -/
def backupAndBlock : List (BackupAction UInt8) :=
  [.changeData oneBlock, .createBackup tagEnv "20240101_000000" true fun _ => zeroNonce,
    .changeData twoBlocks]

def after (as : List (BackupAction UInt8)) : BackupRun :=
  as.foldl (fun s a => s.step tagCodec a) new

theorem reach_backupAndBlock : (system tagCodec).Reach FreshId (after backupAndBlock) :=
  .step (.step (.step .init (a := .changeData oneBlock) trivial rfl)
    (a := .createBackup tagEnv "20240101_000000" true fun _ => zeroNonce) rfl rfl)
    (a := .changeData twoBlocks) trivial rfl

/-- With a backup made, a restore that succeeds is exact just if no file was made since. -/
theorem exact_of_orderly_twoBlocks :
    (∀ a, (after backupAndBlock).Orderly a → (after backupAndBlock).Exact tagCodec a) ∧
    ∀ env backupId force n,
      (tagCodec.restoreBackup env (after backupAndBlock).manager backupId force).2 = .ok n →
      ((after backupAndBlock).Exact tagCodec (.restoreBackup env backupId force) ↔
        (after backupAndBlock).Orderly (.restoreBackup env backupId force)) :=
  exact_of_orderly reach_backupAndBlock

/-- A block that was made after a backup is there after the backup is restored. -/
theorem not_exact :
    ¬ ∀ s, (system tagCodec).Reachable s → ∀ a, s.Exact tagCodec a := by
  intro hexact
  obtain ⟨taken, htaken, hparts⟩ := hexact _ reach_backupAndBlock.reachable
    (.restoreBackup tagEnv "backup_20240101_000000" false) ⟨2, by decide +kernel⟩
  obtain rfl : oneBlock = taken := Option.some.inj htaken
  have hblock := hparts ["blocks", "b"]
  revert hblock
  decide +kernel

end BackupRun

end Server

end AegisDB
