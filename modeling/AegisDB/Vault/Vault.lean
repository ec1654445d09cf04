import AegisDB.Vault.Store

/-!
# The vault

The vault has the secrets and the keys of its transit engine in memory, and in a directory the
encrypted master key and one file for each of the two tables.  The files are read when a vault is
made, in one of two ways, and when it is unsealed, and they are written with every change; what goes
wrong with a file is only noted.
-/

namespace AegisDB.Vault

/-! ## The transit engine -/

/-- A named encryption key used by the transit engine. -/
structure TransitKey where
  name : String
  key : MasterKey
  version : UInt32
deriving DecidableEq

/-- Encryption-as-a-service engine. -/
structure TransitEngine where
  keys : Table String TransitKey := ∅
deriving DecidableEq

namespace TransitEngine

variable (crypto : VaultCrypto) (self : TransitEngine)

def createKey (name : String) (key : MasterKey) : Except VaultError TransitEngine :=
  if name ∈ self.keys then .error (.alreadyExists ("transit key '" ++ name ++ "'"))
  else .ok { self with keys := self.keys.insert name { name, key, version := 1 } }

def encrypt (keyName : String) (nonce : Nonce) (plaintext : Bytes) : Except VaultError Bytes :=
  match self.keys.lookup keyName with
  | none => .error (.secretNotFound ("transit key '" ++ keyName ++ "'"))
  | some transitKey => crypto.encryptWithKey transitKey.key nonce plaintext

/-- Decrypt ciphertext with a named key. -/
def decrypt (keyName : String) (data : Bytes) : Except VaultError Bytes :=
  if data.length < 12 + 1 then .error (.encryption "ciphertext too short")
  else
    match self.keys.lookup keyName with
    | none => .error (.secretNotFound ("transit key '" ++ keyName ++ "'"))
    | some transitKey => crypto.decryptWithKey transitKey.key data

end TransitEngine

/-! ## Files -/

/-- How the tables of the vault are written. -/
structure VaultTexts where
  secretsText : TableText Secret
  transitText : TableText TransitKey

namespace VaultTexts

/-- The text of the secrets. -/
def secrets (texts : VaultTexts) : VaultText Secret where
  toTableText := texts.secretsText
  tooSmall := "vault data file is too small or corrupt"
  notUtf8 := "decrypted vault data is not valid UTF-8 — file may be corrupt"
  notParsed := "vault data deserialization failed — file may be corrupt"

/-- The text of the transit keys. -/
def transitKeys (texts : VaultTexts) : VaultText TransitKey where
  toTableText := texts.transitText
  tooSmall := "transit keys file is too small or corrupt"
  notUtf8 := "decrypted transit keys data is not valid UTF-8"
  notParsed := "transit key deserialization failed — file may be corrupt"

end VaultTexts

/-- The files of the vault. -/
structure VaultDir where
  key : Option Bytes := none
  data : Option Bytes := none
  transit : Option Bytes := none
deriving DecidableEq

/-- Why files cannot be read. -/
structure ReadFailures where
  key : Option String := none
  data : Option String := none
  transit : Option String := none

/-- The configuration of a vault with a directory. -/
structure VaultConfig where
  autoUnseal : Bool := true
  passphrase : Option String
  accessDefaultDeny : Bool := false

def accessControllerOf (accessDefaultDeny : Bool) : AccessController :=
  if accessDefaultDeny then .newDenyByDefault else {}

/-- The main vault facade. -/
structure AegisVault where
  store : VaultStore
  transit : TransitEngine
deriving DecidableEq

namespace AegisVault

variable (crypto : VaultCrypto) (texts : VaultTexts)

/-! ## Start -/

/-- The seal manager with the key blob that is found on disk, and whether one is. -/
def loadKeyBlob (dir : VaultDir) (failures : ReadFailures) : SealManager × Bool :=
  match readFile dir.key failures.key with
  | some (.ok blob) => (({} : SealManager).setEncryptedKeyBlob blob, true)
  | some (.error _) => ({}, false)
  | none => ({}, false)

def orKeep {α : Type*} (old : α) : Except VaultError α → α
  | .ok new => new
  | .error _ => old

/-- Load the secrets if the vault is unsealed; what goes wrong is only noted. -/
def openStore (manager : SealManager) (accessController : AccessController) (dir : VaultDir)
    (failures : ReadFailures) : VaultStore :=
  let store : VaultStore := { sealManager := manager, accessController }
  if manager.isSealed then store
  else orKeep store (store.loadFromDisk crypto texts.secrets (readFile dir.data failures.data))

/-- Load the transit keys if the vault is unsealed; what goes wrong is only noted. -/
def openTransit (manager : SealManager) (dir : VaultDir) (failures : ReadFailures) :
    TransitEngine :=
  if manager.isSealed then {}
  else
    { keys := orKeep ∅ (texts.transitKeys.load crypto manager
        (readFile dir.transit failures.transit) ∅) }

/-- Initialize the vault with the given configuration. -/
def init (config : VaultConfig) (dir : VaultDir) (failures : ReadFailures) (draw : KeyDraw) :
    Except VaultError (AegisVault × VaultDir) :=
  let loaded := loadKeyBlob dir failures
  let make (manager : SealManager) (dir : VaultDir) : AegisVault × VaultDir :=
    ({ store := openStore crypto texts manager (accessControllerOf config.accessDefaultDeny) dir
         failures
       transit := openTransit crypto texts manager dir failures }, dir)
  if config.autoUnseal then
    if loaded.2 then
      match config.passphrase with
      | none => .error (.other
          "auto-unseal requires a passphrase: set via config or AEGIS_VAULT_PASSPHRASE env var")
      -- A wrong passphrase leaves the vault sealed.
      | some passphrase => .ok (make (orKeep loaded.1 (loaded.1.unseal crypto passphrase)) dir)
    else
      -- First run: a new key, which is persisted.
      let manager := loaded.1.autoUnseal crypto config.passphrase draw
      .ok (make manager { dir with key := manager.encryptedKeyBlob })
  else .ok (make loaded.1 dir)

/-- Synchronous auto-initialization, which mirrors the key handling of `init`. -/
def newAuto (defaultDeny : Bool) (passphrase : Option String) (dir : VaultDir)
    (failures : ReadFailures) (draw : KeyDraw) : AegisVault × VaultDir :=
  let loaded := loadKeyBlob dir failures
  let make (manager : SealManager) (dir : VaultDir) : AegisVault × VaultDir :=
    ({ store := openStore crypto texts manager (accessControllerOf defaultDeny) dir failures
       transit := {} }, dir)
  if loaded.2 then
    match passphrase with
    | some passphrase => make (orKeep loaded.1 (loaded.1.unseal crypto passphrase)) dir
    | none => make loaded.1 dir
  else
    -- First run: a new key, which is persisted only when a passphrase protects it.
    let manager := loaded.1.autoUnseal crypto passphrase draw
    make manager (if passphrase.isSome then { dir with key := manager.encryptedKeyBlob } else dir)

/-! ## Operations -/

variable (self : AegisVault) (dir : VaultDir)

def isSealed : Bool :=
  self.store.sealManager.isSealed

def withManager (manager : SealManager) : AegisVault :=
  { self with store := { self.store with sealManager := manager } }

/-- Write the secrets to disk; what goes wrong is only noted. -/
def persistSecrets (nonce : Nonce) : VaultDir :=
  match self.store.saveToDisk crypto texts.secrets nonce with
  | .ok file => { dir with data := some file }
  | .error _ => dir

/-- Persist transit keys to disk; what goes wrong is only noted. -/
def persistTransitKeys (nonce : Nonce) : VaultDir :=
  match texts.transitKeys.save crypto self.store.sealManager nonce self.transit.keys with
  | .ok file => { dir with transit := some file }
  | .error _ => dir

def get (key component : String) : Except VaultError String :=
  self.store.get crypto key component

/-- Set a secret value. -/
def set (key value component : String) (nonce fileNonce : Nonce) :
    Except VaultError (AegisVault × VaultDir) :=
  match self.store.set crypto key value component nonce with
  | .error e => .error e
  | .ok store =>
    let vault := { self with store }
    .ok (vault, vault.persistSecrets crypto texts dir fileNonce)

/-- Delete a secret by key. -/
def delete (key component : String) (fileNonce : Nonce) :
    Except VaultError (AegisVault × VaultDir) :=
  match self.store.delete key component with
  | .error e => .error e
  | .ok store =>
    let vault := { self with store }
    .ok (vault, vault.persistSecrets crypto texts dir fileNonce)

def addAccessPolicy (policy : AccessPolicy) : AegisVault :=
  { self with
    store := { self.store with
      accessController := self.store.accessController.addPolicy policy } }

def removeAccessPolicy (name : String) : AegisVault :=
  { self with
    store := { self.store with
      accessController := self.store.accessController.removePolicy name } }

def transitEncrypt (keyName : String) (nonce : Nonce) (plaintext : Bytes) :
    Except VaultError Bytes :=
  self.transit.encrypt crypto keyName nonce plaintext

def transitDecrypt (keyName : String) (ciphertext : Bytes) : Except VaultError Bytes :=
  self.transit.decrypt crypto keyName ciphertext

/-- Create a new named transit key. -/
def transitCreateKey (name : String) (key : MasterKey) (fileNonce : Nonce) :
    Except VaultError (AegisVault × VaultDir) :=
  match self.transit.createKey name key with
  | .error e => .error e
  | .ok transit =>
    let vault := { self with transit }
    .ok (vault, vault.persistTransitKeys crypto texts dir fileNonce)

end AegisVault

/-- Seal the vault. All operations requiring the master key will fail. -/
def AegisVault.seal (self : AegisVault) : AegisVault :=
  self.withManager self.store.sealManager.seal

/-- Unseal the vault with a passphrase, and load the secrets again. -/
def AegisVault.unseal (crypto : VaultCrypto) (texts : VaultTexts) (self : AegisVault)
    (dir : VaultDir) (passphrase : String) (failure : Option String) :
    Except VaultError AegisVault :=
  match self.store.sealManager.unseal crypto passphrase with
  | .error e => .error e
  | .ok manager =>
    let vault := self.withManager manager
    let loaded := vault.store.loadFromDisk crypto texts.secrets (readFile dir.data failure)
    .ok { vault with store := AegisVault.orKeep vault.store loaded }

/-- What an operation answers. -/
inductive Answer where
  | unit
  | value (text : String)
  | plaintext (bytes : Bytes)
  | ciphertext (bytes : Bytes)
  | names (keys : List String)
deriving DecidableEq

abbrev Reply := Except VaultError Answer

/-! ## Plain files -/

section Plain

/-- A key of bytes, filled with zeros or cut off. -/
def keyOf (bytes : Bytes) : MasterKey where
  bytes := (bytes ++ List.replicate 32 0).take 32
  length_eq := by
    rw [List.length_take, List.length_append, List.length_replicate]
    omega

/-- An encryption that puts the key before what it encrypts. -/
def plainCipher : Aes256Gcm MasterKey where
  encrypt key _ plaintext := .ok (key.bytes ++ plaintext)
  decrypt key _ ciphertext :=
    if ciphertext.take 32 = key.bytes then .ok (ciphertext.drop 32) else .error "aead::Error"
  decrypt_encrypt {key nonce plaintext ciphertext} h := by
    obtain rfl := Except.ok.inj h
    rw [List.take_left' key.length_eq, if_pos rfl, List.drop_left' key.length_eq]
  authentic {key key' nonce plaintext plaintext' ciphertext} h h' := by
    obtain rfl := Except.ok.inj h
    rw [List.take_left' key.length_eq] at h'
    by_cases hkey : key.bytes = key'.bytes
    · cases key
      cases key'
      cases hkey
      rfl
    · rw [if_neg hkey] at h'
      cases h'

/-- That encryption, and the passphrase as the key derived from it. -/
def plainCrypto : VaultCrypto where
  cipher := plainCipher
  encrypts key _ plaintext := ⟨_, rfl, by
    rw [List.length_append, key.length_eq]
    omega⟩
  pbkdf2 _ password := keyOf password
  utf8Error _ := "invalid utf-8 sequence"

open PrefixCode

/-- The code of keys, as bytes. -/
def keyCode : PrefixCode Char MasterKey :=
  map keyOf MasterKey.bytes (fun key => by
    have hbytes : (keyOf key.bytes).bytes = key.bytes := List.take_left' key.length_eq
    cases key
    cases hkey : keyOf _
    rw [hkey] at hbytes
    cases hbytes
    rfl) bytes

def wordCode : PrefixCode Char UInt32 :=
  map UInt32.ofNat UInt32.toNat (fun _ => UInt32.ofNat_toNat) (nat '1' '0' marks_ne)

def versionCode : PrefixCode Char SecretVersion :=
  map (fun r => ⟨r.1, r.2.1, r.2.2⟩) (fun v => (v.version, v.encryptedValue, v.createdBy))
    (fun _ => rfl) (wordCode.pair (bytes.pair text))

def secretCode : PrefixCode Char Secret :=
  map (fun r => ⟨r.1, r.2.1, ⟨r.2.2.1, r.2.2.2⟩⟩)
    (fun s => (s.key, s.versions, s.metadata.currentVersion, s.metadata.maxVersions))
    (fun _ => rfl)
    (text.pair ((list '1' '0' versionCode marks_ne).pair (wordCode.pair wordCode)))

def transitKeyCode : PrefixCode Char TransitKey :=
  map (fun r => ⟨r.1, r.2.1, r.2.2⟩) (fun k => (k.name, k.key, k.version)) (fun _ => rfl)
    (text.pair (keyCode.pair wordCode))

/-- Tables written as words of their codes. -/
def plainTexts : VaultTexts where
  secretsText :=
    { toText := (table text secretCode).print
      fromText := (table text secretCode).parse
      fromText_toText := parse_print _ }
  transitText :=
    { toText := (table text transitKeyCode).print
      fromText := (table text transitKeyCode).parse
      fromText_toText := parse_print _ }

def plainNonce : Nonce where
  bytes := List.replicate 12 0
  length_eq := List.length_replicate

/-- What might be drawn for a new master key. -/
def plainDraw (byte : UInt8) : KeyDraw where
  key := keyOf [byte]
  salt := ⟨List.replicate 16 0, List.length_replicate⟩
  nonce := plainNonce
  passphrase := ""

end Plain

end AegisDB.Vault
