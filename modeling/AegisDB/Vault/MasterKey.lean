import AegisDB.Library.Aead
import AegisDB.Library.PrefixCode

/-!
# The master key of the vault

The master key is kept on disk encrypted under a key that is derived from the passphrase, and in
memory only while the vault is unsealed.  The status of the vault and the key are set one after the
other.
-/

namespace AegisDB.Vault

/-- Error type for vault operations. -/
inductive VaultError where
  | sealed
  | secretNotFound (what : String)
  | accessDenied (why : String)
  | encryption (error : String)
  | io (error : String)
  | invalidPassphrase
  | alreadyExists (what : String)
  | other (message : String)
deriving DecidableEq

/-- A 256-bit key. -/
structure MasterKey where
  bytes : Bytes
  length_eq : bytes.length = 32
deriving DecidableEq

/-- The salt of a derivation, of sixteen bytes. -/
structure Salt where
  bytes : Bytes
  length_eq : bytes.length = 16

/-- What the vault encrypts and derives keys with. -/
structure VaultCrypto where
  cipher : Aes256Gcm MasterKey
  /-- Everything can be encrypted, and what comes out has a tag of sixteen bytes. -/
  encrypts : ∀ key (nonce : Nonce) plaintext, ∃ ciphertext,
    cipher.encrypt key nonce.bytes plaintext = .ok ciphertext ∧ 16 ≤ ciphertext.length
  pbkdf2 : Bytes → Bytes → MasterKey
  utf8Error : Bytes → String

namespace VaultCrypto

variable (crypto : VaultCrypto)

def deriveKey (passphrase : String) (salt : Bytes) : MasterKey :=
  crypto.pbkdf2 salt (bytesOf passphrase)

/-- Encrypt data with a key, with the nonce before them. -/
def encryptWithKey (key : MasterKey) (nonce : Nonce) (plaintext : Bytes) :
    Except VaultError Bytes :=
  match crypto.cipher.encrypt key nonce.bytes plaintext with
  | .error e => .error (.encryption e)
  | .ok ciphertext => .ok (nonce.bytes ++ ciphertext)

/-- Decrypt data that have their nonce before them. -/
def decryptWithKey (key : MasterKey) (data : Bytes) : Except VaultError Bytes :=
  if data.length < 12 + 1 then .error (.encryption "ciphertext too short")
  else
    match crypto.cipher.decrypt key (data.take 12) (data.drop 12) with
    | .error e => .error (.encryption e)
    | .ok plaintext => .ok plaintext

/-- Encrypt the master key with a passphrase, with the salt and the nonce before it. -/
def encryptMasterKey (key : MasterKey) (passphrase : String) (salt : Salt) (nonce : Nonce) :
    Bytes :=
  match crypto.cipher.encrypt (crypto.deriveKey passphrase salt.bytes) nonce.bytes key.bytes with
  | .ok ciphertext => salt.bytes ++ (nonce.bytes ++ ciphertext)
  -- The source panics here: a key can always be encrypted.
  | .error _ => []

/-- The master key in what was decrypted. -/
def keyOfText : Except String Bytes → Except VaultError MasterKey
  | .error _ => .error .invalidPassphrase
  | .ok plaintext =>
    if h : plaintext.length = 32 then .ok ⟨plaintext, h⟩
    else .error (.encryption "decrypted key has wrong length")

/-- Decrypt the master key using a passphrase. -/
def decryptMasterKey (encrypted : Bytes) (passphrase : String) : Except VaultError MasterKey :=
  if encrypted.length < 16 + 12 + 1 then .error (.encryption "encrypted blob too short")
  else
    let salt := encrypted.take 16
    let nonce := (encrypted.drop 16).take 12
    keyOfText (crypto.cipher.decrypt (crypto.deriveKey passphrase salt) nonce (encrypted.drop 28))

variable {crypto}

theorem exists_encryptWithKey (crypto : VaultCrypto) (key : MasterKey) (nonce : Nonce) (plaintext : Bytes) :
    ∃ data, crypto.encryptWithKey key nonce plaintext = .ok data ∧ 28 ≤ data.length ∧
      crypto.decryptWithKey key data = .ok plaintext := by
  obtain ⟨ciphertext, hencrypt, htag⟩ := crypto.encrypts key nonce plaintext
  refine ⟨nonce.bytes ++ ciphertext, ?_, ?_, ?_⟩
  · rw [encryptWithKey, hencrypt]
  · rw [List.length_append, nonce.length_eq]
    omega
  · have hlong : ¬ (nonce.bytes ++ ciphertext).length < 12 + 1 := by
      rw [List.length_append, nonce.length_eq]
      omega
    rw [decryptWithKey, if_neg hlong, List.take_left' nonce.length_eq,
      List.drop_left' nonce.length_eq, crypto.cipher.decrypt_encrypt hencrypt]

theorem decryptWithKey_of_encrypt {key : MasterKey} {nonce : Nonce} {plaintext data : Bytes}
    (h : crypto.encryptWithKey key nonce plaintext = .ok data) :
    crypto.decryptWithKey key data = .ok plaintext := by
  obtain ⟨data', h', -, hdecrypt⟩ := exists_encryptWithKey crypto key nonce plaintext
  obtain rfl := Except.ok.inj (h.symm.trans h')
  exact hdecrypt

theorem decryptMasterKey_append (salt : Salt) (nonce : Nonce) {ciphertext : Bytes}
    (h : 16 ≤ ciphertext.length) (passphrase : String) :
    crypto.decryptMasterKey (salt.bytes ++ (nonce.bytes ++ ciphertext)) passphrase = keyOfText
      (crypto.cipher.decrypt (crypto.deriveKey passphrase salt.bytes) nonce.bytes ciphertext) := by
  have hsalt := salt.length_eq
  have hnonce := nonce.length_eq
  have hlong : ¬ (salt.bytes ++ (nonce.bytes ++ ciphertext)).length < 16 + 12 + 1 := by
    rw [List.length_append, List.length_append]
    omega
  have hdrop : (salt.bytes ++ (nonce.bytes ++ ciphertext)).drop 28 = ciphertext := by
    rw [← List.append_assoc]
    exact List.drop_left' (by rw [List.length_append]; omega)
  rw [decryptMasterKey, if_neg hlong, hdrop, List.take_left' hsalt, List.drop_left' hsalt,
    List.take_left' hnonce]

/-- With its passphrase the master key is decrypted, and with no passphrase anything else. -/
theorem decryptMasterKey_encryptMasterKey (crypto : VaultCrypto) (key : MasterKey)
    (passphrase : String) (salt : Salt) (nonce : Nonce) :
    crypto.decryptMasterKey (crypto.encryptMasterKey key passphrase salt nonce) passphrase =
        .ok key ∧
      ∀ passphrase' key', crypto.decryptMasterKey
        (crypto.encryptMasterKey key passphrase salt nonce) passphrase' = .ok key' →
          key' = key := by
  obtain ⟨ciphertext, hencrypt, htag⟩ :=
    crypto.encrypts (crypto.deriveKey passphrase salt.bytes) nonce key.bytes
  have hkey : keyOfText (.ok key.bytes) = .ok key := dif_pos key.length_eq
  rw [encryptMasterKey, hencrypt]
  dsimp only
  constructor
  · rw [decryptMasterKey_append salt nonce htag, crypto.cipher.decrypt_encrypt hencrypt, hkey]
  · intro passphrase' key' h
    rw [decryptMasterKey_append salt nonce htag] at h
    cases hdecrypt : crypto.cipher.decrypt (crypto.deriveKey passphrase' salt.bytes) nonce.bytes
        ciphertext with
    | error e =>
      rw [hdecrypt] at h
      cases h
    | ok plaintext =>
      rw [crypto.cipher.authentic hencrypt hdecrypt, crypto.cipher.decrypt_encrypt hencrypt,
        hkey] at h
      exact (Except.ok.inj h).symm

end VaultCrypto

/-! ## Sealing -/

/-- Seal status of the vault. -/
inductive SealStatus where
  | sealed
  | unsealed
deriving DecidableEq

/-- Manages the seal/unseal lifecycle and encryption operations. -/
structure SealManager where
  status : SealStatus := .sealed
  masterKey : Option MasterKey := none
  /-- The encrypted master key, kept so that the vault can be unsealed later. -/
  encryptedKeyBlob : Option Bytes := none
deriving DecidableEq

/-- What is drawn at random for a new master key. -/
structure KeyDraw where
  key : MasterKey
  salt : Salt
  nonce : Nonce
  passphrase : String

section SealManager

variable (crypto : VaultCrypto) (self : SealManager)

/-- Check whether the vault is currently sealed. -/
def SealManager.isSealed : Bool :=
  self.status = .sealed

def SealManager.setMasterKey (key : Option MasterKey) : SealManager :=
  { self with masterKey := key }

def SealManager.setStatus (status : SealStatus) : SealManager :=
  { self with status := status }

def SealManager.openKey (passphrase : String) : Except VaultError MasterKey :=
  match self.encryptedKeyBlob with
  | none => .error (.other "no encrypted key blob available")
  | some blob => crypto.decryptMasterKey blob passphrase

def SealManager.unseal (passphrase : String) : Except VaultError SealManager :=
  match self.openKey crypto passphrase with
  | .error e => .error e
  | .ok key => .ok ((self.setMasterKey (some key)).setStatus .unsealed)

/-- Seal the vault, zeroizing the master key from memory. -/
def SealManager.seal : SealManager :=
  (self.setMasterKey none).setStatus .sealed

/-- Auto-unseal for first run: a new master key, encrypted with the passphrase or a random one. -/
def SealManager.autoUnseal (passphrase : Option String) (draw : KeyDraw) : SealManager :=
  let blob :=
    crypto.encryptMasterKey draw.key (passphrase.getD draw.passphrase) draw.salt draw.nonce
  (({ self with encryptedKeyBlob := some blob } : SealManager).setMasterKey
    (some draw.key)).setStatus .unsealed

/-- Set the encrypted key blob, as loaded from disk. -/
def SealManager.setEncryptedKeyBlob (blob : Bytes) : SealManager :=
  { self with encryptedKeyBlob := some blob }

def SealManager.encrypt (nonce : Nonce) (plaintext : Bytes) : Except VaultError Bytes :=
  match self.masterKey with
  | none => .error .sealed
  | some key => crypto.encryptWithKey key nonce plaintext

def SealManager.decrypt (ciphertext : Bytes) : Except VaultError Bytes :=
  match self.masterKey with
  | none => .error .sealed
  | some key => crypto.decryptWithKey key ciphertext

end SealManager

end AegisDB.Vault
