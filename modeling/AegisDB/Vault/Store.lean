import AegisDB.Vault.MasterKey

/-!
# The secret store

Secrets have versions, of which the last is the current one, and each version is encrypted under the
master key.  Every operation first sees whether the vault is sealed and then whether some policy
lets the component do what it wants; the text that is listed by must itself be allowed, not only the
keys that are found.
-/

namespace AegisDB.Vault

/-! ## Secrets -/

/-- A single version of a secret's encrypted value. -/
structure SecretVersion where
  version : UInt32
  encryptedValue : Bytes
  createdBy : String
deriving DecidableEq

/-- Metadata about a secret: the number of the last version, and how many versions are kept. -/
structure SecretMetadata where
  currentVersion : UInt32 := 0
  maxVersions : UInt32 := 10
deriving DecidableEq

/-- A secret stored in the vault, with versioned encrypted values. -/
structure Secret where
  key : String
  versions : List SecretVersion
  metadata : SecretMetadata
deriving DecidableEq

namespace Secret

def new (key : String) : Secret where
  key := key
  versions := []
  metadata := {}

def currentVersion (self : Secret) : Option SecretVersion :=
  self.versions.getLast?

def getVersion (self : Secret) (version : UInt32) : Option SecretVersion :=
  self.versions.find? fun v => decide (v.version = version)

/-- Add a new version and prune old ones beyond the number that is kept. -/
def addVersion (self : Secret) (encryptedValue : Bytes) (createdBy : String) : Secret :=
  let nextVersion := self.metadata.currentVersion + 1
  let versions := self.versions ++ [{ version := nextVersion, encryptedValue, createdBy }]
  let max := self.metadata.maxVersions.toNat
  { self with
    versions := if versions.length > max then versions.drop (versions.length - max) else versions
    metadata := { self.metadata with currentVersion := nextVersion } }

theorem currentVersion_addVersion (self : Secret) (h : self.metadata.maxVersions ≠ 0)
    (encryptedValue : Bytes) (createdBy : String) :
    (self.addVersion encryptedValue createdBy).currentVersion =
      some { version := self.metadata.currentVersion + 1, encryptedValue, createdBy } := by
  have hmax : 0 < self.metadata.maxVersions.toNat :=
    Nat.pos_of_ne_zero fun h0 => h (UInt32.toNat_inj.mp h0)
  rw [currentVersion, addVersion]
  dsimp only
  split_ifs with hlong
  · rw [List.getLast?_drop, if_neg (by omega), List.getLast?_concat]
  · rw [List.getLast?_concat]

end Secret

/-! ## Access -/

/-- Defines what a component is allowed to do with secrets. -/
structure AccessPolicy where
  name : String
  allowedComponents : Finset String
  allowedPrefixes : List String
  read : Bool
  write : Bool
  delete : Bool
deriving DecidableEq

/-- Operations that can be checked against policies. -/
inductive Operation where
  | read
  | write
  | delete
  | list
deriving DecidableEq

/-- The name of an operation as it is printed. -/
def Operation.debug : Operation → String
  | read => "Read"
  | write => "Write"
  | delete => "Delete"
  | list => "List"

/-- Controls access to secrets based on component identity and policies. -/
structure AccessController where
  policies : Table String AccessPolicy := ∅
  /-- Whether what no policy grants is allowed all the same. -/
  defaultAllow : Bool := true
deriving DecidableEq

def startsWith (key pre : String) : Bool :=
  pre.toList.isPrefixOf key.toList

/-- Whether a policy lets a component do something with a key. -/
def policyMatches (policy : AccessPolicy) (component key : String) (operation : Operation) : Bool :=
  if policy.allowedComponents ≠ ∅ ∧ component ∉ policy.allowedComponents then false
  else if policy.allowedPrefixes ≠ [] ∧ ¬ policy.allowedPrefixes.any (startsWith key) then false
  else
    match operation with
    | .read | .list => policy.read
    | .write => policy.write
    | .delete => policy.delete

namespace AccessController

/-- A controller that denies what no policy allows. -/
def newDenyByDefault : AccessController where
  defaultAllow := false

/-- Check if a component is allowed to perform an operation on a key. -/
def checkAccess (self : AccessController) (component key : String) (operation : Operation) :
    Except VaultError Unit :=
  if self.policies.entries = [] ∧ self.defaultAllow then .ok ()
  else if self.policies.values.any fun policy => policyMatches policy component key operation then
    .ok ()
  else if self.defaultAllow then .ok ()
  else .error (.accessDenied ("component '" ++ component ++ "' is not allowed to " ++
    operation.debug ++ " key '" ++ key ++ "'"))

def addPolicy (self : AccessController) (policy : AccessPolicy) : AccessController :=
  { self with policies := self.policies.insert policy.name policy }

def removePolicy (self : AccessController) (name : String) : AccessController :=
  { self with policies := self.policies.erase name }

/-- Whether some policy lets a component do something with a key. -/
def Grants (self : AccessController) (component key : String) (operation : Operation) : Prop :=
  ∃ policy ∈ self.policies.values, policyMatches policy component key operation = true

theorem checkAccess_eq_ok_iff {self : AccessController} (h : self.defaultAllow = false)
    {component key : String} {operation : Operation} :
    self.checkAccess component key operation = .ok () ↔ self.Grants component key operation := by
  rw [checkAccess, h, Grants, ← List.any_eq_true]
  simp

end AccessController

/-! ## Files -/

/-- The text of a table. -/
structure TableText (α : Type*) where
  toText : Table String α → String
  fromText : String → Option (Table String α)
  fromText_toText : ∀ t, fromText (toText t) = some t

/-- The text of a table that the vault keeps on disk, and what is said when it cannot be loaded. -/
structure VaultText (α : Type*) extends TableText α where
  tooSmall : String
  notUtf8 : String
  notParsed : String

/-- What reading a file finds: nothing if it does not exist, or else its bytes or why it cannot be
read. -/
def readFile (file : Option Bytes) (failure : Option String) : Option (Except String Bytes) :=
  file.map fun bytes =>
    match failure with
    | none => .ok bytes
    | some e => .error e

section VaultText

variable {α : Type*} (crypto : VaultCrypto) (text : VaultText α) (manager : SealManager)

/-- What is written to disk: a table, encrypted as a single blob. -/
def VaultText.save (nonce : Nonce) (t : Table String α) : Except VaultError Bytes :=
  manager.encrypt crypto nonce (bytesOf (text.toText t))

/-- The table in what was read from disk. -/
def VaultText.parse (encrypted : Bytes) : Except VaultError (Table String α) :=
  if encrypted.length < 28 then .error (.other text.tooSmall)
  else
    match manager.decrypt crypto encrypted with
    | .error e => .error e
    | .ok json =>
      match textOf json with
      | none => .error (.other text.notUtf8)
      | some json =>
        match text.fromText json with
        | none => .error (.other text.notParsed)
        | some t => .ok t

/-- Load a table from disk. If there is no file, or on an error, it stays what it is. -/
def VaultText.load (file : Option (Except String Bytes)) (t : Table String α) :
    Except VaultError (Table String α) :=
  match file with
  | none => .ok t
  | some (.error e) => .error (.io e)
  | some (.ok encrypted) => text.parse crypto manager encrypted

variable {crypto text manager}

theorem VaultText.exists_save (crypto : VaultCrypto) (text : VaultText α) {key : MasterKey} (hkey : manager.masterKey = some key)
    (nonce : Nonce) (t : Table String α) :
    ∃ file, text.save crypto manager nonce t = .ok file ∧
      ∀ other : SealManager, other.masterKey = some key →
        text.parse crypto other file = .ok t := by
  obtain ⟨file, hencrypt, hlong, hdecrypt⟩ :=
    VaultCrypto.exists_encryptWithKey crypto key nonce (bytesOf (text.toText t))
  refine ⟨file, ?_, fun other hother => ?_⟩
  · rw [save, SealManager.encrypt, hkey]
    exact hencrypt
  · have hopened : other.decrypt crypto file = .ok (bytesOf (text.toText t)) := by
      rw [SealManager.decrypt, hother]
      exact hdecrypt
    rw [parse, if_neg (by omega), hopened]
    dsimp only
    rw [textOf_bytesOf]
    dsimp only
    rw [text.fromText_toText]

end VaultText

/-! ## The store -/

/-- The core encrypted key-value secret store. -/
structure VaultStore where
  sealManager : SealManager
  secrets : Table String Secret := ∅
  accessController : AccessController
deriving DecidableEq

section VaultStore

variable (crypto : VaultCrypto) (self : VaultStore)

/-- The value of a version. -/
def VaultStore.reveal (version : SecretVersion) : Except VaultError String :=
  match self.sealManager.decrypt crypto version.encryptedValue with
  | .error e => .error e
  | .ok plaintext =>
    match textOf plaintext with
    | none => .error (.encryption ("invalid UTF-8: " ++ crypto.utf8Error plaintext))
    | some value => .ok value

/-- Retrieve and decrypt the current version of a secret. -/
def VaultStore.get (key component : String) : Except VaultError String :=
  if self.sealManager.isSealed then .error .sealed
  else
    match self.accessController.checkAccess component key .read with
    | .error e => .error e
    | .ok _ =>
      match (self.secrets.lookup key).bind Secret.currentVersion with
      | none => .error (.secretNotFound key)
      | some version => self.reveal crypto version

/-- Retrieve and decrypt a specific version of a secret. -/
def VaultStore.getVersion (key : String) (version : UInt32) (component : String) :
    Except VaultError String :=
  if self.sealManager.isSealed then .error .sealed
  else
    match self.accessController.checkAccess component key .read with
    | .error e => .error e
    | .ok _ =>
      match self.secrets.lookup key with
      | none => .error (.secretNotFound key)
      | some secret =>
        match secret.getVersion version with
        | none => .error (.secretNotFound (key ++ "@v" ++ toString version.toNat))
        | some version => self.reveal crypto version

/-- Add a new version to a secret, which may be new itself. -/
def VaultStore.addVersion (key component : String) (encrypted : Bytes) : VaultStore :=
  let secret := (self.secrets.lookup key).getD (Secret.new key)
  { self with secrets := self.secrets.insert key (secret.addVersion encrypted component) }

/-- Encrypt and store a secret value. Creates a new version. -/
def VaultStore.set (key value component : String) (nonce : Nonce) : Except VaultError VaultStore :=
  if self.sealManager.isSealed then .error .sealed
  else
    match self.accessController.checkAccess component key .write with
    | .error e => .error e
    | .ok _ =>
      match self.sealManager.encrypt crypto nonce (bytesOf value) with
      | .error e => .error e
      | .ok encrypted => .ok (self.addVersion key component encrypted)

/-- Delete a secret entirely. -/
def VaultStore.delete (key component : String) : Except VaultError VaultStore :=
  if self.sealManager.isSealed then .error .sealed
  else
    match self.accessController.checkAccess component key .delete with
    | .error e => .error e
    | .ok _ =>
      if key ∈ self.secrets then .ok { self with secrets := self.secrets.erase key }
      else .error (.secretNotFound key)

/-- List secret keys matching a prefix. -/
def VaultStore.list (pre component : String) : Except VaultError (List String) :=
  if self.sealManager.isSealed then .error .sealed
  else
    match self.accessController.checkAccess component pre .list with
    | .error e => .error e
    | .ok _ => .ok (self.secrets.keys.filter fun k => startsWith k pre)

variable (text : VaultText Secret)

/-- What is written to disk: all secrets, encrypted as a single blob. -/
def VaultStore.saveToDisk (nonce : Nonce) : Except VaultError Bytes :=
  if self.sealManager.isSealed then .error .sealed
  else text.save crypto self.sealManager nonce self.secrets

/-- Load secrets from disk. -/
def VaultStore.loadFromDisk (file : Option (Except String Bytes)) : Except VaultError VaultStore :=
  if self.sealManager.isSealed then .error .sealed
  else
    match text.load crypto self.sealManager file self.secrets with
    | .error e => .error e
    | .ok secrets => .ok { self with secrets }

end VaultStore

end AegisDB.Vault
