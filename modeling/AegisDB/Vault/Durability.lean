import AegisDB.Library.Transition
import AegisDB.Vault.Vault

/-!
# Secrets over restarts

What was set can be got again after a restart, and what was encrypted can be decrypted, as long as
the files that are there are read whenever a vault is opened.  They are not always: a key that
cannot be read is replaced by a new one, and a vault that could not load its secrets or transit keys
goes on without them and writes what it has over the files.  One way to start a vault and unsealing
it never load the transit keys at all, and a transit key that is made while the vault is sealed is
not saved.
-/

namespace AegisDB.Vault

/-! ## Vaults over time -/

/-- A ciphertext that the transit engine gave out. -/
structure Made where
  keyName : String
  plaintext : Bytes
  ciphertext : Bytes
deriving DecidableEq

/-- A directory, the vault that uses it, and what should be kept: the last value of every secret that
was set and not deleted, and all ciphertexts. -/
structure World where
  dir : VaultDir := {}
  vault : Option AegisVault := none
  latest : Table String String := ∅
  made : List Made := []
deriving DecidableEq

/-- What is done with a vault, with what is drawn at random for it, and which reads fail. -/
inductive VaultOp where
  | init (autoUnseal accessDefaultDeny : Bool) (failures : ReadFailures) (draw : KeyDraw)
  | newAuto (defaultDeny : Bool) (failures : ReadFailures) (draw : KeyDraw)
  | set (key value component : String) (nonce fileNonce : Nonce)
  | delete (key component : String) (fileNonce : Nonce)
  | transitCreateKey (name : String) (key : MasterKey) (fileNonce : Nonce)
  | transitEncrypt (keyName : String) (plaintext : Bytes) (nonce : Nonce)
  | vaultSeal
  | vaultUnseal (passphrase : String) (failure : Option String)
  | addAccessPolicy (policy : AccessPolicy)
  | removeAccessPolicy (name : String)

namespace World

variable (crypto : VaultCrypto) (texts : VaultTexts) (passphrase : String)

/-- What an operation on a running vault does; one that fails changes nothing. -/
def act (w : World) (v : AegisVault) : VaultOp → World
  | .set key value component nonce fileNonce =>
    match v.set crypto texts w.dir key value component nonce fileNonce with
    | .ok (v, dir) => { w with vault := some v, dir, latest := w.latest.insert key value }
    | .error _ => w
  | .delete key component fileNonce =>
    match v.delete crypto texts w.dir key component fileNonce with
    | .ok (v, dir) => { w with vault := some v, dir, latest := w.latest.erase key }
    | .error _ => w
  | .transitCreateKey name key fileNonce =>
    match v.transitCreateKey crypto texts w.dir name key fileNonce with
    | .ok (v, dir) => { w with vault := some v, dir }
    | .error _ => w
  | .transitEncrypt keyName plaintext nonce =>
    match v.transitEncrypt crypto keyName nonce plaintext with
    | .ok ciphertext => { w with made := { keyName, plaintext, ciphertext } :: w.made }
    | .error _ => w
  | .vaultSeal => { w with vault := some v.seal }
  | .vaultUnseal passphrase failure =>
    match v.unseal crypto texts w.dir passphrase failure with
    | .ok v => { w with vault := some v }
    | .error _ => w
  | .addAccessPolicy policy => { w with vault := some (v.addAccessPolicy policy) }
  | .removeAccessPolicy name => { w with vault := some (v.removeAccessPolicy name) }
  | .init _ _ _ _ | .newAuto _ _ _ => w

/-- One step: a start, or an operation on the vault that runs. -/
def step (w : World) : VaultOp → Option World
  | .init autoUnseal accessDefaultDeny failures draw =>
    match AegisVault.init crypto texts
      { autoUnseal, passphrase := some passphrase, accessDefaultDeny } w.dir failures draw with
    | .ok (v, dir) => some { w with vault := some v, dir }
    | .error _ => some { w with vault := none }
  | .newAuto defaultDeny failures draw =>
    let started :=
      AegisVault.newAuto crypto texts defaultDeny (some passphrase) w.dir failures draw
    some { w with vault := some started.1, dir := started.2 }
  | op => w.vault.map fun v => w.act crypto texts v op

/-- Vaults on an empty directory that are always started with the same passphrase. -/
def system : System World VaultOp where
  init := {}
  step := step crypto texts passphrase

/-- What should be kept can be had: the last values of secrets by all who may read them, and the
plaintexts of ciphertexts. -/
def Serves (w : World) (v : AegisVault) : Prop :=
  (∀ key value, w.latest.lookup key = some value → ∀ component,
    v.store.accessController.checkAccess component key .read = .ok () →
      v.get crypto key component = .ok value) ∧
    ∀ m ∈ w.made, v.transitDecrypt crypto m.keyName m.ciphertext = .ok m.plaintext

/-- Nothing is lost on disk: a start that loads all files, with the passphrase, opens a vault that has
everything. -/
def Recoverable (w : World) : Prop :=
  ∀ accessDefaultDeny draw, ∃ v dir, AegisVault.init crypto texts
    { passphrase := some passphrase, accessDefaultDeny } w.dir {} draw = .ok (v, dir) ∧
      v.isSealed = false ∧ w.Serves crypto v

/-- The vault has everything whenever it is open, and nothing is lost on disk. -/
def Durable (w : World) : Prop :=
  (∀ v, w.vault = some v → v.isSealed = false → w.Serves crypto v) ∧
    w.Recoverable crypto texts passphrase

end World

/-! ## When files are loaded -/

def Readable (file : Option Bytes) (failure : Option String) : Prop :=
  file = none ∨ failure = none
deriving Decidable

/-- Whether all files are loaded before they are written over: a start that opens the vault can read
all files that it needs, the start that does not load transit keys finds none; a vault is unsealed
only with its secrets and transit keys in memory, if there are any, or the secrets readable; and
transit keys are made only while the vault is unsealed. -/
def Careful (crypto : VaultCrypto) (w : World) : VaultOp → Prop
  | .init autoUnseal _ failures _ => autoUnseal = true →
      Readable w.dir.key failures.key ∧ Readable w.dir.data failures.data ∧
        Readable w.dir.transit failures.transit
  | .newAuto _ failures _ =>
      Readable w.dir.key failures.key ∧ Readable w.dir.data failures.data ∧ w.dir.transit = none
  | .vaultUnseal passphrase failure => ∀ v, w.vault = some v →
      (∃ key, v.store.sealManager.openKey crypto passphrase = .ok key) →
        (v.isSealed = false ∨ v.store.secrets ≠ ∅ ∨ Readable w.dir.data failure) ∧
          (v.transit.keys ≠ ∅ ∨ w.dir.transit = none)
  | .transitCreateKey name _ _ => ∀ v, w.vault = some v →
      name ∈ v.transit.keys ∨ v.isSealed = false
  | _ => True

/-! ## What the files hold -/

variable {crypto : VaultCrypto} {texts : VaultTexts} {passphrase : String}

/-- The table that a file holds; without a file it is empty. -/
def FileHolds {α : Type*} (crypto : VaultCrypto) (text : VaultText α) (key : MasterKey)
    (file : Option Bytes) (t : Table String α) : Prop :=
  match file with
  | none => t = ∅
  | some bytes =>
    ∀ manager : SealManager, manager.masterKey = some key → text.parse crypto manager bytes = .ok t

theorem FileHolds.load {α : Type*} {text : VaultText α} {key : MasterKey} {file : Option Bytes}
    {t : Table String α} (h : FileHolds crypto text key file t) {manager : SealManager}
    (hkey : manager.masterKey = some key) {failure : Option String} (hread : Readable file failure) :
    text.load crypto manager (readFile file failure) ∅ = .ok t := by
  cases file with
  | none =>
    obtain rfl : t = ∅ := h
    rfl
  | some bytes =>
    obtain rfl : failure = none := hread.resolve_left (Option.some_ne_none _)
    exact h manager hkey

/-- What the files of a directory hold: the master key under the passphrase, the secrets and the
transit keys. -/
structure Held (crypto : VaultCrypto) (texts : VaultTexts) (passphrase : String) (dir : VaultDir)
    (key : MasterKey) (secrets : Table String Secret) (keys : Table String TransitKey) : Prop where
  /-- The master key is the only one that any passphrase gives. -/
  keyBlob : ∀ blob, dir.key = some blob → crypto.decryptMasterKey blob passphrase = .ok key ∧
    ∀ passphrase' key', crypto.decryptMasterKey blob passphrase' = .ok key' → key' = key
  fresh : dir.key = none → dir.data = none ∧ dir.transit = none
  data : FileHolds crypto texts.secrets key dir.data secrets
  transit : FileHolds crypto texts.transitKeys key dir.transit keys

/-- What a vault has in memory of what the files hold: all of it when it is open, and all or nothing
when it is sealed. -/
structure InMemory (v : AegisVault) (dir : VaultDir) (key : MasterKey)
    (secrets : Table String Secret) (keys : Table String TransitKey) : Prop where
  blob : ∀ blob, v.store.sealManager.encryptedKeyBlob = some blob → dir.key = some blob
  sealed : v.isSealed = true → v.store.sealManager.masterKey = none
  unsealed : v.isSealed = false → v.store.sealManager.masterKey = some key ∧ dir.key ≠ none ∧
    v.store.secrets = secrets ∧ v.transit.keys = keys
  someSecrets : v.store.secrets = ∅ ∨ v.store.secrets = secrets
  someKeys : v.transit.keys = ∅ ∨ v.transit.keys = keys

/-- The stored secrets have the last values, under the master key. -/
structure Stored (crypto : VaultCrypto) (key : MasterKey) (secrets : Table String Secret)
    (latest : Table String String) : Prop where
  maxVersions : ∀ name secret, secrets.lookup name = some secret → secret.metadata.maxVersions = 10
  value : ∀ name value, latest.lookup name = some value → ∃ secret version,
    secrets.lookup name = some secret ∧ secret.currentVersion = some version ∧
      crypto.decryptWithKey key version.encryptedValue = .ok (bytesOf value)

def Decrypts (crypto : VaultCrypto) (keys : Table String TransitKey) (made : List Made) : Prop :=
  ∀ m ∈ made, ∃ transitKey, keys.lookup m.keyName = some transitKey ∧
    crypto.decryptWithKey transitKey.key m.ciphertext = .ok m.plaintext

/-- The files hold what should be kept, and the vault has it in memory. -/
def World.Sound (crypto : VaultCrypto) (texts : VaultTexts) (passphrase : String) (w : World) :
    Prop :=
  ∃ key secrets keys, Held crypto texts passphrase w.dir key secrets keys ∧
    (∀ v, w.vault = some v → InMemory v w.dir key secrets keys) ∧
    Stored crypto key secrets w.latest ∧ Decrypts crypto keys w.made

/-! ## What is in memory is served -/

variable {w : World} {v : AegisVault} {dir : VaultDir} {key : MasterKey}
  {secrets : Table String Secret} {keys : Table String TransitKey}

theorem not_lt_of_decryptWithKey {data plaintext : Bytes}
    (h : crypto.decryptWithKey key data = .ok plaintext) : ¬ data.length < 12 + 1 := by
  intro hshort
  rw [VaultCrypto.decryptWithKey, if_pos hshort] at h
  cases h

theorem serves_of_stored (hopen : v.isSealed = false)
    (hkey : v.store.sealManager.masterKey = some key) (hsecrets : v.store.secrets = secrets)
    (hkeys : v.transit.keys = keys) (hstored : Stored crypto key secrets w.latest)
    (hdecrypts : Decrypts crypto keys w.made) : w.Serves crypto v := by
  constructor
  · intro name value hlatest component haccess
    obtain ⟨secret, version, hsecret, hversion, hdecrypt⟩ := hstored.value name value hlatest
    have hfound : (v.store.secrets.lookup name).bind Secret.currentVersion = some version := by
      rw [hsecrets, hsecret, Option.bind_some, hversion]
    have hopen' : ¬ v.store.sealManager.isSealed = true := ne_true_of_eq_false hopen
    rw [AegisVault.get, VaultStore.get, if_neg hopen', haccess]
    dsimp only
    rw [hfound]
    dsimp only
    rw [VaultStore.reveal, SealManager.decrypt, hkey]
    dsimp only
    rw [hdecrypt]
    dsimp only
    rw [textOf_bytesOf]
  · intro m hm
    obtain ⟨transitKey, hlookup, hdecrypt⟩ := hdecrypts m hm
    rw [AegisVault.transitDecrypt, TransitEngine.decrypt,
      if_neg (not_lt_of_decryptWithKey hdecrypt), hkeys, hlookup]
    exact hdecrypt

/-! ## Starts -/

variable {manager : SealManager} {accessController : AccessController} {failures : ReadFailures}

theorem openStore_eq (hopen : manager.isSealed = false) (hkey : manager.masterKey = some key)
    (hdata : FileHolds crypto texts.secrets key dir.data secrets)
    (hread : Readable dir.data failures.data) :
    AegisVault.openStore crypto texts manager accessController dir failures =
      { sealManager := manager, secrets, accessController } := by
  have hopen' : ¬ manager.isSealed = true := ne_true_of_eq_false hopen
  rw [AegisVault.openStore, if_neg hopen', VaultStore.loadFromDisk, if_neg hopen',
    hdata.load hkey hread]
  rfl

theorem openTransit_eq (hopen : manager.isSealed = false) (hkey : manager.masterKey = some key)
    (htransit : FileHolds crypto texts.transitKeys key dir.transit keys)
    (hread : Readable dir.transit failures.transit) :
    AegisVault.openTransit crypto texts manager dir failures = { keys } := by
  rw [AegisVault.openTransit, if_neg (ne_true_of_eq_false hopen), htransit.load hkey hread]
  rfl

theorem Held.inMemory_open (h : Held crypto texts passphrase dir key secrets keys)
    (hopen : manager.isSealed = false) (hkey : manager.masterKey = some key)
    (hblob : manager.encryptedKeyBlob = dir.key) (hsome : dir.key ≠ none)
    (hdata : Readable dir.data failures.data) (htransit : Readable dir.transit failures.transit) :
    InMemory { store := AegisVault.openStore crypto texts manager accessController dir failures
               transit := AegisVault.openTransit crypto texts manager dir failures }
      dir key secrets keys := by
  rw [openStore_eq hopen hkey h.data hdata, openTransit_eq hopen hkey h.transit htransit]
  exact
    { blob := fun blob hb => hblob ▸ hb
      sealed := fun hsealed => absurd hsealed (ne_true_of_eq_false hopen)
      unsealed := fun _ => ⟨hkey, hsome, rfl, rfl⟩
      someSecrets := Or.inr rfl
      someKeys := Or.inr rfl }

theorem inMemory_sealed (hsealed : manager.isSealed = true) (hkey : manager.masterKey = none)
    (hblob : ∀ blob, manager.encryptedKeyBlob = some blob → dir.key = some blob) :
    InMemory { store := AegisVault.openStore crypto texts manager accessController dir failures
               transit := AegisVault.openTransit crypto texts manager dir failures }
      dir key secrets keys := by
  rw [AegisVault.openStore, AegisVault.openTransit, if_pos hsealed, if_pos hsealed]
  exact
    { blob := hblob
      sealed := fun _ => hkey
      unsealed := fun hopen => absurd hsealed (ne_true_of_eq_false hopen)
      someSecrets := Or.inl rfl
      someKeys := Or.inl rfl }

theorem loadKeyBlob_of_some {blob : Bytes} (hkey : dir.key = some blob)
    (hfailure : failures.key = none) : AegisVault.loadKeyBlob dir failures =
      (({} : SealManager).setEncryptedKeyBlob blob, true) := by
  rw [AegisVault.loadKeyBlob, hkey, hfailure]
  rfl

theorem loadKeyBlob_of_none (hkey : dir.key = none) :
    AegisVault.loadKeyBlob dir failures = ({}, false) := by
  rw [AegisVault.loadKeyBlob, hkey]
  rfl

/-- The seal manager and the directory of a start that opens the vault. -/
def openManager (crypto : VaultCrypto) (passphrase : String) (dir : VaultDir)
    (failures : ReadFailures) (draw : KeyDraw) : SealManager × VaultDir :=
  let loaded := AegisVault.loadKeyBlob dir failures
  if loaded.2 then (AegisVault.orKeep loaded.1 (loaded.1.unseal crypto passphrase), dir)
  else
    let manager := loaded.1.autoUnseal crypto (some passphrase) draw
    (manager, { dir with key := manager.encryptedKeyBlob })

theorem init_eq (accessDefaultDeny : Bool) (draw : KeyDraw) :
    AegisVault.init crypto texts { passphrase := some passphrase, accessDefaultDeny } dir failures
        draw =
      .ok ({ store := AegisVault.openStore crypto texts
               (openManager crypto passphrase dir failures draw).1
               (accessControllerOf accessDefaultDeny)
               (openManager crypto passphrase dir failures draw).2 failures
             transit := AegisVault.openTransit crypto texts
               (openManager crypto passphrase dir failures draw).1
               (openManager crypto passphrase dir failures draw).2 failures },
           (openManager crypto passphrase dir failures draw).2) := by
  rw [AegisVault.init, openManager]
  cases (AegisVault.loadKeyBlob dir failures).2 <;> rfl

theorem newAuto_eq (defaultDeny : Bool) (draw : KeyDraw) :
    AegisVault.newAuto crypto texts defaultDeny (some passphrase) dir failures draw =
      ({ store := AegisVault.openStore crypto texts
           (openManager crypto passphrase dir failures draw).1 (accessControllerOf defaultDeny)
           (openManager crypto passphrase dir failures draw).2 failures
         transit := {} },
       (openManager crypto passphrase dir failures draw).2) := by
  rw [AegisVault.newAuto, openManager]
  cases (AegisVault.loadKeyBlob dir failures).2 <;> rfl

/-- If the key can be read, if there is one, the vault opens with the key under which everything is
stored; a new key is made only if nothing is stored. -/
theorem World.Sound.exists_openManager (h : w.Sound crypto texts passphrase)
    (hread : Readable w.dir.key failures.key) (draw : KeyDraw) :
    ∃ manager dir key secrets keys,
      openManager crypto passphrase w.dir failures draw = (manager, dir) ∧
      dir.data = w.dir.data ∧ dir.transit = w.dir.transit ∧
      Held crypto texts passphrase dir key secrets keys ∧
      Stored crypto key secrets w.latest ∧ Decrypts crypto keys w.made ∧
      manager.isSealed = false ∧ manager.masterKey = some key ∧
      manager.encryptedKeyBlob = dir.key ∧ dir.key ≠ none := by
  obtain ⟨key, secrets, keys, hheld, -, hstored, hdecrypts⟩ := h
  cases hkey : w.dir.key with
  | some blob =>
    have hfailure : failures.key = none :=
      hread.resolve_left (hkey ▸ Option.some_ne_none blob)
    have hopen := (hheld.keyBlob blob hkey).1
    let manager : SealManager :=
      { status := .unsealed, masterKey := some key, encryptedKeyBlob := some blob }
    have hunseal : SealManager.unseal crypto (({} : SealManager).setEncryptedKeyBlob blob)
        passphrase = .ok manager := by
      rw [SealManager.unseal, SealManager.openKey]
      dsimp only [SealManager.setEncryptedKeyBlob]
      rw [hopen]
      rfl
    refine ⟨manager, w.dir, key, secrets, keys, ?_, rfl, rfl, hheld, hstored, hdecrypts, rfl, rfl,
      hkey.symm, hkey ▸ Option.some_ne_none blob⟩
    rw [openManager, loadKeyBlob_of_some hkey hfailure]
    dsimp only
    rw [if_pos rfl, hunseal]
    rfl
  | none =>
    obtain ⟨hdata, htransit⟩ := hheld.fresh hkey
    have hsecrets : secrets = ∅ := by
      have hholds := hheld.data
      rw [hdata] at hholds
      exact hholds
    have hkeys : keys = ∅ := by
      have hholds := hheld.transit
      rw [htransit] at hholds
      exact hholds
    subst hsecrets hkeys
    have hblob := VaultCrypto.decryptMasterKey_encryptMasterKey crypto draw.key passphrase
      draw.salt draw.nonce
    let blob := crypto.encryptMasterKey draw.key passphrase draw.salt draw.nonce
    refine ⟨({} : SealManager).autoUnseal crypto (some passphrase) draw,
      { w.dir with key := some blob }, draw.key, ∅, ∅, ?_, rfl, rfl, ⟨?_, ?_, ?_, ?_⟩, ⟨?_, ?_⟩,
      ?_, rfl, rfl, rfl, Option.some_ne_none blob⟩
    · rw [openManager, loadKeyBlob_of_none hkey]
      rfl
    · intro blob' hb
      rw [← Option.some.inj hb]
      exact hblob
    · intro hnone
      cases hnone
    · change FileHolds _ _ _ w.dir.data _
      rw [hdata]
      rfl
    · change FileHolds _ _ _ w.dir.transit _
      rw [htransit]
      rfl
    · intro name secret hlookup
      cases hlookup
    · intro name value hlatest
      obtain ⟨secret, version, hlookup, -⟩ := hstored.value name value hlatest
      cases hlookup
    · intro m hm
      obtain ⟨transitKey, hlookup, -⟩ := hdecrypts m hm
      cases hlookup

/-- Without the automatic unsealing a vault starts sealed, with the key blob or without. -/
theorem loadKeyBlob_sealed (dir : VaultDir) (failures : ReadFailures) :
    (AegisVault.loadKeyBlob dir failures).1.isSealed = true ∧
      (AegisVault.loadKeyBlob dir failures).1.masterKey = none ∧
      ∀ blob, (AegisVault.loadKeyBlob dir failures).1.encryptedKeyBlob = some blob →
        dir.key = some blob := by
  cases hkey : dir.key with
  | none =>
    rw [loadKeyBlob_of_none hkey]
    exact ⟨rfl, rfl, fun _ h => h⟩
  | some blob =>
    cases hfailure : failures.key with
    | none =>
      rw [loadKeyBlob_of_some hkey hfailure]
      exact ⟨rfl, rfl, fun _ h => h⟩
    | some e =>
      rw [AegisVault.loadKeyBlob, hkey, hfailure]
      exact ⟨rfl, rfl, fun _ h => nomatch h⟩

namespace World

theorem Sound.durable (h : w.Sound crypto texts passphrase) :
    w.Durable crypto texts passphrase := by
  refine ⟨fun v hv hopen => ?_, fun accessDefaultDeny draw => ?_⟩
  · obtain ⟨key, secrets, keys, -, hmemory, hstored, hdecrypts⟩ := h
    obtain ⟨hkey, -, hsecrets, hkeys⟩ := (hmemory v hv).unsealed hopen
    exact serves_of_stored hopen hkey hsecrets hkeys hstored hdecrypts
  · have hread : Readable w.dir.key ({} : ReadFailures).key := Or.inr rfl
    obtain ⟨manager, dir, key, secrets, keys, hmanager, -, -, hheld, hstored, hdecrypts, hopen, hkey,
      -, -⟩ := h.exists_openManager hread draw
    refine ⟨_, _, init_eq accessDefaultDeny draw, ?_⟩
    rw [hmanager, openStore_eq hopen hkey hheld.data (Or.inr rfl),
      openTransit_eq hopen hkey hheld.transit (Or.inr rfl)]
    exact ⟨hopen, serves_of_stored hopen hkey rfl rfl hstored hdecrypts⟩

theorem Sound.init (h : w.Sound crypto texts passphrase) {autoUnseal accessDefaultDeny : Bool}
    {draw : KeyDraw} (hcareful : Careful crypto w (.init autoUnseal accessDefaultDeny failures draw))
    {w' : World} (hstep : w.step crypto texts passphrase
      (.init autoUnseal accessDefaultDeny failures draw) = some w') :
    w'.Sound crypto texts passphrase := by
  cases autoUnseal with
  | true =>
    obtain ⟨hreadKey, hreadData, hreadTransit⟩ := hcareful rfl
    obtain ⟨manager, dir, key, secrets, keys, hmanager, hdata, htransit, hheld, hstored, hdecrypts,
      hopen, hkey, hblob, hsome⟩ := h.exists_openManager hreadKey draw
    rw [step, init_eq, hmanager] at hstep
    obtain rfl := Option.some.inj hstep
    refine ⟨key, secrets, keys, hheld, fun v hv => ?_, hstored, hdecrypts⟩
    obtain rfl := Option.some.inj hv
    exact hheld.inMemory_open hopen hkey hblob hsome (hdata ▸ hreadData) (htransit ▸ hreadTransit)
  | false =>
    obtain ⟨key, secrets, keys, hheld, -, hstored, hdecrypts⟩ := h
    obtain rfl := Option.some.inj hstep
    refine ⟨key, secrets, keys, hheld, fun v hv => ?_, hstored, hdecrypts⟩
    obtain rfl := Option.some.inj hv
    obtain ⟨hsealed, hkey, hblob⟩ := loadKeyBlob_sealed w.dir failures
    exact inMemory_sealed hsealed hkey hblob

theorem Sound.newAuto (h : w.Sound crypto texts passphrase) {defaultDeny : Bool} {draw : KeyDraw}
    (hcareful : Careful crypto w (.newAuto defaultDeny failures draw)) {w' : World}
    (hstep : w.step crypto texts passphrase (.newAuto defaultDeny failures draw) = some w') :
    w'.Sound crypto texts passphrase := by
  obtain ⟨hreadKey, hreadData, hnone⟩ := hcareful
  obtain ⟨manager, dir, key, secrets, keys, hmanager, hdata, htransit, hheld, hstored, hdecrypts,
    hopen, hkey, hblob, hsome⟩ := h.exists_openManager hreadKey draw
  have hempty : AegisVault.openTransit crypto texts manager dir failures = {} := by
    have hkeys : FileHolds crypto texts.transitKeys key dir.transit ∅ := by
      rw [htransit, hnone]
      rfl
    exact openTransit_eq hopen hkey hkeys (Or.inl (htransit.trans hnone))
  rw [step, newAuto_eq, hmanager] at hstep
  obtain rfl := Option.some.inj hstep
  refine ⟨key, secrets, keys, hheld, fun v hv => ?_, hstored, hdecrypts⟩
  obtain rfl := Option.some.inj hv
  rw [← hempty]
  exact hheld.inMemory_open hopen hkey hblob hsome (hdata ▸ hreadData)
    (Or.inl (htransit.trans hnone))

end World

/-! ## Operations -/

theorem exists_persistSecrets (crypto : VaultCrypto) (texts : VaultTexts) {v : AegisVault}
    (hopen : v.isSealed = false) (hkey : v.store.sealManager.masterKey = some key) (dir : VaultDir)
    (nonce : Nonce) :
    ∃ file, v.persistSecrets crypto texts dir nonce = { dir with data := some file } ∧
      FileHolds crypto texts.secrets key (some file) v.store.secrets := by
  obtain ⟨file, hsave, hparse⟩ := VaultText.exists_save crypto texts.secrets hkey nonce
    v.store.secrets
  refine ⟨file, ?_, hparse⟩
  have hopen' : ¬ v.store.sealManager.isSealed = true := ne_true_of_eq_false hopen
  rw [AegisVault.persistSecrets, VaultStore.saveToDisk, if_neg hopen', hsave]

theorem exists_persistTransitKeys (crypto : VaultCrypto) (texts : VaultTexts) {v : AegisVault}
    (hkey : v.store.sealManager.masterKey = some key) (dir : VaultDir) (nonce : Nonce) :
    ∃ file, v.persistTransitKeys crypto texts dir nonce = { dir with transit := some file } ∧
      FileHolds crypto texts.transitKeys key (some file) v.transit.keys := by
  obtain ⟨file, hsave, hparse⟩ := VaultText.exists_save crypto texts.transitKeys hkey nonce
    v.transit.keys
  refine ⟨file, ?_, hparse⟩
  rw [AegisVault.persistTransitKeys, hsave]

/-- A value is set in an open vault only, as a new version. -/
theorem VaultStore.set_cases {store store' : VaultStore} {name value component : String}
    {nonce : Nonce} (h : store.set crypto name value component nonce = .ok store') :
    store.sealManager.isSealed = false ∧ ∃ encrypted,
      store.sealManager.encrypt crypto nonce (bytesOf value) = .ok encrypted ∧
      store' = store.addVersion name component encrypted := by
  by_cases hsealed : store.sealManager.isSealed = true
  · rw [VaultStore.set, if_pos hsealed] at h
    cases h
  rw [VaultStore.set, if_neg hsealed] at h
  refine ⟨Bool.eq_false_of_not_eq_true hsealed, ?_⟩
  cases haccess : store.accessController.checkAccess component name .write with
  | error e =>
    rw [haccess] at h
    cases h
  | ok _ =>
    rw [haccess] at h
    dsimp only at h
    cases hencrypt : store.sealManager.encrypt crypto nonce (bytesOf value) with
    | error e =>
      rw [hencrypt] at h
      cases h
    | ok encrypted =>
      rw [hencrypt] at h
      exact ⟨encrypted, rfl, (Except.ok.inj h).symm⟩

theorem VaultStore.delete_cases {store store' : VaultStore} {name component : String}
    (h : store.delete name component = .ok store') :
    store.sealManager.isSealed = false ∧
      store' = { store with secrets := store.secrets.erase name } := by
  by_cases hsealed : store.sealManager.isSealed = true
  · rw [VaultStore.delete, if_pos hsealed] at h
    cases h
  rw [VaultStore.delete, if_neg hsealed] at h
  refine ⟨Bool.eq_false_of_not_eq_true hsealed, ?_⟩
  cases haccess : store.accessController.checkAccess component name .delete with
  | error e =>
    rw [haccess] at h
    cases h
  | ok _ =>
    rw [haccess] at h
    dsimp only at h
    split_ifs at h
    exact (Except.ok.inj h).symm

theorem Held.withData (h : Held crypto texts passphrase dir key secrets keys) {file : Bytes}
    {secrets' : Table String Secret} (hsome : dir.key ≠ none)
    (hfile : FileHolds crypto texts.secrets key (some file) secrets') :
    Held crypto texts passphrase { dir with data := some file } key secrets' keys where
  keyBlob := h.keyBlob
  fresh := fun hnone => absurd hnone hsome
  data := hfile
  transit := h.transit

theorem Held.withTransit (h : Held crypto texts passphrase dir key secrets keys) {file : Bytes}
    {keys' : Table String TransitKey} (hsome : dir.key ≠ none)
    (hfile : FileHolds crypto texts.transitKeys key (some file) keys') :
    Held crypto texts passphrase { dir with transit := some file } key secrets keys' where
  keyBlob := h.keyBlob
  fresh := fun hnone => absurd hnone hsome
  data := h.data
  transit := hfile

theorem Stored.set (h : Stored crypto key secrets w.latest) {name value component : String}
    {nonce : Nonce} {encrypted : Bytes}
    (hencrypt : crypto.encryptWithKey key nonce (bytesOf value) = .ok encrypted) :
    Stored crypto key (secrets.insert name
      (((secrets.lookup name).getD (Secret.new name)).addVersion encrypted component))
      (w.latest.insert name value) := by
  have hmax : ((secrets.lookup name).getD (Secret.new name)).metadata.maxVersions = 10 := by
    cases hlookup : secrets.lookup name with
    | none => rfl
    | some secret => exact h.maxVersions name secret hlookup
  have hlatest := Secret.currentVersion_addVersion ((secrets.lookup name).getD (Secret.new name))
    (by rw [hmax]; decide) encrypted component
  refine ⟨fun name' secret hlookup => ?_, fun name' value' hlookup => ?_⟩
  · rw [Table.lookup_insert] at hlookup
    split_ifs at hlookup with hname
    · rw [← Option.some.inj hlookup]
      exact hmax
    · exact h.maxVersions name' secret hlookup
  · rw [Table.lookup_insert] at hlookup
    rw [Table.lookup_insert]
    split_ifs at hlookup ⊢ with hname
    · obtain rfl := Option.some.inj hlookup
      exact ⟨_, _, rfl, hlatest, VaultCrypto.decryptWithKey_of_encrypt hencrypt⟩
    · exact h.value name' value' hlookup

theorem Stored.delete (h : Stored crypto key secrets w.latest) (name : String) :
    Stored crypto key (secrets.erase name) (w.latest.erase name) := by
  refine ⟨fun name' secret hlookup => ?_, fun name' value hlookup => ?_⟩
  · exact h.maxVersions name' secret (Table.lookup_of_lookup_erase hlookup)
  · rw [Table.lookup_erase] at hlookup
    rw [Table.lookup_erase]
    split_ifs at hlookup ⊢
    exact h.value name' value hlookup

namespace World

theorem Sound.set (h : w.Sound crypto texts passphrase) (hv : w.vault = some v)
    {v' : AegisVault} {name value component : String} {nonce fileNonce : Nonce}
    (hset : v.set crypto texts w.dir name value component nonce fileNonce = .ok (v', dir)) :
    Sound crypto texts passphrase
      { w with vault := some v', dir, latest := w.latest.insert name value } := by
  obtain ⟨key, secrets, keys, hheld, hmemory, hstored, hdecrypts⟩ := h
  have hv := hmemory v hv
  rw [AegisVault.set] at hset
  cases hstore : v.store.set crypto name value component nonce with
  | error e =>
    rw [hstore] at hset
    cases hset
  | ok store =>
    rw [hstore] at hset
    obtain ⟨rfl, rfl⟩ := Prod.mk.inj (Except.ok.inj hset)
    obtain ⟨hopen, encrypted, hencrypt, rfl⟩ := VaultStore.set_cases hstore
    obtain ⟨hkey, hsome, hsecrets, hkeys⟩ := hv.unsealed hopen
    let vault : AegisVault := { v with store := v.store.addVersion name component encrypted }
    have hvault : vault.isSealed = false ∧ vault.store.sealManager.masterKey = some key :=
      ⟨hopen, hkey⟩
    obtain ⟨file, hpersist, hfile⟩ :=
      exists_persistSecrets crypto texts hvault.1 hvault.2 w.dir fileNonce
    rw [SealManager.encrypt, hkey] at hencrypt
    change Sound crypto texts passphrase { w with
      vault := some vault
      dir := vault.persistSecrets crypto texts w.dir fileNonce
      latest := w.latest.insert name value }
    rw [hpersist]
    refine ⟨key, _, keys, hheld.withData hsome hfile, fun v' hv' => ?_, ?_, hdecrypts⟩
    · obtain rfl := Option.some.inj hv'
      exact
        { blob := hv.blob
          sealed := hv.sealed
          unsealed := fun _ => ⟨hkey, hsome, rfl, hkeys⟩
          someSecrets := Or.inr rfl
          someKeys := hv.someKeys }
    · change Stored crypto key (v.store.addVersion name component encrypted).secrets _
      rw [VaultStore.addVersion, hsecrets]
      exact hstored.set hencrypt

theorem Sound.delete (h : w.Sound crypto texts passphrase) (hv : w.vault = some v)
    {v' : AegisVault} {name component : String} {fileNonce : Nonce}
    (hdelete : v.delete crypto texts w.dir name component fileNonce = .ok (v', dir)) :
    Sound crypto texts passphrase
      { w with vault := some v', dir, latest := w.latest.erase name } := by
  obtain ⟨key, secrets, keys, hheld, hmemory, hstored, hdecrypts⟩ := h
  have hv := hmemory v hv
  rw [AegisVault.delete] at hdelete
  cases hstore : v.store.delete name component with
  | error e =>
    rw [hstore] at hdelete
    cases hdelete
  | ok store =>
    rw [hstore] at hdelete
    obtain ⟨rfl, rfl⟩ := Prod.mk.inj (Except.ok.inj hdelete)
    obtain ⟨hopen, rfl⟩ := VaultStore.delete_cases hstore
    obtain ⟨hkey, hsome, hsecrets, hkeys⟩ := hv.unsealed hopen
    let vault : AegisVault :=
      { v with store := { v.store with secrets := v.store.secrets.erase name } }
    have hvault : vault.isSealed = false ∧ vault.store.sealManager.masterKey = some key :=
      ⟨hopen, hkey⟩
    obtain ⟨file, hpersist, hfile⟩ :=
      exists_persistSecrets crypto texts hvault.1 hvault.2 w.dir fileNonce
    rw [hpersist]
    refine ⟨key, _, keys, hheld.withData hsome hfile, fun v' hv' => ?_, ?_, hdecrypts⟩
    · obtain rfl := Option.some.inj hv'
      exact
        { blob := hv.blob
          sealed := hv.sealed
          unsealed := fun _ => ⟨hkey, hsome, rfl, hkeys⟩
          someSecrets := Or.inr rfl
          someKeys := hv.someKeys }
    · change Stored crypto key (v.store.secrets.erase name) _
      rw [hsecrets]
      exact hstored.delete name

theorem Sound.transitCreateKey (h : w.Sound crypto texts passphrase) (hv : w.vault = some v)
    {v' : AegisVault} {name : String} {newKey : MasterKey} {fileNonce : Nonce}
    (hcareful : name ∈ v.transit.keys ∨ v.isSealed = false)
    (hcreate : v.transitCreateKey crypto texts w.dir name newKey fileNonce = .ok (v', dir)) :
    Sound crypto texts passphrase { w with vault := some v', dir } := by
  obtain ⟨key, secrets, keys, hheld, hmemory, hstored, hdecrypts⟩ := h
  have hv := hmemory v hv
  rw [AegisVault.transitCreateKey, TransitEngine.createKey] at hcreate
  by_cases hmem : name ∈ v.transit.keys
  · rw [if_pos hmem] at hcreate
    cases hcreate
  · rw [if_neg hmem] at hcreate
    obtain ⟨rfl, rfl⟩ := Prod.mk.inj (Except.ok.inj hcreate)
    obtain ⟨hkey, hsome, hsecrets, hkeys⟩ := hv.unsealed (hcareful.resolve_left hmem)
    have hnew : keys.lookup name = none := AList.lookup_eq_none.mpr (hkeys ▸ hmem)
    let transit : TransitEngine :=
      { keys := v.transit.keys.insert name { name, key := newKey, version := 1 } }
    let vault : AegisVault := { v with transit }
    have hvault : vault.store.sealManager.masterKey = some key := hkey
    obtain ⟨file, hpersist, hfile⟩ :=
      exists_persistTransitKeys crypto texts hvault w.dir fileNonce
    rw [hpersist]
    refine ⟨key, secrets, _, hheld.withTransit hsome hfile, fun v' hv' => ?_, hstored,
      fun m hm => ?_⟩
    · obtain rfl := Option.some.inj hv'
      exact
        { blob := hv.blob
          sealed := hv.sealed
          unsealed := fun _ => ⟨hkey, hsome, hsecrets, rfl⟩
          someSecrets := hv.someSecrets
          someKeys := Or.inr rfl }
    · obtain ⟨transitKey, hlookup, hdecrypt⟩ := hdecrypts m hm
      have hother : m.keyName ≠ name := by
        intro heq
        rw [heq, hnew] at hlookup
        cases hlookup
      refine ⟨transitKey, ?_, hdecrypt⟩
      change (v.transit.keys.insert name _).lookup m.keyName = _
      rw [AList.lookup_insert_ne hother, hkeys, hlookup]

theorem Sound.transitEncrypt (h : w.Sound crypto texts passphrase) (hv : w.vault = some v)
    {keyName : String} {plaintext ciphertext : Bytes} {nonce : Nonce}
    (hencrypt : v.transitEncrypt crypto keyName nonce plaintext = .ok ciphertext) :
    Sound crypto texts passphrase
      { w with made := { keyName, plaintext, ciphertext } :: w.made } := by
  obtain ⟨key, secrets, keys, hheld, hmemory, hstored, hdecrypts⟩ := h
  refine ⟨key, secrets, keys, hheld, hmemory, hstored, fun m hm => ?_⟩
  rcases List.mem_cons.mp hm with rfl | hm
  · rw [AegisVault.transitEncrypt, TransitEngine.encrypt] at hencrypt
    cases hlookup : v.transit.keys.lookup keyName with
    | none =>
      rw [hlookup] at hencrypt
      cases hencrypt
    | some transitKey =>
      rw [hlookup] at hencrypt
      rcases (hmemory v hv).someKeys with hempty | hall
      · rw [hempty] at hlookup
        cases hlookup
      · exact ⟨transitKey, hall ▸ hlookup, VaultCrypto.decryptWithKey_of_encrypt hencrypt⟩
  · exact hdecrypts m hm

theorem Sound.vaultSeal (h : w.Sound crypto texts passphrase) (hv : w.vault = some v) :
    Sound crypto texts passphrase { w with vault := some v.seal } := by
  obtain ⟨key, secrets, keys, hheld, hmemory, hstored, hdecrypts⟩ := h
  refine ⟨key, secrets, keys, hheld, fun v' hv' => ?_, hstored, hdecrypts⟩
  obtain rfl := Option.some.inj hv'
  exact
    { blob := (hmemory v hv).blob
      sealed := fun _ => rfl
      unsealed := fun hopen => nomatch hopen
      someSecrets := (hmemory v hv).someSecrets
      someKeys := (hmemory v hv).someKeys }

/-- The secrets that an unsealed vault has: those of the file, or those that it had if they are the
same. -/
theorem loadFromDisk_eq (crypto : VaultCrypto) (texts : VaultTexts) (store : VaultStore)
    (hopen : store.sealManager.isSealed = false)
    (hkey : store.sealManager.masterKey = some key)
    (hdata : FileHolds crypto texts.secrets key dir.data secrets)
    (hsome : store.secrets = ∅ ∨ store.secrets = secrets) {failure : Option String}
    (hload : store.secrets = secrets ∨ Readable dir.data failure) :
    AegisVault.orKeep store
      (store.loadFromDisk crypto texts.secrets (readFile dir.data failure)) =
        { store with secrets } := by
  rw [VaultStore.loadFromDisk, if_neg (ne_true_of_eq_false hopen)]
  have hsame (h : store.secrets = secrets) : store = { store with secrets } := by
    rw [← h]
  cases hfile : dir.data with
  | none =>
    rw [hfile] at hdata
    obtain rfl : secrets = ∅ := hdata
    exact hsame (hsome.elim id id)
  | some bytes =>
    rw [hfile] at hdata hload
    cases failure with
    | none =>
      have hparse := hdata store.sealManager hkey
      dsimp only [readFile, Option.map_some, VaultText.load]
      rw [hparse]
      rfl
    | some e =>
      exact hsame (hload.resolve_right fun hread =>
        hread.elim (Option.some_ne_none bytes) (Option.some_ne_none e))

/-- A vault that is unsealed has the secrets in memory or loads them, and has the transit keys in
memory if there are any. -/
theorem Sound.vaultUnseal (h : w.Sound crypto texts passphrase) (hv : w.vault = some v)
    {v' : AegisVault} {passphrase' : String} {failure : Option String}
    (hcareful : Careful crypto w (.vaultUnseal passphrase' failure))
    (hunseal : v.unseal crypto texts w.dir passphrase' failure = .ok v') :
    Sound crypto texts passphrase { w with vault := some v' } := by
  obtain ⟨key, secrets, keys, hheld, hmemory, hstored, hdecrypts⟩ := h
  have hmem := hmemory v hv
  rw [AegisVault.unseal, SealManager.unseal] at hunseal
  cases hopenKey : v.store.sealManager.openKey crypto passphrase' with
  | error e =>
    rw [hopenKey] at hunseal
    cases hunseal
  | ok opened =>
    rw [hopenKey] at hunseal
    obtain ⟨hsecrets, hkeys⟩ := hcareful v hv ⟨opened, hopenKey⟩
    have hopened : opened = key ∧ w.dir.key ≠ none := by
      rw [SealManager.openKey] at hopenKey
      cases hblob : v.store.sealManager.encryptedKeyBlob with
      | none =>
        rw [hblob] at hopenKey
        cases hopenKey
      | some blob =>
        rw [hblob] at hopenKey
        have hfile := hmem.blob blob hblob
        exact ⟨(hheld.keyBlob blob hfile).2 _ _ hopenKey, hfile ▸ Option.some_ne_none blob⟩
    obtain ⟨rfl, hsome⟩ := hopened
    have hload : v.store.secrets = secrets ∨ Readable w.dir.data failure := by
      rcases hsecrets with hopen | hne | hread
      · exact Or.inl (hmem.unsealed hopen).2.2.1
      · exact Or.inl (hmem.someSecrets.resolve_left hne)
      · exact Or.inr hread
    have hallKeys : v.transit.keys = keys := by
      rcases hkeys with hne | hnone
      · exact hmem.someKeys.resolve_left hne
      · have hempty := hheld.transit
        rw [hnone] at hempty
        obtain rfl : keys = ∅ := hempty
        exact hmem.someKeys.elim id id
    obtain rfl := Except.ok.inj hunseal
    refine ⟨opened, secrets, keys, hheld, fun v' hv' => ?_, hstored, hdecrypts⟩
    obtain rfl := Option.some.inj hv'
    let manager := (v.store.sealManager.setMasterKey (some opened)).setStatus .unsealed
    have hloaded := loadFromDisk_eq crypto texts (v.withManager manager).store rfl rfl hheld.data
      hmem.someSecrets hload
    dsimp only
    rw [hloaded]
    exact
      { blob := hmem.blob
        sealed := fun hsealed => nomatch hsealed
        unsealed := fun _ => ⟨rfl, hsome, rfl, hallKeys⟩
        someSecrets := Or.inr rfl
        someKeys := hmem.someKeys }

theorem Sound.withController (h : w.Sound crypto texts passphrase) (hv : w.vault = some v)
    (accessController : AccessController) :
    Sound crypto texts passphrase
      { w with vault := some { v with store := { v.store with accessController } } } := by
  obtain ⟨key, secrets, keys, hheld, hmemory, hstored, hdecrypts⟩ := h
  refine ⟨key, secrets, keys, hheld, fun v' hv' => ?_, hstored, hdecrypts⟩
  obtain rfl := Option.some.inj hv'
  have hmem := hmemory v hv
  exact
    { blob := hmem.blob
      sealed := hmem.sealed
      unsealed := hmem.unsealed
      someSecrets := hmem.someSecrets
      someKeys := hmem.someKeys }

theorem Sound.act (h : w.Sound crypto texts passphrase) (hv : w.vault = some v) {op : VaultOp}
    (hcareful : Careful crypto w op) : (w.act crypto texts v op).Sound crypto texts passphrase := by
  cases op with
  | init autoUnseal accessDefaultDeny failures draw => exact h
  | newAuto defaultDeny failures draw => exact h
  | set name value component nonce fileNonce =>
    rw [World.act]
    split
    · exact h.set hv ‹_›
    · exact h
  | delete name component fileNonce =>
    rw [World.act]
    split
    · exact h.delete hv ‹_›
    · exact h
  | transitCreateKey name newKey fileNonce =>
    rw [World.act]
    split
    · exact h.transitCreateKey hv (hcareful v hv) ‹_›
    · exact h
  | transitEncrypt keyName plaintext nonce =>
    rw [World.act]
    split
    · exact h.transitEncrypt hv ‹_›
    · exact h
  | vaultSeal => exact h.vaultSeal hv
  | vaultUnseal passphrase' failure =>
    rw [World.act]
    split
    · exact h.vaultUnseal hv hcareful ‹_›
    · exact h
  | addAccessPolicy policy => exact h.withController hv _
  | removeAccessPolicy name => exact h.withController hv _

theorem Sound.step (h : w.Sound crypto texts passphrase) {op : VaultOp} {w' : World}
    (hcareful : Careful crypto w op) (hstep : w.step crypto texts passphrase op = some w') :
    w'.Sound crypto texts passphrase := by
  have hact (hrun : w.vault.map (fun v => w.act crypto texts v op) = some w') :
      w'.Sound crypto texts passphrase := by
    obtain ⟨v, hv, rfl⟩ := Option.map_eq_some_iff.mp hrun
    exact h.act hv hcareful
  cases op with
  | init autoUnseal accessDefaultDeny failures draw => exact h.init hcareful hstep
  | newAuto defaultDeny failures draw => exact h.newAuto hcareful hstep
  | _ => exact hact hstep

theorem sound_init : (system crypto texts passphrase).init.Sound crypto texts passphrase := by
  refine ⟨⟨List.replicate 32 0, List.length_replicate⟩, ∅, ∅, ⟨?_, ?_, rfl, rfl⟩, ?_, ⟨?_, ?_⟩, ?_⟩
  · exact fun _ h => nomatch h
  · exact fun _ => ⟨rfl, rfl⟩
  · exact fun _ h => nomatch h
  · exact fun _ _ h => nomatch h
  · exact fun _ _ h => nomatch h
  · exact fun _ h => nomatch h

end World

/-- In every run in which all files are loaded before they are written over, an open vault has
everything that should be kept, and nothing is lost on disk. -/
theorem durable_of_reach (crypto : VaultCrypto) (texts : VaultTexts) (passphrase : String)
    {w : World} (h : (World.system crypto texts passphrase).Reach (Careful crypto) w) :
    w.Durable crypto texts passphrase := by
  have hsound := h.invariant (P := fun w => w.Sound crypto texts passphrase) World.sound_init
    fun w op w' _ hsound hcareful hstep => hsound.step hcareful hstep
  exact hsound.durable

/-! ## Runs -/

instance (result : Except VaultError MasterKey) : Decidable (∃ key, result = .ok key) :=
  match result with
  | .ok key => isTrue ⟨key, rfl⟩
  | .error _ => isFalse fun ⟨_, h⟩ => nomatch h

instance (crypto : VaultCrypto) : ∀ w op, Decidable (Careful crypto w op)
  | w, .init autoUnseal _ failures _ => inferInstanceAs (Decidable (autoUnseal = true →
      Readable w.dir.key failures.key ∧ Readable w.dir.data failures.data ∧
        Readable w.dir.transit failures.transit))
  | w, .newAuto _ failures _ => inferInstanceAs (Decidable (Readable w.dir.key failures.key ∧
      Readable w.dir.data failures.data ∧ w.dir.transit = none))
  | w, .vaultUnseal passphrase failure => inferInstanceAs (Decidable (∀ v ∈ w.vault,
      (∃ key, v.store.sealManager.openKey crypto passphrase = .ok key) →
        (v.isSealed = false ∨ v.store.secrets ≠ ∅ ∨ Readable w.dir.data failure) ∧
          (v.transit.keys ≠ ∅ ∨ w.dir.transit = none)))
  | w, .transitCreateKey name _ _ => inferInstanceAs (Decidable (∀ v ∈ w.vault,
      name ∈ v.transit.keys ∨ v.isSealed = false))
  | _, .set _ _ _ _ _ | _, .delete _ _ _ | _, .transitEncrypt _ _ _ | _, .vaultSeal
  | _, .addAccessPolicy _ | _, .removeAccessPolicy _ => isTrue trivial

/-- A vault that is used, sealed, started again and unsealed. -/
def carefulScript : List VaultOp :=
  [.newAuto false {} (plainDraw 1), .set "db/password" "hunter2" "server" plainNonce plainNonce,
    .transitCreateKey "app" (keyOf [5]) plainNonce, .transitEncrypt "app" [104, 105] plainNonce,
    .vaultSeal, .vaultUnseal "pass" (some "permission denied"),
    .init true false {} (plainDraw 2)]

/-- The secret and the ciphertext of such a vault are there to the end. -/
theorem durable_of_reach_script : ∃ w,
    (World.system plainCrypto plainTexts "pass").run (Careful plainCrypto) carefulScript = some w ∧
      w.latest.lookup "db/password" = some "hunter2" ∧ w.made ≠ [] ∧
      w.Durable plainCrypto plainTexts "pass" := by
  have hrun : ((World.system plainCrypto plainTexts "pass").run (Careful plainCrypto)
      carefulScript).any (fun w => decide (w.latest.lookup "db/password" = some "hunter2") &&
        decide (w.made ≠ [])) = true := by
    decide +kernel
  cases hw : (World.system plainCrypto plainTexts "pass").run (Careful plainCrypto)
      carefulScript with
  | none =>
    rw [hw] at hrun
    cases hrun
  | some w =>
    rw [hw, Option.any_some, Bool.and_eq_true, decide_eq_true_eq, decide_eq_true_eq] at hrun
    exact ⟨w, rfl, hrun.1, hrun.2,
      durable_of_reach plainCrypto plainTexts "pass" (System.reach_of_run hw)⟩

/-- A vault that is started again while its key cannot be read. -/
def lostKeyScript : List VaultOp :=
  [.newAuto false {} (plainDraw 1), .set "db/password" "hunter2" "server" plainNonce plainNonce,
    .newAuto false { key := some "permission denied" } (plainDraw 2)]

/-- Whether an open vault does not have the value of a secret that was set and not deleted. -/
def World.loses (w : World) (key value component : String) : Bool :=
  decide (w.latest.lookup key = some value) && w.vault.any fun v =>
    !v.isSealed && (v.store.accessController.checkAccess component key .read).toBool &&
      decide (v.get plainCrypto key component ≠ .ok value)

/-- The key is replaced by a new one, and the secret is lost. -/
theorem not_durable_of_lost_key : ¬ ∀ crypto texts passphrase w,
    (World.system crypto texts passphrase).Reachable w → w.Durable crypto texts passphrase := by
  intro h
  have hrun : ((World.system plainCrypto plainTexts "pass").run (fun _ _ => True)
      lostKeyScript).any (fun w => w.loses "db/password" "hunter2" "server") = true := by
    decide +kernel
  cases hw : (World.system plainCrypto plainTexts "pass").run (fun _ _ => True)
      lostKeyScript with
  | none =>
    rw [hw] at hrun
    cases hrun
  | some w =>
    have hdurable := (h _ _ _ w (System.reach_of_run hw)).1
    rw [hw, Option.any_some, World.loses, Bool.and_eq_true, decide_eq_true_eq] at hrun
    obtain ⟨hlatest, hvault⟩ := hrun
    cases hv : w.vault with
    | none =>
      rw [hv] at hvault
      cases hvault
    | some v =>
      rw [hv, Option.any_some, Bool.and_eq_true, Bool.and_eq_true, decide_eq_true_eq,
        Bool.not_eq_true'] at hvault
      obtain ⟨⟨hopen, haccess⟩, hget⟩ := hvault
      refine hget ((hdurable v hv hopen).1 _ _ hlatest _ ?_)
      cases hcheck : v.store.accessController.checkAccess "server" "db/password" .read with
      | ok _ => rfl
      | error e =>
        rw [hcheck] at haccess
        cases haccess

end AegisDB.Vault
