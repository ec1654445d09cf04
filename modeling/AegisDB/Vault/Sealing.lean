import AegisDB.Library.Interleaving
import AegisDB.Library.Transition
import AegisDB.Vault.Vault

/-!
# A sealed vault

The operations of a vault run side by side, each a sequence of sections under one of the locks.  The
operations on secrets first see whether the vault is sealed, so one that begins while it is sealed
ends there.  The transit engine has its keys in memory and does not look, so it decrypts in a sealed
vault too.  Sealing and unsealing first set the master key and then the status, and if one comes
between the two steps of the other, the status is wrong from then on.
-/

namespace AegisDB.Vault

/-! ## Operations in sections -/

/-- What the operations share. -/
structure VaultState where
  vault : AegisVault
  dir : VaultDir
deriving DecidableEq

/-- What is asked of a vault, with what is drawn at random and which reads fail. -/
inductive Request where
  | get (key component : String)
  | getVersion (key : String) (version : UInt32) (component : String)
  | set (key value component : String) (nonce fileNonce : Nonce)
  | delete (key component : String) (fileNonce : Nonce)
  | list (pre component : String)
  | transitEncrypt (keyName : String) (nonce : Nonce) (plaintext : Bytes)
  | transitDecrypt (keyName : String) (ciphertext : Bytes)
  | transitCreateKey (name : String) (key : MasterKey) (fileNonce : Nonce)
  | vaultSeal
  | vaultUnseal (passphrase : String) (failure : Option String)

namespace VaultState

def isSealed (s : VaultState) : Bool :=
  s.vault.isSealed

def manager (s : VaultState) : SealManager :=
  s.vault.store.sealManager

def withManager (f : SealManager → SealManager) (s : VaultState) : VaultState :=
  { s with vault := s.vault.withManager (f s.manager) }

def withStore (store : VaultStore) (s : VaultState) : VaultState :=
  { s with vault := { s.vault with store } }

def withSecrets (secrets : Table String Secret) (s : VaultState) : VaultState :=
  s.withStore { s.vault.store with secrets }

def withTransit (transit : TransitEngine) (s : VaultState) : VaultState :=
  { s with vault := { s.vault with transit } }

def withData (file : Bytes) (s : VaultState) : VaultState :=
  { s with dir := { s.dir with data := some file } }

def withTransitFile (file : Bytes) (s : VaultState) : VaultState :=
  { s with dir := { s.dir with transit := some file } }

end VaultState

abbrev VaultProg := Prog VaultState Reply

section Programs

open Prog

variable (crypto : VaultCrypto) (texts : VaultTexts)

def unlessSealed (p : VaultProg) : VaultProg := do
  if ← read VaultState.isSealed then pure (.error .sealed) else p

def ifAllowed (component key : String) (operation : Operation) (p : VaultProg) : VaultProg := do
  match ← read fun s => s.vault.store.accessController.checkAccess component key operation with
  | .error e => pure (.error e)
  | .ok _ => p

def revealVersion (version : SecretVersion) : VaultProg :=
  read fun s => (s.vault.store.reveal crypto version).map Answer.value

/-- Remove a secret, and say whether there was one. -/
def removeSecret (key : String) : Prog VaultState Bool :=
  .atom
    (fun s => if key ∈ s.vault.store.secrets then s.withSecrets (s.vault.store.secrets.erase key)
      else s)
    fun s => .done (decide (key ∈ s.vault.store.secrets))

/-- Add a transit key unless its name is taken. -/
def addTransitKey (name : String) (key : MasterKey) :
    Prog VaultState (Except VaultError TransitEngine) :=
  .atom
    (fun s => s.withTransit
      (AegisVault.orKeep s.vault.transit (s.vault.transit.createKey name key)))
    fun s => .done (s.vault.transit.createKey name key)

/-- Encrypt a table and write it to its file; what goes wrong is only noted. -/
def saveTable (fileNonce : Nonce) (text : VaultState → Bytes)
    (write : Bytes → VaultState → VaultState) : Prog VaultState Unit := do
  let json ← read text
  match ← read fun s => s.manager.encrypt crypto fileNonce json with
  | .error _ => pure ()
  | .ok file => modify (write file)

/-- Save the secrets. -/
def saveSecrets (fileNonce : Nonce) : Prog VaultState Unit := do
  if ← read VaultState.isSealed then pure ()
  else
    saveTable crypto fileNonce (fun s => bytesOf (texts.secrets.toText s.vault.store.secrets))
      VaultState.withData

def saveTransitKeys (fileNonce : Nonce) : Prog VaultState Unit :=
  saveTable crypto fileNonce (fun s => bytesOf (texts.transitKeys.toText s.vault.transit.keys))
    VaultState.withTransitFile

/-- Load the secrets; what goes wrong is only noted. -/
def loadSecrets (failure : Option String) : Prog VaultState Unit := do
  if ← read VaultState.isSealed then pure ()
  else
    match ← read fun s => readFile s.dir.data failure with
    | none => pure ()
    | some (.error _) => pure ()
    | some (.ok encrypted) =>
      match ← read fun s => texts.secrets.parse crypto s.manager encrypted with
      | .error _ => pure ()
      | .ok secrets => modify (VaultState.withSecrets secrets)

def sealTail : VaultProg := do
  modify (VaultState.withManager fun m => m.setStatus .sealed)
  pure (.ok .unit)

/-- The second step of unsealing, and what comes behind it. -/
def unsealTail (failure : Option String) : VaultProg := do
  modify (VaultState.withManager fun m => m.setStatus .unsealed)
  loadSecrets crypto texts failure
  pure (.ok .unit)

/-- Unsealing once the master key is decrypted. -/
def unsealWith (failure : Option String) : Except VaultError MasterKey → VaultProg
  | .error e => pure (.error e)
  | .ok key => do
    modify (VaultState.withManager fun m => m.setMasterKey (some key))
    unsealTail crypto texts failure

/-- The sections of what is asked. -/
def Request.prog : Request → VaultProg
  | .get key component => unlessSealed <| ifAllowed component key .read do
      match ← read fun s => (s.vault.store.secrets.lookup key).bind Secret.currentVersion with
      | none => pure (.error (.secretNotFound key))
      | some version => revealVersion crypto version
  | .getVersion key version component => unlessSealed <| ifAllowed component key .read do
      match ← read fun s => s.vault.store.secrets.lookup key with
      | none => pure (.error (.secretNotFound key))
      | some secret =>
        match secret.getVersion version with
        | none => pure (.error (.secretNotFound (key ++ "@v" ++ toString version.toNat)))
        | some version => revealVersion crypto version
  | .set key value component nonce fileNonce => unlessSealed <| ifAllowed component key .write do
      match ← read fun s => s.manager.encrypt crypto nonce (bytesOf value) with
      | .error e => pure (.error e)
      | .ok encrypted =>
        modify fun s => s.withStore (s.vault.store.addVersion key component encrypted)
        saveSecrets crypto texts fileNonce
        pure (.ok .unit)
  | .delete key component fileNonce => unlessSealed <| ifAllowed component key .delete do
      if ← removeSecret key then
        saveSecrets crypto texts fileNonce
        pure (.ok .unit)
      else pure (.error (.secretNotFound key))
  | .list pre component => unlessSealed <| ifAllowed component pre .list do
      read fun s =>
        .ok (.names (s.vault.store.secrets.keys.filter fun k => startsWith k pre))
  | .transitEncrypt keyName nonce plaintext =>
      read fun s => (s.vault.transitEncrypt crypto keyName nonce plaintext).map Answer.ciphertext
  | .transitDecrypt keyName ciphertext =>
      read fun s => (s.vault.transitDecrypt crypto keyName ciphertext).map Answer.plaintext
  | .transitCreateKey name key fileNonce => do
      match ← addTransitKey name key with
      | .error e => pure (.error e)
      | .ok _ =>
        saveTransitKeys crypto texts fileNonce
        pure (.ok .unit)
  | .vaultSeal => do
      modify (VaultState.withManager fun m => m.setMasterKey none)
      sealTail
  | .vaultUnseal passphrase failure => do
      let opened ← read fun s => s.manager.openKey crypto passphrase
      unsealWith crypto texts failure opened

/-! ## Alone -/

/-- What is answered when nothing else runs, and the vault that is left: the operation of the vault
at once. -/
def Request.serve (s : VaultState) : Request → Reply × VaultState
  | .get key component => ((s.vault.get crypto key component).map Answer.value, s)
  | .getVersion key version component =>
    ((s.vault.store.getVersion crypto key version component).map Answer.value, s)
  | .set key value component nonce fileNonce =>
    match s.vault.set crypto texts s.dir key value component nonce fileNonce with
    | .ok (vault, dir) => (.ok .unit, { vault, dir })
    | .error e => (.error e, s)
  | .delete key component fileNonce =>
    match s.vault.delete crypto texts s.dir key component fileNonce with
    | .ok (vault, dir) => (.ok .unit, { vault, dir })
    | .error e => (.error e, s)
  | .list pre component => ((s.vault.store.list pre component).map Answer.names, s)
  | .transitEncrypt keyName nonce plaintext =>
    ((s.vault.transitEncrypt crypto keyName nonce plaintext).map Answer.ciphertext, s)
  | .transitDecrypt keyName ciphertext =>
    ((s.vault.transitDecrypt crypto keyName ciphertext).map Answer.plaintext, s)
  | .transitCreateKey name key fileNonce =>
    match s.vault.transitCreateKey crypto texts s.dir name key fileNonce with
    | .ok (vault, dir) => (.ok .unit, { vault, dir })
    | .error e => (.error e, s)
  | .vaultSeal => (.ok .unit, { s with vault := s.vault.seal })
  | .vaultUnseal passphrase failure =>
    match s.vault.unseal crypto texts s.dir passphrase failure with
    | .ok vault => (.ok .unit, { s with vault })
    | .error e => (.error e, s)

variable {crypto texts}

theorem run_unlessSealed (p : VaultProg) (s : VaultState) : (unlessSealed p).run s =
    if s.vault.store.sealManager.isSealed then (.error .sealed, s) else p.run s := by
  rw [unlessSealed, run_bind, run_read]
  change (if s.vault.store.sealManager.isSealed = true then _ else _ : VaultProg).run s = _
  split_ifs <;> rfl

theorem run_ifAllowed (component key : String) (operation : Operation) (p : VaultProg)
    (s : VaultState) : (ifAllowed component key operation p).run s =
      match s.vault.store.accessController.checkAccess component key operation with
      | .error e => (.error e, s)
      | .ok _ => p.run s := by
  rw [ifAllowed, run_bind, run_read]
  dsimp only
  split <;> rfl

theorem run_removeSecret (key : String) (s : VaultState) : (removeSecret key).run s =
    (decide (key ∈ s.vault.store.secrets), if key ∈ s.vault.store.secrets then
      s.withSecrets (s.vault.store.secrets.erase key) else s) :=
  rfl

theorem run_addTransitKey (name : String) (key : MasterKey) (s : VaultState) :
    (addTransitKey name key).run s = (s.vault.transit.createKey name key,
      s.withTransit (AegisVault.orKeep s.vault.transit (s.vault.transit.createKey name key))) :=
  rfl

theorem run_saveSecrets (fileNonce : Nonce) (s : VaultState) :
    ((saveSecrets crypto texts fileNonce).run s).2 =
      { s with dir := s.vault.persistSecrets crypto texts s.dir fileNonce } := by
  rw [saveSecrets, run_bind, run_read, AegisVault.persistSecrets, VaultStore.saveToDisk]
  change ((if s.vault.store.sealManager.isSealed = true then _ else _ : Prog VaultState Unit).run
    s).2 = _
  by_cases hsealed : s.vault.store.sealManager.isSealed = true
  · rw [if_pos hsealed, if_pos hsealed]
    rfl
  · rw [if_neg hsealed, if_neg hsealed, saveTable, run_bind, run_read, run_bind, run_read]
    dsimp only [VaultState.manager, VaultText.save]
    cases s.vault.store.sealManager.encrypt crypto fileNonce
      (bytesOf (texts.secrets.toText s.vault.store.secrets)) <;> rfl

theorem run_saveTransitKeys (fileNonce : Nonce) (s : VaultState) :
    ((saveTransitKeys crypto texts fileNonce).run s).2 =
      { s with dir := s.vault.persistTransitKeys crypto texts s.dir fileNonce } := by
  rw [saveTransitKeys, saveTable, run_bind, run_read, run_bind, run_read,
    AegisVault.persistTransitKeys]
  dsimp only [VaultState.manager, VaultText.save]
  cases s.vault.store.sealManager.encrypt crypto fileNonce
    (bytesOf (texts.transitKeys.toText s.vault.transit.keys)) <;> rfl

/-- Loading the secrets leaves the store that has loaded them, or that could not. -/
theorem run_loadSecrets (failure : Option String) (s : VaultState) :
    ((loadSecrets crypto texts failure).run s).2 = s.withStore (AegisVault.orKeep s.vault.store
      (s.vault.store.loadFromDisk crypto texts.secrets (readFile s.dir.data failure))) := by
  rw [loadSecrets, run_bind, run_read, VaultStore.loadFromDisk]
  change ((if s.vault.store.sealManager.isSealed = true then _ else _ : Prog VaultState Unit).run
    s).2 = _
  by_cases hsealed : s.vault.store.sealManager.isSealed = true
  · rw [if_pos hsealed, if_pos hsealed]
    rfl
  · rw [if_neg hsealed, if_neg hsealed, run_bind, run_read]
    dsimp only
    rcases readFile s.dir.data failure with _ | _ | encrypted
    · rfl
    · rfl
    · rw [run_bind, run_read]
      dsimp only [VaultState.manager, VaultText.load]
      cases texts.secrets.parse crypto s.vault.store.sealManager encrypted <;> rfl

/-- Alone, the sections of an operation do what the operation does at once. -/
theorem run_prog (request : Request) (s : VaultState) :
    (request.prog crypto texts).run s = request.serve crypto texts s := by
  cases request with
  | get key component =>
    rw [Request.prog, run_unlessSealed, run_ifAllowed, run_bind, run_read, Request.serve,
      AegisVault.get, VaultStore.get]
    split_ifs
    · rfl
    · cases s.vault.store.accessController.checkAccess component key .read with
      | error e => rfl
      | ok _ =>
        dsimp only
        cases (s.vault.store.secrets.lookup key).bind Secret.currentVersion <;> rfl
  | getVersion key version component =>
    rw [Request.prog, run_unlessSealed, run_ifAllowed, run_bind, run_read, Request.serve,
      VaultStore.getVersion]
    split_ifs
    · rfl
    · cases s.vault.store.accessController.checkAccess component key .read with
      | error e => rfl
      | ok _ =>
        dsimp only
        cases s.vault.store.secrets.lookup key with
        | none => rfl
        | some secret =>
          dsimp only
          cases secret.getVersion version <;> rfl
  | set key value component nonce fileNonce =>
    rw [Request.prog, run_unlessSealed, run_ifAllowed, run_bind, run_read, Request.serve,
      AegisVault.set, VaultStore.set]
    split_ifs
    · rfl
    · cases s.vault.store.accessController.checkAccess component key .write with
      | error e => rfl
      | ok _ =>
        dsimp only [VaultState.manager]
        cases s.vault.store.sealManager.encrypt crypto nonce (bytesOf value) with
        | error e => rfl
        | ok encrypted =>
          dsimp only
          rw [run_bind, run_modify, run_bind, run_saveSecrets]
          rfl
  | delete key component fileNonce =>
    rw [Request.prog, run_unlessSealed, run_ifAllowed, run_bind, Request.serve, AegisVault.delete,
      VaultStore.delete]
    by_cases hsealed : s.vault.store.sealManager.isSealed = true
    · rw [if_pos hsealed, if_pos hsealed]
    · rw [if_neg hsealed, if_neg hsealed]
      cases s.vault.store.accessController.checkAccess component key .delete with
      | error e => rfl
      | ok _ =>
        rw [run_removeSecret]
        by_cases hmem : key ∈ s.vault.store.secrets
        · rw [if_pos hmem, if_pos hmem, decide_eq_true hmem]
          dsimp only
          rw [if_pos rfl, run_bind, run_saveSecrets]
          rfl
        · rw [if_neg hmem, if_neg hmem, decide_eq_false hmem]
          rfl
  | list pre component =>
    rw [Request.prog, run_unlessSealed, run_ifAllowed, Request.serve, VaultStore.list]
    split_ifs
    · rfl
    · cases s.vault.store.accessController.checkAccess component pre .list <;> rfl
  | transitEncrypt keyName nonce plaintext => rfl
  | transitDecrypt keyName ciphertext => rfl
  | transitCreateKey name key fileNonce =>
    rw [Request.prog, run_bind, run_addTransitKey, Request.serve, AegisVault.transitCreateKey]
    cases s.vault.transit.createKey name key with
    | error e => rfl
    | ok transit =>
      dsimp only
      rw [run_bind, run_saveTransitKeys]
      rfl
  | vaultSeal => rfl
  | vaultUnseal passphrase failure =>
    rw [Request.prog, run_bind, run_read, Request.serve, AegisVault.unseal, SealManager.unseal]
    dsimp only [VaultState.manager]
    cases s.vault.store.sealManager.openKey crypto passphrase with
    | error e => rfl
    | ok key =>
      rw [unsealWith, run_bind, run_modify, unsealTail, run_bind, run_modify, run_bind,
        run_loadSecrets]
      rfl

end Programs

/-! ## Side by side -/

/-- Whether a reply gives away what was encrypted. -/
def Reply.reveals : Reply → Bool
  | .ok (.value _) | .ok (.plaintext _) => true
  | _ => false

/-- Whether it is a transit decryption that finds its key. -/
def Request.findsKey (s : VaultState) : Request → Bool
  | .transitDecrypt keyName ciphertext =>
    decide (12 + 1 ≤ ciphertext.length) && decide (keyName ∈ s.vault.transit.keys)
  | _ => false

def Request.sealing : Request → Bool
  | .vaultSeal => true
  | _ => false

def Request.unsealing : Request → Bool
  | .vaultUnseal _ _ => true
  | _ => false

/-- An operation that was asked for, what is left of it, and how many of its sections have run. -/
structure Call where
  request : Request
  prog : VaultProg
  steps : ℕ := 0
  /-- The vault was sealed when the operation was asked for, and has not been unsealed until its
  end. -/
  undisturbed : Bool
  /-- One of its sections has changed the secrets, in memory or on disk. -/
  changed : Bool := false

namespace Call

/-- The next section is one of those that unseal the vault. -/
def opens (c : Call) : Bool :=
  c.request.unsealing && decide (1 ≤ c.steps)

/-- The master key is set to nothing, and the status not yet. -/
def midSeal (c : Call) : Bool :=
  c.request.sealing && decide (c.steps = 1)

/-- The master key is set, and the status not yet. -/
def midUnseal (c : Call) : Bool :=
  c.request.unsealing && decide (c.steps = 2)

def mid (c : Call) : Bool :=
  c.midSeal || c.midUnseal

def disturb (c : Call) : Call :=
  if c.prog.isDone then c else { c with undisturbed := false }

end Call

def VaultState.stored (s : VaultState) : Table String Secret × Option Bytes :=
  (s.vault.store.secrets, s.dir.data)

/-- A vault and the operations that were asked for. -/
structure Session where
  state : VaultState
  calls : List Call

/-- An operation is asked for, or runs its next section. -/
inductive Event where
  | call (request : Request)
  | resume (i : ℕ)

/-- A call behind its next section. -/
def Call.advance (state : VaultState) (c : Call) (next : VaultState → VaultState)
    (rest : VaultState → VaultProg) : Call :=
  { c with
    prog := rest state
    steps := c.steps + 1
    changed := c.changed || decide ((next state).stored ≠ state.stored) }

namespace Session

variable (crypto : VaultCrypto) (texts : VaultTexts)

/-- The calls when a section of one of them has run. -/
def others (calls : List Call) (c : Call) : List Call :=
  if c.opens then calls.map Call.disturb else calls

def step (w : Session) : Event → Option Session
  | .call request => some { w with
      calls := w.calls ++ [{ request, prog := request.prog crypto texts,
                             undisturbed := w.state.isSealed }] }
  | .resume i => w.calls[i]?.bind fun c =>
      match c.prog with
      | .done _ => none
      | .atom next rest => some
          { state := next w.state
            calls := (others w.calls c).set i (c.advance w.state next rest) }

def system (start : VaultState) : System Session Event where
  init := { state := start, calls := [] }
  step := step crypto texts

/-- An operation that began while the vault was sealed, and ran with no unsealing in between, has
given away nothing and changed no secret. -/
def AnswersNothing (w : Session) : Prop :=
  ∀ c ∈ w.calls, c.request.unsealing = false → c.undisturbed = true →
    c.changed = false ∧ ∀ reply, c.prog.result? = some reply → reply.reveals = false

/-- While no sealing and no unsealing is in progress, the vault says that it is sealed if and only
if it has no master key. -/
def Reports (w : Session) : Prop :=
  (∀ c ∈ w.calls, c.request.sealing = true ∨ c.request.unsealing = true →
    c.prog.isDone = true) → (w.state.isSealed = true ↔ w.state.manager.masterKey = none)

/-- No transit decryption that began in a sealed vault finds its key, and the last of overlapping
sealings and unsealings to set the status still has the master key as it has set it. -/
def Orderly (w : Session) : Event → Prop
  | .call _ => True
  | .resume i => ∀ c ∈ w.calls[i]?,
      (c.undisturbed = true → c.request.findsKey w.state = false) ∧
      ((∀ d ∈ w.calls.eraseIdx i, d.mid = false) →
        (c.midSeal = true → w.state.manager.masterKey = none) ∧
        (c.midUnseal = true → w.state.manager.masterKey ≠ none))

end Session

/-- A vault as it is made, with its directory. -/
inductive Started (crypto : VaultCrypto) (texts : VaultTexts) : VaultState → Prop where
  | init {config : VaultConfig} {dir dir' : VaultDir} {failures : ReadFailures} {draw : KeyDraw}
      {vault : AegisVault}
      (h : AegisVault.init crypto texts config dir failures draw = .ok (vault, dir')) :
      Started crypto texts ⟨vault, dir'⟩
  | newAuto {defaultDeny : Bool} {passphrase : Option String} {dir dir' : VaultDir}
      {failures : ReadFailures} {draw : KeyDraw} {vault : AegisVault}
      (h : AegisVault.newAuto crypto texts defaultDeny passphrase dir failures draw =
        (vault, dir')) :
      Started crypto texts ⟨vault, dir'⟩

/-! ## Sections -/

section Sections

open Prog

variable {crypto : VaultCrypto} {texts : VaultTexts} {S : VaultState → Prop}
  {P : VaultState → VaultState → Prop} {Q : Reply → Prop}

theorem always_of_sealed {p : VaultProg} (hS : ∀ s, S s → s.isSealed = true) (hP : ∀ s, P s s)
    (hQ : Q (.error .sealed)) : (unlessSealed p).Always S P Q := by
  refine always_bind.mpr (always_read hP fun s hs => ?_)
  rw [hS s hs, if_pos rfl]
  exact always_pure hQ

theorem always_unlessSealed {p : VaultProg} (hP : ∀ s, P s s) (hQ : ∀ e, Q (.error e))
    (hp : p.Always S P Q) : (unlessSealed p).Always S P Q := by
  refine always_bind.mpr (always_read hP fun s _ => ?_)
  by_cases hsealed : s.isSealed = true
  · rw [if_pos hsealed]
    exact always_pure (hQ _)
  · rw [if_neg hsealed]
    exact hp

theorem always_ifAllowed {component key : String} {operation : Operation} {p : VaultProg}
    (hP : ∀ s, P s s) (hQ : ∀ e, Q (.error e)) (hp : p.Always S P Q) :
    (ifAllowed component key operation p).Always S P Q := by
  refine always_bind.mpr (always_read hP fun s _ => ?_)
  cases s.vault.store.accessController.checkAccess component key operation with
  | error e => exact always_pure (hQ e)
  | ok _ => exact hp

section Tables

variable {Q : Unit → Prop} {fileNonce : Nonce}

theorem always_saveTable {text : VaultState → Bytes} {write : Bytes → VaultState → VaultState}
    (hP : ∀ s, P s s) (hwrite : ∀ file s, P s (write file s)) (hQ : Q ()) :
    (saveTable crypto fileNonce text write).Always S P Q := by
  refine always_bind.mpr (always_read hP fun s _ => ?_)
  refine always_bind.mpr (always_read hP fun s' _ => ?_)
  cases s'.manager.encrypt crypto fileNonce (text s) with
  | error e => exact always_pure hQ
  | ok file => exact always_modify (hwrite file) hQ

theorem always_saveSecrets (hP : ∀ s, P s s) (hwrite : ∀ file s, P s (s.withData file))
    (hQ : Q ()) : (saveSecrets crypto texts fileNonce).Always S P Q := by
  refine always_bind.mpr (always_read hP fun s _ => ?_)
  by_cases hsealed : s.isSealed = true
  · rw [if_pos hsealed]
    exact always_pure hQ
  · rw [if_neg hsealed]
    exact always_saveTable hP hwrite hQ

theorem always_loadSecrets {failure : Option String} (hP : ∀ s, P s s)
    (hload : ∀ secrets s, P s (s.withSecrets secrets)) (hQ : Q ()) :
    (loadSecrets crypto texts failure).Always S P Q := by
  refine always_bind.mpr (always_read hP fun s _ => ?_)
  by_cases hsealed : s.isSealed = true
  · rw [if_pos hsealed]
    exact always_pure hQ
  · rw [if_neg hsealed]
    refine always_bind.mpr (always_read hP fun s' _ => ?_)
    rcases readFile s'.dir.data failure with _ | _ | encrypted
    · exact always_pure hQ
    · exact always_pure hQ
    · refine always_bind.mpr (always_read hP fun s'' _ => ?_)
      cases texts.secrets.parse crypto s''.manager encrypted with
      | error e => exact always_pure hQ
      | ok secrets => exact always_modify (hload secrets) hQ

end Tables

theorem always_addTransitKey {Q : Except VaultError TransitEngine → Prop} {name : String}
    {key : MasterKey} (hP : ∀ transit s, P s (s.withTransit transit)) (hQ : ∀ result, Q result) :
    (addTransitKey name key).Always S P Q :=
  fun s _ => ⟨hP _ s, hQ _⟩

theorem always_removeSecret {Q : Bool → Prop} {key : String} (hP : ∀ s, P s s)
    (herase : ∀ secrets s, P s (s.withSecrets secrets)) (hQ : ∀ b, Q b) :
    (removeSecret key).Always S P Q := by
  refine fun s _ => ⟨?_, hQ _⟩
  dsimp only
  split_ifs
  · exact herase _ s
  · exact hP s

theorem always_transitCreateKey {name : String} {key : MasterKey} {fileNonce : Nonce}
    (hP : ∀ s, P s s) (htransit : ∀ transit s, P s (s.withTransit transit))
    (hwrite : ∀ file s, P s (s.withTransitFile file)) (hQ : ∀ e, Q (.error e))
    (hunit : Q (.ok .unit)) :
    ((Request.transitCreateKey name key fileNonce).prog crypto texts).Always S P Q := by
  refine always_bind.mpr (always_addTransitKey htransit fun result => ?_)
  cases result with
  | error e => exact always_pure (hQ e)
  | ok transit => exact always_bind.mpr (always_saveTable hP hwrite (always_pure hunit))

/-! ## In a sealed vault -/

theorem reveals_transitDecrypt {s : VaultState} {keyName : String} {ciphertext : Bytes}
    (h : (Request.transitDecrypt keyName ciphertext).findsKey s = false) :
    Reply.reveals ((s.vault.transitDecrypt crypto keyName ciphertext).map Answer.plaintext) =
      false := by
  rw [AegisVault.transitDecrypt, TransitEngine.decrypt]
  by_cases hshort : ciphertext.length < 12 + 1
  · rw [if_pos hshort]
    rfl
  · rw [if_neg hshort]
    rw [Request.findsKey, decide_eq_true (Nat.le_of_not_lt hshort), Bool.true_and,
      decide_eq_false_iff_not] at h
    rw [AList.lookup_eq_none.mpr h]
    rfl

/-- In a sealed vault, an operation changes no secret and gives away nothing, unless it is a transit
decryption that finds its key. -/
theorem always_quiet {request : Request} (h : request.unsealing = false) :
    (request.prog crypto texts).Always
      (fun s => s.isSealed = true ∧ request.findsKey s = false)
      (fun s s' => s'.stored = s.stored) fun reply => reply.reveals = false := by
  cases request with
  | get key component => exact always_of_sealed (fun _ hs => hs.1) (fun _ => rfl) rfl
  | getVersion key version component =>
    exact always_of_sealed (fun _ hs => hs.1) (fun _ => rfl) rfl
  | set key value component nonce fileNonce =>
    exact always_of_sealed (fun _ hs => hs.1) (fun _ => rfl) rfl
  | delete key component fileNonce =>
    exact always_of_sealed (fun _ hs => hs.1) (fun _ => rfl) rfl
  | list pre component => exact always_of_sealed (fun _ hs => hs.1) (fun _ => rfl) rfl
  | transitEncrypt keyName nonce plaintext =>
    refine always_read (fun _ => rfl) fun s _ => ?_
    cases s.vault.transitEncrypt crypto keyName nonce plaintext <;> rfl
  | transitDecrypt keyName ciphertext =>
    exact always_read (fun _ => rfl) fun s hs => reveals_transitDecrypt hs.2
  | transitCreateKey name key fileNonce =>
    exact always_transitCreateKey (fun _ => rfl) (fun _ _ => rfl) (fun _ _ => rfl) (fun _ => rfl)
      rfl
  | vaultSeal =>
    exact always_bind.mpr (always_modify (fun _ => rfl)
      (always_bind.mpr (always_modify (fun _ => rfl) (always_pure rfl))))
  | vaultUnseal passphrase failure => cases h

/-! ## The master key and the status -/

/-- What a section of an operation does to the seal manager, by its number. -/
def Request.Sets : Request → ℕ → VaultState → VaultState → Prop
  | .vaultSeal, 0, s, s' => s'.manager = s.manager.setMasterKey none
  | .vaultSeal, 1, s, s' => s'.manager = s.manager.setStatus .sealed
  | .vaultUnseal _ _, 1, s, s' => ∃ key, s'.manager = s.manager.setMasterKey (some key)
  | .vaultUnseal _ _, 2, s, s' => s'.manager = s.manager.setStatus .unsealed
  | _, _, s, s' => s'.manager = s.manager

/-- Behind which sections an operation may end: not between the master key and the status. -/
def Request.Ends (request : Request) (n : ℕ) : Prop :=
  (request.sealing = true → n ≠ 1) ∧ (request.unsealing = true → n ≠ 2)

/-- An operation that neither seals nor unseals leaves the seal manager as it was. -/
theorem always_manager {request : Request} (hsealing : request.sealing = false)
    (hunsealing : request.unsealing = false) :
    (request.prog crypto texts).Always (fun _ => True) (fun s s' => s'.manager = s.manager)
      fun _ => True := by
  cases request with
  | get key component =>
    refine always_unlessSealed (fun _ => rfl) (fun _ => trivial) ?_
    refine always_ifAllowed (fun _ => rfl) (fun _ => trivial) ?_
    refine always_bind.mpr (always_read (fun _ => rfl) fun s _ => ?_)
    cases (s.vault.store.secrets.lookup key).bind Secret.currentVersion with
    | none => exact always_pure trivial
    | some version => exact always_read (fun _ => rfl) fun _ _ => trivial
  | getVersion key version component =>
    refine always_unlessSealed (fun _ => rfl) (fun _ => trivial) ?_
    refine always_ifAllowed (fun _ => rfl) (fun _ => trivial) ?_
    refine always_bind.mpr (always_read (fun _ => rfl) fun s _ => ?_)
    cases s.vault.store.secrets.lookup key with
    | none => exact always_pure trivial
    | some secret =>
      dsimp only
      cases secret.getVersion version with
      | none => exact always_pure trivial
      | some version => exact always_read (fun _ => rfl) fun _ _ => trivial
  | set key value component nonce fileNonce =>
    refine always_unlessSealed (fun _ => rfl) (fun _ => trivial) ?_
    refine always_ifAllowed (fun _ => rfl) (fun _ => trivial) ?_
    refine always_bind.mpr (always_read (fun _ => rfl) fun s _ => ?_)
    cases s.manager.encrypt crypto nonce (bytesOf value) with
    | error e => exact always_pure trivial
    | ok encrypted =>
      refine always_bind.mpr (always_modify (fun _ => rfl) ?_)
      exact always_bind.mpr (always_saveSecrets (fun _ => rfl) (fun _ _ => rfl)
        (always_pure trivial))
  | delete key component fileNonce =>
    refine always_unlessSealed (fun _ => rfl) (fun _ => trivial) ?_
    refine always_ifAllowed (fun _ => rfl) (fun _ => trivial) ?_
    refine always_bind.mpr (always_removeSecret (fun _ => rfl) (fun _ _ => rfl) fun b => ?_)
    cases b with
    | true =>
      exact always_bind.mpr (always_saveSecrets (fun _ => rfl) (fun _ _ => rfl)
        (always_pure trivial))
    | false => exact always_pure trivial
  | list pre component =>
    refine always_unlessSealed (fun _ => rfl) (fun _ => trivial) ?_
    exact always_ifAllowed (fun _ => rfl) (fun _ => trivial)
      (always_read (fun _ => rfl) fun _ _ => trivial)
  | transitEncrypt keyName nonce plaintext => exact always_read (fun _ => rfl) fun _ _ => trivial
  | transitDecrypt keyName ciphertext => exact always_read (fun _ => rfl) fun _ _ => trivial
  | transitCreateKey name key fileNonce =>
    exact always_transitCreateKey (fun _ => rfl) (fun _ _ => rfl) (fun _ _ => rfl)
      (fun _ => trivial) trivial
  | vaultSeal => cases hsealing
  | vaultUnseal passphrase failure => cases hunsealing

/-- The sections of an operation set the master key and the status in order. -/
theorem inOrder_prog (request : Request) :
    (request.prog crypto texts).InOrder request.Sets request.Ends 0 := by
  have hplain (hs : request.sealing = false) (hu : request.unsealing = false)
      (hsets : request.Sets = fun _ s s' => s'.manager = s.manager) :
      (request.prog crypto texts).InOrder request.Sets request.Ends 0 := by
    refine (always_manager hs hu).inOrder (fun m _ s s' h => ?_) fun m _ => ?_
    · rw [hsets]
      exact h
    · rw [Request.Ends, hs, hu]
      exact ⟨nofun, nofun⟩
  cases request with
  | vaultSeal => exact fun _ => ⟨rfl, fun _ => ⟨rfl, fun _ => by decide, nofun⟩⟩
  | vaultUnseal passphrase failure =>
    refine fun s => ⟨rfl, ?_⟩
    change (unsealWith crypto texts failure (s.manager.openKey crypto passphrase)).InOrder _ _ 1
    cases s.manager.openKey crypto passphrase with
    | error e => exact ⟨nofun, fun _ => by decide⟩
    | ok key =>
      refine fun _ => ⟨⟨key, rfl⟩, fun _ => ⟨rfl, ?_⟩⟩
      have htail : (loadSecrets crypto texts failure >>= fun _ =>
          (pure (.ok .unit) : VaultProg)).Always (fun _ => True)
            (fun s s' => s'.manager = s.manager) fun _ => True :=
        always_bind.mpr (always_loadSecrets (fun _ => rfl) (fun _ _ => rfl) (always_pure trivial))
      refine htail.inOrder (fun m hm s s' h => ?_) fun m hm => ⟨nofun, fun _ => ?_⟩
      · obtain ⟨k, rfl⟩ := Nat.exists_eq_add_of_le' hm
        exact h
      · omega
  | _ => exact hplain rfl rfl rfl

end Sections

/-! ## Vaults as they are made -/

section Started

variable {crypto : VaultCrypto} {texts : VaultTexts}

def SealManager.Settled (manager : SealManager) : Prop :=
  manager.isSealed = true ↔ manager.masterKey = none

theorem settled_loadKeyBlob (dir : VaultDir) (failures : ReadFailures) :
    (AegisVault.loadKeyBlob dir failures).1.Settled := by
  rw [AegisVault.loadKeyBlob]
  rcases readFile dir.key failures.key with _ | _ | blob <;> exact ⟨fun _ => rfl, fun _ => rfl⟩

theorem settled_unseal {manager : SealManager} (h : manager.Settled) (passphrase : String) :
    (AegisVault.orKeep manager (manager.unseal crypto passphrase)).Settled := by
  rw [SealManager.unseal]
  cases manager.openKey crypto passphrase with
  | error e => exact h
  | ok key => exact ⟨nofun, nofun⟩

theorem settled_autoUnseal (manager : SealManager) (passphrase : Option String) (draw : KeyDraw) :
    (manager.autoUnseal crypto passphrase draw).Settled :=
  ⟨nofun, nofun⟩

theorem openStore_sealManager (manager : SealManager) (accessController : AccessController)
    (dir : VaultDir) (failures : ReadFailures) :
    (AegisVault.openStore crypto texts manager accessController dir failures).sealManager =
      manager := by
  rw [AegisVault.openStore, VaultStore.loadFromDisk]
  by_cases hsealed : manager.isSealed = true
  · rw [if_pos hsealed]
  · rw [if_neg hsealed, if_neg hsealed]
    cases texts.secrets.load crypto manager (readFile dir.data failures.data) ∅ <;> rfl

theorem Started.settled {s : VaultState} (h : Started crypto texts s) : s.manager.Settled := by
  cases h with
  | @init config dir dir' failures draw vault h =>
    rw [AegisVault.init] at h
    have hloaded := settled_loadKeyBlob dir failures
    split at h
    · split at h
      · split at h
        · cases h
        · cases h
          rw [VaultState.manager, openStore_sealManager]
          exact settled_unseal hloaded _
      · cases h
        rw [VaultState.manager, openStore_sealManager]
        exact settled_autoUnseal _ _ _
    · cases h
      rw [VaultState.manager, openStore_sealManager]
      exact hloaded
  | @newAuto defaultDeny passphrase dir dir' failures draw vault h =>
    unfold AegisVault.newAuto at h
    dsimp only at h
    by_cases hfound : (AegisVault.loadKeyBlob dir failures).2 = true
    · rw [if_pos hfound] at h
      have hloaded := settled_loadKeyBlob dir failures
      cases passphrase with
      | some passphrase =>
        cases h
        rw [VaultState.manager, openStore_sealManager]
        exact settled_unseal hloaded passphrase
      | none =>
        cases h
        rw [VaultState.manager, openStore_sealManager]
        exact hloaded
    · rw [if_neg hfound] at h
      cases h
      rw [VaultState.manager, openStore_sealManager]
      exact settled_autoUnseal _ passphrase draw

end Started

/-! ## Steps -/

/-- What a section does to the status and the master key, in cases. -/
theorem Request.Sets.cases {request : Request} {n : ℕ} {s s' : VaultState}
    (h : request.Sets n s s') :
    (request.sealing = true ∧ n = 0 ∧ s'.manager = s.manager.setMasterKey none) ∨
    (request.sealing = true ∧ n = 1 ∧ s'.manager = s.manager.setStatus .sealed) ∨
    (request.unsealing = true ∧ n = 1 ∧ ∃ key, s'.manager = s.manager.setMasterKey (some key)) ∨
    (request.unsealing = true ∧ n = 2 ∧ s'.manager = s.manager.setStatus .unsealed) ∨
    (s'.manager = s.manager ∧ ¬(request.sealing = true ∧ n = 1) ∧
      ¬(request.unsealing = true ∧ n = 2)) := by
  unfold Request.Sets at h
  split at h
  · exact Or.inl ⟨rfl, rfl, h⟩
  · exact Or.inr (Or.inl ⟨rfl, rfl, h⟩)
  · exact Or.inr (Or.inr (Or.inl ⟨rfl, rfl, h⟩))
  · exact Or.inr (Or.inr (Or.inr (Or.inl ⟨rfl, rfl, h⟩)))
  · rename_i hseal hone hunseal htwo
    refine Or.inr (Or.inr (Or.inr (Or.inr ⟨h, fun ⟨hs, hn⟩ => ?_, fun ⟨hu, hn⟩ => ?_⟩)))
    · cases request <;> simp_all [Request.sealing]
    · cases request <;> simp_all [Request.unsealing]

theorem Request.Sets.isSealed {request : Request} {n : ℕ} {s s' : VaultState}
    (h : request.Sets n s s') (hopen : (request.unsealing && decide (1 ≤ n)) = false)
    (hsealed : s.isSealed = true) : s'.isSealed = true := by
  change s.manager.isSealed = true at hsealed
  change s'.manager.isSealed = true
  rcases h.cases with ⟨-, -, hm⟩ | ⟨-, -, hm⟩ | ⟨hu, hn, -⟩ | ⟨hu, hn, -⟩ | ⟨hm, -⟩
  · rw [hm]
    exact hsealed
  · rw [hm]
    rfl
  · rw [hu, hn] at hopen
    cases hopen
  · rw [hu, hn] at hopen
    cases hopen
  · rw [hm]
    exact hsealed

/-- What is still to be said of an operation: while it runs undisturbed, the vault is sealed, and
what is left of it gives away nothing. -/
def Call.Quiet (s : VaultState) (c : Call) : Prop :=
  c.request.unsealing = false → c.undisturbed = true →
    c.changed = false ∧ (c.prog.isDone = false → s.isSealed = true) ∧
      c.prog.Always (fun s => s.isSealed = true ∧ c.request.findsKey s = false)
        (fun s s' => s'.stored = s.stored) fun reply => reply.reveals = false

/-- Every operation runs in order and quietly, and between sealings and unsealings the status is
that of the master key. -/
structure Session.Sound (w : Session) : Prop where
  inOrder : ∀ c ∈ w.calls, c.prog.InOrder c.request.Sets c.request.Ends c.steps
  quiet : ∀ c ∈ w.calls, c.Quiet w.state
  settled : (∀ c ∈ w.calls, c.mid = false) → w.state.manager.Settled

namespace Session

variable {crypto : VaultCrypto} {texts : VaultTexts} {w : Session} {c c' : Call} {i : ℕ}

theorem exists_of_mem_set (h : c' ∈ (others w.calls c).set i d) :
    c' = d ∨ ∃ e ∈ w.calls, c' = if c.opens = true then e.disturb else e := by
  rw [others] at h
  rcases List.mem_or_eq_of_mem_set h with h | h
  · right
    split_ifs at h ⊢
    · obtain ⟨e, he, rfl⟩ := List.mem_map.mp h
      exact ⟨e, he, rfl⟩
    · exact ⟨c', h, rfl⟩
  · exact Or.inl h

theorem mem_set_of_mem_eraseIdx (d : Call) {e : Call} (he : e ∈ w.calls.eraseIdx i) :
    (if c.opens = true then e.disturb else e) ∈ (others w.calls c).set i d := by
  obtain ⟨j, hj, he⟩ := List.mem_eraseIdx_iff_getElem?.mp he
  refine List.mem_iff_getElem?.mpr ⟨j, ?_⟩
  rw [List.getElem?_set_ne hj.symm, others]
  split_ifs
  · rw [List.getElem?_map, he]
    rfl
  · exact he

theorem disturb_cases (e : Call) (b : Bool) :
    (if b = true then e.disturb else e) = e ∨
      (b = true ∧ e.prog.isDone = false ∧
        (if b = true then e.disturb else e) = { e with undisturbed := false }) := by
  rw [Call.disturb]
  cases b with
  | false => exact Or.inl rfl
  | true =>
    cases hdone : e.prog.isDone with
    | true => exact Or.inl rfl
    | false => exact Or.inr ⟨rfl, rfl, rfl⟩

theorem mid_eq_false_iff (c : Call) : c.mid = false ↔
    ¬(c.request.sealing = true ∧ c.steps = 1) ∧ ¬(c.request.unsealing = true ∧ c.steps = 2) := by
  rw [Call.mid, Call.midSeal, Call.midUnseal, Bool.or_eq_false_iff, ← Bool.not_eq_true,
    ← Bool.not_eq_true, Bool.and_eq_true, Bool.and_eq_true, decide_eq_true_eq, decide_eq_true_eq]

theorem mid_disturb (e : Call) (b : Bool) :
    (if b = true then e.disturb else e).mid = e.mid := by
  rcases disturb_cases e b with he | ⟨-, -, he⟩
  · rw [he]
  · rw [he]
    rfl

theorem Sound.call (h : w.Sound) (request : Request) : Sound { w with
    calls := w.calls ++ [{ request, prog := request.prog crypto texts,
                           undisturbed := w.state.isSealed }] } where
  inOrder c hc := by
    rcases List.mem_append.mp hc with hc | hc
    · exact h.inOrder c hc
    · obtain rfl := List.mem_singleton.mp hc
      exact inOrder_prog request
  quiet c hc := by
    rcases List.mem_append.mp hc with hc | hc
    · exact h.quiet c hc
    · obtain rfl := List.mem_singleton.mp hc
      exact fun hunsealing hsealed => ⟨rfl, fun _ => hsealed, always_quiet hunsealing⟩
  settled hmid := h.settled fun c hc => hmid c (List.mem_append_left _ hc)

variable {next : VaultState → VaultState} {rest : VaultState → VaultProg}

theorem quiet_advance (h : w.Sound) (hc : c ∈ w.calls) (hprog : c.prog = .atom next rest)
    (hfinds : c.undisturbed = true → c.request.findsKey w.state = false) :
    (c.advance w.state next rest).Quiet (next w.state) := by
  intro hunsealing hundisturbed
  obtain ⟨hchanged, hsealed, halways⟩ := h.quiet c hc hunsealing hundisturbed
  have hnow : w.state.isSealed = true := hsealed (by rw [hprog]; rfl)
  obtain ⟨hstored, hrest⟩ := halways.of_atom hprog ⟨hnow, hfinds hundisturbed⟩
  have hsets := ((h.inOrder c hc).of_atom hprog w.state).1
  refine ⟨?_, fun _ => hsets.isSealed ?_ hnow, hrest⟩
  · change (c.changed || decide _) = false
    rw [hchanged, decide_eq_false (not_not_intro hstored)]
    rfl
  · rw [show c.request.unsealing = false from hunsealing]
    rfl

/-- So do the others, unless the section has unsealed the vault. -/
theorem quiet_others (h : w.Sound) (hc : c ∈ w.calls) (hprog : c.prog = .atom next rest)
    {e : Call} (he : e ∈ w.calls) :
    (if c.opens = true then e.disturb else e).Quiet (next w.state) := by
  have hsets := ((h.inOrder c hc).of_atom hprog w.state).1
  rcases disturb_cases e c.opens with heq | ⟨-, -, heq⟩
  · rw [heq]
    intro hunsealing hundisturbed
    obtain ⟨hchanged, hsealed, halways⟩ := h.quiet e he hunsealing hundisturbed
    refine ⟨hchanged, fun hdone => ?_, halways⟩
    cases hopens : c.opens with
    | false => exact hsets.isSealed hopens (hsealed hdone)
    | true =>
      rw [hopens, if_pos rfl, Call.disturb, hdone] at heq
      rw [← heq] at hundisturbed
      cases hundisturbed
  · rw [heq]
    exact fun _ hundisturbed => nomatch hundisturbed

/-- When nothing is between the master key and the status, the status is that of the master key. -/
theorem settled_resume (h : w.Sound) (hc : w.calls[i]? = some c) (hprog : c.prog = .atom next rest)
    (horderly : (∀ d ∈ w.calls.eraseIdx i, d.mid = false) →
      (c.midSeal = true → w.state.manager.masterKey = none) ∧
        (c.midUnseal = true → w.state.manager.masterKey ≠ none))
    (hmid : ∀ d ∈ (others w.calls c).set i (c.advance w.state next rest), d.mid = false) :
    (next w.state).manager.Settled := by
  have hmem : c ∈ w.calls := List.mem_of_getElem? hc
  have hlt : i < (others w.calls c).length := by
    rw [others]
    split_ifs
    · rw [List.length_map]
      exact (List.getElem?_eq_some_iff.mp hc).1
    · exact (List.getElem?_eq_some_iff.mp hc).1
  obtain ⟨hnotSeal, hnotUnseal⟩ := (mid_eq_false_iff _).mp (hmid _ (List.mem_set hlt _))
  have hothers : ∀ d ∈ w.calls.eraseIdx i, d.mid = false := fun d hd => by
    rw [← mid_disturb d c.opens]
    exact hmid _ (mem_set_of_mem_eraseIdx _ hd)
  obtain ⟨hseal, hunseal⟩ := horderly hothers
  have hsets := ((h.inOrder c hmem).of_atom hprog w.state).1
  rcases hsets.cases with ⟨hs, hn, -⟩ | ⟨hs, hn, hm⟩ | ⟨hu, hn, -⟩ | ⟨hu, hn, hm⟩ | ⟨hm, hns, hnu⟩
  · exact absurd ⟨hs, congrArg (· + 1) hn⟩ hnotSeal
  · have hkey := hseal (by rw [Call.midSeal, hs, hn]; rfl)
    rw [hm]
    exact ⟨fun _ => hkey, fun _ => rfl⟩
  · exact absurd ⟨hu, congrArg (· + 1) hn⟩ hnotUnseal
  · have hkey := hunseal (by rw [Call.midUnseal, hu, hn]; rfl)
    rw [hm]
    exact ⟨nofun, fun hnone => absurd hnone hkey⟩
  · rw [hm]
    refine h.settled fun d hd => ?_
    obtain ⟨j, hj⟩ := List.mem_iff_getElem?.mp hd
    by_cases hij : j = i
    · obtain rfl := Option.some.inj (hj.symm.trans (hij ▸ hc))
      exact (mid_eq_false_iff _).mpr ⟨hns, hnu⟩
    · exact hothers d (List.mem_eraseIdx_iff_getElem?.mpr ⟨j, hij, hj⟩)

theorem Sound.resume (h : w.Sound) (hc : w.calls[i]? = some c) (hprog : c.prog = .atom next rest)
    (horderly : w.Orderly (.resume i)) : Sound
      { state := next w.state
        calls := (others w.calls c).set i (c.advance w.state next rest) } := by
  have hmem : c ∈ w.calls := List.mem_of_getElem? hc
  obtain ⟨hfinds, hstatus⟩ := horderly c hc
  refine ⟨fun d hd => ?_, fun d hd => ?_, settled_resume h hc hprog hstatus⟩
  · rcases exists_of_mem_set hd with rfl | ⟨e, he, rfl⟩
    · exact ((h.inOrder c hmem).of_atom hprog w.state).2
    · rcases disturb_cases e c.opens with heq | ⟨-, -, heq⟩
      · rw [heq]
        exact h.inOrder e he
      · rw [heq]
        exact h.inOrder e he
  · rcases exists_of_mem_set hd with rfl | ⟨e, he, rfl⟩
    · exact quiet_advance h hmem hprog hfinds
    · exact quiet_others h hmem hprog he

/-- One section keeps the operations in order and the status that of the master key. -/
theorem Sound.step (h : w.Sound) {e : Event} (horderly : w.Orderly e) {w' : Session}
    (hstep : w.step crypto texts e = some w') : w'.Sound := by
  cases e with
  | call request =>
    obtain rfl := Option.some.inj hstep
    exact h.call request
  | resume i =>
    rw [Session.step] at hstep
    obtain ⟨c, hc, hstep⟩ := Option.bind_eq_some_iff.mp hstep
    cases hprog : c.prog with
    | done result =>
      rw [hprog] at hstep
      cases hstep
    | atom next rest =>
      rw [hprog] at hstep
      obtain rfl := Option.some.inj hstep
      exact h.resume hc hprog horderly

theorem Sound.reports (h : w.Sound) : w.Reports := by
  refine fun hdone => h.settled fun c hc => (mid_eq_false_iff c).mpr ⟨?_, ?_⟩
  · exact fun ⟨hs, hn⟩ => ((h.inOrder c hc).of_isDone (hdone c hc (Or.inl hs))).1 hs hn
  · exact fun ⟨hu, hn⟩ => ((h.inOrder c hc).of_isDone (hdone c hc (Or.inr hu))).2 hu hn

theorem Sound.answersNothing (h : w.Sound) : w.AnswersNothing := by
  intro c hc hunsealing hundisturbed
  obtain ⟨hchanged, -, halways⟩ := h.quiet c hc hunsealing hundisturbed
  exact ⟨hchanged, fun reply hreply => halways.of_result hreply⟩

end Session

/-- In every run in which no transit decryption finds its key while the vault is sealed, and the
status is set last by what has set the master key, a sealed vault answers nothing, and it says that
it is sealed when it has no master key. -/
theorem answersNothing_of_reach (crypto : VaultCrypto) (texts : VaultTexts) (start : VaultState)
    (hstart : Started crypto texts start) {w : Session}
    (h : (Session.system crypto texts start).Reach Session.Orderly w) :
    w.AnswersNothing ∧ w.Reports := by
  have hsound := h.invariant (P := Session.Sound) 
    ⟨fun _ hc => absurd hc List.not_mem_nil, fun _ hc => absurd hc List.not_mem_nil,
      fun _ => hstart.settled⟩
    fun w e w' _ hsound horderly hstep => hsound.step horderly hstep
  exact ⟨hsound.answersNothing, hsound.reports⟩

/-! ## Runs -/

instance : ∀ w e, Decidable (Session.Orderly w e)
  | _, .call _ => isTrue trivial
  | w, .resume i => inferInstanceAs (Decidable (∀ c ∈ w.calls[i]?,
      (c.undisturbed = true → c.request.findsKey w.state = false) ∧
      ((∀ d ∈ w.calls.eraseIdx i, d.mid = false) →
        (c.midSeal = true → w.state.manager.masterKey = none) ∧
        (c.midUnseal = true → w.state.manager.masterKey ≠ none))))

def Session.reply (w : Session) (i : ℕ) : Option Reply :=
  w.calls[i]?.bind fun c => c.prog.result?

def newVault : VaultState :=
  let made := AegisVault.newAuto plainCrypto plainTexts false (some "pass") {} {} (plainDraw 1)
  ⟨made.1, made.2⟩

theorem started_newVault : Started plainCrypto plainTexts newVault :=
  @Started.newAuto _ _ false (some "pass") {} _ {} (plainDraw 1) _ rfl

/-- The vault is sealed while a secret is written, and unsealed while one is read. -/
def orderlyScript : List Event :=
  [.call (.set "db/password" "hunter2" "server" plainNonce plainNonce), .resume 0, .resume 0,
    .resume 0, .resume 0, .call .vaultSeal, .resume 1, .resume 1, .resume 0,
    .call (.get "db/password" "server"), .call (.vaultUnseal "pass" none), .resume 3, .resume 2,
    .resume 3, .resume 3, .resume 3, .resume 3, .call (.get "db/password" "server"), .resume 4,
    .resume 4, .resume 4, .resume 4]

/-- A reading that began in the sealed vault is refused, and one that began behind the unsealing has
its value. -/
theorem answersNothing_of_reach_script : ∃ w,
    (Session.system plainCrypto plainTexts newVault).run Session.Orderly orderlyScript = some w ∧
      w.reply 2 = some (.error .sealed) ∧ w.reply 4 = some (.ok (.value "hunter2")) ∧
      w.AnswersNothing ∧ w.Reports := by
  have hrun : ((Session.system plainCrypto plainTexts newVault).run Session.Orderly
      orderlyScript).any (fun w => decide (w.reply 2 = some (.error .sealed)) &&
        decide (w.reply 4 = some (.ok (.value "hunter2")))) = true := by
    decide +kernel
  obtain ⟨w, hw, hreach, hreplies⟩ := System.exists_reach_of_any hrun
  rw [Bool.and_eq_true, decide_eq_true_eq, decide_eq_true_eq] at hreplies
  exact ⟨w, hw, hreplies.1, hreplies.2,
    answersNothing_of_reach plainCrypto plainTexts newVault started_newVault hreach⟩

/-- A transit key is made, the vault is sealed, and what was encrypted with the key is decrypted. -/
def cachedKeyScript : List Event :=
  [.call (.transitCreateKey "app" (keyOf [5]) plainNonce), .resume 0, .resume 0, .resume 0,
    .resume 0, .call (.transitEncrypt "app" plainNonce [104, 105]), .resume 1, .call .vaultSeal,
    .resume 2, .resume 2,
    .call (.transitDecrypt "app" (plainNonce.bytes ++ ((keyOf [5]).bytes ++ [104, 105]))),
    .resume 3]

/-- The vault is sealed between the two steps of unsealing it. -/
def overlappingScript : List Event :=
  [.call .vaultSeal, .call (.vaultUnseal "pass" none), .resume 1, .resume 1, .resume 0, .resume 0,
    .resume 1, .resume 1, .resume 1]

/-- The sealed vault decrypts, and the vault without a master key says that it is unsealed. -/
theorem not_answersNothing_of_cached_key :
    (¬ ∀ crypto texts start, Started crypto texts start → ∀ w,
      (Session.system crypto texts start).Reachable w → w.AnswersNothing) ∧
    ¬ ∀ crypto texts start, Started crypto texts start → ∀ w,
      (Session.system crypto texts start).Reachable w → w.Reports := by
  constructor
  · intro h
    have hrun : ((Session.system plainCrypto plainTexts newVault).run (fun _ _ => True)
        cachedKeyScript).any (fun w => w.calls.any fun c => !c.request.unsealing &&
          (c.undisturbed && c.prog.result?.any fun reply => reply.reveals)) = true := by
      decide +kernel
    obtain ⟨w, -, hreach, hanswers⟩ := System.exists_reach_of_any hrun
    obtain ⟨c, hc, hquiet⟩ := List.any_eq_true.mp hanswers
    rw [Bool.and_eq_true, Bool.and_eq_true, Bool.not_eq_true', Option.any_eq_true] at hquiet
    obtain ⟨hunsealing, hundisturbed, reply, hreply, hreveals⟩ := hquiet
    have hsilent := (h _ _ _ started_newVault w hreach c hc hunsealing hundisturbed).2 reply hreply
    rw [hreveals] at hsilent
    cases hsilent
  · intro h
    have hrun : ((Session.system plainCrypto plainTexts newVault).run (fun _ _ => True)
        overlappingScript).any (fun w => w.calls.all (fun c => c.prog.isDone) &&
          (!w.state.isSealed && decide (w.state.manager.masterKey = none))) = true := by
      decide +kernel
    obtain ⟨w, -, hreach, hstatus⟩ := System.exists_reach_of_any hrun
    rw [Bool.and_eq_true, Bool.and_eq_true, List.all_eq_true, Bool.not_eq_true',
      decide_eq_true_eq] at hstatus
    obtain ⟨hdone, hopen, hnone⟩ := hstatus
    have hsealed := (h _ _ _ started_newVault w hreach fun c hc _ => hdone c hc).mpr hnone
    rw [hopen] at hsealed
    cases hsealed

end AegisDB.Vault
