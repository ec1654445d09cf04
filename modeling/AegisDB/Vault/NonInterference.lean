import AegisDB.Vault.Vault

/-!
# What a component learns of the secrets of others

Without a default, every operation of a component on a key is denied unless some policy grants it.
The replies to all operations of a component then follow from the keys that some policy lets it do
something with, and the others stay as they are.  A listing is allowed by the text that it is for,
and with it everything that begins with that text.
-/

namespace AegisDB.Vault

/-! ## Calls of a component -/

/-- What a component asks of the store. -/
inductive StoreCall where
  | get (key : String)
  | getVersion (key : String) (version : UInt32)
  | set (key value : String)
  | delete (key : String)
  | list (pre : String)

def StoreCall.key : StoreCall → String
  | get key | getVersion key _ | set key _ | delete key => key
  | list pre => pre

/-- What must be allowed. -/
def StoreCall.operation : StoreCall → Operation
  | get _ | getVersion _ _ => .read
  | set _ _ => .write
  | delete _ => .delete
  | list _ => .list

section Calls

variable (crypto : VaultCrypto) (component : String)

/-- The reply to a component, and the store that is left. -/
def VaultStore.serve (store : VaultStore) (nonce : Nonce) : StoreCall → Reply × VaultStore
  | .get key => ((store.get crypto key component).map Answer.value, store)
  | .getVersion key version =>
    ((store.getVersion crypto key version component).map Answer.value, store)
  | .set key value =>
    match store.set crypto key value component nonce with
    | .ok store' => (.ok .unit, store')
    | .error e => (.error e, store)
  | .delete key =>
    match store.delete key component with
    | .ok store' => (.ok .unit, store')
    | .error e => (.error e, store)
  | .list pre => ((store.list pre component).map Answer.names, store)

/-- The replies to a list of calls, with the nonces that are drawn, and the store that is left. -/
def VaultStore.serveAll : VaultStore → (ℕ → Nonce) → List StoreCall → List Reply × VaultStore
  | store, _, [] => ([], store)
  | store, nonces, call :: calls =>
    let served := store.serve crypto component (nonces 0) call
    let rest := served.2.serveAll (fun n => nonces (n + 1)) calls
    (served.1 :: rest.1, rest.2)

end Calls

/-! ## What a component sees -/

/-- Whether some policy lets a component do something with a key. -/
def AccessController.Reaches (self : AccessController) (component key : String) : Prop :=
  ∃ operation, self.Grants component key operation

section Alike

variable (crypto : VaultCrypto)

/-- Two versions of a secret that give the same value under the same number. -/
def SameVersion (store₁ store₂ : VaultStore) (v₁ v₂ : SecretVersion) : Prop :=
  v₁.version = v₂.version ∧ store₁.reveal crypto v₁ = store₂.reveal crypto v₂

/-- Two secrets with the same versions, which may be encrypted differently. -/
structure SameSecret (store₁ store₂ : VaultStore) (s₁ s₂ : Secret) : Prop where
  metadata : s₁.metadata = s₂.metadata
  versions : List.Forall₂ (SameVersion crypto store₁ store₂) s₁.versions s₂.versions

/-- Two stores that have the same secrets under all keys that some policy grants a component. -/
structure Alike (component : String) (store₁ store₂ : VaultStore) : Prop where
  sealManager : store₁.sealManager = store₂.sealManager
  controller : store₁.accessController = store₂.accessController
  secrets : ∀ key, store₁.accessController.Reaches component key →
    Option.Rel (SameSecret crypto store₁ store₂) (store₁.secrets.lookup key)
      (store₂.secrets.lookup key)

end Alike

def SameReply : Reply → Reply → Prop
  | .ok (.names keys₁), .ok (.names keys₂) => keys₁.Perm keys₂
  | reply₁, reply₂ => reply₁ = reply₂

section Policies

variable (crypto : VaultCrypto) (controller : AccessController) (component : String)

/-- What no policy grants is refused, and changes nothing. -/
def DeniesByDefault : Prop :=
  ∀ store : VaultStore, store.accessController = controller → ∀ nonce (call : StoreCall),
    ¬ controller.Grants component call.key call.operation →
      ∃ e, store.serve crypto component nonce call = (.error e, store)

/-- In two stores that look alike to a component, all its calls have the same replies, and what it
is not granted stays as it is in both. -/
def NonInterfering : Prop :=
  ∀ store₁ store₂ : VaultStore, store₁.accessController = controller →
    Alike crypto component store₁ store₂ → ∀ nonces₁ nonces₂ (calls : List StoreCall),
      List.Forall₂ SameReply (store₁.serveAll crypto component nonces₁ calls).1
          (store₂.serveAll crypto component nonces₂ calls).1 ∧
        ∀ key, ¬ controller.Reaches component key →
          (store₁.serveAll crypto component nonces₁ calls).2.secrets.lookup key =
              store₁.secrets.lookup key ∧
            (store₂.serveAll crypto component nonces₂ calls).2.secrets.lookup key =
              store₂.secrets.lookup key

end Policies

/-! ## Policies -/

/-- A policy that grants something on a text grants it on everything that begins with the text. -/
theorem policyMatches_of_startsWith {policy : AccessPolicy} {component key pre : String}
    {operation : Operation} (hkey : startsWith key pre = true)
    (h : policyMatches policy component pre operation = true) :
    policyMatches policy component key operation = true := by
  unfold policyMatches at h ⊢
  by_cases hcomponent : policy.allowedComponents ≠ ∅ ∧ component ∉ policy.allowedComponents
  · rw [if_pos hcomponent] at h
    cases h
  · rw [if_neg hcomponent] at h ⊢
    by_cases hnamed : policy.allowedPrefixes ≠ [] ∧ ¬ policy.allowedPrefixes.any (startsWith pre)
    · rw [if_pos hnamed] at h
      cases h
    · rw [if_neg hnamed] at h
      rw [if_neg]
      · exact h
      · rintro ⟨hsome, hnone⟩
        rw [not_and_not_right] at hnamed
        obtain ⟨p, hp, hpre⟩ := List.any_eq_true.mp (hnamed hsome)
        refine hnone (List.any_eq_true.mpr ⟨p, hp, ?_⟩)
        exact List.isPrefixOf_iff_prefix.mpr ((List.isPrefixOf_iff_prefix.mp hpre).trans
          (List.isPrefixOf_iff_prefix.mp hkey))

variable {crypto : VaultCrypto} {controller : AccessController} {component : String}
  {store store₁ store₂ : VaultStore}

theorem exists_checkAccess_eq_error {key : String} {operation : Operation}
    (hdeny : controller.defaultAllow = false) (h : ¬ controller.Grants component key operation) :
    ∃ e, controller.checkAccess component key operation = .error e := by
  cases hcheck : controller.checkAccess component key operation with
  | error e => exact ⟨e, rfl⟩
  | ok _ => exact absurd ((AccessController.checkAccess_eq_ok_iff hdeny).mp hcheck) h

/-! ## Calls in two steps -/

/-- What is answered to a call that is allowed. -/
def VaultStore.answer (crypto : VaultCrypto) (component : String) (store : VaultStore)
    (nonce : Nonce) : StoreCall → Reply × VaultStore
  | .get key =>
    (match (store.secrets.lookup key).bind Secret.currentVersion with
    | none => .error (.secretNotFound key)
    | some version => (store.reveal crypto version).map Answer.value, store)
  | .getVersion key version =>
    (match store.secrets.lookup key with
    | none => .error (.secretNotFound key)
    | some secret =>
      match secret.getVersion version with
      | none => .error (.secretNotFound (key ++ "@v" ++ toString version.toNat))
      | some version => (store.reveal crypto version).map Answer.value, store)
  | .set key value =>
    match store.sealManager.encrypt crypto nonce (bytesOf value) with
    | .error e => (.error e, store)
    | .ok encrypted => (.ok .unit, store.addVersion key component encrypted)
  | .delete key =>
    if key ∈ store.secrets then (.ok .unit, { store with secrets := store.secrets.erase key })
    else (.error (.secretNotFound key), store)
  | .list pre => (.ok (.names (store.secrets.keys.filter fun k => startsWith k pre)), store)

/-- Every call is checked in the same way before it is answered. -/
theorem serve_eq (nonce : Nonce) (call : StoreCall) : store.serve crypto component nonce call =
    if store.sealManager.isSealed then (.error .sealed, store)
    else
      match store.accessController.checkAccess component call.key call.operation with
      | .error e => (.error e, store)
      | .ok _ => store.answer crypto component nonce call := by
  by_cases hsealed : store.sealManager.isSealed = true
  · rw [if_pos hsealed]
    cases call with
    | get key =>
      rw [VaultStore.serve, VaultStore.get, if_pos hsealed]
      rfl
    | getVersion key version =>
      rw [VaultStore.serve, VaultStore.getVersion, if_pos hsealed]
      rfl
    | set key value => rw [VaultStore.serve, VaultStore.set, if_pos hsealed]
    | delete key => rw [VaultStore.serve, VaultStore.delete, if_pos hsealed]
    | list pre =>
      rw [VaultStore.serve, VaultStore.list, if_pos hsealed]
      rfl
  · rw [if_neg hsealed]
    cases call with
    | get key =>
      rw [VaultStore.serve, VaultStore.get, if_neg hsealed, StoreCall.key, StoreCall.operation]
      cases store.accessController.checkAccess component key .read with
      | error e => rfl
      | ok _ =>
        rw [VaultStore.answer]
        dsimp only
        cases (store.secrets.lookup key).bind Secret.currentVersion <;> rfl
    | getVersion key version =>
      rw [VaultStore.serve, VaultStore.getVersion, if_neg hsealed, StoreCall.key,
        StoreCall.operation]
      cases store.accessController.checkAccess component key .read with
      | error e => rfl
      | ok _ =>
        rw [VaultStore.answer]
        dsimp only
        cases store.secrets.lookup key with
        | none => rfl
        | some secret =>
          dsimp only
          cases secret.getVersion version <;> rfl
    | set key value =>
      rw [VaultStore.serve, VaultStore.set, if_neg hsealed, StoreCall.key, StoreCall.operation]
      cases store.accessController.checkAccess component key .write with
      | error e => rfl
      | ok _ =>
        rw [VaultStore.answer]
        dsimp only
        cases store.sealManager.encrypt crypto nonce (bytesOf value) <;> rfl
    | delete key =>
      rw [VaultStore.serve, VaultStore.delete, if_neg hsealed, StoreCall.key, StoreCall.operation]
      cases store.accessController.checkAccess component key .delete with
      | error e => rfl
      | ok _ =>
        rw [VaultStore.answer]
        dsimp only
        split_ifs <;> rfl
    | list pre =>
      rw [VaultStore.serve, VaultStore.list, if_neg hsealed, StoreCall.key, StoreCall.operation]
      cases store.accessController.checkAccess component pre .list <;> rfl

theorem deniesByDefault (hdeny : controller.defaultAllow = false) :
    DeniesByDefault crypto controller component := by
  rintro store rfl nonce call h
  obtain ⟨e, hcheck⟩ := exists_checkAccess_eq_error hdeny h
  rw [serve_eq, hcheck]
  split_ifs
  · exact ⟨_, rfl⟩
  · exact ⟨_, rfl⟩

/-! ## Secrets that look the same -/

section Related

variable {α β : Type*} {R : α → β → Prop} {l₁ : List α} {l₂ : List β}

theorem rel_cases {a : Option α} {b : Option β} (h : Option.Rel R a b) :
    (a = none ∧ b = none) ∨ ∃ x y, a = some x ∧ b = some y ∧ R x y := by
  cases h with
  | none => exact Or.inl ⟨rfl, rfl⟩
  | some hxy => exact Or.inr ⟨_, _, rfl, rfl, hxy⟩

theorem rel_getLast? (h : List.Forall₂ R l₁ l₂) : Option.Rel R l₁.getLast? l₂.getLast? := by
  induction h with
  | nil => exact .none
  | cons hab _ ih =>
    rw [List.getLast?_cons, List.getLast?_cons]
    rcases rel_cases ih with ⟨h₁, h₂⟩ | ⟨x, y, h₁, h₂, hlast⟩
    · rw [h₁, h₂]
      exact .some hab
    · rw [h₁, h₂]
      exact .some hlast

theorem rel_find? {p : α → Bool} {q : β → Bool} (hpq : ∀ a b, R a b → p a = q b)
    (h : List.Forall₂ R l₁ l₂) : Option.Rel R (l₁.find? p) (l₂.find? q) := by
  induction h with
  | nil => exact .none
  | cons hab _ ih =>
    rw [List.find?_cons, List.find?_cons, hpq _ _ hab]
    split
    · exact .some hab
    · exact ih

end Related

section SameSecret

variable {s₁ s₂ : Secret}

theorem SameSecret.currentVersion (h : SameSecret crypto store₁ store₂ s₁ s₂) :
    Option.Rel (SameVersion crypto store₁ store₂) s₁.currentVersion s₂.currentVersion :=
  rel_getLast? h.versions

theorem SameSecret.getVersion (h : SameSecret crypto store₁ store₂ s₁ s₂) (version : UInt32) :
    Option.Rel (SameVersion crypto store₁ store₂) (s₁.getVersion version)
      (s₂.getVersion version) :=
  rel_find? (fun _ _ hv => by rw [hv.1]) h.versions

theorem SameSecret.new (key : String) :
    SameSecret crypto store₁ store₂ (Secret.new key) (Secret.new key) :=
  ⟨rfl, .nil⟩

theorem SameSecret.addVersion (h : SameSecret crypto store₁ store₂ s₁ s₂)
    {encrypted₁ encrypted₂ : Bytes}
    (hreveal : ∀ version, store₁.reveal crypto ⟨version, encrypted₁, component⟩ =
      store₂.reveal crypto ⟨version, encrypted₂, component⟩) :
    SameSecret crypto store₁ store₂ (s₁.addVersion encrypted₁ component)
      (s₂.addVersion encrypted₂ component) := by
  have hversions : List.Forall₂ (SameVersion crypto store₁ store₂)
      (s₁.versions ++ [⟨s₁.metadata.currentVersion + 1, encrypted₁, component⟩])
      (s₂.versions ++ [⟨s₁.metadata.currentVersion + 1, encrypted₂, component⟩]) :=
    List.rel_append h.versions (.cons ⟨rfl, hreveal _⟩ .nil)
  refine ⟨?_, ?_⟩
  · rw [Secret.addVersion, Secret.addVersion, h.metadata]
  · rw [Secret.addVersion, Secret.addVersion, ← h.metadata]
    dsimp only
    rw [hversions.length_eq]
    split_ifs
    · exact List.forall₂_drop _ hversions
    · exact hversions

/-- Without a master key nothing is encrypted, and with one everything is, so that it has its
value. -/
theorem encrypt_cases (crypto : VaultCrypto) (store : VaultStore) (value : String) :
    (store.sealManager.masterKey = none ∧
      ∀ nonce, store.sealManager.encrypt crypto nonce (bytesOf value) = .error .sealed) ∨
    (store.sealManager.masterKey ≠ none ∧
      ∀ nonce, ∃ encrypted, store.sealManager.encrypt crypto nonce (bytesOf value) = .ok encrypted ∧
        ∀ version component, store.reveal crypto ⟨version, encrypted, component⟩ = .ok value) := by
  cases hkey : store.sealManager.masterKey with
  | none =>
    refine Or.inl ⟨rfl, fun nonce => ?_⟩
    rw [SealManager.encrypt, hkey]
  | some key =>
    refine Or.inr ⟨Option.some_ne_none key, fun nonce => ?_⟩
    obtain ⟨encrypted, hencrypt, -, hdecrypt⟩ :=
      VaultCrypto.exists_encryptWithKey crypto key nonce (bytesOf value)
    refine ⟨encrypted, ?_, fun version component => ?_⟩
    · rw [SealManager.encrypt, hkey]
      exact hencrypt
    · rw [VaultStore.reveal, SealManager.decrypt, hkey]
      dsimp only
      rw [hdecrypt]
      dsimp only
      rw [textOf_bytesOf]

end SameSecret

/-! ## One call in two stores -/

theorem Alike.withSecrets (h : Alike crypto component store₁ store₂)
    {secrets₁ secrets₂ : Table String Secret}
    (hsecrets : ∀ key, store₁.accessController.Reaches component key →
      Option.Rel (SameSecret crypto store₁ store₂) (secrets₁.lookup key) (secrets₂.lookup key)) :
    Alike crypto component { store₁ with secrets := secrets₁ }
      { store₂ with secrets := secrets₂ } where
  sealManager := h.sealManager
  controller := h.controller
  secrets key hkey := by
    dsimp only
    rcases rel_cases (hsecrets key hkey) with ⟨h₁, h₂⟩ | ⟨s₁, s₂, h₁, h₂, hsame⟩
    · rw [h₁, h₂]
      exact .none
    · rw [h₁, h₂]
      exact .some ⟨hsame.metadata, hsame.versions⟩

theorem answer_frame (nonce : Nonce) (call : StoreCall) :
    (store.answer crypto component nonce call).2.sealManager = store.sealManager ∧
    (store.answer crypto component nonce call).2.accessController = store.accessController ∧
    ∀ key, key ≠ call.key → (store.answer crypto component nonce call).2.secrets.lookup key =
      store.secrets.lookup key := by
  cases call with
  | get key => exact ⟨rfl, rfl, fun _ _ => rfl⟩
  | getVersion key version => exact ⟨rfl, rfl, fun _ _ => rfl⟩
  | set key value =>
    rw [VaultStore.answer]
    cases store.sealManager.encrypt crypto nonce (bytesOf value) with
    | error e => exact ⟨rfl, rfl, fun _ _ => rfl⟩
    | ok encrypted => exact ⟨rfl, rfl, fun _ hkey => AList.lookup_insert_ne hkey⟩
  | delete key =>
    rw [VaultStore.answer]
    split_ifs
    · exact ⟨rfl, rfl, fun _ hkey => AList.lookup_erase_ne hkey⟩
    · exact ⟨rfl, rfl, fun _ _ => rfl⟩
  | list pre => exact ⟨rfl, rfl, fun _ _ => rfl⟩

theorem sameReply_of_eq {reply₁ reply₂ : Reply} (h : reply₁ = reply₂) :
    SameReply reply₁ reply₂ := by
  subst h
  cases reply₁ with
  | error e => rfl
  | ok answer =>
    cases answer with
    | names keys => exact List.Perm.refl keys
    | _ => rfl

theorem AccessController.Grants.of_startsWith {key pre : String} {operation : Operation}
    (h : controller.Grants component pre operation) (hkey : startsWith key pre = true) :
    controller.Grants component key operation := by
  obtain ⟨policy, hpolicy, hmatches⟩ := h
  exact ⟨policy, hpolicy, policyMatches_of_startsWith hkey hmatches⟩

theorem Alike.mem_iff (h : Alike crypto component store₁ store₂) {key : String}
    (hkey : store₁.accessController.Reaches component key) :
    key ∈ store₁.secrets ↔ key ∈ store₂.secrets := by
  rw [← AList.lookup_isSome, ← AList.lookup_isSome]
  rcases rel_cases (h.secrets key hkey) with ⟨h₁, h₂⟩ | ⟨s₁, s₂, h₁, h₂, -⟩
  · rw [h₁, h₂]
  · rw [h₁, h₂]
    exact Iff.rfl

theorem Alike.list (h : Alike crypto component store₁ store₂) {pre : String}
    (hgrant : store₁.accessController.Grants component pre .list) :
    (store₁.secrets.keys.filter fun k => startsWith k pre).Perm
      (store₂.secrets.keys.filter fun k => startsWith k pre) := by
  refine (List.perm_ext_iff_of_nodup (store₁.secrets.keys_nodup.filter _)
    (store₂.secrets.keys_nodup.filter _)).mpr fun key => ?_
  rw [List.mem_filter, List.mem_filter]
  exact and_congr_left fun hkey => h.mem_iff ⟨_, hgrant.of_startsWith hkey⟩

/-- Two alike stores answer a call that is granted in the same way, and stay alike. -/
theorem Alike.answer (h : Alike crypto component store₁ store₂) {call : StoreCall}
    (hgrant : store₁.accessController.Grants component call.key call.operation)
    (nonce₁ nonce₂ : Nonce) :
    SameReply (store₁.answer crypto component nonce₁ call).1
        (store₂.answer crypto component nonce₂ call).1 ∧
      Alike crypto component (store₁.answer crypto component nonce₁ call).2
        (store₂.answer crypto component nonce₂ call).2 := by
  have hrel := h.secrets call.key ⟨_, hgrant⟩
  cases call with
  | get key =>
    rw [StoreCall.key] at hrel
    refine ⟨sameReply_of_eq ?_, h⟩
    rw [VaultStore.answer, VaultStore.answer]
    dsimp only
    rcases rel_cases hrel with ⟨h₁, h₂⟩ | ⟨s₁, s₂, h₁, h₂, hsame⟩
    · rw [h₁, h₂]
      rfl
    · rw [h₁, h₂, Option.bind_some, Option.bind_some]
      rcases rel_cases hsame.currentVersion with ⟨h₁, h₂⟩ | ⟨v₁, v₂, h₁, h₂, hv⟩
      · rw [h₁, h₂]
      · rw [h₁, h₂]
        dsimp only
        rw [hv.2]
  | getVersion key version =>
    rw [StoreCall.key] at hrel
    refine ⟨sameReply_of_eq ?_, h⟩
    rw [VaultStore.answer, VaultStore.answer]
    dsimp only
    rcases rel_cases hrel with ⟨h₁, h₂⟩ | ⟨s₁, s₂, h₁, h₂, hsame⟩
    · rw [h₁, h₂]
    · rw [h₁, h₂]
      dsimp only
      rcases rel_cases (hsame.getVersion version) with ⟨h₁, h₂⟩ | ⟨v₁, v₂, h₁, h₂, hv⟩
      · rw [h₁, h₂]
      · rw [h₁, h₂]
        dsimp only
        rw [hv.2]
  | set key value =>
    rw [StoreCall.key] at hrel
    rw [VaultStore.answer, VaultStore.answer]
    have hmanager := h.sealManager
    rcases encrypt_cases crypto store₁ value with ⟨hnone, hfail₁⟩ | ⟨hsome, hencrypt₁⟩
    · rw [hmanager] at hfail₁
      rw [hmanager, hfail₁, hfail₁]
      exact ⟨rfl, h⟩
    · rcases encrypt_cases crypto store₂ value with ⟨hnone, -⟩ | ⟨-, hencrypt₂⟩
      · exact absurd (hmanager ▸ hnone) hsome
      · obtain ⟨encrypted₁, hok₁, hreveal₁⟩ := hencrypt₁ nonce₁
        obtain ⟨encrypted₂, hok₂, hreveal₂⟩ := hencrypt₂ nonce₂
        rw [hok₁, hok₂]
        refine ⟨rfl, h.withSecrets fun other hother => ?_⟩
        rw [Table.lookup_insert, Table.lookup_insert]
        split_ifs
        · refine .some (SameSecret.addVersion ?_ fun version => ?_)
          · rcases rel_cases hrel with ⟨h₁, h₂⟩ | ⟨s₁, s₂, h₁, h₂, hsame⟩
            · rw [h₁, h₂]
              exact .new key
            · rw [h₁, h₂]
              exact hsame
          · rw [hreveal₁, hreveal₂]
        · exact h.secrets other hother
  | delete key =>
    rw [StoreCall.key] at hrel
    rw [VaultStore.answer, VaultStore.answer]
    have hmem : key ∈ store₁.secrets ↔ key ∈ store₂.secrets := h.mem_iff ⟨_, hgrant⟩
    by_cases hkey : key ∈ store₁.secrets
    · rw [if_pos hkey, if_pos (hmem.mp hkey)]
      refine ⟨rfl, h.withSecrets fun other hother => ?_⟩
      rw [Table.lookup_erase, Table.lookup_erase]
      split_ifs
      · exact .none
      · exact h.secrets other hother
    · rw [if_neg hkey, if_neg (mt hmem.mpr hkey)]
      exact ⟨rfl, h⟩
  | list pre => exact ⟨h.list hgrant, h⟩

/-! ## All calls -/

theorem Alike.serve (h : Alike crypto component store₁ store₂)
    (hdeny : store₁.accessController.defaultAllow = false) (nonce₁ nonce₂ : Nonce)
    (call : StoreCall) :
    SameReply (store₁.serve crypto component nonce₁ call).1
        (store₂.serve crypto component nonce₂ call).1 ∧
      Alike crypto component (store₁.serve crypto component nonce₁ call).2
        (store₂.serve crypto component nonce₂ call).2 := by
  rw [serve_eq, serve_eq, ← h.sealManager, ← h.controller]
  split_ifs
  · exact ⟨rfl, h⟩
  · cases hcheck : store₁.accessController.checkAccess component call.key call.operation with
    | error e => exact ⟨rfl, h⟩
    | ok _ =>
      exact h.answer ((AccessController.checkAccess_eq_ok_iff hdeny).mp hcheck) nonce₁ nonce₂

theorem serve_frame (hdeny : store.accessController.defaultAllow = false) (nonce : Nonce)
    (call : StoreCall) :
    (store.serve crypto component nonce call).2.accessController = store.accessController ∧
    ∀ key, ¬ store.accessController.Reaches component key →
      (store.serve crypto component nonce call).2.secrets.lookup key =
        store.secrets.lookup key := by
  rw [serve_eq]
  split_ifs
  · exact ⟨rfl, fun _ _ => rfl⟩
  · cases hcheck : store.accessController.checkAccess component call.key call.operation with
    | error e => exact ⟨rfl, fun _ _ => rfl⟩
    | ok _ =>
      have hgrant := (AccessController.checkAccess_eq_ok_iff hdeny).mp hcheck
      refine ⟨(answer_frame nonce call).2.1, fun key hkey => (answer_frame nonce call).2.2 key ?_⟩
      rintro rfl
      exact hkey ⟨_, hgrant⟩

theorem serveAll_frame (hdeny : store.accessController.defaultAllow = false)
    (nonces : ℕ → Nonce) (calls : List StoreCall) {key : String}
    (hkey : ¬ store.accessController.Reaches component key) :
    (store.serveAll crypto component nonces calls).2.secrets.lookup key =
      store.secrets.lookup key := by
  induction calls generalizing store nonces with
  | nil => rfl
  | cons call calls ih =>
    obtain ⟨hcontroller, hframe⟩ := @serve_frame crypto component store hdeny (nonces 0) call
    rw [VaultStore.serveAll]
    dsimp only
    rw [ih (by rw [hcontroller]; exact hdeny) _ (by rw [hcontroller]; exact hkey), hframe key hkey]

theorem Alike.serveAll (h : Alike crypto component store₁ store₂)
    (hdeny : store₁.accessController.defaultAllow = false) (nonces₁ nonces₂ : ℕ → Nonce)
    (calls : List StoreCall) :
    List.Forall₂ SameReply (store₁.serveAll crypto component nonces₁ calls).1
      (store₂.serveAll crypto component nonces₂ calls).1 := by
  induction calls generalizing store₁ store₂ nonces₁ nonces₂ with
  | nil => exact .nil
  | cons call calls ih =>
    obtain ⟨hreply, halike⟩ := h.serve hdeny (nonces₁ 0) (nonces₂ 0) call
    refine .cons hreply (ih halike ?_ _ _)
    rw [(serve_frame hdeny (nonces₁ 0) call).1]
    exact hdeny

/-- A vault that denies by default refuses a component what no policy grants it, and its replies to
all calls of the component follow from the secrets that some policy grants, and leave the others. -/
theorem nonInterfering_of_defaultDeny (crypto : VaultCrypto) (controller : AccessController)
    (component : String) (hdeny : controller.defaultAllow = false) :
    DeniesByDefault crypto controller component ∧ NonInterfering crypto controller component := by
  refine ⟨deniesByDefault hdeny, ?_⟩
  rintro store₁ store₂ rfl h nonces₁ nonces₂ calls
  refine ⟨h.serveAll hdeny nonces₁ nonces₂ calls, fun key hkey => ⟨?_, ?_⟩⟩
  · exact serveAll_frame hdeny nonces₁ calls hkey
  · rw [h.controller] at hdeny hkey
    exact serveAll_frame hdeny nonces₂ calls hkey

/-! ## Two stores -/

/-- A component may read what begins with its name. -/
def appController : AccessController :=
  AccessController.newDenyByDefault.addPolicy
    { name := "app", allowedComponents := {"app"}, allowedPrefixes := ["app/"], read := true,
      write := true, delete := false }

/-- An open store with one secret. -/
def storeWith (controller : AccessController) (key : String) : VaultStore where
  sealManager := { status := .unsealed, masterKey := some (keyOf [1]) }
  secrets := (∅ : Table String Secret).insert key
    ((Secret.new key).addVersion (plainNonce.bytes ++ ((keyOf [1]).bytes ++ bytesOf "value")) "root")
  accessController := controller

/-- What a component reads and lists of its own, and what it is told of the rest. -/
theorem nonInterfering_of_defaultDeny_app :
    (DeniesByDefault plainCrypto appController "app" ∧
      NonInterfering plainCrypto appController "app") ∧
    ((storeWith appController "app/key").serveAll plainCrypto "app" (fun _ => plainNonce)
      [.get "app/key", .list "app/", .list "", .get "db/password"]).1 =
        [.ok (.value "value"), .ok (.names ["app/key"]),
          .error (.accessDenied "component 'app' is not allowed to List key ''"),
          .error (.accessDenied "component 'app' is not allowed to Read key 'db/password'")] :=
  ⟨nonInterfering_of_defaultDeny plainCrypto appController "app" rfl, by decide +kernel⟩

/-- Unless it is told to deny, a vault without policies allows everything, and shows by it what it
has. -/
theorem not_nonInterfering_of_default :
    (¬ ∀ crypto controller component, DeniesByDefault crypto controller component) ∧
      ¬ ∀ crypto controller component, NonInterfering crypto controller component := by
  have hnothing : ∀ key, ¬ AccessController.Reaches {} "app" key :=
    fun _ ⟨_, _, hpolicy, _⟩ => absurd hpolicy List.not_mem_nil
  constructor
  · intro h
    obtain ⟨e, hdenied⟩ := h plainCrypto {} "app" (storeWith {} "db/password") rfl plainNonce
      (.list "") fun hgrant => hnothing "" ⟨_, hgrant⟩
    have hlisted : ((storeWith {} "db/password").serve plainCrypto "app" plainNonce
        (.list "")).1 = .ok (.names ["db/password"]) := by
      decide +kernel
    rw [hdenied] at hlisted
    cases hlisted
  · intro h
    have hsame := (h plainCrypto {} "app" (storeWith {} "db/password") (storeWith {} "db/user") rfl
      ⟨rfl, rfl, fun key hkey => absurd hkey (hnothing key)⟩ (fun _ => plainNonce)
      (fun _ => plainNonce) [.list ""]).1
    have hpassword : ((storeWith {} "db/password").serveAll plainCrypto "app"
        (fun _ => plainNonce) [.list ""]).1 = [.ok (.names ["db/password"])] := by
      decide +kernel
    have huser : ((storeWith {} "db/user").serveAll plainCrypto "app"
        (fun _ => plainNonce) [.list ""]).1 = [.ok (.names ["db/user"])] := by
      decide +kernel
    rw [hpassword, huser] at hsame
    cases hsame with
    | cons hnames _ =>
      have hperm : ["db/password"].Perm ["db/user"] := hnames
      exact absurd hperm (by decide)

end AegisDB.Vault
