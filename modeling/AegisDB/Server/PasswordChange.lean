import AegisDB.Server.Auth

/-!
# Changing a password while others log in

A login, an MFA verification and a change of a password each take several locks in turn, and the
steps of different clients fall between one another.  The change of a password ends the sessions of
the user, but neither the logins that have passed their check nor the verifications that are
pending.  If these do not issue a session after the sweep, and no session is issued without a code
to a user that has switched MFA on in the meantime, then an old password is of no use once the
change has returned.
-/

namespace AegisDB

namespace Server

/-- A password of a user, by its number. -/
structure PasswordUse where
  username : String
  version : ℕ
deriving DecidableEq

/-- How a session came about. -/
structure SessionOrigin where
  password : PasswordUse
  withCode : Bool
  /-- The user had MFA enabled when the session was issued. -/
  mfaEnabled : Bool
deriving DecidableEq

/-- Where a client stands that is in the middle of a call. -/
inductive AuthTask where
  | loginChecked (password : PasswordUse)
  | loginTouched (password : PasswordUse)
  | loginRead (password : PasswordUse) (userId : String) (mfaEnabled : Bool)
  | mfaFound (password : PasswordUse) (tempToken userId : String)
  | mfaChecked (password : PasswordUse) (tempToken userId : String)
  | mfaRemoved (password : PasswordUse) (userId : String)
  | updateChanged (password : PasswordUse) (userId : String)
  /-- An update has still to write the users to disk, after the sweep if the password is new. -/
  | updateStored (password : Option PasswordUse)
deriving DecidableEq

/-- The password of a login that is about to issue a session without a code. -/
def AuthTask.withoutCode : AuthTask → Option PasswordUse
  | .loginRead password _ false => some password
  | _ => none

/-- The password of a login that is about to issue a session with a code. -/
def AuthTask.verified : AuthTask → Option PasswordUse
  | .mfaRemoved password _ => some password
  | _ => none

/-- One step of a client, under one lock; or a call that is one step; or time that passes. -/
inductive ConcurrentAction where
  | beginLogin (client : ℕ) (username password : String)
  | touch (client : ℕ)
  | readUser (client : ℕ)
  | finishLogin (client : ℕ) (token : String)
  | beginVerify (client : ℕ) (tempToken : String)
  /-- With the order in which the hash map gives the users. -/
  | checkCode (client : ℕ) (users : List User) (code : String)
  | removePending (client : ℕ)
  | finishVerify (client : ℕ) (token : String)
  | beginUpdate (client : ℕ) (username : String) (email role : Option String)
      (password : Option AuthService.NewPassword)
  | sweep (client : ℕ)
  | finishUpdate (client : ℕ)
  | enableMfa (username secret : String)
  | disableMfa (username : String)
  | logout (token : String)
  | cleanupExpired
  | wait (time : ℕ)

/-- The service with the clients that are in the middle of a call, and with what is remembered of
passwords and tokens. -/
structure ConcurrentAuth where
  service : AuthService
  now : ℕ
  tasks : Table ℕ AuthTask
  current : String → ℕ
  /-- The newest password for which the sessions of the user were swept. -/
  swept : String → ℕ
  returned : String → ℕ
  pendingOrigin : Table String PasswordUse
  sessionOrigin : Table String SessionOrigin

namespace ConcurrentAuth

variable (lib : AuthLibrary) (s : ConcurrentAuth)

def setTask (client : ℕ) (task : AuthTask) : ConcurrentAuth :=
  { s with tasks := s.tasks.insert client task }

def endTask (client : ℕ) : ConcurrentAuth :=
  { s with tasks := s.tasks.erase client }

/-- Whether the user under a name has MFA enabled. -/
def mfaOf (users : Table String User) (username : String) : Bool :=
  (users.lookup username).any User.mfaEnabled

def hasMfa (username : String) : Bool :=
  mfaOf s.service.users username

def issue (token userId : String) (origin : SessionOrigin) : ConcurrentAuth :=
  { s with
    service := s.service.insertSession token userId s.now
    sessionOrigin := s.sessionOrigin.insert token origin }

def raise (f : String → ℕ) (password : PasswordUse) : String → ℕ :=
  Function.update f password.username (max (f password.username) password.version)

def beginLogin (client : ℕ) (username password : String) : ConcurrentAuth :=
  if s.service.checkCredentials lib username password then
    s.setTask client (.loginChecked ⟨username, s.current username⟩)
  else s

/-- The time of the login is noted, if the login has got that far. -/
def touch (client : ℕ) : ConcurrentAuth :=
  match s.tasks.lookup client with
  | some (.loginChecked password) =>
      { s with service := s.service.touchLogin password.username s.now }.setTask client
        (.loginTouched password)
  | _ => s

def readUser (client : ℕ) : ConcurrentAuth :=
  match s.tasks.lookup client with
  | some (.loginTouched password) =>
      match s.service.users.lookup password.username with
      | some user => s.setTask client (.loginRead password user.id user.mfaEnabled)
      -- the code expects the user to be there, and panics
      | none => s.endTask client
  | _ => s

def finishLogin (client : ℕ) (token : String) : ConcurrentAuth :=
  match s.tasks.lookup client with
  | some (.loginRead password userId true) =>
      { s with
        service := s.service.insertPending token userId s.now
        pendingOrigin := s.pendingOrigin.insert token password }.endTask client
  | some (.loginRead password userId false) =>
      (s.issue token userId ⟨password, false, s.hasMfa password.username⟩).endTask client
  | _ => s

def beginVerify (client : ℕ) (tempToken : String) : ConcurrentAuth :=
  match s.service.findPending tempToken s.now, s.pendingOrigin.lookup tempToken with
  | .ok pending, some password => s.setTask client (.mfaFound password tempToken pending.userId)
  | _, _ => s

def checkCode (client : ℕ) (users : List User) (code : String) : ConcurrentAuth :=
  match s.tasks.lookup client with
  | some (.mfaFound password tempToken userId) =>
      match AuthService.checkCode lib users userId code s.now with
      | .ok user => s.setTask client (.mfaChecked password tempToken user.id)
      | .error _ => s.endTask client
  | _ => s

def removePending (client : ℕ) : ConcurrentAuth :=
  match s.tasks.lookup client with
  | some (.mfaChecked password tempToken userId) =>
      { s with service := s.service.removePending tempToken }.setTask client
        (.mfaRemoved password userId)
  | _ => s

def finishVerify (client : ℕ) (token : String) : ConcurrentAuth :=
  match s.tasks.lookup client with
  | some (.mfaRemoved password userId) =>
      (s.issue token userId ⟨password, true, s.hasMfa password.username⟩).endTask client
  | _ => s

def beginUpdate (client : ℕ) (username : String) (email role : Option String)
    (password : Option AuthService.NewPassword) : ConcurrentAuth :=
  match s.service.users.lookup username with
  | none => s
  | some user =>
      let user := AuthService.changeUser user email role password
      let stored := { s with service :=
        { s.service with users := s.service.users.insert username user } }
      if password.isSome then
        let version := s.current username + 1
        { stored with current := Function.update s.current username version }.setTask client
          (.updateChanged ⟨username, version⟩ user.id)
      else stored.setTask client (.updateStored none)

def sweep (client : ℕ) : ConcurrentAuth :=
  match s.tasks.lookup client with
  | some (.updateChanged password userId) =>
      { s with
        service := s.service.revokeSessions userId
        swept := raise s.swept password }.setTask client (.updateStored (some password))
  | _ => s

def finishUpdate (client : ℕ) : ConcurrentAuth :=
  match s.tasks.lookup client with
  | some (.updateStored password) =>
      { s with
        service := s.service.flushUsersToDisk
        returned := (password.map (raise s.returned)).getD s.returned }.endTask client
  | _ => s

/-- One step.  A client begins a call when it is in the middle of none. -/
def step : ConcurrentAction → Option ConcurrentAuth
  | .beginLogin client username password =>
      if client ∈ s.tasks then none else some (s.beginLogin lib client username password)
  | .touch client => some (s.touch client)
  | .readUser client => some (s.readUser client)
  | .finishLogin client token => some (s.finishLogin client token)
  | .beginVerify client tempToken =>
      if client ∈ s.tasks then none else some (s.beginVerify client tempToken)
  | .checkCode client users code =>
      if users.Perm s.service.users.values then some (s.checkCode lib client users code) else none
  | .removePending client => some (s.removePending client)
  | .finishVerify client token => some (s.finishVerify client token)
  | .beginUpdate client username email role password =>
      if client ∈ s.tasks then none else some (s.beginUpdate client username email role password)
  | .sweep client => some (s.sweep client)
  | .finishUpdate client => some (s.finishUpdate client)
  | .enableMfa username secret =>
      some { s with service := (s.service.enableMfa username secret).1 }
  | .disableMfa username => some { s with service := (s.service.disableMfa username).1 }
  | .logout token => some { s with service := (s.service.logout token).1 }
  | .cleanupExpired => some { s with service := s.service.cleanupExpired s.now }
  | .wait time => some { s with now := s.now + time }

/-- The runs of a service that starts with given users. -/
def system (users : Table String User) (dataDir : Option (Option (Table String User))) :
    System ConcurrentAuth ConcurrentAction where
  init :=
    { service := { users, sessions := ∅, pendingMfa := ∅, dataDir }
      now := 0
      tasks := ∅
      current := fun _ => 0
      swept := fun _ => 0
      returned := fun _ => 0
      pendingOrigin := ∅
      sessionOrigin := ∅ }
  step := fun s a => s.step lib a

/-! ## What is wanted -/

/-- No session is left that came about by a password older than one whose change has returned. -/
def Revoked : Prop :=
  ∀ token origin, token ∈ s.service.sessions → s.sessionOrigin.lookup token = some origin →
    s.returned origin.password.username ≤ origin.password.version

/-- No session was issued without a code to a user with MFA enabled. -/
def CodeGiven : Prop :=
  ∀ token origin, s.sessionOrigin.lookup token = some origin → origin.mfaEnabled = true →
    origin.withCode = true

/-- No session is issued for a password whose sessions were swept since, and MFA is not switched on
for a user while a login of that user has read that it is off. -/
def Clean : ConcurrentAction → Prop
  | .finishLogin client _ => ∀ task ∈ s.tasks.lookup client, ∀ password ∈ task.withoutCode,
      s.swept password.username ≤ password.version
  | .finishVerify client _ => ∀ task ∈ s.tasks.lookup client, ∀ password ∈ task.verified,
      s.swept password.username ≤ password.version
  | .enableMfa username _ => ∀ task ∈ s.tasks.values, ∀ password ∈ task.withoutCode,
      password.username ≠ username
  | _ => True

/-! ## The identifier of a user, and whether MFA is enabled -/

def idOf (users : Table String User) (name : String) : Option String :=
  (users.lookup name).map User.id

theorem idOf_insert_of_lookup {users : Table String User} {name : String} {old user : User}
    (hold : users.lookup name = some old) (hid : user.id = old.id) :
    idOf (users.insert name user) = idOf users := by
  funext a
  unfold idOf
  rw [Table.lookup_insert]
  split_ifs with h
  · rw [h, hold, Option.map_some, Option.map_some, hid]
  · rfl

theorem mfaOf_insert_of_lookup {users : Table String User} {name : String} {old user : User}
    (hold : users.lookup name = some old) (hmfa : user.mfaEnabled = old.mfaEnabled) :
    mfaOf (users.insert name user) = mfaOf users := by
  funext a
  unfold mfaOf
  rw [Table.lookup_insert]
  split_ifs with h
  · rw [h, hold, Option.any_some, Option.any_some, hmfa]
  · rfl

theorem mfaOf_touchLogin (service : AuthService) (username : String) (now : ℕ) :
    mfaOf (service.touchLogin username now).users = mfaOf service.users := by
  funext a
  unfold mfaOf AuthService.touchLogin
  rw [Table.lookup_modify]
  split_ifs
  · exact Option.any_map
  · rfl

/-- Only the user itself may have MFA enabled afterwards and not before. -/
theorem mfaOf_enableMfa {service : AuthService} {username secret name : String}
    (hname : name ≠ username) (h : mfaOf service.users name = false) :
    mfaOf (service.enableMfa username secret).1.users name = false := by
  unfold AuthService.enableMfa
  cases huser : service.users.lookup username with
  | none => exact h
  | some user =>
    dsimp only
    split_ifs
    · exact h
    · rw [mfaOf] at h ⊢
      change Option.any _ ((service.users.insert username _).lookup name) = false
      rwa [Table.lookup_insert, if_neg hname]

theorem mfaOf_disableMfa {service : AuthService} {username name : String}
    (h : mfaOf service.users name = false) :
    mfaOf (service.disableMfa username).1.users name = false := by
  unfold AuthService.disableMfa
  cases huser : service.users.lookup username with
  | none => exact h
  | some user =>
    dsimp only
    split_ifs
    · rw [mfaOf] at h ⊢
      change Option.any _ ((service.users.insert username _).lookup name) = false
      rw [Table.lookup_insert]
      split_ifs
      · rfl
      · exact h
    · exact h

theorem idOf_touchLogin (service : AuthService) (username : String) (now : ℕ) :
    idOf (service.touchLogin username now).users = idOf service.users := by
  funext a
  unfold idOf AuthService.touchLogin
  rw [Table.lookup_modify]
  split_ifs
  · rw [Option.map_map]
    rfl
  · rfl

theorem idOf_enableMfa (service : AuthService) (username secret : String) :
    idOf (service.enableMfa username secret).1.users = idOf service.users := by
  unfold AuthService.enableMfa
  cases huser : service.users.lookup username with
  | none => rfl
  | some user =>
    dsimp only
    split_ifs
    · rfl
    · exact idOf_insert_of_lookup huser rfl

theorem idOf_disableMfa (service : AuthService) (username : String) :
    idOf (service.disableMfa username).1.users = idOf service.users := by
  unfold AuthService.disableMfa
  cases huser : service.users.lookup username with
  | none => rfl
  | some user =>
    dsimp only
    split_ifs
    · exact idOf_insert_of_lookup huser rfl
    · rfl

/-! ## The invariant -/

/-- What a client knows in the middle of a call is true. -/
def TaskOk (users : Table String User) (swept : String → ℕ) : AuthTask → Prop
  | .loginChecked _ => True
  | .loginTouched _ => True
  | .loginRead password userId enabled => idOf users password.username = some userId ∧
      (enabled = false → mfaOf users password.username = false)
  | .mfaFound password _ userId => idOf users password.username = some userId
  | .mfaChecked password _ userId => idOf users password.username = some userId
  | .mfaRemoved password userId => idOf users password.username = some userId
  | .updateChanged password userId => idOf users password.username = some userId
  | .updateStored password => ∀ p ∈ password, p.version ≤ swept p.username

/-- The sessions are of the passwords that they came about by, and these are swept up to. -/
structure Invariant : Prop where
  returned : ∀ name, s.returned name ≤ s.swept name
  tasks : ∀ client task, s.tasks.lookup client = some task →
    TaskOk s.service.users s.swept task
  /-- A pending login names the user whose password was given. -/
  pending : ∀ token pending, s.service.pendingMfa.lookup token = some pending →
    ∃ password, s.pendingOrigin.lookup token = some password ∧
      idOf s.service.users password.username = some pending.userId
  /-- A session names the user whose password was given, and the password was not swept. -/
  sessions : ∀ token session, s.service.sessions.lookup token = some session →
    ∃ origin, s.sessionOrigin.lookup token = some origin ∧
      idOf s.service.users origin.password.username = some session.userId ∧
      s.swept origin.password.username ≤ origin.password.version
  codes : s.CodeGiven

section Steps

variable {lib} {s}

theorem raise_apply (f : String → ℕ) (password : PasswordUse) (name : String) :
    raise f password name =
      if name = password.username then max (f password.username) password.version else f name := by
  rw [raise, Function.update_apply]

theorem le_raise (f : String → ℕ) (password : PasswordUse) (name : String) :
    f name ≤ raise f password name := by
  rw [raise_apply]
  split_ifs with h
  · rw [h]
    exact Nat.le_max_left _ _
  · exact Nat.le_refl _

theorem version_le_raise (f : String → ℕ) (password : PasswordUse) :
    password.version ≤ raise f password password.username := by
  rw [raise_apply, if_pos rfl]
  exact Nat.le_max_right _ _

theorem Invariant.init (users : Table String User) (dataDir : Option (Option (Table String User))) :
    Invariant (system lib users dataDir).init where
  returned := fun _ => Nat.le_refl _
  tasks := by
    intro client task h
    cases h
  pending := by
    intro token pending h
    cases h
  sessions := by
    intro token session h
    cases h
  codes := by
    intro token origin h
    cases h

theorem Invariant.setTask (h : Invariant s) (client : ℕ) {task : AuthTask}
    (hok : TaskOk s.service.users s.swept task) : Invariant (s.setTask client task) where
  returned := h.returned
  tasks := by
    intro client' task' h'
    change (AList.insert client task s.tasks).lookup client' = some task' at h'
    rw [Table.lookup_insert] at h'
    split_ifs at h'
    · obtain rfl := Option.some.inj h'
      exact hok
    · exact h.tasks client' task' h'
  pending := h.pending
  sessions := h.sessions
  codes := h.codes

theorem Invariant.endTask (h : Invariant s) (client : ℕ) : Invariant (s.endTask client) where
  returned := h.returned
  tasks := by
    intro client' task' h'
    exact h.tasks client' task' (Table.lookup_of_lookup_erase h')
  pending := h.pending
  sessions := h.sessions
  codes := h.codes

/-- The records of users change but for the identifiers, and tokens go; and no login has read that
MFA is off where it is switched on. -/
theorem Invariant.changeService (h : Invariant s) {service : AuthService}
    (hids : idOf service.users = idOf s.service.users)
    (hmfa : ∀ task ∈ s.tasks.values, ∀ password ∈ task.withoutCode,
      s.hasMfa password.username = false → mfaOf service.users password.username = false)
    (hsessions : ∀ token x, service.sessions.lookup token = some x →
      s.service.sessions.lookup token = some x)
    (hpending : ∀ token x, service.pendingMfa.lookup token = some x →
      s.service.pendingMfa.lookup token = some x) : Invariant { s with service } where
  returned := h.returned
  tasks := by
    intro client task htask
    have hok := h.tasks client task htask
    cases task with
    | loginChecked _ => exact trivial
    | loginTouched _ => exact trivial
    | loginRead password userId enabled =>
      obtain ⟨hid, hread⟩ := hok
      refine ⟨hids ▸ hid, fun henabled => ?_⟩
      subst henabled
      exact hmfa _ (Table.mem_values.mpr ⟨client, htask⟩) password rfl (hread rfl)
    | mfaFound _ _ _ => exact (congrFun hids _).trans hok
    | mfaChecked _ _ _ => exact (congrFun hids _).trans hok
    | mfaRemoved _ _ => exact (congrFun hids _).trans hok
    | updateChanged _ _ => exact (congrFun hids _).trans hok
    | updateStored _ => exact hok
  pending := by
    intro token pending hlookup
    change ∃ password : PasswordUse, _ ∧ idOf service.users password.username = some pending.userId
    rw [hids]
    exact h.pending token pending (hpending token pending hlookup)
  sessions := by
    intro token session hlookup
    change ∃ origin : SessionOrigin,
      _ ∧ idOf service.users origin.password.username = some session.userId ∧ _
    rw [hids]
    exact h.sessions token session (hsessions token session hlookup)
  codes := h.codes

/-- A session is issued for a password whose sessions were not swept since. -/
theorem Invariant.issue (h : Invariant s) (token : String) {userId : String}
    {origin : SessionOrigin}
    (hid : idOf s.service.users origin.password.username = some userId)
    (hswept : s.swept origin.password.username ≤ origin.password.version)
    (hcode : origin.mfaEnabled = true → origin.withCode = true) :
    Invariant (s.issue token userId origin) where
  returned := h.returned
  tasks := h.tasks
  pending := h.pending
  sessions := by
    intro token' session' hlookup
    change (s.service.sessions.insert token _).lookup token' = some session' at hlookup
    change ∃ origin', (s.sessionOrigin.insert token origin).lookup token' = some origin' ∧ _
    rw [Table.lookup_insert] at hlookup ⊢
    split_ifs at hlookup ⊢ with heq
    · obtain rfl := Option.some.inj hlookup
      exact ⟨origin, rfl, hid, hswept⟩
    · exact h.sessions token' session' hlookup
  codes := by
    intro token' origin' hlookup
    change (s.sessionOrigin.insert token origin).lookup token' = some origin' at hlookup
    rw [Table.lookup_insert] at hlookup
    split_ifs at hlookup with heq
    · obtain rfl := Option.some.inj hlookup
      exact hcode
    · exact h.codes token' origin' hlookup

theorem Invariant.finishLogin (h : Invariant s) (client : ℕ) (token : String)
    (hclean : s.Clean (.finishLogin client token)) : Invariant (s.finishLogin client token) := by
  unfold ConcurrentAuth.finishLogin
  split
  · rename_i password userId htask
    refine Invariant.endTask ?_ client
    refine ⟨h.returned, h.tasks, ?_, h.sessions, h.codes⟩
    intro token' pending' hlookup
    change (s.service.pendingMfa.insert token _).lookup token' = some pending' at hlookup
    change ∃ password', (s.pendingOrigin.insert token password).lookup token' = some password' ∧ _
    rw [Table.lookup_insert] at hlookup ⊢
    split_ifs at hlookup ⊢
    · obtain rfl := Option.some.inj hlookup
      exact ⟨password, rfl, (h.tasks client _ htask).1⟩
    · exact h.pending token' pending' hlookup
  · rename_i password userId htask
    obtain ⟨hid, hmfa⟩ := h.tasks client _ htask
    refine Invariant.endTask ?_ client
    refine h.issue token hid (hclean _ htask password rfl) ?_
    intro hmfa'
    exact absurd ((hmfa rfl).symm.trans hmfa') Bool.false_ne_true
  · exact h

theorem Invariant.finishVerify (h : Invariant s) (client : ℕ) (token : String)
    (hclean : s.Clean (.finishVerify client token)) : Invariant (s.finishVerify client token) := by
  unfold ConcurrentAuth.finishVerify
  split
  · rename_i password userId htask
    have hid : idOf s.service.users password.username = some userId := h.tasks client _ htask
    refine Invariant.endTask ?_ client
    exact h.issue token hid (hclean _ htask password rfl) fun _ => rfl
  · exact h

theorem Invariant.touch (h : Invariant s) (client : ℕ) : Invariant (s.touch client) := by
  unfold ConcurrentAuth.touch
  split
  · refine Invariant.setTask (h.changeService (idOf_touchLogin _ _ _) ?_ (fun _ _ hx => hx)
      fun _ _ hx => hx) client trivial
    rw [mfaOf_touchLogin]
    exact fun _ _ _ _ hmfa => hmfa
  · exact h

theorem Invariant.readUser (h : Invariant s) (client : ℕ) : Invariant (s.readUser client) := by
  unfold ConcurrentAuth.readUser
  split
  · rename_i password htask
    cases huser : s.service.users.lookup password.username with
    | none => exact h.endTask client
    | some user =>
      refine h.setTask client ⟨?_, fun hread => ?_⟩
      · rw [idOf, huser]
        rfl
      · rw [mfaOf, huser]
        exact hread
  · exact h

theorem Invariant.beginVerify (h : Invariant s) (client : ℕ) (tempToken : String) :
    Invariant (s.beginVerify client tempToken) := by
  unfold ConcurrentAuth.beginVerify
  split
  · rename_i pending password hfound horigin
    have hlookup : s.service.pendingMfa.lookup tempToken = some pending := by
      unfold AuthService.findPending at hfound
      cases hlookup : s.service.pendingMfa.lookup tempToken with
      | none =>
        rw [hlookup] at hfound
        cases hfound
      | some x =>
        rw [hlookup] at hfound
        dsimp only at hfound
        split_ifs at hfound
        obtain rfl := Except.ok.inj hfound
        rfl
    obtain ⟨password', horigin', hid⟩ := h.pending tempToken pending hlookup
    obtain rfl := Option.some.inj (horigin.symm.trans horigin')
    exact h.setTask client hid
  · exact h

theorem checkCode_id {users : List User} {userId code : String} {now : ℕ} {user : User}
    (h : AuthService.checkCode lib users userId code now = .ok user) : user.id = userId := by
  unfold AuthService.checkCode at h
  cases hfind : users.find? (·.id == userId) with
  | none =>
    rw [hfind] at h
    cases h
  | some user' =>
    rw [hfind] at h
    dsimp only at h
    split at h
    · cases h
    · split_ifs at h
      obtain rfl := Except.ok.inj h
      simpa using List.find?_some hfind

theorem Invariant.checkCode (h : Invariant s) (client : ℕ) (users : List User) (code : String) :
    Invariant (s.checkCode lib client users code) := by
  unfold ConcurrentAuth.checkCode
  split
  · rename_i password tempToken userId htask
    cases hcode : AuthService.checkCode lib users userId code s.now with
    | error e => exact h.endTask client
    | ok user =>
      refine h.setTask client ?_
      change idOf s.service.users password.username = some user.id
      rw [checkCode_id hcode]
      exact h.tasks client _ htask
  · exact h

theorem Invariant.removePending (h : Invariant s) (client : ℕ) :
    Invariant (s.removePending client) := by
  unfold ConcurrentAuth.removePending
  split
  · rename_i password tempToken userId htask
    have hid : idOf s.service.users password.username = some userId := h.tasks client _ htask
    refine Invariant.setTask ?_ client hid
    refine h.changeService rfl (fun _ _ _ _ hmfa => hmfa) (fun _ _ hx => hx)
      fun token x hx => ?_
    exact Table.lookup_of_lookup_erase hx
  · exact h

theorem Invariant.beginUpdate (h : Invariant s) (client : ℕ) (username : String)
    (email role : Option String) (password : Option AuthService.NewPassword) :
    Invariant (s.beginUpdate client username email role password) := by
  unfold ConcurrentAuth.beginUpdate
  cases huser : s.service.users.lookup username with
  | none => exact h
  | some user =>
    have hids : idOf (s.service.users.insert username
        (AuthService.changeUser user email role password)) = idOf s.service.users :=
      idOf_insert_of_lookup huser rfl
    have hmfas : mfaOf (s.service.users.insert username
        (AuthService.changeUser user email role password)) = mfaOf s.service.users :=
      mfaOf_insert_of_lookup huser rfl
    have hstored : Invariant { s with service :=
        { s.service with
          users := s.service.users.insert username
            (AuthService.changeUser user email role password) } } := by
      refine h.changeService hids ?_ (fun _ _ hx => hx) fun _ _ hx => hx
      exact fun _ _ _ _ hmfa => (congrFun hmfas _).trans hmfa
    dsimp only
    split_ifs
    · refine Invariant.setTask ?_ client ?_
      · exact ⟨hstored.returned, hstored.tasks, hstored.pending, hstored.sessions, hstored.codes⟩
      · change idOf (s.service.users.insert username _) username = some user.id
        rw [hids, idOf, huser]
        rfl
    · refine Invariant.setTask hstored client ?_
      intro p hp
      cases hp

theorem Invariant.sweep (h : Invariant s) (client : ℕ) : Invariant (s.sweep client) := by
  unfold ConcurrentAuth.sweep
  split
  · rename_i password userId htask
    have hid : idOf s.service.users password.username = some userId := h.tasks client _ htask
    refine Invariant.setTask ?_ client fun p hp => Option.some.inj hp ▸ version_le_raise _ _
    refine ⟨?_, ?_, h.pending, ?_, h.codes⟩
    · exact fun name => Nat.le_trans (h.returned name) (le_raise _ _ _)
    · intro client' task' htask'
      have hok := h.tasks client' task' htask'
      cases task' with
      | updateStored p => exact fun q hq => Nat.le_trans (hok q hq) (le_raise _ _ _)
      | loginChecked p => exact trivial
      | loginTouched p => exact trivial
      | loginRead p u m => exact hok
      | mfaFound p t u => exact hok
      | mfaChecked p t u => exact hok
      | mfaRemoved p u => exact hok
      | updateChanged p u => exact hok
    · intro token session hlookup
      change (Table.filterValues _ s.service.sessions).lookup token = some session at hlookup
      rw [Table.lookup_filterValues, Option.filter_eq_some_iff] at hlookup
      obtain ⟨hlookup, hkept⟩ := hlookup
      obtain ⟨origin, horigin, hsession, hswept⟩ := h.sessions token session hlookup
      refine ⟨origin, horigin, hsession, ?_⟩
      change raise s.swept password origin.password.username ≤ _
      rw [raise_apply, if_neg]
      · exact hswept
      · intro heq
        rw [heq, hid] at hsession
        obtain rfl := Option.some.inj hsession
        simp at hkept
  · exact h

theorem Invariant.finishUpdate (h : Invariant s) (client : ℕ) :
    Invariant (s.finishUpdate client) := by
  unfold ConcurrentAuth.finishUpdate
  split
  · rename_i password htask
    have hok := h.tasks client _ htask
    refine Invariant.endTask ?_ client
    refine ⟨?_, h.tasks, h.pending, h.sessions, h.codes⟩
    intro name
    cases password with
    | none => exact h.returned name
    | some p =>
      change raise s.returned p name ≤ s.swept name
      rw [raise_apply]
      split_ifs with hname
      · rw [hname]
        exact Nat.max_le.mpr ⟨h.returned _, hok p rfl⟩
      · exact h.returned name
  · exact h

/-- One section keeps the origins of sessions and codes. -/
theorem Invariant.step (h : Invariant s) {a : ConcurrentAction} (hclean : s.Clean a)
    {s' : ConcurrentAuth} (hstep : s.step lib a = some s') : Invariant s' := by
  cases a with
  | beginLogin client username password =>
    simp only [ConcurrentAuth.step] at hstep
    split_ifs at hstep
    obtain rfl := Option.some.inj hstep
    unfold ConcurrentAuth.beginLogin
    split_ifs
    · exact h.setTask client trivial
    · exact h
  | touch client =>
    obtain rfl := Option.some.inj hstep
    exact h.touch client
  | readUser client =>
    obtain rfl := Option.some.inj hstep
    exact h.readUser client
  | finishLogin client token =>
    obtain rfl := Option.some.inj hstep
    exact h.finishLogin client token hclean
  | beginVerify client tempToken =>
    simp only [ConcurrentAuth.step] at hstep
    split_ifs at hstep
    obtain rfl := Option.some.inj hstep
    exact h.beginVerify client tempToken
  | checkCode client users code =>
    simp only [ConcurrentAuth.step] at hstep
    split_ifs at hstep
    obtain rfl := Option.some.inj hstep
    exact h.checkCode client users code
  | removePending client =>
    obtain rfl := Option.some.inj hstep
    exact h.removePending client
  | finishVerify client token =>
    obtain rfl := Option.some.inj hstep
    exact h.finishVerify client token hclean
  | beginUpdate client username email role password =>
    simp only [ConcurrentAuth.step] at hstep
    split_ifs at hstep
    obtain rfl := Option.some.inj hstep
    exact h.beginUpdate client username email role password
  | sweep client =>
    obtain rfl := Option.some.inj hstep
    exact h.sweep client
  | finishUpdate client =>
    obtain rfl := Option.some.inj hstep
    exact h.finishUpdate client
  | enableMfa username secret =>
    obtain rfl := Option.some.inj hstep
    refine h.changeService (idOf_enableMfa _ _ _)
      (fun task htask password hp => mfaOf_enableMfa (hclean task htask password hp)) ?_ ?_
    all_goals
      unfold AuthService.enableMfa
      split
      · exact fun _ _ hx => hx
      · split_ifs <;> exact fun _ _ hx => hx
  | disableMfa username =>
    obtain rfl := Option.some.inj hstep
    refine h.changeService (idOf_disableMfa _ _) (fun _ _ _ _ => mfaOf_disableMfa) ?_ ?_
    all_goals
      unfold AuthService.disableMfa
      split
      · exact fun _ _ hx => hx
      · split_ifs <;> exact fun _ _ hx => hx
  | logout token =>
    obtain rfl := Option.some.inj hstep
    refine h.changeService rfl (fun _ _ _ _ hmfa => hmfa) (fun token' x hx => ?_)
      fun _ _ hx => hx
    exact Table.lookup_of_lookup_erase hx
  | cleanupExpired =>
    obtain rfl := Option.some.inj hstep
    refine h.changeService rfl (fun _ _ _ _ hmfa => hmfa) (fun token x hx => ?_)
      fun token x hx => ?_
    · exact Table.lookup_of_lookup_filterValues hx
    · exact Table.lookup_of_lookup_filterValues hx
  | wait time =>
    obtain rfl := Option.some.inj hstep
    exact ⟨h.returned, h.tasks, h.pending, h.sessions, h.codes⟩

end Steps

/-! ## Runs -/

theorem Invariant.revoked {s : ConcurrentAuth} (h : Invariant s) : s.Revoked := by
  intro token origin hmem horigin
  obtain ⟨session, hsession⟩ := Option.isSome_iff_exists.mp (AList.lookup_isSome.mpr hmem)
  obtain ⟨origin', horigin', -, hswept⟩ := h.sessions token session hsession
  obtain rfl := Option.some.inj (horigin.symm.trans horigin')
  exact Nat.le_trans (h.returned _) hswept

/-- If no session is issued for a password whose sessions were swept since it was checked, and MFA is
not switched on for a user while a login of that user has read that it is off, then in every state no
session is left of a password older than one whose change has returned, and codes were given wherever
MFA was enabled. -/
theorem revoked_of_clean (users : Table String User) (dataDir : Option (Option (Table String User)))
    (s : ConcurrentAuth) (h : (system lib users dataDir).Reach Clean s) :
    s.Revoked ∧ s.CodeGiven := by
  have hinv : Invariant s := by
    refine h.invariant (Invariant.init users dataDir) ?_
    intro s a s' _ hs hclean hstep
    exact hs.step hclean hstep
  exact ⟨hinv.revoked, hinv.codes⟩

def oneUser : Table String User :=
  (∅ : Table String User).insert "alice"
    (AuthService.newUser "user-001" "alice" "alice@example.org" "old" .viewer)

instance (s : ConcurrentAuth) : (a : ConcurrentAction) → Decidable (s.Clean a)
  | .finishLogin _ _ | .finishVerify _ _ =>
      letI (task : AuthTask → Option PasswordUse) (t : AuthTask) :
          Decidable (∀ password ∈ task t, s.swept password.username ≤ password.version) :=
        Option.decidableForallMem _
      Option.decidableForallMem _
  | .enableMfa username _ =>
      letI (task : AuthTask) : Decidable (∀ password ∈ task.withoutCode,
          password.username ≠ username) := Option.decidableForallMem _
      List.decidableBAll _ _
  | .beginLogin _ _ _ | .touch _ | .readUser _ | .beginVerify _ _ | .checkCode _ _ _
  | .removePending _ | .beginUpdate _ _ _ _ _ | .sweep _ | .finishUpdate _ | .disableMfa _ | .logout _
  | .cleanupExpired | .wait _ => .isTrue trivial

def withMfa : User :=
  { AuthService.newUser "user-001" "alice" "alice@example.org" "old" .viewer with
    mfaEnabled := true
    mfaSecret := some "123456"
    lastLogin := some 0 }

/-- Sessions come about without a code and, once MFA is enabled, with one, which is issued while the
password is being changed; another login with the new password follows. -/
def passwordChanged : List ConcurrentAction :=
  [.beginLogin 0 "alice" "old", .touch 0, .readUser 0, .finishLogin 0 "a",
    .enableMfa "alice" "123456",
    .beginLogin 0 "alice" "old", .touch 0, .readUser 0, .finishLogin 0 "pending",
    .beginVerify 0 "pending", .checkCode 0 [withMfa] "123456", .removePending 0,
    .beginUpdate 1 "alice" none none (some ⟨"new", "new"⟩), .finishVerify 0 "b",
    .beginLogin 0 "alice" "new", .sweep 1, .touch 0, .finishUpdate 1, .readUser 0,
    .finishLogin 0 "waiting", .beginVerify 0 "waiting",
    .checkCode 0 [{ withMfa with passwordHash := "new" }] "123456", .removePending 0,
    .finishVerify 0 "c"]

/-- Only the session of the new password is left. -/
theorem revoked_of_clean_passwordChanged :
    ∃ s, (system plainLibrary oneUser none).run Clean passwordChanged = some s ∧
      s.service.sessions.keys = ["c"] ∧ s.returned "alice" = 1 ∧
      s.sessionOrigin.lookup "c" = some ⟨⟨"alice", 1⟩, true, true⟩ ∧ s.Revoked ∧ s.CodeGiven := by
  have hrun : ((system plainLibrary oneUser none).run Clean passwordChanged).any (fun s =>
      s.service.sessions.keys = ["c"] ∧ s.returned "alice" = 1 ∧
        s.sessionOrigin.lookup "c" = some ⟨⟨"alice", 1⟩, true, true⟩) = true := by
    decide +kernel
  obtain ⟨s, hs, hreach, hend⟩ := System.exists_reach_of_any hrun
  obtain ⟨hkeys, hreturned, horigin⟩ := of_decide_eq_true hend
  exact ⟨s, hs, hkeys, hreturned, horigin,
    revoked_of_clean plainLibrary oneUser none s hreach⟩

/-- The password is changed while a login is between its check and its session. -/
def lateSession : List ConcurrentAction :=
  [.beginLogin 0 "alice" "old", .touch 0, .readUser 0,
    .beginUpdate 1 "alice" none none (some ⟨"new", "new"⟩), .sweep 1, .finishUpdate 1,
    .finishLogin 0 "token"]

def tokenFacts (s : ConcurrentAuth) : Bool × Option SessionOrigin × ℕ :=
  (decide ("token" ∈ s.service.sessions), s.sessionOrigin.lookup "token", s.returned "alice")

/-- A session of the old password is left after the change has returned. -/
theorem not_revoked :
    ¬ ∀ lib users dataDir s, (system lib users dataDir).Reachable s →
      s.Revoked ∧ s.CodeGiven := by
  intro h
  have hrun : ((system plainLibrary oneUser none).run (fun _ _ => True) lateSession).map
      tokenFacts = some (true, some ⟨⟨"alice", 0⟩, false, false⟩, 1) := by decide +kernel
  obtain ⟨s, hs, heq⟩ := Option.map_eq_some_iff.mp hrun
  simp only [tokenFacts, Prod.mk.injEq, decide_eq_true_eq] at heq
  obtain ⟨hmem, horigin, hreturned⟩ := heq
  have hle := (h plainLibrary oneUser none s (System.reach_of_run hs)).1 "token" _ hmem horigin
  simp only [hreturned] at hle
  exact absurd hle (by decide)

end ConcurrentAuth

end Server

end AegisDB
