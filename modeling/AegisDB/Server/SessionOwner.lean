import AegisDB.Server.Auth

/-!
# Whose session a token is of

Every user that is made is an account of its own, also when it takes the name of one that was
deleted.  A token belongs to the account that logged in to obtain it.  The service itself knows only
identifiers, and an identifier is made from the number of users: after a deletion the next user may
be given the identifier of a user that exists, or of a deleted one whose sessions live on.  If that
does not happen, a token is good for its own account only.
-/

namespace AegisDB

namespace Server

/-- A call of the service, a restart, or time that passes. -/
inductive AuthAction where
  | createUser (username email password role passwordHash : String)
  | deleteUser (username : String)
  | updateUser (username : String) (email role : Option String)
      (password : Option AuthService.NewPassword)
  | enableMfa (username secret : String)
  | disableMfa (username : String)
  | login (username password token : String)
  /-- With the order in which the hash map gives the users. -/
  | verifyMfa (users : List User) (code tempToken token : String)
  | logout (token : String)
  | cleanupExpired
  | restart (admin : Option AuthService.AdminCredentials)
  | wait (time : ℕ)

/-- A service with the accounts of its users, and with the account behind every token that was ever
handed out. -/
structure AuthRun where
  service : AuthService
  now : ℕ
  accounts : Table String ℕ
  nextAccount : ℕ
  logins : Table String ℕ

namespace AuthRun

variable (lib : AuthLibrary)

/-- A user is made under a name. -/
def openAccount (s : AuthRun) (username : String) (service : AuthService) : AuthRun :=
  { s with
    service
    accounts := s.accounts.insert username s.nextAccount
    nextAccount := s.nextAccount + 1 }

/-- A token is handed out to an account, if one is. -/
def handOut (s : AuthRun) (account : Option ℕ) (token : String)
    (done : AuthService × AuthResponse) : AuthRun :=
  match account, done.2.token with
  | some account, some _ =>
      { s with service := done.1, logins := s.logins.insert token account }
  | _, _ => { s with service := done.1 }

/-- A server starts, with a data directory or without. -/
def start (s : AuthRun) (admin : Option AuthService.AdminCredentials) : AuthRun :=
  let dataDir := s.service.dataDir
  let users := AuthService.loadUsers dataDir
  let service := AuthService.withDataDir dataDir admin
  let kept := { s with accounts := if dataDir.isSome then s.accounts else ∅ }
  match admin with
  | some admin =>
      if AuthService.makesAdmin users admin then kept.openAccount admin.username service
      else { kept with service }
  | none => { kept with service }

/-- One call.  Tokens do not repeat. -/
def step (s : AuthRun) : AuthAction → Option AuthRun
  | .createUser username email password role passwordHash =>
      match s.service.createUser lib username email password role passwordHash with
      | (service, .ok _) => some (s.openAccount username service)
      | (service, .error _) => some { s with service }
  | .deleteUser username =>
      match s.service.deleteUser username with
      | (service, .ok _) => some { s with service, accounts := s.accounts.erase username }
      | (service, .error _) => some { s with service }
  | .updateUser username email role password =>
      some { s with service := (s.service.updateUser username email role password).1 }
  | .enableMfa username secret =>
      some { s with service := (s.service.enableMfa username secret).1 }
  | .disableMfa username => some { s with service := (s.service.disableMfa username).1 }
  | .login username password token =>
      if token ∈ s.logins then none
      else some (s.handOut (s.accounts.lookup username) token
        (s.service.login lib username password token s.now))
  | .verifyMfa users code tempToken token =>
      if token ∈ s.logins ∨ ¬ users.Perm s.service.users.values then none
      else some (s.handOut (s.logins.lookup tempToken) token
        (s.service.verifyMfa lib users code tempToken token s.now))
  | .logout token => some { s with service := (s.service.logout token).1 }
  | .cleanupExpired => some { s with service := s.service.cleanupExpired s.now }
  | .restart admin => some (s.start admin)
  | .wait time => some { s with now := s.now + time }

/-- A server that has not been started yet, with an empty data directory or without one. -/
def unstarted (persistent : Bool) : AuthRun where
  service :=
    { users := ∅
      sessions := ∅
      pendingMfa := ∅
      dataDir := if persistent then some none else none }
  now := 0
  accounts := ∅
  nextAccount := 0
  logins := ∅

def system (persistent : Bool) : System AuthRun AuthAction where
  init := unstarted persistent
  step := step lib

/-! ## What is wanted -/

def DistinctIds (s : AuthRun) : Prop :=
  ∀ a b u v, s.service.users.lookup a = some u → s.service.users.lookup b = some v →
    u.id = v.id → a = b

/-- A token is good only for the account that logged in for it, in whatever order the users come. -/
def Owned (s : AuthRun) : Prop :=
  ∀ users token info, users.Perm s.service.users.values →
    s.service.validateSession users token s.now = some info →
    ∃ account, s.accounts.lookup info.username = some account ∧
      s.logins.lookup token = some account

/-- The identifier that is made next to given users is not one of theirs, and nobody is logged in
under it. -/
def FreshId (s : AuthRun) : Prop :=
  (∀ user ∈ s.service.users.values, user.id ≠ AuthService.nextUserId s.service.users) ∧
    (∀ session ∈ s.service.sessions.values, session.isExpired s.now = true ∨
      session.userId ≠ AuthService.nextUserId s.service.users) ∧
    ∀ pending ∈ s.service.pendingMfa.values, pending.isExpired s.now = true ∨
      pending.userId ≠ AuthService.nextUserId s.service.users

/-- A user that is made is given a fresh identifier. -/
def Clean (s : AuthRun) : AuthAction → Prop
  | .createUser username email password _ _ =>
      username ∈ s.service.users ∨ AuthService.checkNewUser lib username email password ≠ .ok () ∨
        s.FreshId
  | .restart (some admin) =>
      let users := AuthService.loadUsers s.service.dataDir
      AuthService.makesAdmin users admin = false ∨
        ∀ user ∈ users.values, user.id ≠ AuthService.nextUserId users
  | _ => True

/-! ## Names and identifiers -/

/-- The identifier and the name of the user under a name. -/
def keyOf (users : Table String User) (name : String) : Option (String × String) :=
  (users.lookup name).map fun user => (user.id, user.username)

theorem keyOf_insert (users : Table String User) (name : String) (user : User) :
    keyOf (users.insert name user) = Function.update (keyOf users) name
      (some (user.id, user.username)) := by
  funext a
  unfold keyOf
  rw [Table.lookup_insert, Function.update_apply]
  split_ifs <;> rfl

theorem keyOf_erase (users : Table String User) (name : String) :
    keyOf (users.erase name) = Function.update (keyOf users) name none := by
  funext a
  unfold keyOf
  rw [Table.lookup_erase, Function.update_apply]
  split_ifs <;> rfl

theorem keyOf_insert_of_lookup {users : Table String User} {name : String} {old user : User}
    (hold : users.lookup name = some old) (hid : user.id = old.id)
    (hname : user.username = old.username) : keyOf (users.insert name user) = keyOf users := by
  rw [keyOf_insert, hid, hname]
  refine Function.update_eq_self_iff.mpr ?_
  unfold keyOf
  rw [hold]
  rfl

theorem keyOf_touchLogin (service : AuthService) (username : String) (now : ℕ) :
    keyOf (service.touchLogin username now).users = keyOf service.users := by
  funext a
  unfold keyOf AuthService.touchLogin
  rw [Table.lookup_modify]
  split_ifs
  · rw [Option.map_map]
    rfl
  · rfl

theorem keyOf_of_find {s : AuthRun} {users : List User} {id : String} {user : User}
    (hnames : ∀ name k, keyOf s.service.users name = some k → k.2 = name)
    (hperm : users.Perm s.service.users.values)
    (hfind : users.find? (·.id == id) = some user) :
    keyOf s.service.users user.username = some (id, user.username) := by
  have hid : user.id = id := by simpa using List.find?_some hfind
  obtain ⟨name, hname⟩ := Table.mem_values.mp (hperm.subset (List.mem_of_find?_eq_some hfind))
  have hkey : keyOf s.service.users name = some (user.id, user.username) := by
    unfold keyOf
    rw [hname]
    rfl
  have := hnames name _ hkey
  dsimp only at this
  rw [this, hkey, hid, this]

/-! ## Ownership of tokens -/

/-- The tokens of a table belong to the accounts of the users that they name, as long as they last.
A token of a deleted user names nobody. -/
def Owns (keys : String → Option (String × String)) (accounts logins : Table String ℕ) (now : ℕ)
    (t : Table String Session) : Prop :=
  ∀ token x, t.lookup token = some x →
    token ∈ logins ∧ (x.isExpired now = false →
      ∀ name k, keys name = some k → k.1 = x.userId →
        accounts.lookup name = logins.lookup token)

section Owns

variable {keys keys' : String → Option (String × String)}
  {accounts accounts' logins : Table String ℕ} {now : ℕ} {t t' : Table String Session}

theorem owns_empty : Owns keys accounts logins now ∅ := by
  intro token x h
  simp at h

theorem Owns.forget (h : Owns keys accounts logins now t)
    (hkeys : ∀ name k, keys' name = some k →
      keys name = some k ∧ accounts'.lookup name = accounts.lookup name) :
    Owns keys' accounts' logins now t := by
  intro token x hx
  refine ⟨(h token x hx).1, fun hlive name k hk hid => ?_⟩
  obtain ⟨hold, haccount⟩ := hkeys name k hk
  rw [haccount]
  exact (h token x hx).2 hlive name k hold hid

theorem Owns.newUser (h : Owns keys accounts logins now t) {username id : String} {account : ℕ}
    (hfresh : ∀ x ∈ t.values, x.isExpired now = true ∨ x.userId ≠ id) :
    Owns (Function.update keys username (some (id, username))) (accounts.insert username account)
      logins now t := by
  intro token x hx
  refine ⟨(h token x hx).1, fun hlive name k hk hid => ?_⟩
  rw [Function.update_apply] at hk
  rw [Table.lookup_insert]
  split_ifs at hk ⊢ with hname
  · obtain rfl := Option.some.inj hk
    rcases hfresh x (Table.mem_values.mpr ⟨token, hx⟩) with hexpired | hne
    · rw [hexpired] at hlive
      cases hlive
    · exact absurd hid.symm hne
  · exact (h token x hx).2 hlive name k hk hid

theorem Owns.sub (h : Owns keys accounts logins now t)
    (hsub : ∀ token x, t'.lookup token = some x → t.lookup token = some x) :
    Owns keys accounts logins now t' :=
  fun token x hx => h token x (hsub token x hx)

theorem Owns.handOut (h : Owns keys accounts logins now t) {token : String} (account : ℕ)
    (hnew : token ∉ logins) : Owns keys accounts (logins.insert token account) now t := by
  intro token' x hx
  obtain ⟨hmem, howner⟩ := h token' x hx
  have hne : token' ≠ token := by
    rintro rfl
    exact hnew hmem
  rw [Table.lookup_insert, if_neg hne]
  exact ⟨(AList.mem_insert _).mpr (.inr hmem), howner⟩

theorem Owns.insert (h : Owns keys accounts logins now t) {token : String} {x : Session}
    (hmem : token ∈ logins) (howner : ∀ name k, keys name = some k → k.1 = x.userId →
      accounts.lookup name = logins.lookup token) :
    Owns keys accounts logins now (AList.insert token x t) := by
  intro token' x' hx'
  rw [Table.lookup_insert] at hx'
  split_ifs at hx' with hname
  · obtain rfl := Option.some.inj hx'
    subst hname
    exact ⟨hmem, fun _ => howner⟩
  · exact h token' x' hx'

theorem Owns.wait (h : Owns keys accounts logins now t) (time : ℕ) :
    Owns keys accounts logins (now + time) t := by
  intro token x hx
  refine ⟨(h token x hx).1, fun hlive => (h token x hx).2 ?_⟩
  simp only [Session.isExpired, decide_eq_false_iff_not] at hlive ⊢
  omega

end Owns

/-! ## The invariant -/

/-- Users stand under their names with identifiers of their own, the disk has the same ones, and
every token belongs to the account of the user that it names. -/
structure Invariant (s : AuthRun) : Prop where
  names : ∀ name k, keyOf s.service.users name = some k → k.2 = name
  ids : ∀ a b k l, keyOf s.service.users a = some k → keyOf s.service.users b = some l →
    k.1 = l.1 → a = b
  accounts : ∀ name, name ∈ s.service.users ↔ name ∈ s.accounts
  sessions : Owns (keyOf s.service.users) s.accounts s.logins s.now s.service.sessions
  /-- Pending verifications belong to the accounts of their users. -/
  pending : Owns (keyOf s.service.users) s.accounts s.logins s.now s.service.pendingMfa
  /-- The users on disk have the same names and identifiers. -/
  saved : s.service.dataDir.isSome →
    keyOf (AuthService.loadUsers s.service.dataDir) = keyOf s.service.users

theorem mem_iff_keyOf {users : Table String User} {name : String} :
    name ∈ users ↔ (keyOf users name).isSome = true := by
  unfold keyOf
  rw [Option.isSome_map, AList.lookup_isSome]

theorem loadUsers_flush {service : AuthService}
    (h : service.flushUsersToDisk.dataDir.isSome = true) :
    AuthService.loadUsers service.flushUsersToDisk.dataDir = service.users := by
  obtain ⟨users, sessions, pendingMfa, dataDir⟩ := service
  cases dataDir with
  | none => cases h
  | some d => rfl

theorem Invariant.unstarted (persistent : Bool) : Invariant (unstarted persistent) where
  names := by
    intro name k h
    cases h
  ids := by
    intro a b k l h
    cases h
  accounts := fun _ => Iff.rfl
  sessions := owns_empty
  pending := owns_empty
  saved := by
    cases persistent <;> intro h
    · cases h
    · rfl

section Steps

variable {lib} {s : AuthRun}

/-- The records of users change, and nothing else that the invariant speaks of. -/
theorem Invariant.changeUsers (h : Invariant s) {service : AuthService}
    (hkeys : keyOf service.users = keyOf s.service.users)
    (hsessions : ∀ token x, service.sessions.lookup token = some x →
      s.service.sessions.lookup token = some x)
    (hpending : ∀ token x, service.pendingMfa.lookup token = some x →
      s.service.pendingMfa.lookup token = some x)
    (hsaved : service.dataDir.isSome →
      keyOf (AuthService.loadUsers service.dataDir) = keyOf service.users) :
    Invariant { s with service } where
  names := by
    intro name k
    change keyOf service.users name = some k → _
    rw [hkeys]
    exact h.names name k
  ids := by
    intro a b k l
    change keyOf service.users a = some k → keyOf service.users b = some l → _
    rw [hkeys]
    exact h.ids a b k l
  accounts := by
    intro name
    rw [← h.accounts, mem_iff_keyOf, mem_iff_keyOf, hkeys]
  sessions := by
    change Owns (keyOf service.users) _ _ _ _
    rw [hkeys]
    exact h.sessions.sub hsessions
  pending := by
    change Owns (keyOf service.users) _ _ _ _
    rw [hkeys]
    exact h.pending.sub hpending
  saved := hsaved

theorem Invariant.openAccount (h : Invariant s) {username id : String} {service : AuthService}
    (hkeys : keyOf service.users =
      Function.update (keyOf s.service.users) username (some (id, username)))
    (hsessions : service.sessions = s.service.sessions)
    (hpending : service.pendingMfa = s.service.pendingMfa)
    (hsaved : service.dataDir.isSome →
      keyOf (AuthService.loadUsers service.dataDir) = keyOf service.users)
    (hid : ∀ name k, keyOf s.service.users name = some k → k.1 ≠ id)
    (hfreshSessions : ∀ x ∈ s.service.sessions.values, x.isExpired s.now = true ∨ x.userId ≠ id)
    (hfreshPending : ∀ x ∈ s.service.pendingMfa.values, x.isExpired s.now = true ∨ x.userId ≠ id) :
    Invariant (s.openAccount username service) where
  names := by
    intro name k
    change keyOf service.users name = some k → _
    rw [hkeys, Function.update_apply]
    split_ifs with hname
    · rintro ⟨⟩
      exact hname.symm
    · exact h.names name k
  ids := by
    intro a b k l
    change keyOf service.users a = some k → keyOf service.users b = some l → _
    rw [hkeys, Function.update_apply, Function.update_apply]
    split_ifs with ha hb hb
    · intro _ _ _
      rw [ha, hb]
    · rintro ⟨⟩ hl heq
      exact absurd heq.symm (hid b l hl)
    · rintro hk ⟨⟩ heq
      exact absurd heq (hid a k hk)
    · exact h.ids a b k l
  accounts := by
    intro name
    change name ∈ service.users ↔ name ∈ s.accounts.insert username s.nextAccount
    rw [AList.mem_insert, ← h.accounts, mem_iff_keyOf, mem_iff_keyOf, hkeys, Function.update_apply]
    split_ifs with hname <;> simp [hname]
  sessions := by
    change Owns (keyOf service.users) _ _ _ service.sessions
    rw [hkeys, hsessions]
    exact h.sessions.newUser hfreshSessions
  pending := by
    change Owns (keyOf service.users) _ _ _ service.pendingMfa
    rw [hkeys, hpending]
    exact h.pending.newUser hfreshPending
  saved := hsaved

theorem ne_of_mem_values {users : Table String User} {id : String}
    (h : ∀ user ∈ users.values, user.id ≠ id) (name : String) (k : String × String)
    (hk : keyOf users name = some k) : k.1 ≠ id := by
  obtain ⟨user, huser, rfl⟩ := Option.map_eq_some_iff.mp hk
  exact h user (Table.mem_values.mpr ⟨name, huser⟩)

theorem Invariant.createUser (h : Invariant s)
    {username email password role passwordHash : String}
    (hclean : s.Clean lib (.createUser username email password role passwordHash)) {s' : AuthRun}
    (hstep : s.step lib (.createUser username email password role passwordHash) = some s') :
    Invariant s' := by
  simp only [step, AuthService.createUser] at hstep
  by_cases hmem : username ∈ s.service.users
  · rw [if_pos hmem] at hstep
    obtain rfl := Option.some.inj hstep
    exact h
  · rw [if_neg hmem] at hstep
    cases hcheck : AuthService.checkNewUser lib username email password with
    | error e =>
      rw [hcheck] at hstep
      obtain rfl := Option.some.inj hstep
      exact h
    | ok u =>
      rw [hcheck] at hstep
      obtain rfl := Option.some.inj hstep
      obtain ⟨husers, hsessions, hpending⟩ : s.FreshId := by
        rcases hclean with hold | hbad | hfresh
        · exact absurd hold hmem
        · exact absurd hcheck hbad
        · exact hfresh
      exact h.openAccount (keyOf_insert _ _ _) rfl rfl
        (fun hdir => congrArg keyOf (loadUsers_flush hdir)) (ne_of_mem_values husers) hsessions
        hpending

theorem Invariant.deleteUser (h : Invariant s) {username : String} {s' : AuthRun}
    (hstep : s.step lib (.deleteUser username) = some s') : Invariant s' := by
  simp only [step, AuthService.deleteUser] at hstep
  by_cases hmem : username ∈ s.service.users
  · rw [if_pos hmem] at hstep
    by_cases hadmin : username = "admin"
    · rw [if_pos hadmin] at hstep
      obtain rfl := Option.some.inj hstep
      exact h
    · rw [if_neg hadmin] at hstep
      obtain rfl := Option.some.inj hstep
      have hkeys := keyOf_erase s.service.users username
      have hold (name : String) (k : String × String)
          (hk : keyOf (AList.erase username s.service.users) name = some k) :
          keyOf s.service.users name = some k ∧
            (AList.erase username s.accounts).lookup name = s.accounts.lookup name := by
        rw [hkeys, Function.update_apply] at hk
        rw [Table.lookup_erase]
        split_ifs at hk ⊢ with hname
        exact ⟨hk, rfl⟩
      refine ⟨?_, ?_, ?_, ?_, ?_, ?_⟩
      · intro name k hk
        exact h.names name k (hold name k hk).1
      · intro a b k l hk hl
        exact h.ids a b k l (hold a k hk).1 (hold b l hl).1
      · intro name
        change name ∈ AList.erase username s.service.users ↔ name ∈ AList.erase username s.accounts
        rw [AList.mem_erase, AList.mem_erase, h.accounts]
      · exact h.sessions.forget hold
      · exact h.pending.forget hold
      · exact fun hdir => congrArg keyOf (loadUsers_flush hdir)
  · rw [if_neg hmem] at hstep
    obtain rfl := Option.some.inj hstep
    exact h

theorem Invariant.updateUser (h : Invariant s) (username : String) (email role : Option String)
    (password : Option AuthService.NewPassword) :
    Invariant { s with service := (s.service.updateUser username email role password).1 } := by
  unfold AuthService.updateUser
  cases huser : s.service.users.lookup username with
  | none => exact h
  | some user =>
    have hkeys : keyOf (s.service.users.insert username
        (AuthService.changeUser user email role password)) = keyOf s.service.users :=
      keyOf_insert_of_lookup huser rfl rfl
    dsimp only
    split_ifs with hpassword
    · refine h.changeUsers hkeys (fun token x hx => ?_) (fun _ _ hx => hx)
        (fun hdir => congrArg keyOf (loadUsers_flush hdir))
      exact Table.lookup_of_lookup_filterValues hx
    · exact h.changeUsers hkeys (fun _ _ hx => hx) (fun _ _ hx => hx)
        (fun hdir => congrArg keyOf (loadUsers_flush hdir))

theorem Invariant.enableMfa (h : Invariant s) (username secret : String) :
    Invariant { s with service := (s.service.enableMfa username secret).1 } := by
  unfold AuthService.enableMfa
  cases huser : s.service.users.lookup username with
  | none => exact h
  | some user =>
    dsimp only
    split_ifs
    · exact h
    · exact h.changeUsers (keyOf_insert_of_lookup huser rfl rfl) (fun _ _ hx => hx)
        (fun _ _ hx => hx) (fun hdir => congrArg keyOf (loadUsers_flush hdir))

theorem Invariant.disableMfa (h : Invariant s) (username : String) :
    Invariant { s with service := (s.service.disableMfa username).1 } := by
  unfold AuthService.disableMfa
  cases huser : s.service.users.lookup username with
  | none => exact h
  | some user =>
    dsimp only
    split_ifs
    · exact h.changeUsers (keyOf_insert_of_lookup huser rfl rfl) (fun _ _ hx => hx)
        (fun _ _ hx => hx) (fun hdir => congrArg keyOf (loadUsers_flush hdir))
    · exact h

/-- A token is handed out to an account, for a session or a pending verification that names the
identifier of the user of that account. -/
theorem Invariant.handOut (h : Invariant s) {token : String} (id : String) {account : ℕ}
    {service : AuthService} (hnew : token ∉ s.logins)
    (howner : ∀ name k, keyOf s.service.users name = some k → k.1 = id →
      s.accounts.lookup name = some account)
    (husers : keyOf service.users = keyOf s.service.users)
    (hdir : service.dataDir = s.service.dataDir)
    (hsessions : (∀ token' x, service.sessions.lookup token' = some x →
        s.service.sessions.lookup token' = some x) ∨
      ∃ x : Session, x.userId = id ∧ service.sessions = s.service.sessions.insert token x)
    (hpending : (∀ token' x, service.pendingMfa.lookup token' = some x →
        s.service.pendingMfa.lookup token' = some x) ∨
      ∃ x : Session, x.userId = id ∧ service.pendingMfa = s.service.pendingMfa.insert token x) :
    Invariant { s with service, logins := s.logins.insert token account } := by
  have hmem : token ∈ s.logins.insert token account := (AList.mem_insert _).mpr (.inl rfl)
  have hown (name : String) (k : String × String) (hk : keyOf s.service.users name = some k)
      (hid : k.1 = id) :
      s.accounts.lookup name = (s.logins.insert token account).lookup token := by
    rw [AList.lookup_insert]
    exact howner name k hk hid
  have hsub : Invariant { s with service := { service with sessions := ∅, pendingMfa := ∅ } } :=
    h.changeUsers husers (by simp) (by simp) (by
      intro hsome
      change keyOf (AuthService.loadUsers service.dataDir) = keyOf service.users
      rw [husers, hdir]
      exact h.saved (hdir ▸ hsome))
  refine ⟨hsub.names, hsub.ids, hsub.accounts, ?_, ?_, hsub.saved⟩
  · change Owns (keyOf service.users) _ _ _ service.sessions
    rw [husers]
    have hold := h.sessions.handOut account hnew
    rcases hsessions with hle | ⟨x, hx, heq⟩
    · exact hold.sub hle
    · rw [heq]
      exact hold.insert hmem (hx ▸ hown)
  · change Owns (keyOf service.users) _ _ _ service.pendingMfa
    rw [husers]
    have hold := h.pending.handOut account hnew
    rcases hpending with hle | ⟨x, hx, heq⟩
    · exact hold.sub hle
    · rw [heq]
      exact hold.insert hmem (hx ▸ hown)

theorem Invariant.login (h : Invariant s) {username password token : String}
    (hnew : token ∉ s.logins) :
    Invariant (s.handOut (s.accounts.lookup username) token
      (s.service.login lib username password token s.now)) := by
  unfold AuthService.login
  cases huser : s.service.users.lookup username with
  | none =>
    unfold AuthRun.handOut
    cases s.accounts.lookup username <;> exact h
  | some user =>
    have hkey : keyOf s.service.users username = some (user.id, user.username) := by
      unfold keyOf
      rw [huser]
      rfl
    have hmem : username ∈ s.accounts := by
      rw [← h.accounts, mem_iff_keyOf, hkey]
      rfl
    obtain ⟨account, haccount⟩ := Option.isSome_iff_exists.mp (AList.lookup_isSome.mpr hmem)
    have howner (name : String) (k : String × String) (hk : keyOf s.service.users name = some k)
        (hid : k.1 = user.id) : s.accounts.lookup name = some account := by
      rw [h.ids name username k _ hk hkey hid, haccount]
    dsimp only
    rw [haccount]
    split_ifs
    · exact h.handOut _ hnew howner (keyOf_touchLogin _ _ _) rfl (.inl fun _ _ hx => hx)
        (.inr ⟨_, rfl, rfl⟩)
    · exact h.handOut _ hnew howner (keyOf_touchLogin _ _ _) rfl (.inr ⟨_, rfl, rfl⟩)
        (.inl fun _ _ hx => hx)
    · exact h

theorem Invariant.verifyMfa (h : Invariant s) {users : List User} {code tempToken token : String}
    (hnew : token ∉ s.logins) :
    Invariant (s.handOut (s.logins.lookup tempToken) token
      (s.service.verifyMfa lib users code tempToken token s.now)) := by
  unfold AuthService.verifyMfa AuthService.findPending
  cases hpending : s.service.pendingMfa.lookup tempToken with
  | none =>
    unfold AuthRun.handOut
    cases s.logins.lookup tempToken <;> exact h
  | some pending =>
    obtain ⟨hmem, howns⟩ := h.pending tempToken pending hpending
    obtain ⟨account, haccount⟩ := Option.isSome_iff_exists.mp (AList.lookup_isSome.mpr hmem)
    rw [haccount]
    cases hexpired : pending.isExpired s.now with
    | true =>
      simp only [hexpired, if_true]
      exact h
    | false =>
      simp only [hexpired, Bool.false_eq_true, if_false]
      cases hcode : AuthService.checkCode lib users pending.userId code s.now with
      | error e => exact h
      | ok user =>
        have hfind : users.find? (·.id == pending.userId) = some user := by
          unfold AuthService.checkCode at hcode
          cases hfind : users.find? (·.id == pending.userId) with
          | none =>
            rw [hfind] at hcode
            cases hcode
          | some user' =>
            rw [hfind] at hcode
            dsimp only at hcode
            split at hcode
            · cases hcode
            · split_ifs at hcode
              obtain rfl := Except.ok.inj hcode
              rfl
        have hid : user.id = pending.userId := by simpa using List.find?_some hfind
        refine h.handOut user.id hnew (fun name k hk hk' => ?_) rfl rfl
          (.inr ⟨_, rfl, rfl⟩) (.inl fun token' x hx => ?_)
        · rw [howns hexpired name k hk (hk'.trans hid), haccount]
        · exact Table.lookup_of_lookup_erase hx

/-- A server that starts has the users that it is on disk, and nobody is logged in. -/
theorem Invariant.loaded (h : Invariant s) :
    Invariant { s with
      service :=
        { users := AuthService.loadUsers s.service.dataDir
          sessions := ∅
          pendingMfa := ∅
          dataDir := s.service.dataDir }
      accounts := if s.service.dataDir.isSome then s.accounts else ∅ } := by
  by_cases hdir : s.service.dataDir.isSome
  · have hkeys := h.saved hdir
    rw [if_pos hdir]
    exact h.changeUsers hkeys (by simp) (by simp) (fun _ => rfl)
  · rw [if_neg hdir]
    have hnone : s.service.dataDir = none := by simpa using hdir
    rw [hnone]
    refine ⟨?_, ?_, fun _ => Iff.rfl, owns_empty, owns_empty, ?_⟩
    · intro name k hk
      cases hk
    · intro a b k l hk
      cases hk
    · intro hsome
      cases hsome

theorem Invariant.restart (h : Invariant s) {admin : Option AuthService.AdminCredentials}
    (hclean : s.Clean lib (.restart admin)) : Invariant (s.start admin) := by
  have hloaded := h.loaded
  cases admin with
  | none =>
    exact hloaded.changeUsers rfl (fun _ _ hx => hx) (fun _ _ hx => hx)
      (fun hdir => congrArg keyOf (loadUsers_flush hdir))
  | some admin =>
    unfold start AuthService.withDataDir
    dsimp only
    cases hmakes : AuthService.makesAdmin (AuthService.loadUsers s.service.dataDir) admin with
    | false =>
      simp only [Bool.false_eq_true, if_false]
      exact hloaded.changeUsers rfl (fun _ _ hx => hx) (fun _ _ hx => hx)
        (fun hdir => congrArg keyOf (loadUsers_flush hdir))
    | true =>
      simp only [if_true]
      rcases hclean with hbad | hfresh
      · rw [hmakes] at hbad
        cases hbad
      · refine hloaded.openAccount (keyOf_insert _ _ _) rfl rfl
          (fun hdir => congrArg keyOf (loadUsers_flush hdir)) (ne_of_mem_values hfresh) ?_ ?_
        · intro x hx
          cases hx
        · intro x hx
          cases hx

/-- One call keeps every session with its owner. -/
theorem Invariant.step (h : Invariant s) {a : AuthAction} (hclean : s.Clean lib a) {s' : AuthRun}
    (hstep : s.step lib a = some s') : Invariant s' := by
  cases a with
  | createUser username email password role passwordHash => exact h.createUser hclean hstep
  | deleteUser username => exact h.deleteUser hstep
  | updateUser username email role password =>
    obtain rfl := Option.some.inj hstep
    exact h.updateUser username email role password
  | enableMfa username secret =>
    obtain rfl := Option.some.inj hstep
    exact h.enableMfa username secret
  | disableMfa username =>
    obtain rfl := Option.some.inj hstep
    exact h.disableMfa username
  | login username password token =>
    simp only [AuthRun.step] at hstep
    split_ifs at hstep with hold
    obtain rfl := Option.some.inj hstep
    exact h.login hold
  | verifyMfa users code tempToken token =>
    simp only [AuthRun.step] at hstep
    split_ifs at hstep with hbad
    obtain rfl := Option.some.inj hstep
    rw [not_or, not_not] at hbad
    exact h.verifyMfa hbad.1
  | logout token =>
    obtain rfl := Option.some.inj hstep
    refine h.changeUsers rfl (fun token' x hx => ?_) (fun _ _ hx => hx) h.saved
    exact Table.lookup_of_lookup_erase hx
  | cleanupExpired =>
    obtain rfl := Option.some.inj hstep
    refine h.changeUsers rfl (fun token x hx => ?_) (fun token x hx => ?_) h.saved
    · exact Table.lookup_of_lookup_filterValues hx
    · exact Table.lookup_of_lookup_filterValues hx
  | restart admin =>
    obtain rfl := Option.some.inj hstep
    exact h.restart hclean
  | wait time =>
    obtain rfl := Option.some.inj hstep
    exact ⟨h.names, h.ids, h.accounts, h.sessions.wait time, h.pending.wait time, h.saved⟩

end Steps

/-! ## Runs -/

theorem Invariant.distinctIds {s : AuthRun} (h : Invariant s) : s.DistinctIds := by
  intro a b u v hu hv hid
  refine h.ids a b (u.id, u.username) (v.id, v.username) ?_ ?_ hid
  · unfold keyOf
    rw [hu]
    rfl
  · unfold keyOf
    rw [hv]
    rfl

theorem Invariant.owned {s : AuthRun} (h : Invariant s) : s.Owned := by
  intro users token info hperm hvalid
  unfold AuthService.validateSession at hvalid
  cases hsession : s.service.sessions.lookup token with
  | none =>
    rw [hsession] at hvalid
    cases hvalid
  | some session =>
    rw [hsession] at hvalid
    dsimp only at hvalid
    split_ifs at hvalid with hexpired
    obtain ⟨user, hfind, rfl⟩ := Option.map_eq_some_iff.mp hvalid
    have hkey := keyOf_of_find h.names hperm hfind
    obtain ⟨hmem, howns⟩ := h.sessions token session hsession
    have howner := howns (by simpa using hexpired) user.username _ hkey rfl
    obtain ⟨account, haccount⟩ := Option.isSome_iff_exists.mp (AList.lookup_isSome.mpr hmem)
    exact ⟨account, howner.trans haccount, haccount⟩

/-- If every user that is made is given an identifier that no other user has and that nobody is
logged in under, then in every state identifiers are distinct, and a token is good only for the
account that logged in to obtain it. -/
theorem owned_of_clean (persistent : Bool) (s : AuthRun)
    (h : (system lib persistent).Reach (Clean lib) s) : s.DistinctIds ∧ s.Owned := by
  have hinv : Invariant s := by
    refine h.invariant (Invariant.unstarted persistent) ?_
    intro s a s' _ hs hclean hstep
    exact hs.step hclean hstep
  exact ⟨hinv.distinctIds, hinv.owned⟩

instance (s : AuthRun) : Decidable s.FreshId :=
  inferInstanceAs (Decidable ((∀ user ∈ s.service.users.values, _) ∧
    (∀ session ∈ s.service.sessions.values, _) ∧ ∀ pending ∈ s.service.pendingMfa.values, _))

instance (s : AuthRun) : (a : AuthAction) → Decidable (s.Clean lib a)
  | .createUser _ _ _ _ _ => inferInstanceAs (Decidable (_ ∨ _ ∨ _))
  | .restart (some _) => inferInstanceAs (Decidable (_ ∨ ∀ user ∈ Table.values _, _))
  | .restart none | .deleteUser _ | .updateUser _ _ _ _ | .enableMfa _ _ | .disableMfa _ | .login _ _ _
  | .verifyMfa _ _ _ _ | .logout _ | .cleanupExpired | .wait _ => .isTrue trivial

def firstUser : AuthAction :=
  .createUser "alice" "alice@example.org" "correct horse" "viewer" "correct horse"

def secondUser (name : String) : AuthAction :=
  .createUser name (name ++ "@example.org") "battery staple" "admin" "battery staple"

def alice : User where
  id := "user-001"
  username := "alice"
  email := "alice@example.org"
  passwordHash := "correct horse"
  role := .viewer
  mfaEnabled := true
  mfaSecret := some "123456"
  lastLogin := some 0

def carol : User where
  id := "user-002"
  username := "carol"
  email := "carol@example.org"
  passwordHash := "battery staple"
  role := .admin
  mfaEnabled := false
  mfaSecret := none
  lastLogin := none

/-- Two users log in, one logs out and is deleted, and a third one, that is given the identifier of
that one, is made; the first logs in with a code. -/
def succession : List AuthAction :=
  [.restart none, firstUser, secondUser "bob", .restart none, .login "alice" "correct horse" "a",
    .login "bob" "battery staple" "b", .logout "b", .deleteUser "bob", secondUser "carol",
    .enableMfa "alice" "123456", .login "alice" "correct horse" "pending",
    .verifyMfa [carol, alice] "123456" "pending" "c"]

def holderOf (s : AuthRun) (token : String) : Option String :=
  (s.service.validateSession s.service.users.values token s.now).map UserInfo.username

/-- The tokens of the first user are good for it, and that of the deleted one for nobody. -/
theorem owned_of_clean_succession :
    ∃ s, (system plainLibrary true).run (Clean plainLibrary) succession = some s ∧
      ["a", "b", "c"].map s.holderOf = [some "alice", none, some "alice"] ∧
      s.service.users.values = [alice, carol] ∧ s.DistinctIds ∧ s.Owned := by
  have hrun : ((system plainLibrary true).run (Clean plainLibrary) succession).any (fun s =>
      ["a", "b", "c"].map s.holderOf = [some "alice", none, some "alice"] ∧
        s.service.users.values = [alice, carol]) = true := by
    decide +kernel
  obtain ⟨s, hs, hreach, hend⟩ := System.exists_reach_of_any hrun
  obtain ⟨hholders, husers⟩ := of_decide_eq_true hend
  exact ⟨s, hs, hholders, husers, owned_of_clean plainLibrary true s hreach⟩

/-- A user logs in and is deleted, and another user is made. -/
def inheritance : List AuthAction :=
  [firstUser, .login "alice" "correct horse" "token", .deleteUser "alice",
    secondUser "bob"]

def tokenFacts (s : AuthRun) : Option String × Option ℕ × Option ℕ :=
  (s.holderOf "token", s.accounts.lookup "bob", s.logins.lookup "token")

/-- The token of the deleted user is good for the user that was made after it. -/
theorem not_owned :
    ¬ ∀ lib persistent s, (system lib persistent).Reachable s → s.DistinctIds ∧ s.Owned := by
  intro h
  have hrun : ((system plainLibrary true).run (fun _ _ => True) inheritance).map tokenFacts =
      some (some "bob", some 1, some 0) := by decide +kernel
  obtain ⟨s, hs, heq⟩ := Option.map_eq_some_iff.mp hrun
  simp only [tokenFacts, Prod.mk.injEq] at heq
  obtain ⟨hvalid, hbob, htoken⟩ := heq
  obtain ⟨info, hinfo, hname⟩ := Option.map_eq_some_iff.mp hvalid
  obtain ⟨account, haccount, hlogin⟩ :=
    (h plainLibrary true s (System.reach_of_run hs)).2 _ _ info (List.Perm.refl _) hinfo
  rw [hname, hbob] at haccount
  rw [htoken] at hlogin
  exact absurd (haccount.trans hlogin.symm) (by decide)

end AuthRun

end Server

end AegisDB
