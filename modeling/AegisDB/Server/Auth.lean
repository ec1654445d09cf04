import AegisDB.Library.Table
import AegisDB.Library.Transition

/-!
# Users and sessions

The authentication service keeps users under their names, and sessions and pending MFA
verifications under random tokens.  A session names its user by an identifier, and the identifier of
a new user is made from the number of users.  What is random (tokens, the hash of a password, an MFA
secret) is given to the operations, and so is the time.
-/

namespace AegisDB

namespace Server

inductive UserRole where
  | admin | operator | viewer
deriving DecidableEq

structure User where
  id : String
  username : String
  email : String
  passwordHash : String
  role : UserRole
  mfaEnabled : Bool
  mfaSecret : Option String
  lastLogin : Option ℕ
deriving DecidableEq

/-- What a client is told about a user. -/
structure UserInfo where
  id : String
  username : String
  email : String
  role : UserRole
  mfaEnabled : Bool
deriving DecidableEq

def User.info (user : User) : UserInfo where
  id := user.id
  username := user.username
  email := user.email
  role := user.role
  mfaEnabled := user.mfaEnabled

/-- A session, or a pending MFA verification: whose it is, and when it ends. -/
structure Session where
  userId : String
  createdAt : ℕ
  expiresAt : ℕ
deriving DecidableEq

def Session.isExpired (session : Session) (now : ℕ) : Bool :=
  now > session.expiresAt

structure AuthResponse where
  token : Option String
  user : Option UserInfo
  requiresMfa : Option Bool
  error : Option String
deriving DecidableEq

namespace AuthResponse

def success (token : String) (user : UserInfo) : AuthResponse where
  token := some token
  user := some user
  requiresMfa := none
  error := none

def requiresMfaFor (tempToken : String) : AuthResponse where
  token := some tempToken
  user := none
  requiresMfa := some true
  error := none

def failure (message : String) : AuthResponse where
  token := none
  user := none
  requiresMfa := none
  error := some message

end AuthResponse

/-- The functions of libraries that the service calls. -/
structure AuthLibrary where
  verifyPassword : String → String → Bool
  verifyTotp : String → String → ℕ → Bool
  isAlphanumeric : Char → Bool

/-- A library in which a password is its own hash, and a secret its own code. -/
def plainLibrary : AuthLibrary where
  verifyPassword password hash := password == hash
  verifyTotp code secret _ := code == secret
  isAlphanumeric := Char.isAlphanum

structure AuthService where
  users : Table String User
  sessions : Table String Session
  pendingMfa : Table String Session
  /-- The data directory, if one is configured, with the users in it, if they were written. -/
  dataDir : Option (Option (Table String User))

namespace AuthService

def sessionDuration : ℕ := 24 * 60 * 60 * 1000

def mfaTimeout : ℕ := 5 * 60 * 1000

def padded (n : ℕ) : String :=
  "".pushn '0' (3 - (toString n).length) ++ toString n

/-- The identifier of a user that is made next to given ones. -/
def nextUserId (users : Table String User) : String :=
  "user-" ++ padded (users.entries.length + 1)

def parseRole (role : String) : UserRole :=
  if role.toLower = "admin" then .admin
  else if role.toLower = "operator" then .operator
  else .viewer

/-- A user of given identifier without MFA. -/
def newUser (id username email passwordHash : String) (role : UserRole) : User where
  id := id
  username := username
  email := email
  passwordHash := passwordHash
  role := role
  mfaEnabled := false
  mfaSecret := none
  lastLogin := none

variable (lib : AuthLibrary) (service : AuthService)

/-- Write the users, if a data directory is configured. -/
def flushUsersToDisk : AuthService :=
  { service with dataDir := service.dataDir.map fun _ => some service.users }

/-! ## The start of a server -/

/-- The configured admin, with the hash that is made of the password. -/
structure AdminCredentials where
  username : String
  password : String
  email : Option String
  passwordHash : String

def loadUsers (dataDir : Option (Option (Table String User))) : Table String User :=
  (dataDir.bind id).getD ∅

/-- Whether the configured admin is made next to given users. -/
def makesAdmin (users : Table String User) (admin : AdminCredentials) : Bool :=
  !decide (admin.username ∈ users) && admin.password.utf8ByteSize ≥ 12

/-- The service at the start of a server. -/
def withDataDir (dataDir : Option (Option (Table String User)))
    (admin : Option AdminCredentials) : AuthService :=
  let users := loadUsers dataDir
  let users := match admin with
    | some admin =>
        if makesAdmin users admin then
          users.insert admin.username
            (newUser (nextUserId users) admin.username
              (admin.email.getD (admin.username ++ "@localhost")) admin.passwordHash .admin)
        else users
    | none => users
  { users, sessions := ∅, pendingMfa := ∅, dataDir : AuthService }.flushUsersToDisk

/-! ## Users -/

/-- What is checked of a new user before anything else is done. -/
def checkNewUser (username email password : String) : Except String Unit :=
  if password.utf8ByteSize < 8 then .error "Password must be at least 8 characters"
  else if !username.toList.all fun c => lib.isAlphanumeric c || c == '_' then
    .error "Username must contain only alphanumeric characters and underscores"
  else if !email.toList.contains '@' || !email.toList.contains '.' then
    .error "Invalid email format"
  else .ok ()

def createUser (username email password role passwordHash : String) :
    AuthService × Except String UserInfo :=
  if username ∈ service.users then
    (service, .error ("User '" ++ username ++ "' already exists"))
  else
    match checkNewUser lib username email password with
    | .error e => (service, .error e)
    | .ok () =>
        let user := newUser (nextUserId service.users) username email passwordHash (parseRole role)
        ({ service with users := service.users.insert username user }.flushUsersToDisk,
          .ok user.info)

/-- A password that is set, with its hash. -/
structure NewPassword where
  password : String
  hash : String

/-- Change the record of a user. -/
def changeUser (user : User) (email role : Option String) (password : Option NewPassword) : User :=
  { user with
    email := email.getD user.email
    role := (role.map parseRole).getD user.role
    passwordHash := (password.map NewPassword.hash).getD user.passwordHash }

def revokeSessions (userId : String) : AuthService :=
  { service with
    sessions := service.sessions.filterValues fun _ session => session.userId != userId }

def updateUser (username : String) (email role : Option String) (password : Option NewPassword) :
    AuthService × Except String UserInfo :=
  match service.users.lookup username with
  | none => (service, .error ("User '" ++ username ++ "' not found"))
  | some user =>
      let user := changeUser user email role password
      let changed := { service with users := service.users.insert username user }
      let swept := if password.isSome then changed.revokeSessions user.id else changed
      (swept.flushUsersToDisk, .ok user.info)

def deleteUser (username : String) : AuthService × Except String Unit :=
  if username ∈ service.users then
    if username = "admin" then (service, .error "Cannot delete the admin user")
    else ({ service with users := service.users.erase username }.flushUsersToDisk, .ok ())
  else (service, .error ("User '" ++ username ++ "' not found"))

/-- Switch MFA on, with a secret that was generated. -/
def enableMfa (username secret : String) : AuthService × Except String String :=
  match service.users.lookup username with
  | none => (service, .error ("User '" ++ username ++ "' not found"))
  | some user =>
      if user.mfaEnabled then (service, .error "MFA is already enabled for this user")
      else
        let user := { user with mfaSecret := some secret, mfaEnabled := true }
        ({ service with users := service.users.insert username user }.flushUsersToDisk,
          .ok secret)

def disableMfa (username : String) : AuthService × Except String Unit :=
  match service.users.lookup username with
  | none => (service, .error ("User '" ++ username ++ "' not found"))
  | some user =>
      if user.mfaEnabled then
        let user := { user with mfaSecret := none, mfaEnabled := false }
        ({ service with users := service.users.insert username user }.flushUsersToDisk, .ok ())
      else (service, .error "MFA is not enabled for this user")

/-! ## Sessions

The steps of a login and of an MFA verification, each of them under one lock. -/

def checkCredentials (username password : String) : Bool :=
  (service.users.lookup username).any fun user => lib.verifyPassword password user.passwordHash

def touchLogin (username : String) (now : ℕ) : AuthService :=
  { service with users := service.users.modify username fun user =>
      { user with lastLogin := some now } }

def insertPending (tempToken userId : String) (now : ℕ) : AuthService :=
  let pending : Session := { userId, createdAt := now, expiresAt := now + mfaTimeout }
  { service with pendingMfa := service.pendingMfa.insert tempToken pending }

def insertSession (token userId : String) (now : ℕ) : AuthService :=
  let session : Session := { userId, createdAt := now, expiresAt := now + sessionDuration }
  { service with sessions := service.sessions.insert token session }

/-- Log in, with a token that was generated. -/
def login (username password token : String) (now : ℕ) : AuthService × AuthResponse :=
  match service.users.lookup username with
  | none => (service, .failure "Invalid credentials")
  | some user =>
      if lib.verifyPassword password user.passwordHash then
        let touched := service.touchLogin username now
        if user.mfaEnabled then
          (touched.insertPending token user.id now, .requiresMfaFor token)
        else (touched.insertSession token user.id now, .success token user.info)
      else (service, .failure "Invalid credentials")

def findPending (tempToken : String) (now : ℕ) : Except String Session :=
  match service.pendingMfa.lookup tempToken with
  | none => .error "Invalid MFA session"
  | some pending => if pending.isExpired now then .error "MFA session expired" else .ok pending

/-- The user of an identifier, in an order in which the hash map gives the users, if the code is
good. -/
def checkCode (users : List User) (userId code : String) (now : ℕ) : Except String User :=
  match users.find? (·.id == userId) with
  | none => .error "User not found"
  | some user =>
      match user.mfaSecret with
      | none => .error "MFA not configured"
      | some secret =>
          if lib.verifyTotp code secret now then .ok user else .error "Invalid MFA code"

def removePending (tempToken : String) : AuthService :=
  { service with pendingMfa := service.pendingMfa.erase tempToken }

/-- Finish a login that waits for a code. -/
def verifyMfa (users : List User) (code tempToken token : String) (now : ℕ) :
    AuthService × AuthResponse :=
  match service.findPending tempToken now with
  | .error e => (service, .failure e)
  | .ok pending =>
      match checkCode lib users pending.userId code now with
      | .error e => (service, .failure e)
      | .ok user =>
          ((service.removePending tempToken).insertSession token user.id now,
            .success token user.info)

/-- Whose session a token is of, with the users in some order. -/
def validateSession (users : List User) (token : String) (now : ℕ) : Option UserInfo :=
  match service.sessions.lookup token with
  | none => none
  | some session =>
      if session.isExpired now then none
      else (users.find? (·.id == session.userId)).map User.info

def logout (token : String) : AuthService × Bool :=
  ({ service with sessions := service.sessions.erase token },
    (service.sessions.lookup token).isSome)

def cleanupExpired (now : ℕ) : AuthService :=
  { service with
    sessions := service.sessions.filterValues fun _ session => !session.isExpired now
    pendingMfa := service.pendingMfa.filterValues fun _ pending => !pending.isExpired now }

end AuthService

end Server

end AegisDB
