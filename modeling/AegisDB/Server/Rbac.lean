import AegisDB.Library.Table
import AegisDB.Library.Transition

/-!
# Roles and their assignments

A role and its assignment to users stand in two maps.  Deleting a role leaves its assignments
behind; they count for nothing until a role of that name is made again.  As long as no role with
permissions is made over assignments that were left behind, a user has exactly the permissions of
the roles that were assigned since they were last made, and not revoked since.
-/

namespace AegisDB

namespace Server

inductive Permission where
  | databaseCreate | databaseDrop | databaseList
  | tableCreate | tableDrop | tableAlter | tableList
  | dataSelect | dataInsert | dataUpdate | dataDelete
  | userCreate | userDelete | userModify | roleCreate | roleDelete | roleAssign
  | configView | configModify | metricsView | logsView | backupCreate | backupRestore
  | nodeAdd | nodeRemove | clusterManage
deriving DecidableEq

structure Role where
  name : String
  description : String
  permissions : Finset Permission
  createdBy : String
deriving DecidableEq

namespace Role

def new (name description : String) (permissions : List Permission) : Role where
  name := name
  description := description
  permissions := permissions.toFinset
  createdBy := "system"

def hasPermission (role : Role) (permission : Permission) : Bool :=
  permission ∈ role.permissions

end Role

/-- What is written to disk. -/
structure RbacSnapshot where
  roles : Table String Role
  userRoles : Table String (Finset String)

/-- The roles, and the roles of each user. -/
structure RbacManager where
  roles : Table String Role
  userRoles : Table String (Finset String)
  /-- The data directory, if one is configured, with the snapshot in it, if there is one. -/
  dataDir : Option (Option RbacSnapshot)

namespace RbacManager

/-! ## Default roles -/

def adminPermissions : List Permission :=
  [.databaseCreate, .databaseDrop, .databaseList, .tableCreate, .tableDrop, .tableAlter,
    .tableList, .dataSelect, .dataInsert, .dataUpdate, .dataDelete, .userCreate, .userDelete,
    .userModify, .roleCreate, .roleDelete, .roleAssign, .configView, .configModify, .metricsView,
    .logsView, .backupCreate, .backupRestore, .nodeAdd, .nodeRemove, .clusterManage]

def operatorPermissions : List Permission :=
  [.databaseList, .tableCreate, .tableAlter, .tableList, .dataSelect, .dataInsert, .dataUpdate,
    .dataDelete, .configView, .metricsView, .logsView, .backupCreate]

def viewerPermissions : List Permission :=
  [.databaseList, .tableList, .dataSelect, .metricsView]

def analystPermissions : List Permission :=
  [.databaseList, .tableList, .dataSelect, .metricsView, .logsView]

def defaultRoles : Table String Role :=
  (((∅ : Table String Role).insert "admin"
      (.new "admin" "Full system administrator" adminPermissions)).insert "operator"
      (.new "operator" "Database operator" operatorPermissions)).insert "viewer"
      (.new "viewer" "Read-only viewer" viewerPermissions) |>.insert "analyst"
      (.new "analyst" "Data analyst with read access" analystPermissions)

/-! ## Operations -/

/-- The manager at the start of a server: what was written, or else the default roles. -/
def withDataDir (dataDir : Option (Option RbacSnapshot)) : RbacManager :=
  match dataDir with
  | some (some snapshot) =>
      { roles := snapshot.roles, userRoles := snapshot.userRoles, dataDir }
  | _ => { roles := defaultRoles, userRoles := ∅, dataDir }

variable (m : RbacManager)

/-- Write the state, if a data directory is configured. -/
def flushToDisk : RbacManager :=
  { m with dataDir := m.dataDir.map fun _ => some ⟨m.roles, m.userRoles⟩ }

def createRole (name description : String) (permissions : List Permission) (createdBy : String) :
    RbacManager × Except String Unit :=
  if name ∈ m.roles then (m, .error ("Role '" ++ name ++ "' already exists"))
  else
    let role := { Role.new name description permissions with createdBy }
    ({ m with roles := m.roles.insert name role }.flushToDisk, .ok ())

def deleteRole (name : String) : RbacManager × Except String Unit :=
  if name ∈ m.roles then
    if name = "admin" ∨ name = "operator" ∨ name = "viewer" then
      (m, .error "Cannot delete built-in roles")
    else ({ m with roles := m.roles.erase name }.flushToDisk, .ok ())
  else (m, .error ("Role '" ++ name ++ "' not found"))

def assignRole (userId roleName : String) : RbacManager × Except String Unit :=
  if roleName ∈ m.roles then
    let names := insert roleName ((m.userRoles.lookup userId).getD ∅)
    ({ m with userRoles := m.userRoles.insert userId names }.flushToDisk, .ok ())
  else (m, .error ("Role '" ++ roleName ++ "' not found"))

def revokeRole (userId roleName : String) : RbacManager × Except String Unit :=
  match m.userRoles.lookup userId with
  | some names =>
      ({ m with userRoles := m.userRoles.insert userId (names.erase roleName) }.flushToDisk,
        .ok ())
  | none => (m, .error ("User '" ++ userId ++ "' has no roles assigned"))

def getUserRoles (userId : String) : Finset String :=
  (m.userRoles.lookup userId).getD ∅

def rolePermissions (roleName : String) : Finset Permission :=
  ((m.roles.lookup roleName).map Role.permissions).getD ∅

def checkPermission (userId : String) (permission : Permission) : Bool :=
  decide (∃ roleName ∈ m.getUserRoles userId,
    (m.roles.lookup roleName).any (·.hasPermission permission) = true)

def getUserPermissions (userId : String) : Finset Permission :=
  (m.getUserRoles userId).biUnion m.rolePermissions

end RbacManager

/-! ## Runs -/

/-- A call of the manager, or a restart of the server. -/
inductive RbacAction where
  | createRole (name description : String) (permissions : List Permission) (createdBy : String)
  | deleteRole (name : String)
  | assignRole (userId roleName : String)
  | revokeRole (userId roleName : String)
  | restart

/-- What has happened to roles and their assignments. -/
inductive RbacEvent where
  | created (role : String)
  | assigned (user role : String)
  | revoked (user role : String)
deriving DecidableEq

/-- A manager with what has happened since its roles were the default ones, newest first. -/
structure RbacRun where
  manager : RbacManager
  history : List RbacEvent

namespace RbacRun

/-- The state after a call, with the event of a call that succeeds. -/
def record (s : RbacRun) (e : Option RbacEvent) (done : RbacManager × Except String Unit) :
    RbacRun :=
  match done.2 with
  | .ok () => ⟨done.1, e.toList ++ s.history⟩
  | .error _ => ⟨done.1, s.history⟩

/-- One call, or a restart, which forgets everything if there is no data directory. -/
def step (s : RbacRun) : RbacAction → Option RbacRun
  | .createRole name description permissions createdBy =>
      some (s.record (some (.created name))
        (s.manager.createRole name description permissions createdBy))
  | .deleteRole name => some (s.record none (s.manager.deleteRole name))
  | .assignRole user role =>
      some (s.record (some (.assigned user role)) (s.manager.assignRole user role))
  | .revokeRole user role =>
      some (s.record (some (.revoked user role)) (s.manager.revokeRole user role))
  | .restart =>
      some ⟨.withDataDir s.manager.dataDir,
        if s.manager.dataDir.isSome then s.history else []⟩

/-- The runs of a server with or without a data directory. -/
def system (persistent : Bool) : System RbacRun RbacAction where
  init := ⟨.withDataDir (if persistent then some none else none), []⟩
  step := step

/-- Whether a role was assigned to a user since it was last made, and not revoked since. -/
def Assigned (user role : String) : List RbacEvent → Bool
  | [] => false
  | .created r :: earlier => r != role && Assigned user role earlier
  | .assigned u r :: earlier => (u == user && r == role) || Assigned user role earlier
  | .revoked u r :: earlier => !(u == user && r == role) && Assigned user role earlier

/-- A user has a permission by a role that exists. -/
def Granted (s : RbacRun) (user : String) (permission : Permission) : Prop :=
  ∃ name role, s.manager.roles.lookup name = some role ∧ permission ∈ role.permissions ∧
    Assigned user name s.history = true

/-- The permissions are those of the roles that were assigned. -/
def Faithful (s : RbacRun) : Prop :=
  ∀ user permission,
    (s.manager.checkPermission user permission = true ↔ s.Granted user permission) ∧
      (permission ∈ s.manager.getUserPermissions user ↔
        s.manager.checkPermission user permission = true)

/-- No role with permissions is made while its name is left behind with a user. -/
def Clean (s : RbacRun) : RbacAction → Prop
  | .createRole name _ permissions _ =>
      name ∈ s.manager.roles ∨ permissions = [] ∨ ∀ user, name ∉ s.manager.getUserRoles user
  | _ => True

/-! ## The permissions of a user -/

variable {s : RbacRun} {m : RbacManager}

theorem mem_rolePermissions {name : String} {permission : Permission} :
    permission ∈ m.rolePermissions name ↔
      ∃ role, m.roles.lookup name = some role ∧ permission ∈ role.permissions := by
  unfold RbacManager.rolePermissions
  cases h : m.roles.lookup name <;> simp

theorem checkPermission_iff {user : String} {permission : Permission} :
    m.checkPermission user permission = true ↔
      ∃ name ∈ m.getUserRoles user, permission ∈ m.rolePermissions name := by
  unfold RbacManager.checkPermission
  rw [decide_eq_true_iff]
  refine exists_congr fun name => and_congr_right fun _ => ?_
  rw [mem_rolePermissions]
  cases h : m.roles.lookup name <;> simp [Role.hasPermission]

theorem mem_getUserPermissions {user : String} {permission : Permission} :
    permission ∈ m.getUserPermissions user ↔ m.checkPermission user permission = true := by
  rw [checkPermission_iff, RbacManager.getUserPermissions, Finset.mem_biUnion]

/-! ## What a call leaves behind -/

section Calls

variable (m : RbacManager) (user name : String)

@[simp] theorem roles_flushToDisk : m.flushToDisk.roles = m.roles := rfl

@[simp] theorem userRoles_flushToDisk : m.flushToDisk.userRoles = m.userRoles := rfl

theorem getUserRoles_insert {m m' : RbacManager} (u : String) (names : Finset String)
    (h : m'.userRoles = m.userRoles.insert u names) :
    m'.getUserRoles user = if user = u then names else m.getUserRoles user := by
  unfold RbacManager.getUserRoles
  rw [h, Table.lookup_insert]
  split_ifs <;> rfl

end Calls

/-! ## The invariant -/

/-- The disk holds the state of the manager. -/
structure OnDisk (m : RbacManager) : Prop where
  written : ∀ snapshot, m.dataDir = some (some snapshot) →
    snapshot.roles = m.roles ∧ snapshot.userRoles = m.userRoles
  /-- As long as nothing is written, the state is the default one. -/
  fresh : m.dataDir = some none → m.roles = RbacManager.defaultRoles ∧ m.userRoles = ∅

/-- The names of a user are those that were assigned, where they stand for permissions. -/
def Agrees (s : RbacRun) : Prop :=
  ∀ name role, s.manager.roles.lookup name = some role → role.permissions.Nonempty →
    ∀ user, name ∈ s.manager.getUserRoles user ↔ Assigned user name s.history = true

theorem OnDisk.flushToDisk (m : RbacManager) : OnDisk m.flushToDisk where
  written := by
    intro snapshot h
    obtain ⟨d, -, hd⟩ := Option.map_eq_some_iff.mp h
    obtain rfl := Option.some.inj hd
    exact ⟨rfl, rfl⟩
  fresh := by
    intro h
    obtain ⟨d, -, hd⟩ := Option.map_eq_some_iff.mp h
    exact absurd hd (by simp)

theorem OnDisk.withDataDir {m : RbacManager} (h : OnDisk m) (hdir : m.dataDir.isSome) :
    RbacManager.withDataDir m.dataDir = m := by
  obtain ⟨roles, userRoles, dataDir⟩ := m
  rcases dataDir with _ | _ | snapshot
  · simp at hdir
  · obtain ⟨hroles, husers⟩ := h.fresh rfl
    simp only at hroles husers
    rw [hroles, husers]
    rfl
  · obtain ⟨hroles, husers⟩ := h.written snapshot rfl
    simp only at hroles husers
    rw [← hroles, ← husers]
    rfl

theorem onDisk_new (persistent : Bool) : OnDisk (system persistent).init.manager := by
  constructor
  · intro snapshot h
    cases persistent <;> cases h
  · intro h
    cases persistent with
    | true => exact ⟨rfl, rfl⟩
    | false => cases h

theorem agrees_new (dataDir : Option (Option RbacSnapshot))
    (h : dataDir = none ∨ dataDir = some none) : Agrees ⟨.withDataDir dataDir, []⟩ := by
  intro name role _ _ user
  have hempty : (RbacManager.withDataDir dataDir).userRoles = ∅ := by
    rcases h with rfl | rfl <;> rfl
  simp only [RbacManager.getUserRoles, hempty, AList.lookup_empty, Option.getD_none, Assigned]
  simp

/-! ## One step -/

section Step

variable {s s' : RbacRun}

theorem agrees_createRole {name description createdBy : String} {permissions : List Permission}
    (h : s.Agrees) (hclean : s.Clean (.createRole name description permissions createdBy))
    (hstep : s.step (.createRole name description permissions createdBy) = some s') :
    s'.Agrees := by
  simp only [step, record, RbacManager.createRole] at hstep
  split_ifs at hstep with hmem
  · obtain rfl := Option.some.inj hstep
    exact h
  · obtain rfl := Option.some.inj hstep
    intro name' role' hrole' hne user
    change (AList.insert name _ s.manager.roles).lookup name' = some role' at hrole'
    rw [Table.lookup_insert] at hrole'
    change name' ∈ s.manager.getUserRoles user ↔ _
    split_ifs at hrole' with hname
    · subst hname
      obtain rfl := Option.some.inj hrole'
      have hfree : name' ∉ s.manager.getUserRoles user := by
        rcases hclean with hold | rfl | hfree
        · exact absurd hold hmem
        · simp [Role.new] at hne
        · exact hfree user
      simp [Assigned, hfree]
    · rw [h name' role' hrole' hne user]
      have hne' : (name != name') = true := by simpa using Ne.symm hname
      simp [Assigned, hne']

theorem agrees_deleteRole {name : String} (h : s.Agrees)
    (hstep : s.step (.deleteRole name) = some s') : s'.Agrees := by
  simp only [step, record, RbacManager.deleteRole] at hstep
  split_ifs at hstep with hmem hbuiltIn
  · obtain rfl := Option.some.inj hstep
    exact h
  · obtain rfl := Option.some.inj hstep
    intro name' role' hrole' hne user
    exact h name' role' (Table.lookup_of_lookup_erase hrole') hne user
  · obtain rfl := Option.some.inj hstep
    exact h

theorem agrees_assignRole {u name : String} (h : s.Agrees)
    (hstep : s.step (.assignRole u name) = some s') : s'.Agrees := by
  simp only [step, record, RbacManager.assignRole] at hstep
  split_ifs at hstep with hmem
  · obtain rfl := Option.some.inj hstep
    intro name' role' hrole' hne user
    have hold := h name' role' hrole' hne user
    rw [getUserRoles_insert user (m := s.manager) u (insert name _) rfl]
    split_ifs with huser
    · subst huser
      rw [Finset.mem_insert]
      change name' = name ∨ name' ∈ s.manager.getUserRoles user ↔ _
      rw [hold, eq_comm]
      simp [Assigned]
    · rw [hold]
      simp [Assigned, Ne.symm huser]
  · obtain rfl := Option.some.inj hstep
    exact h

theorem agrees_revokeRole {u name : String} (h : s.Agrees)
    (hstep : s.step (.revokeRole u name) = some s') : s'.Agrees := by
  simp only [step, record, RbacManager.revokeRole] at hstep
  cases hnames : s.manager.userRoles.lookup u with
  | none =>
    rw [hnames] at hstep
    obtain rfl := Option.some.inj hstep
    exact h
  | some names =>
    rw [hnames] at hstep
    obtain rfl := Option.some.inj hstep
    intro name' role' hrole' hne user
    have hold := h name' role' hrole' hne user
    rw [getUserRoles_insert user (m := s.manager) u (names.erase name) rfl]
    split_ifs with huser
    · subst huser
      have hnames' : s.manager.getUserRoles user = names := by
        unfold RbacManager.getUserRoles
        rw [hnames]
        rfl
      rw [Finset.mem_erase, ← hnames', hold, ne_comm]
      simp [Assigned]
    · rw [hold]
      simp [Assigned, Ne.symm huser]

theorem onDisk_record {e : Option RbacEvent} {done : RbacManager × Except String Unit}
    (h : done.1 = s.manager ∨ ∃ m : RbacManager, done.1 = m.flushToDisk)
    (hs : OnDisk s.manager) : OnDisk (s.record e done).manager := by
  have hmanager : (s.record e done).manager = done.1 := by
    unfold record
    split <;> rfl
  rw [hmanager]
  rcases h with h | ⟨m, h⟩
  · exact h ▸ hs
  · exact h ▸ OnDisk.flushToDisk m

theorem onDisk_step {a : RbacAction} (hs : OnDisk s.manager) (hstep : s.step a = some s') :
    OnDisk s'.manager := by
  cases a with
  | createRole name description permissions createdBy =>
    obtain rfl := Option.some.inj hstep
    refine onDisk_record ?_ hs
    unfold RbacManager.createRole
    split_ifs
    · exact .inl rfl
    · exact .inr ⟨_, rfl⟩
  | deleteRole name =>
    obtain rfl := Option.some.inj hstep
    refine onDisk_record ?_ hs
    unfold RbacManager.deleteRole
    split_ifs
    · exact .inl rfl
    · exact .inr ⟨_, rfl⟩
    · exact .inl rfl
  | assignRole user name =>
    obtain rfl := Option.some.inj hstep
    refine onDisk_record ?_ hs
    unfold RbacManager.assignRole
    split_ifs
    · exact .inr ⟨_, rfl⟩
    · exact .inl rfl
  | revokeRole user name =>
    obtain rfl := Option.some.inj hstep
    refine onDisk_record ?_ hs
    unfold RbacManager.revokeRole
    split
    · exact .inr ⟨_, rfl⟩
    · exact .inl rfl
  | restart =>
    obtain rfl := Option.some.inj hstep
    cases hdir : s.manager.dataDir with
    | none => exact onDisk_new false
    | some d =>
      dsimp only
      rw [← hdir, hs.withDataDir (by simp [hdir])]
      exact hs

/-- One call keeps the names of users as they were assigned. -/
theorem agrees_step {a : RbacAction} (hdisk : OnDisk s.manager) (h : s.Agrees) (hclean : s.Clean a)
    (hstep : s.step a = some s') : s'.Agrees := by
  cases a with
  | createRole name description permissions createdBy => exact agrees_createRole h hclean hstep
  | deleteRole name => exact agrees_deleteRole h hstep
  | assignRole user name => exact agrees_assignRole h hstep
  | revokeRole user name => exact agrees_revokeRole h hstep
  | restart =>
    obtain rfl := Option.some.inj hstep
    cases hdir : s.manager.dataDir with
    | none => exact agrees_new none (.inl rfl)
    | some d =>
      rw [← hdir, hdisk.withDataDir (by simp [hdir])]
      simpa [hdir] using h

end Step

/-! ## Runs -/

theorem Agrees.faithful (h : s.Agrees) : s.Faithful := by
  intro user permission
  refine ⟨?_, mem_getUserPermissions⟩
  rw [checkPermission_iff]
  constructor
  · rintro ⟨name, hname, hperm⟩
    obtain ⟨role, hrole, hmem⟩ := mem_rolePermissions.mp hperm
    exact ⟨name, role, hrole, hmem, (h name role hrole ⟨_, hmem⟩ user).mp hname⟩
  · rintro ⟨name, role, hrole, hmem, hassigned⟩
    exact ⟨name, (h name role hrole ⟨_, hmem⟩ user).mpr hassigned,
      mem_rolePermissions.mpr ⟨role, hrole, hmem⟩⟩

/-- If no role with permissions is made while its name is left behind with a user, then in every
state a user has exactly the permissions of the roles that were assigned since they were last made
and not revoked since. -/
theorem faithful_of_clean (persistent : Bool) (s : RbacRun)
    (h : (system persistent).Reach Clean s) : s.Faithful := by
  have hinv : OnDisk s.manager ∧ s.Agrees := by
    refine h.invariant (P := fun s => OnDisk s.manager ∧ s.Agrees) ⟨onDisk_new persistent, ?_⟩ ?_
    · cases persistent with
      | true => exact agrees_new (some none) (.inr rfl)
      | false => exact agrees_new none (.inl rfl)
    · intro s a s' _ hs hclean hstep
      exact ⟨onDisk_step hs.1 hstep, agrees_step hs.1 hs.2 hclean hstep⟩
  exact hinv.2.faithful

theorem getUserRoles_of_mem {e : Sigma fun _ : String => Finset String}
    (h : e ∈ m.userRoles.entries) : m.getUserRoles e.1 = e.2 := by
  rw [RbacManager.getUserRoles, AList.mem_lookup_iff.mpr h, Option.getD_some]

theorem forall_notMem_getUserRoles_iff {name : String} :
    (∀ user, name ∉ m.getUserRoles user) ↔ ∀ e ∈ m.userRoles.entries, name ∉ e.2 := by
  refine ⟨fun h e he => getUserRoles_of_mem he ▸ h e.1, fun h user => ?_⟩
  cases hnames : m.userRoles.lookup user with
  | none => simp [RbacManager.getUserRoles, hnames]
  | some names =>
    have hmem : ⟨user, names⟩ ∈ m.userRoles.entries := AList.mem_lookup_iff.mp hnames
    rw [getUserRoles_of_mem hmem]
    exact h _ hmem

instance (s : RbacRun) : (a : RbacAction) → Decidable (s.Clean a)
  | .createRole name _ _ _ =>
      letI : Decidable (∀ user, name ∉ s.manager.getUserRoles user) :=
        decidable_of_iff' _ forall_notMem_getUserRoles_iff
      inferInstanceAs (Decidable (_ ∨ _ ∨ _))
  | .deleteRole _ | .assignRole _ _ | .revokeRole _ _ | .restart => .isTrue trivial

/-- Two roles are made, assigned, deleted and made again: one was revoked before, and the other has no
permissions any more. -/
def recreation : List RbacAction :=
  [.createRole "auditor" "" [.logsView] "root", .createRole "guest" "" [.metricsView] "root",
    .assignRole "alice" "auditor", .assignRole "alice" "guest", .revokeRole "alice" "auditor",
    .deleteRole "auditor", .deleteRole "guest", .restart,
    .createRole "auditor" "" [.dataDelete] "root", .createRole "guest" "" [] "root",
    .assignRole "bob" "auditor"]

/-- Only the user to whom the role was assigned after its last creation has its permission. -/
theorem faithful_of_clean_recreation :
    ∃ s, (system true).run Clean recreation = some s ∧
      s.manager.checkPermission "bob" .dataDelete = true ∧
      s.manager.getUserPermissions "alice" = ∅ ∧ s.Faithful := by
  have hrun : ((system true).run Clean recreation).any (fun s =>
      s.manager.checkPermission "bob" .dataDelete = true ∧
        s.manager.getUserPermissions "alice" = ∅) = true := by
    decide +kernel
  obtain ⟨s, hs, hreach, hend⟩ := System.exists_reach_of_any hrun
  obtain ⟨hbob, halice⟩ := of_decide_eq_true hend
  exact ⟨s, hs, hbob, halice, faithful_of_clean true s hreach⟩

/-- A role is made, assigned, deleted, and made again. -/
def revival : List RbacAction :=
  [.createRole "auditor" "" [.logsView] "root", .assignRole "alice" "auditor",
    .deleteRole "auditor", .createRole "auditor" "" [.dataDelete] "root"]

def revived : Option RbacRun :=
  (system true).run (fun _ _ => True) revival

/-- The user has a permission that was never granted. -/
theorem not_faithful :
    ¬ ∀ persistent s, (system persistent).Reachable s → s.Faithful := by
  intro h
  have hrun : (revived.map fun s => (s.history,
      s.manager.checkPermission "alice" .dataDelete)) =
      some ([.created "auditor", .assigned "alice" "auditor", .created "auditor"], true) := by
    decide +kernel
  obtain ⟨s, hs, heq⟩ := Option.map_eq_some_iff.mp hrun
  obtain ⟨hhistory, hcheck⟩ := Prod.mk.inj heq
  obtain ⟨name, -, -, -, hassigned⟩ :=
    ((h true s (System.reach_of_run hs) "alice" .dataDelete).1).mp hcheck
  rw [hhistory] at hassigned
  by_cases hname : name = "auditor" <;> simp [Assigned, hname, Ne.symm] at hassigned

end RbacRun

end Server

end AegisDB
