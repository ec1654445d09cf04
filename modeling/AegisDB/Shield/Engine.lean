import AegisDB.Library.Transition
import AegisDB.Shield.Policy

/-!
# The shield engine

The shield keeps a reputation of each address, with a ban, and a table of blocked addresses.  An
address of the machine itself, or one on the allowlist, is exempt.  The analyses of requests and
queries ask for that first, but the record of failed logins does not.
-/

namespace AegisDB

namespace Shield

/-- True for a text of an address of the machine itself. -/
def isLoopback (ip : String) : Bool :=
  ((parseIpAddr (trimText ip.toList)).map IpAddr.isLoopback).getD false

/-- Contextual information about an incoming request. -/
structure RequestContext where
  sourceIp : String
  path : String
  userAgent : Option String
  headers : Table String String

/-- The verdict returned by the shield. -/
inductive ShieldVerdict where
  | allow
  | block (reason : String) (threatLevel : ThreatLevel)
  | rateLimit (delayMs : ℕ)
deriving DecidableEq

/-! ## Reputations -/

/-- Reputation record for a single address. -/
structure IpReputation where
  score : ℤ
  totalRequests : ℕ
  failedAuths : ℕ
  blockedRequests : ℕ
  threatEvents : ℕ
  bannedUntil : Option ℕ
  banReason : Option String
deriving DecidableEq

namespace IpReputation

def new : IpReputation where
  score := 0
  totalRequests := 0
  failedAuths := 0
  blockedRequests := 0
  threatEvents := 0
  bannedUntil := none
  banReason := none

def clampScore (score : ℤ) : ℤ :=
  max (-100) (min score 100)

end IpReputation

/-- An active block entry. -/
structure BlockEntry where
  reason : String
  blockedAt : ℕ
  expiresAt : Option ℕ
  threatLevel : ThreatLevel
deriving DecidableEq

/-- The main security shield facade. -/
structure ShieldEngine where
  config : ShieldConfig
  policy : SecurityPolicy
  reputations : Table String IpReputation
  blocked : Table String BlockEntry
  allowlist : Finset String

namespace ShieldEngine

/-- Create a new shield engine. -/
def new (config : ShieldConfig) : ShieldEngine where
  config := config
  policy := .fromPreset config.preset
  reputations := ∅
  blocked := ∅
  allowlist := ∅

variable (d : Detectors) (e : ShieldEngine) (now : ℕ) (ip : String)

/-- Change the reputation of an address, which begins with a new one. -/
def updateReputation (f : IpReputation → IpReputation) : ShieldEngine :=
  { e with reputations := e.reputations.insert ip (f ((e.reputations.lookup ip).getD .new)) }

def recordRequest : ShieldEngine :=
  e.updateReputation ip fun rep =>
    { rep with totalRequests := rep.totalRequests + 1, score := min (rep.score + 1) 100 }

/-- Record a threat event. -/
def recordThreat (threatScore : ℕ) : ShieldEngine :=
  e.updateReputation ip fun rep =>
    { rep with
      threatEvents := rep.threatEvents + 1
      score := IpReputation.clampScore (rep.score - (threatScore / 10 : ℕ)) }

/-- Record a failed login in the reputation. -/
def noteFailedAuth : ShieldEngine :=
  e.updateReputation ip fun rep =>
    { rep with
      failedAuths := rep.failedAuths + 1
      score := IpReputation.clampScore (rep.score - 10) }

/-- Record a blocked request. -/
def recordBlocked : ShieldEngine :=
  e.updateReputation ip fun rep =>
    { rep with
      blockedRequests := rep.blockedRequests + 1
      score := IpReputation.clampScore (rep.score - 20) }

def ban (durationSecs : ℕ) (reason : String) : ShieldEngine :=
  e.updateReputation ip fun rep =>
    { rep with bannedUntil := some (now + durationSecs), banReason := some reason }

/-- Check whether an address is currently banned. -/
def isBanned : Bool :=
  match (e.reputations.lookup ip).bind IpReputation.bannedUntil with
  | some stop => now < stop
  | none => false

def unban : ShieldEngine :=
  { e with reputations := e.reputations.modify ip fun rep =>
      if rep.bannedUntil.isSome then { rep with bannedUntil := none, banReason := none } else rep }

/-! ## Blocks -/

def isAllowlisted : Bool :=
  ip ∈ e.allowlist

/-- The block entry of an address, if it is blocked. -/
def shouldBlock : Option BlockEntry :=
  if e.isAllowlisted ip then none
  else (e.blocked.lookup ip).filter fun entry =>
    match entry.expiresAt with
    | some expires => now < expires
    | none => true

/-- Block an address. -/
def block (reason : String) (durationSecs : Option ℕ) (threatLevel : ThreatLevel) : ShieldEngine :=
  let entry : BlockEntry :=
    { reason
      blockedAt := now
      expiresAt := durationSecs.map (now + ·)
      threatLevel }
  { e with blocked := e.blocked.insert ip entry }

/-- Block and ban an address for the duration of the configuration. -/
def blockAndBan (blockReason banReason : String) (level : ThreatLevel) : ShieldEngine :=
  (e.block now ip blockReason (some e.config.defaultBanDurationSecs) level).ban now ip
    e.config.defaultBanDurationSecs banReason

/-- True for an address the shield never blocks or bans. -/
def isExempt : Bool :=
  isLoopback ip || e.isAllowlisted ip

/-! ## Entry points -/

def reputationScore : ℕ :=
  match e.reputations.lookup ip with
  | some rep => if rep.score < -50 then 30 else if rep.score < -20 then 15 else 0
  | none => 0

/-- Analyze an incoming request. -/
def analyzeRequest (ctx : RequestContext) : ShieldEngine × ShieldVerdict :=
  if !e.config.enabled then (e, .allow)
  else if e.isExempt ctx.sourceIp then (e, .allow)
  else if e.isBanned now ctx.sourceIp then
    (e.recordBlocked ctx.sourceIp, .block "IP is banned" .high)
  else
    match e.shouldBlock now ctx.sourceIp with
    | some entry => (e.recordBlocked ctx.sourceIp, .block entry.reason entry.threatLevel)
    | none =>
        let fp := d.fingerprint ctx.userAgent ctx.headers
        let fingerprintScore :=
          if !e.config.fingerprintingEnabled then 0
          else if fp.userAgentClass = .scanner then fp.suspicionScore
          else fp.suspicionScore / 2
        let e' := if e.config.ipReputationEnabled then e.recordRequest ctx.sourceIp else e
        let behaviourScore :=
          if e.config.ipReputationEnabled then e'.reputationScore ctx.sourceIp else 0
        let capped := min (fingerprintScore + behaviourScore) 100
        let level := ThreatLevel.fromScore capped
        let verdict : ShieldVerdict :=
          .block ("threat score " ++ toString capped ++ " exceeds threshold") level
        match e'.policy.evaluate capped (some ctx.path) with
        | .blocked | .banned =>
            if e.config.autoBlockingEnabled ∧ e.config.autoBlockThreshold ≤ capped ∧
                0 < behaviourScore then
              (e'.blockAndBan now ctx.sourceIp "auto-blocked by shield" "auto-blocked" level, verdict)
            else (e', verdict)
        | .rateLimited => (e', .rateLimit (capped * 10))
        | .allowed => (e', .allow)

/-- Analyze a SQL query for injection. -/
def analyzeQuery (query : String) (anomaly : AnomalyResult) (ctx : RequestContext) :
    ShieldEngine × ShieldVerdict :=
  if !e.config.enabled || e.isExempt ctx.sourceIp then (e, .allow)
  else
    let injection := if e.config.sqlInjectionEnabled then d.injectionScore query else 0
    let anomalous :=
      if e.config.anomalyDetectionEnabled ∧ anomaly.isAnomalous = true then anomaly.score else 0
    let capped := min (injection + anomalous) 100
    let level := ThreatLevel.fromScore capped
    let verdict : ShieldVerdict := .block ("query blocked (score=" ++ toString capped ++ ")") level
    match e.policy.evaluate capped (some ctx.path) with
    | .blocked | .banned =>
        let e' := e.recordThreat ctx.sourceIp capped
        if e.config.autoBlockingEnabled ∧ e.config.autoBlockThreshold ≤ capped then
          (e'.blockAndBan now ctx.sourceIp ("SQL injection score " ++ toString capped)
            "sql injection" level, verdict)
        else (e', verdict)
    | .rateLimited => (e.recordThreat ctx.sourceIp capped, .rateLimit (capped * 10))
    | .allowed => (e, .allow)

/-- Record a failed authentication attempt. -/
def recordFailedAuth : ShieldEngine :=
  let e' := e.noteFailedAuth ip
  let failedAuths := ((e'.reputations.lookup ip).map IpReputation.failedAuths).getD 0
  if e'.config.autoBlockingEnabled ∧ 10 ≤ failedAuths then
    e'.blockAndBan now ip "brute force detected" "brute force" .high
  else e'

def unblockIp : ShieldEngine :=
  { e with blocked := e.blocked.erase ip }.unban ip

/-- Clean up expired blocks and bans. -/
def cleanupExpired : ShieldEngine :=
  { e with
    blocked := e.blocked.filterValues fun _ entry =>
      match entry.expiresAt with
      | some expires => now < expires
      | none => true
    reputations := e.reputations.mapValues fun _ rep =>
      match rep.bannedUntil with
      | some stop =>
          if stop ≤ now then { rep with bannedUntil := none, banReason := none } else rep
      | none => rep }

/-! ## Addresses that are not entered -/

/-- An address is entered neither as blocked nor as banned, not even up to a time that has passed. -/
def NotEntered : Prop :=
  e.blocked.lookup ip = none ∧ (e.reputations.lookup ip).bind IpReputation.bannedUntil = none

instance : Decidable (e.NotEntered ip) :=
  inferInstanceAs (Decidable (_ ∧ _))

section NotEntered

variable {e now ip} {a : String} {f : IpReputation → IpReputation}

theorem NotEntered.shouldBlock (h : e.NotEntered ip) : e.shouldBlock now ip = none := by
  rw [ShieldEngine.shouldBlock, h.1]
  simp

theorem NotEntered.isBanned (h : e.NotEntered ip) : e.isBanned now ip = false := by
  rw [ShieldEngine.isBanned, h.2]

theorem NotEntered.updateReputation (h : e.NotEntered ip)
    (hf : ∀ rep, (f rep).bannedUntil = rep.bannedUntil) :
    (e.updateReputation a f).NotEntered ip := by
  refine ⟨h.1, ?_⟩
  have hban := h.2
  rw [ShieldEngine.updateReputation, Table.lookup_insert]
  split_ifs with ha
  · subst ha
    rw [Option.bind_some, hf]
    cases hrep : e.reputations.lookup ip with
    | none => rfl
    | some rep =>
      rw [hrep] at hban
      exact hban
  · exact hban

theorem NotEntered.ban (h : e.NotEntered ip) (hne : a ≠ ip) (secs : ℕ) (reason : String) :
    (e.ban now a secs reason).NotEntered ip := by
  refine ⟨h.1, ?_⟩
  rw [ShieldEngine.ban, ShieldEngine.updateReputation, Table.lookup_insert, if_neg hne.symm]
  exact h.2

theorem NotEntered.block (h : e.NotEntered ip) (hne : a ≠ ip) (reason : String)
    (secs : Option ℕ) (level : ThreatLevel) : (e.block now a reason secs level).NotEntered ip := by
  refine ⟨?_, h.2⟩
  rw [ShieldEngine.block, Table.lookup_insert, if_neg hne.symm]
  exact h.1

theorem NotEntered.blockAndBan (h : e.NotEntered ip) (hne : a ≠ ip) (blockReason banReason : String)
    (level : ThreatLevel) : (e.blockAndBan now a blockReason banReason level).NotEntered ip :=
  (h.block hne _ _ _).ban hne _ _

theorem NotEntered.recordRequest (h : e.NotEntered ip) : (e.recordRequest a).NotEntered ip :=
  h.updateReputation fun _ => rfl

theorem NotEntered.recordThreat (h : e.NotEntered ip) (score : ℕ) :
    (e.recordThreat a score).NotEntered ip :=
  h.updateReputation fun _ => rfl

theorem NotEntered.recordBlocked (h : e.NotEntered ip) : (e.recordBlocked a).NotEntered ip :=
  h.updateReputation fun _ => rfl

theorem NotEntered.noteFailedAuth (h : e.NotEntered ip) : (e.noteFailedAuth a).NotEntered ip :=
  h.updateReputation fun _ => rfl

theorem NotEntered.unblockIp (h : e.NotEntered ip) : (e.unblockIp a).NotEntered ip := by
  constructor
  · rw [ShieldEngine.unblockIp, unban, Table.lookup_erase]
    split_ifs
    · rfl
    · exact h.1
  · rw [ShieldEngine.unblockIp, unban, Table.lookup_modify]
    have hban := h.2
    cases hrep : e.reputations.lookup ip with
    | none => simp
    | some rep =>
      rw [hrep, Option.bind_some] at hban
      split_ifs <;> simp [hban]

theorem NotEntered.cleanupExpired (h : e.NotEntered ip) : (e.cleanupExpired now).NotEntered ip := by
  constructor
  · rw [ShieldEngine.cleanupExpired, Table.lookup_filterValues, h.1]
    rfl
  · rw [ShieldEngine.cleanupExpired, Table.lookup_mapValues]
    have hban := h.2
    cases hrep : e.reputations.lookup ip with
    | none => rfl
    | some rep =>
      rw [hrep, Option.bind_some] at hban
      simp [hban]

end NotEntered

/-! ## One call -/

section Call

variable {d e now ip} {a : String}

theorem analyzeRequest_exempt {ctx : RequestContext} (h : e.isExempt ctx.sourceIp) :
    e.analyzeRequest d now ctx = (e, .allow) := by
  rw [analyzeRequest]
  split_ifs
  · rfl
  · rfl

theorem analyzeQuery_exempt {query : String} {anomaly : AnomalyResult} {ctx : RequestContext}
    (h : e.isExempt ctx.sourceIp) : e.analyzeQuery d now query anomaly ctx = (e, .allow) := by
  rw [analyzeQuery, if_pos (by simp [h])]

theorem NotEntered.punished (h : e.NotEntered ip) (hne : a ≠ ip) {c : Prop} [Decidable c]
    {blockReason banReason : String} {level : ThreatLevel} {verdict : ShieldVerdict} :
    (if c then (e.blockAndBan now a blockReason banReason level, verdict)
      else (e, verdict)).1.NotEntered ip := by
  split_ifs
  · exact h.blockAndBan hne _ _ _
  · exact h

theorem NotEntered.analyzeRequest {ctx : RequestContext} (h : e.NotEntered ip)
    (hne : ctx.sourceIp ≠ ip) : (e.analyzeRequest d now ctx).1.NotEntered ip := by
  rw [ShieldEngine.analyzeRequest]
  by_cases hoff : (!e.config.enabled) = true
  · rw [if_pos hoff]
    exact h
  rw [if_neg hoff]
  by_cases hexempt : e.isExempt ctx.sourceIp = true
  · rw [if_pos hexempt]
    exact h
  rw [if_neg hexempt]
  by_cases hbanned : e.isBanned now ctx.sourceIp = true
  · rw [if_pos hbanned]
    exact h.recordBlocked
  rw [if_neg hbanned]
  cases e.shouldBlock now ctx.sourceIp with
  | some entry => exact h.recordBlocked
  | none =>
    dsimp only
    have h' : (if e.config.ipReputationEnabled = true then e.recordRequest ctx.sourceIp
        else e).NotEntered ip := by
      split_ifs
      · exact h.recordRequest
      · exact h
    generalize (if e.config.ipReputationEnabled = true then e.recordRequest ctx.sourceIp
      else e) = e' at h' ⊢
    split
    · exact h'.punished hne
    · exact h'.punished hne
    · exact h'
    · exact h'

theorem NotEntered.analyzeQuery {query : String} {anomaly : AnomalyResult} {ctx : RequestContext}
    (h : e.NotEntered ip) (hne : ctx.sourceIp ≠ ip) :
    (e.analyzeQuery d now query anomaly ctx).1.NotEntered ip := by
  rw [ShieldEngine.analyzeQuery]
  by_cases hoff : (!e.config.enabled || e.isExempt ctx.sourceIp) = true
  · rw [if_pos hoff]
    exact h
  · rw [if_neg hoff]
    dsimp only
    split
    · exact (h.recordThreat _).punished hne
    · exact (h.recordThreat _).punished hne
    · exact h.recordThreat _
    · exact h

theorem NotEntered.recordFailedAuth (h : e.NotEntered ip) (hne : a ≠ ip) :
    (e.recordFailedAuth now a).NotEntered ip := by
  unfold ShieldEngine.recordFailedAuth
  dsimp only
  split_ifs
  · exact h.noteFailedAuth.blockAndBan hne _ _ _
  · exact h.noteFailedAuth

end Call

/-- The next failed login of an address is one too many. -/
def BruteForce : Prop :=
  e.config.autoBlockingEnabled = true ∧
    10 ≤ ((e.reputations.lookup ip).map IpReputation.failedAuths).getD 0 + 1

instance : Decidable (e.BruteForce ip) :=
  inferInstanceAs (Decidable (_ ∧ _))

/-- A failed login that is not one too many enters no address, not even its own. -/
theorem NotEntered.recordFailedAuth_few {e : ShieldEngine} {now : ℕ} {ip a : String}
    (h : e.NotEntered ip) (hfew : ¬e.BruteForce a) : (e.recordFailedAuth now a).NotEntered ip := by
  unfold ShieldEngine.recordFailedAuth
  dsimp only
  rw [if_neg]
  · exact h.noteFailedAuth
  · rintro ⟨hauto, hmany⟩
    refine hfew ⟨hauto, ?_⟩
    rw [ShieldEngine.noteFailedAuth, ShieldEngine.updateReputation, Table.lookup_insert, if_pos rfl,
      Option.map_some, Option.getD_some] at hmany
    cases hrep : e.reputations.lookup a with
    | none =>
      rw [hrep] at hmany
      exact hmany
    | some rep =>
      rw [hrep, Option.getD_some] at hmany
      rw [Option.map_some, Option.getD_some]
      exact hmany

end ShieldEngine

/-! ## Runs -/

/-- A call of the shield.  What a call finds out from the clock, and the analysis of anomalies that
goes by it, can be anything. -/
inductive ShieldCall where
  | analyzeRequest (now : ℕ) (ctx : RequestContext)
  | analyzeQuery (now : ℕ) (query : String) (anomaly : AnomalyResult) (ctx : RequestContext)
  | recordFailedAuth (now : ℕ) (ip : String)
  | recordSuccess (ctx : RequestContext)
  | addToAllowlist (ip : String)
  | removeFromAllowlist (ip : String)
  | updatePolicy (policy : SecurityPolicy)
  | unblockIp (ip : String)
  | cleanupExpired (now : ℕ)

namespace ShieldCall

def address : ShieldCall → Option String
  | analyzeRequest _ ctx | analyzeQuery _ _ _ ctx | recordSuccess ctx => some ctx.sourceIp
  | recordFailedAuth _ ip => some ip
  | _ => none

/-- The engine after a call. -/
def run (d : Detectors) (e : ShieldEngine) : ShieldCall → ShieldEngine
  | analyzeRequest now ctx => (e.analyzeRequest d now ctx).1
  | analyzeQuery now query anomaly ctx => (e.analyzeQuery d now query anomaly ctx).1
  | recordFailedAuth now ip => e.recordFailedAuth now ip
  | recordSuccess ctx => e.recordRequest ctx.sourceIp
  | addToAllowlist ip => { e with allowlist := insert ip e.allowlist }
  | removeFromAllowlist ip => { e with allowlist := e.allowlist.erase ip }
  | updatePolicy policy => { e with policy := policy }
  | unblockIp ip => e.unblockIp ip
  | cleanupExpired now => e.cleanupExpired now

/-- Whether a call is not a failed login of an exempt address that is one too many. -/
def Spares (e : ShieldEngine) : ShieldCall → Prop
  | recordFailedAuth _ ip => e.isExempt ip = true → ¬e.BruteForce ip
  | _ => True

instance (e : ShieldEngine) (c : ShieldCall) : Decidable (c.Spares e) :=
  match c with
  | recordFailedAuth _ ip => inferInstanceAs (Decidable (e.isExempt ip = true → ¬e.BruteForce ip))
  | analyzeRequest .. | analyzeQuery .. | recordSuccess .. | addToAllowlist .. |
    removeFromAllowlist .. | updatePolicy .. | unblockIp .. | cleanupExpired .. =>
      inferInstanceAs (Decidable True)

/-- A call enters no address other than the one that it is about, and not this one either as long as
it is exempt. -/
theorem run_notEntered {d : Detectors} {e : ShieldEngine} {c : ShieldCall} {ip : String}
    (h : e.NotEntered ip) (hspares : c.Spares e)
    (hexempt : c.address = some ip → e.isExempt ip = true) : (c.run d e).NotEntered ip := by
  cases c with
  | analyzeRequest now ctx =>
    by_cases hip : ctx.sourceIp = ip
    · subst hip
      rw [run, ShieldEngine.analyzeRequest_exempt (hexempt rfl)]
      exact h
    · exact h.analyzeRequest hip
  | analyzeQuery now query anomaly ctx =>
    by_cases hip : ctx.sourceIp = ip
    · subst hip
      rw [run, ShieldEngine.analyzeQuery_exempt (hexempt rfl)]
      exact h
    · exact h.analyzeQuery hip
  | recordFailedAuth now a =>
    by_cases hip : a = ip
    · subst hip
      exact h.recordFailedAuth_few (hspares (hexempt rfl))
    · exact h.recordFailedAuth hip
  | recordSuccess ctx => exact h.recordRequest
  | addToAllowlist a => exact h
  | removeFromAllowlist a => exact h
  | updatePolicy policy => exact h
  | unblockIp a => exact h.unblockIp
  | cleanupExpired now => exact h.cleanupExpired

end ShieldCall

/-- A shield in use. -/
structure ShieldRun where
  engine : ShieldEngine
  /-- The addresses that had traffic while they were not exempt. -/
  exposed : Finset String

/-- The runs of a shield. -/
def shieldSystem (d : Detectors) (config : ShieldConfig) : System ShieldRun ShieldCall where
  init := ⟨.new config, ∅⟩
  step s c := some
    { engine := c.run d s.engine
      exposed := s.exposed ∪ (c.address.toFinset.filter fun ip => ¬s.engine.isExempt ip) }

/-- Whether a call of a run spares the exempt addresses. -/
def SparesExempt (s : ShieldRun) (c : ShieldCall) : Prop :=
  c.Spares s.engine

instance (s : ShieldRun) (c : ShieldCall) : Decidable (SparesExempt s c) :=
  inferInstanceAs (Decidable (c.Spares s.engine))

/-- What the shield promises to exempt addresses: their requests and queries are allowed, and one
that was exempt throughout is entered neither as blocked nor as banned. -/
def KeepsExempt (d : Detectors) (s : ShieldRun) : Prop :=
  (∀ now query anomaly, ∀ ctx : RequestContext, s.engine.isExempt ctx.sourceIp = true →
    (s.engine.analyzeRequest d now ctx).2 = .allow ∧
      (s.engine.analyzeQuery d now query anomaly ctx).2 = .allow) ∧
  ∀ ip ∉ s.exposed, s.engine.NotEntered ip ∧
    ∀ now, s.engine.shouldBlock now ip = none ∧ s.engine.isBanned now ip = false

theorem notEntered_of_notMem_exposed {d : Detectors} {config : ShieldConfig} {s : ShieldRun}
    (h : (shieldSystem d config).Reach SparesExempt s) :
    ∀ ip ∉ s.exposed, s.engine.NotEntered ip := by
  refine h.invariant (P := fun s => ∀ ip ∉ s.exposed, s.engine.NotEntered ip) ?_ ?_
  · intro ip _
    exact ⟨rfl, rfl⟩
  · intro s c s' _ ih hspares hstep ip hip
    obtain rfl := Option.some.inj hstep
    rw [Finset.mem_union, not_or] at hip
    refine ShieldCall.run_notEntered (ih ip hip.1) hspares fun hc => ?_
    by_contra hexempt
    refine hip.2 (Finset.mem_filter.2 ⟨?_, hexempt⟩)
    rw [hc]
    exact Option.mem_toFinset.2 rfl

/-- In a run in which no exempt address has a failed login that is one too many, the shield keeps
what it promises to exempt addresses. -/
theorem keepsExempt {d : Detectors} {config : ShieldConfig} {s : ShieldRun}
    (h : (shieldSystem d config).Reach SparesExempt s) : KeepsExempt d s := by
  refine ⟨fun now query anomaly ctx hexempt => ?_, fun ip hip => ?_⟩
  · rw [ShieldEngine.analyzeRequest_exempt hexempt, ShieldEngine.analyzeQuery_exempt hexempt]
    exact ⟨rfl, rfl⟩
  · have hentered := notEntered_of_notMem_exposed h ip hip
    exact ⟨hentered, fun now => ⟨hentered.shouldBlock, hentered.isBanned⟩⟩

def noDetectors : Detectors where
  lowercase := id
  patterns := []
  isMatch _ _ := false

/-- An address of the machine, an allowlisted address and another one have traffic. -/
def mixedTraffic : List ShieldCall :=
  [.addToAllowlist "10.0.0.1", .recordFailedAuth 1 "10.0.0.1", .recordFailedAuth 2 "127.0.0.1",
    .analyzeQuery 3 "SELECT 1" ⟨true, 100⟩ ⟨"10.0.0.2", "/", none, ∅⟩,
    .removeFromAllowlist "10.0.0.1", .cleanupExpired 4]

theorem keepsExempt_mixedTraffic :
    ∃ s, (shieldSystem noDetectors (.fromPreset .strict)).run SparesExempt mixedTraffic = some s ∧
      "10.0.0.1" ∉ s.exposed ∧ ¬s.engine.NotEntered "10.0.0.2" ∧ KeepsExempt noDetectors s := by
  have hrun : ((shieldSystem noDetectors (.fromPreset .strict)).run SparesExempt
      mixedTraffic).isSome = true := by decide +kernel
  obtain ⟨s, hs⟩ := Option.isSome_iff_exists.1 hrun
  have hmem : (((shieldSystem noDetectors (.fromPreset .strict)).run SparesExempt
      mixedTraffic).all fun s =>
        decide ("10.0.0.1" ∉ s.exposed ∧ ¬s.engine.NotEntered "10.0.0.2")) = true := by
    decide +kernel
  rw [hs, Option.all_some, decide_eq_true_eq] at hmem
  exact ⟨s, hs, hmem.1, hmem.2, keepsExempt (System.reach_of_run hs)⟩

def failedLogins : List ShieldCall :=
  (List.range 10).map fun now => .recordFailedAuth now "127.0.0.1"

/-- Ten failed logins from the machine itself enter its address as blocked and banned. -/
theorem not_keepsExempt :
    ∃ s, (shieldSystem noDetectors (.fromPreset .strict)).Reachable s ∧
      s.engine.isExempt "127.0.0.1" = true ∧ ¬KeepsExempt noDetectors s := by
  have hrun : ((shieldSystem noDetectors (.fromPreset .strict)).run (fun _ _ => True)
      failedLogins).isSome = true := by decide +kernel
  obtain ⟨s, hs⟩ := Option.isSome_iff_exists.1 hrun
  have hmem : (((shieldSystem noDetectors (.fromPreset .strict)).run (fun _ _ => True)
      failedLogins).all fun s =>
        decide (s.engine.isExempt "127.0.0.1" = true ∧ "127.0.0.1" ∉ s.exposed ∧
          ¬s.engine.NotEntered "127.0.0.1")) = true := by
    decide +kernel
  rw [hs, Option.all_some, decide_eq_true_eq] at hmem
  obtain ⟨hexempt, hexposed, hentered⟩ := hmem
  exact ⟨s, System.reach_of_run hs, hexempt, fun h => hentered (h.2 _ hexposed).1⟩

end Shield

end AegisDB
