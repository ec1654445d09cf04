import AegisDB.Library.IpAddress
import AegisDB.Library.Table

/-!
# What the shield makes of a request

The scores that a request and a query get, and the policy that turns a score into an action.  The
patterns of injections are matched by a function that is a parameter, and so is the lower case of a
text.
-/

namespace AegisDB

namespace Shield

/-- Severity level of a detected threat. -/
inductive ThreatLevel where
  | critical | high | medium | low | info
deriving DecidableEq

/-- Derive a threat level from a numeric score. -/
def ThreatLevel.fromScore (score : ℕ) : ThreatLevel :=
  if score ≥ 90 then .critical
  else if score ≥ 70 then .high
  else if score ≥ 40 then .medium
  else if score ≥ 20 then .low
  else .info

/-- Action taken in response to a threat. -/
inductive ThreatAction where
  | allowed | rateLimited | blocked | banned
deriving DecidableEq

/-- Security preset that controls default thresholds. -/
inductive SecurityPreset where
  | strict | moderate | permissive
deriving DecidableEq

/-! ## Configuration -/

/-- The configuration of the shield, as far as it decides about requests. -/
structure ShieldConfig where
  enabled : Bool
  preset : SecurityPreset
  sqlInjectionEnabled : Bool
  anomalyDetectionEnabled : Bool
  ipReputationEnabled : Bool
  fingerprintingEnabled : Bool
  autoBlockingEnabled : Bool
  autoBlockThreshold : ℕ
  defaultBanDurationSecs : ℕ
deriving DecidableEq

/-- Build a configuration from a named preset. -/
def ShieldConfig.fromPreset (preset : SecurityPreset) : ShieldConfig where
  enabled := true
  preset := preset
  sqlInjectionEnabled := true
  anomalyDetectionEnabled := true
  ipReputationEnabled := true
  fingerprintingEnabled := true
  autoBlockingEnabled := preset ≠ .permissive
  autoBlockThreshold := match preset with
    | .strict => 60
    | .moderate => 80
    | .permissive => 95
  defaultBanDurationSecs := match preset with
    | .strict => 7200
    | .moderate => 3600
    | .permissive => 300

/-! ## The policy -/

/-- A user-defined custom security rule. -/
structure CustomRule where
  pathPattern : Option String
  maxScore : ℕ
  action : ThreatAction
deriving DecidableEq

/-- The active security policy. -/
structure SecurityPolicy where
  preset : SecurityPreset
  customRules : List CustomRule
deriving DecidableEq

namespace SecurityPolicy

/-- Build a policy from a preset with no custom rules. -/
def fromPreset (preset : SecurityPreset) : SecurityPolicy where
  preset := preset
  customRules := []

/-- Whether a rule is for a request. -/
def applies (rule : CustomRule) (score : ℕ) (path : Option String) : Bool :=
  (match rule.pathPattern, path with
    | some pattern, some p => pattern.toList.isPrefixOf p.toList
    | some _, none => false
    | none, _ => true) && rule.maxScore ≤ score

/-- Evaluate a threat score and request path: by the first rule that is for it, or else by the
thresholds of the preset. -/
def evaluate (policy : SecurityPolicy) (score : ℕ) (path : Option String) : ThreatAction :=
  match policy.customRules.find? fun rule => applies rule score path with
  | some rule => rule.action
  | none =>
      let (blockThreshold, rateLimitThreshold) := match policy.preset with
        | .strict => (60, 30)
        | .moderate => (80, 50)
        | .permissive => (95, 70)
      if score ≥ blockThreshold then .blocked
      else if score ≥ rateLimitThreshold then .rateLimited
      else .allowed

end SecurityPolicy

/-! ## Fingerprints -/

/-- Classification of the user-agent. -/
inductive UserAgentClass where
  | browser | apiClient | bot | scanner | unknown
deriving DecidableEq

/-- Result of fingerprinting a request. -/
structure RequestFingerprint where
  userAgentClass : UserAgentClass
  suspicionScore : ℕ
deriving DecidableEq

def scannerSignatures : List String :=
  ["sqlmap", "nikto", "nmap", "masscan", "gobuster", "dirbuster", "wfuzz", "hydra", "burpsuite",
    "burp suite", "owasp zap", "zaproxy", "w3af", "arachni", "skipfish", "havij", "acunetix",
    "nessus", "openvas"]

def botSignatures : List String :=
  ["googlebot", "bingbot", "baiduspider", "yandexbot", "duckduckbot", "slurp", "ia_archiver",
    "facebot", "twitterbot", "linkedinbot", "semrushbot", "ahrefsbot", "mj12bot", "dotbot",
    "petalbot"]

def browserSignatures : List String :=
  ["mozilla", "chrome", "safari", "firefox", "edge", "opera"]

def apiClientSignatures : List String :=
  ["curl", "wget", "httpie", "postman", "insomnia", "axios", "python-requests", "go-http-client",
    "java/", "okhttp"]

/-- A rule that finds injections. -/
structure InjectionPattern where
  name : String
  regex : String
  score : ℕ

/-- What the shield looks for, with the functions that it is given. -/
structure Detectors where
  lowercase : String → String
  patterns : List InjectionPattern
  /-- Whether a regular expression matches somewhere in a text. -/
  isMatch : String → String → Bool

namespace Detectors

variable (d : Detectors)

/-- Whether a user-agent has one of the signatures. -/
def hasSignature (signatures : List String) (ua : String) : Bool :=
  signatures.any fun sig => decide (sig.toList <:+: (d.lowercase ua).toList)

/-- Analyze a request's user-agent and headers. -/
def fingerprint (userAgent : Option String) (headers : Table String String) :
    RequestFingerprint :=
  match userAgent.filter fun ua => !(trimText ua.toList).isEmpty with
  | none => ⟨.unknown, 40⟩
  | some ua =>
      if d.hasSignature scannerSignatures ua then ⟨.scanner, 90⟩
      else if d.hasSignature botSignatures ua then ⟨.bot, 20⟩
      else
        let userAgentClass : UserAgentClass :=
          if d.hasSignature browserSignatures ua then .browser
          else if d.hasSignature apiClientSignatures ua then .apiClient
          else .unknown
        let unrecognized := if userAgentClass = .unknown then 15 else 0
        let short := if ua.utf8ByteSize < 10 then 10 else 0
        let forwards := match headers.lookup "x-forwarded-for" with
          | some val => if val.toList.count ',' > 3 then 15 else 0
          | none => 0
        let noAccept :=
          if userAgentClass = .browser ∧ "accept" ∉ headers ∧ "Accept" ∉ headers then 10 else 0
        ⟨userAgentClass, min (unrecognized + short + forwards + noAccept) 100⟩

def matched (input : String) : List InjectionPattern :=
  d.patterns.filter fun pattern => d.isMatch pattern.regex input

/-- The score of a text; the sum of the scores of its patterns is capped. -/
def injectionScore (input : String) : ℕ :=
  min ((d.matched input).map InjectionPattern.score).sum 100

end Detectors

/-- Result of the analysis of anomalies, which goes by rates and times. -/
structure AnomalyResult where
  isAnomalous : Bool
  score : ℕ
deriving DecidableEq

end Shield

end AegisDB
