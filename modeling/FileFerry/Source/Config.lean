import FileFerry.Posix.Path

/-!
# Source — Config

`config.rs`: the configuration, and `fromYaml`, which reads it from a parsed document and the
environment.

* `require_iff`: a variable that must be set is set and not empty.
* `fromYaml_security`: the security block of an accepted document.
-/

namespace FileFerry
open Text Posix

/-- `fs`: where the data root is. -/
structure FsConfig where
  dataDirectory : Path

/-- `s3`, with the credentials that its variables hold. -/
structure S3Config where
  region : String
  endpointUrl : String
  bucket : String
  bucketPath : String
  accessKeyId : String
  secretAccessKey : String

/-- `security`, with the token that its variable holds. -/
structure SecurityConfig where
  interServiceToken : Option String
  trustNetwork : Bool
  adminEnabled : Bool

/-- `limits`, in bytes and seconds. -/
structure LimitsConfig where
  maxRequestBytes : Nat
  maxResponseBytes : Nat
  requestTimeoutSecs : Nat
  copyInactivitySecs : Nat

/-- The configuration the service runs with. -/
structure AppConfig where
  port : Nat
  documentationEnabled : Bool
  corsOrigin : String
  fs : FsConfig
  s3 : Option S3Config
  limits : LimitsConfig
  security : SecurityConfig

/-- No token, and nothing trusted. -/
def SecurityConfig.default : SecurityConfig := ⟨none, false, false⟩

def LimitsConfig.default : LimitsConfig where
  maxRequestBytes := 33554432
  maxResponseBytes := 5368709120
  requestTimeoutSecs := 300
  copyInactivitySecs := 30

/-- A data root beside the program. -/
def FsConfig.default : FsConfig := ⟨Path.ofBytes (bytes "./data")⟩

def AppConfig.default : AppConfig where
  port := 8080
  documentationEnabled := true
  corsOrigin := ""
  fs := FsConfig.default
  s3 := none
  limits := LimitsConfig.default
  security := SecurityConfig.default

/-! ### The document -/

/-- `security` as the document has it: the variable's name, not its value. -/
structure SecurityConfigYaml where
  interServiceTokenEnv : Option String
  trustNetwork : Option Bool

structure FsConfigYaml where
  dataDirectory : Option Path

/-- `s3` as the document has it: the names of the variables with the credentials. -/
structure S3ConfigYaml where
  region : String
  endpointUrl : String
  bucket : String
  bucketPath : String
  accessKeyIdEnv : String
  secretAccessKeyEnv : String

structure LimitsConfigYaml where
  maxRequestBytes : Option Nat
  maxResponseBytes : Option Nat
  requestTimeoutSecs : Option Nat
  copyInactivitySecs : Option Nat

/-- The document, in which every block may be left out. -/
structure AppConfigYaml where
  port : Option Nat
  documentationEnabled : Option Bool
  corsOrigin : Option String
  fs : Option FsConfigYaml
  s3 : Option S3ConfigYaml
  limits : Option LimitsConfigYaml
  security : Option SecurityConfigYaml

/-- The environment: the values of the variables that are set to Unicode text. -/
abbrev Vars := String → Option String

/-- Why a document is refused. -/
inductive ConfigError where
  | envEmpty (name : String)
  | envUnset (name : String)
  | bucketPathTraversal (value : String)
  | bucketPathRooted (value : String)
  | corsOrigin
  deriving DecidableEq

/-- The text of a refusal; `debug` is the `Debug` of a text. -/
def ConfigError.display (debug : String → String) : ConfigError → String
  | envEmpty name => "env var " ++ name ++ " referenced by config but is empty"
  | envUnset name => "env var " ++ name ++ " referenced by config but is unset"
  | bucketPathTraversal value =>
    "config.s3.bucket_path may not contain '..' (rejected value: " ++ debug value ++ ")"
  | bucketPathRooted value =>
    "config.s3.bucket_path may not start with '/' (rejected value: " ++ debug value ++ ")"
  | corsOrigin =>
    "config.cors_origin is set but CORS is not implemented in this build. "
      ++ "Terminate CORS at your reverse proxy (see SECURITY.md) or leave the field empty."

/-- A variable that has to be set, and not to the empty string. -/
def requireEnv (vars : Vars) (name : String) : Except ConfigError String :=
  match vars name with
  | some v => if v ≠ "" then .ok v else .error (.envEmpty name)
  | none => .error (.envUnset name)

/-- `str::to_ascii_lowercase`. -/
def toAsciiLowercase (s : String) : String := String.ofList (s.toList.map Char.toLower)

/-- `FILEFERRY_ADMIN_ENABLED`. -/
def adminEnabledFromEnv (vars : Vars) : Bool :=
  match vars "FILEFERRY_ADMIN_ENABLED" with
  | some v => ["1", "true", "yes"].contains (toAsciiLowercase (trim v))
  | none => false

/-- The prefix has no `..`, and does not begin with a slash. -/
def S3Config.validate (c : S3Config) : Except ConfigError Unit :=
  if ['.', '.'] <:+: c.bucketPath.toList then .error (.bucketPathTraversal c.bucketPath)
  else if c.bucketPath.toList.head? = some '/' then .error (.bucketPathRooted c.bucketPath)
  else .ok ()

/-- The token, if the document names its variable; the empty name is passed over. -/
def tokenFromYaml (vars : Vars) : Option String → Except ConfigError (Option String)
  | some name => if name ≠ "" then (requireEnv vars name).map some else .ok none
  | none => .ok none

/-- The security block, which names the variable that holds the token. -/
def securityFromYaml (vars : Vars) : Option SecurityConfigYaml → Except ConfigError SecurityConfig
  | some s => (tokenFromYaml vars s.interServiceTokenEnv).map fun token =>
    ⟨token, s.trustNetwork.getD false, adminEnabledFromEnv vars⟩
  | none => .ok { SecurityConfig.default with adminEnabled := adminEnabledFromEnv vars }

/-- The `s3` block, whose credentials are read and which is then checked. -/
def s3FromYaml (vars : Vars) : Option S3ConfigYaml → Except ConfigError (Option S3Config)
  | some s => do
    let accessKeyId ← requireEnv vars s.accessKeyIdEnv
    let secretAccessKey ← requireEnv vars s.secretAccessKeyEnv
    let c : S3Config :=
      ⟨s.region, s.endpointUrl, s.bucket, s.bucketPath, accessKeyId, secretAccessKey⟩
    c.validate
    return some c
  | none => return none

/-- `from_yaml`. -/
def fromYaml (vars : Vars) (y : AppConfigYaml) : Except ConfigError AppConfig := do
  let defaults := AppConfig.default
  let security ← securityFromYaml vars y.security
  let s3 ← s3FromYaml vars y.s3
  let cfg : AppConfig :=
    { port := y.port.getD defaults.port
      documentationEnabled := y.documentationEnabled.getD defaults.documentationEnabled
      corsOrigin := y.corsOrigin.getD defaults.corsOrigin
      fs := ⟨(y.fs.bind FsConfigYaml.dataDirectory).getD defaults.fs.dataDirectory⟩
      s3 := s3
      limits :=
        { maxRequestBytes :=
            (y.limits.bind LimitsConfigYaml.maxRequestBytes).getD defaults.limits.maxRequestBytes
          maxResponseBytes :=
            (y.limits.bind LimitsConfigYaml.maxResponseBytes).getD defaults.limits.maxResponseBytes
          requestTimeoutSecs := (y.limits.bind LimitsConfigYaml.requestTimeoutSecs).getD
            defaults.limits.requestTimeoutSecs
          copyInactivitySecs := (y.limits.bind LimitsConfigYaml.copyInactivitySecs).getD
            defaults.limits.copyInactivitySecs }
      security := security }
  if cfg.corsOrigin ≠ "" then .error .corsOrigin else return cfg

/-! ### What an accepted document gives -/

/-- A required variable gives its value, which is not empty. -/
theorem require_iff {vars : Vars} {name v : String} :
    requireEnv vars name = .ok v ↔ vars name = some v ∧ v ≠ "" := by
  rw [requireEnv]
  rcases h : vars name with _ | u
  · simp
  · by_cases hu : u = ""
    · subst hu
      simp only [ne_eq, not_true_eq_false, if_false, reduceCtorEq, Option.some.injEq, false_iff]
      rintro ⟨rfl, h⟩
      exact h rfl
    · simp only [ne_eq, hu, not_false_eq_true, if_true, Except.ok.injEq, Option.some.injEq]
      exact ⟨fun e => ⟨e, e ▸ hu⟩, fun e => e.1⟩

theorem bind_ok {ε α β : Type} {x : Except ε α} {f : α → Except ε β} {b : β}
    (h : (x >>= f) = .ok b) : ∃ a, x = .ok a ∧ f a = .ok b := by
  cases x with
  | error e => cases h
  | ok a => exact ⟨a, rfl, h⟩

theorem map_ok {ε α β : Type} {x : Except ε α} {f : α → β} {b : β} (h : x.map f = .ok b) :
    ∃ a, x = .ok a ∧ f a = b := by
  cases x with
  | error e => cases h
  | ok a => exact ⟨a, rfl, Except.ok.inj h⟩

/-- The security of a configuration is that of its document. -/
theorem fromYaml_security {vars : Vars} {y : AppConfigYaml} {cfg : AppConfig}
    (h : fromYaml vars y = .ok cfg) : securityFromYaml vars y.security = .ok cfg.security := by
  obtain ⟨security, hs, h⟩ := bind_ok h
  obtain ⟨s3, -, h⟩ := bind_ok h
  dsimp only at h
  split at h
  · cases h
  · cases h; exact hs

/-- A token is the value of the variable that the document names. -/
theorem tokenFromYaml_some {vars : Vars} {declared : Option String} {token : String}
    (h : tokenFromYaml vars declared = .ok (some token)) :
    token ≠ "" ∧ ∃ name, declared = some name ∧ vars name = some token := by
  cases declared with
  | none => cases h
  | some name =>
      rw [tokenFromYaml] at h
      split at h
      · obtain ⟨v, hv, e⟩ := map_ok h
        obtain rfl : v = token := Option.some.inj e
        obtain ⟨h₁, h₂⟩ := require_iff.mp hv
        exact ⟨h₂, name, rfl, h₁⟩
      · cases h

/-- **The token of an accepted document** is the value of the variable it names, and not empty. -/
theorem token_of_fromYaml {vars : Vars} {y : AppConfigYaml} {cfg : AppConfig} {token : String}
    (h : fromYaml vars y = .ok cfg) (ht : cfg.security.interServiceToken = some token) :
    token ≠ "" ∧ ∃ s name, y.security = some s ∧ s.interServiceTokenEnv = some name ∧
      vars name = some token := by
  have hs := fromYaml_security h
  cases hy : y.security with
  | none =>
      rw [hy, securityFromYaml, Except.ok.injEq] at hs
      rw [← hs] at ht
      cases ht
  | some s =>
      rw [hy, securityFromYaml] at hs
      obtain ⟨t, h₁, h₂⟩ := map_ok hs
      rw [← h₂] at ht
      obtain rfl : t = some token := ht
      obtain ⟨hne, name, hn, hv⟩ := tokenFromYaml_some h₁
      exact ⟨hne, s, name, rfl, hn, hv⟩

end FileFerry
