import FileFerry.Source.Preflight
import FileFerry.Source.Router

/-!
# Source — Boot

`main.rs`, with `load` of `config.rs`, `run` of `doctor.rs`, `offline_from_env` of
`backend/offline.rs` and the constructors of the backends: from the arguments, the environment and
the file system to a service, or to an exit code.
-/

namespace FileFerry
open Text Posix AsyncIo Steps

/-- What the start of the program calls: `serde_yaml_ng`, and the `Debug` of a text and of a
path. -/
structure BootCrates where
  fromStr : String → Except String AppConfigYaml
  debug : String → String
  debugPath : Path → String

/-- What a start of the program meets, but for the file system. -/
structure Launch where
  args : List String
  vars : Vars
  /-- The line of the report whose write fails. -/
  stdoutFault : Option (Nat × IoError)
  bindFault : Option IoError

/-- The steps of a start: what it does to the file system, and what it logs. -/
abbrev Start := Steps.Act Host Record String

/-! ### `config.rs` -/

/-- `Formatter::debug_struct`. -/
def debugStruct (name : String) (fields : List (String × String)) : String :=
  name ++ " \x7b " ++ ", ".intercalate (fields.map fun f => f.1 ++ ": " ++ f.2) ++ " \x7d"

def debugOption : Option String → String
  | none => "None"
  | some text => "Some(" ++ text ++ ")"

def redacted : String := "***REDACTED***"

/-- `S3Config`'s `Debug`. -/
def S3Config.debug (crates : BootCrates) (c : S3Config) : String :=
  debugStruct "S3Config"
    [("region", crates.debug c.region), ("endpoint_url", crates.debug c.endpointUrl),
      ("bucket", crates.debug c.bucket), ("bucket_path", crates.debug c.bucketPath),
      ("access_key_id", crates.debug redacted), ("secret_access_key", crates.debug redacted)]

/-- `SecurityConfig`'s `Debug`. -/
def SecurityConfig.debug (crates : BootCrates) (c : SecurityConfig) : String :=
  debugStruct "SecurityConfig"
    [("inter_service_token", debugOption (c.interServiceToken.map fun _ => crates.debug redacted)),
      ("trust_network", toString c.trustNetwork), ("admin_enabled", toString c.adminEnabled)]

/-- `AppConfig`'s `Debug`, and those of the parts, which are derived. -/
def AppConfig.debug (crates : BootCrates) (cfg : AppConfig) : String :=
  debugStruct "AppConfig"
    [("port", toString cfg.port), ("documentation_enabled", toString cfg.documentationEnabled),
      ("cors_origin", crates.debug cfg.corsOrigin),
      ("fs", debugStruct "FsConfig" [("data_directory", crates.debugPath cfg.fs.dataDirectory)]),
      ("s3", debugOption (cfg.s3.map (S3Config.debug crates))),
      ("limits", debugStruct "LimitsConfig"
        [("max_request_bytes", toString cfg.limits.maxRequestBytes),
          ("max_response_bytes", toString cfg.limits.maxResponseBytes),
          ("request_timeout_secs", toString cfg.limits.requestTimeoutSecs),
          ("copy_inactivity_secs", toString cfg.limits.copyInactivitySecs)]),
      ("security", cfg.security.debug crates)]

/-- `resolve_path`. -/
def resolvePath (vars : Vars) (h : Host) : Option Path → Option Path
  | some p => some p
  | none =>
    match (vars "FILEFERRY_CONFIG").filter fun p => p ≠ "" with
    | some p => some (.ofBytes (bytes p))
    | none =>
      let default := Path.ofBytes (bytes "./fileferry.yaml")
      if h.pathExists default then some default else none

/-- The configuration in the file at `path`. -/
def readConfig (crates : BootCrates) (vars : Vars) (h : Host) (path : Path) :
    Except String AppConfig := do
  let text ← (h.readToString path).mapError fun e => "reading config " ++ path.display ++ ": " ++ e
  let yaml ← (crates.fromStr text).mapError fun e => "parsing config " ++ path.display ++ ": " ++ e
  (fromYaml vars yaml).mapError (ConfigError.display crates.debug)

def loadRecord : Option Path → Record
  | none => ⟨"fileferry::config", .info, [], "no fileferry.yaml found; using built-in defaults"⟩
  | some path => ⟨"fileferry::config", .info, [⟨"path", path.display, false⟩], "loading config"⟩

/-- `load`. -/
def load (crates : BootCrates) (vars : Vars) (explicit : Option Path) : Start AppConfig := do
  let h ← Act.get
  Act.emit (loadRecord (resolvePath vars h explicit))
  match resolvePath vars h explicit with
  | none =>
    let cfg := AppConfig.default
    pure { cfg with security := { cfg.security with adminEnabled := adminEnabledFromEnv vars } }
  | some path => Act.ofExcept (readConfig crates vars h path)

/-! ### `backend` -/

/-- `FsBackend::new`: the host after, and the backend. -/
def FsBackend.new (h : Host) (cfg : FsConfig) : Host × Except IoError FsBackend :=
  let root := cfg.dataDirectory.toBytes
  if root.any fun b =>
    b.toNat == 0 then (h, .error (.other "file name contained an unexpected NUL byte"))
  else
    let (_, h', res) := h.createDirAllAt (.ofBytes root)
    (h', match res with
      | .ok () => .ok ⟨root⟩
      | .error e => .error (.os e))

/-- `S3Backend::new`, which connects to nothing. -/
def S3Backend.new (cfg : S3Config) : S3Backend := ⟨cfg.bucket, cfg.bucketPath⟩

/-- `offline_from_env`. -/
def offlineFromEnv (vars : Vars) : Bool :=
  match vars "FILEFERRY_OFFLINE" with
  | some v => ["1", "true", "yes"].contains (toAsciiLowercase (trim v))
  | none => false

/-! ### `doctor.rs` -/

/-- What the program has printed when it ends, and its exit code. -/
structure Exit where
  stdout : List String
  stderr : List String
  code : Nat
  deriving DecidableEq

/-- `run`; nothing is logged, for there is no subscriber yet. -/
def doctor (crates : BootCrates) (l : Launch) (explicit : Option Path) (h : Host) : Exit :=
  match (load crates l.vars explicit h).2 with
  | .error e => ⟨[], ["doctor: config load failed: " ++ e], 2⟩
  | .ok cfg =>
    match writeReport l.stdoutFault cfg (.unspecified cfg.port) with
    | (out, .ok 0) => ⟨out, [], 0⟩
    | (out, .ok _) => ⟨out, [], 1⟩
    | (out, .error e) => ⟨out, ["doctor: write failed: " ++ e.display], 2⟩

/-! ### `main.rs` -/

/-- The path after `--config`, or in `--config=`. -/
def configArg : List String → Option Path
  | [] => none
  | a :: rest =>
    if a = "--config" then rest.head?.map fun p => .ofBytes (bytes p)
    else match stripPrefix "--config=" a with
      | some p => some (.ofBytes (bytes p))
      | none => configArg rest

/-- `parse_config_arg`. -/
def parseConfigArg (args : List String) : Option Path := configArg (args.drop 1)

/-- A service that listens. -/
structure Started where
  state : AppState
  addr : SocketAddr

/-- What stands in for the bucket, and what is logged of it. -/
def s3Backend (offline : Bool) : Option S3Config → Option BackendRef × List Record
  | some cfg =>
    if offline then
      (some (.offline ⟨.s3⟩), [⟨"fileferry", .warn, [],
        "FILEFERRY_OFFLINE is set — S3 backend is stubbed; every outbound call "
          ++ "returns Upstream(\"offline mode\") without contacting AWS/MinIO"⟩])
    else (some (.s3 (.new cfg)), [])
  | none =>
    (none, if offline then [⟨"fileferry", .info, [],
      "FILEFERRY_OFFLINE is set but no s3: block configured — nothing to stub"⟩] else [])

/-- Log lines, one step each. -/
def logAll : List Record → Start Unit
  | [] => pure ()
  | r :: rs => do
    Act.emit r
    logAll rs

def startingRecord (cfg : AppConfig) : Record :=
  ⟨"fileferry", .info,
    [⟨"version", version, false⟩, ⟨"port", toString cfg.port, false⟩,
      ⟨"fs_root", cfg.fs.dataDirectory.display, false⟩,
        ⟨"s3_enabled", toString cfg.s3.isSome, false⟩],
    "starting FileFerry"⟩

def listeningRecord (addr : SocketAddr) : Record :=
  ⟨"fileferry", .info, [], "listening on http://" ++ addr.display⟩

/-- `tokio_main`, once the configuration is loaded, up to where the service answers. -/
def start (l : Launch) (cfg : AppConfig) : Start Started := do
  Act.emit (startingRecord cfg)
  let h ← Act.get
  let (h', fs) := FsBackend.new h cfg.fs
  Act.step (fun _ => h') []
  let fs ← Act.ofExcept (fs.mapError fun e => "initialising FS backend: " ++ e.display)
  let (s3, records) := s3Backend (offlineFromEnv l.vars) cfg.s3
  logAll records
  let addr := SocketAddr.unspecified cfg.port
  logAll (logPreflight cfg addr)
  match l.bindFault with
  | some e => Act.fail e.display
  | none => do
    Act.emit (listeningRecord addr)
    pure ⟨⟨⟨.fs fs, s3⟩, cfg⟩, addr⟩

/-- `tokio_main`. -/
def tokioMain (crates : BootCrates) (l : Launch) : Start Started := do
  let cfg ← load crates l.vars (parseConfigArg l.args)
  start l cfg

inductive Outcome where
  | exited (e : Exit)
  | serving (s : Started)

/-- `main`. -/
def main (crates : BootCrates) (l : Launch) : Steps.Proc Host Record Outcome := do
  if "doctor" ∈ l.args then
    let h ← Proc.get
    pure (.exited (doctor crates l (parseConfigArg l.args) h))
  else
    match ← (tokioMain crates l).run with
    | .ok s => pure (.serving s)
    | .error e => pure (.exited ⟨[], ["fatal: " ++ e], 1⟩)

end FileFerry
