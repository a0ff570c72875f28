import FileFerry.Posix.Raw
import FileFerry.Source.World

/-!
# Source — Preflight

`boot_warnings.rs`: the postures of a configuration and its address that are likely a mistake; and
the report of `doctor.rs`.
-/

namespace FileFerry
open Text Posix AsyncIo

/-- `std::net::Ipv4Addr`. -/
structure Ipv4Addr where
  a : UInt8
  b : UInt8
  c : UInt8
  d : UInt8
  deriving DecidableEq

/-- `Ipv4Addr::is_loopback`. -/
def Ipv4Addr.isLoopback (ip : Ipv4Addr) : Bool := ip.a == 127

def Ipv4Addr.display (ip : Ipv4Addr) : String :=
  toString ip.a.toNat ++ "." ++ toString ip.b.toNat ++ "." ++ toString ip.c.toNat ++ "."
    ++ toString ip.d.toNat

/-- `std::net::SocketAddr`. -/
structure SocketAddr where
  ip : Ipv4Addr
  port : Nat
  deriving DecidableEq

def SocketAddr.display (addr : SocketAddr) : String := addr.ip.display ++ ":" ++ toString addr.port

/-- The address the service is bound to: every interface. -/
def SocketAddr.unspecified (port : Nat) : SocketAddr := ⟨⟨0, 0, 0, 0⟩, port⟩

/-! ### `boot_warnings.rs` -/

structure BootWarning where
  id : String
  message : String
  deriving DecidableEq

def COPY_INACTIVITY_WARN_CEILING_SECS : Nat := 300

def MAX_REQUEST_BYTES_WARN_CEILING : Nat := 104857600

/-- W-1. -/
def checkUnauthNonLoopback (cfg : AppConfig) (addr : SocketAddr) : Option BootWarning :=
  let hasToken := cfg.security.interServiceToken.isSome
  if addr.ip.isLoopback || hasToken || cfg.security.trustNetwork then none
  else some ⟨"W-1",
    "[W-1] security.inter_service_token_env is unset AND bind " ++ addr.display
      ++ " is non-loopback AND security.trust_network=false. `/v1/files*` are open to any network caller. "
      ++ "Every unauth `POST /v1/files/copy` triggers backend I/O and S3-billed API calls; "
      ++ "every unauth `GET /v1/files` enumerates the FS root or the S3 bucket. Set "
      ++ "security.inter_service_token_env, OR set security.trust_network=true if a "
      ++ "reverse proxy already authenticates every request (see SECURITY.md)."⟩

/-- W-2. -/
def checkTrustNetworkWithoutToken (cfg : AppConfig) : Option BootWarning :=
  if cfg.security.trustNetwork && cfg.security.interServiceToken.isNone then
    some ⟨"W-2",
      "[W-2] security.trust_network=true AND security.inter_service_token_env is unset — every request "
        ++ "that reaches `/v1/files*` is trusted. This is correct ONLY if a reverse proxy / "
        ++ "service mesh is genuinely in front of FileFerry AND authenticates "
        ++ "every request. If the proxy is misconfigured or absent, FileFerry is "
        ++ "fully open. Consider defense-in-depth: set inter_service_token_env "
        ++ "even behind a proxy."⟩
  else none

/-- W-3. -/
def checkAdminEnabledOnNonLoopback (cfg : AppConfig) (addr : SocketAddr) : Option BootWarning :=
  if cfg.security.adminEnabled && !addr.ip.isLoopback then
    some ⟨"W-3",
      "[W-3] FILEFERRY_ADMIN_ENABLED is set AND bind " ++ addr.display ++ " is non-loopback. "
        ++ "`GET /api` serves the OpenAPI summary (route table + version + DTO shapes) "
        ++ "to any caller that hits the endpoint. Disable via unsetting the env var "
        ++ "unless the endpoint is genuinely needed by external tooling."⟩
  else none

/-- W-4. -/
def checkDocumentationEnabledOnNonLoopback (cfg : AppConfig) (addr : SocketAddr) :
    Option BootWarning :=
  if cfg.documentationEnabled && !cfg.security.adminEnabled && !addr.ip.isLoopback then
    some ⟨"W-4",
      "[W-4] documentation_enabled=true in YAML AND bind " ++ addr.display ++ " is non-loopback. "
        ++ "`/api` is currently 404'd by the FILEFERRY_ADMIN_ENABLED gate, but a "
        ++ "future operator setting the env var (e.g. for a `doctor` diagnostic) "
        ++ "immediately surfaces the OpenAPI summary. For defence-in-depth on public "
        ++ "edges, set documentation_enabled: false in the YAML too."⟩
  else none

/-- W-5. -/
def checkCopyInactivityTooGenerous (cfg : AppConfig) : Option BootWarning :=
  if COPY_INACTIVITY_WARN_CEILING_SECS < cfg.limits.copyInactivitySecs then
    some ⟨"W-5",
      "[W-5] limits.copy_inactivity_secs = " ++ toString cfg.limits.copyInactivitySecs
        ++ "s exceeds the recommended " ++ toString COPY_INACTIVITY_WARN_CEILING_SECS
          ++ "s ceiling. "
        ++ "Slow-drip peers can now hold copy streams open for arbitrarily long "
        ++ "(F3 defence weakened). Confirm the deployment genuinely has a slow-but- "
        ++ "legitimate source that needs >" ++ toString COPY_INACTIVITY_WARN_CEILING_SECS
        ++ "s between successful reads."⟩
  else none

/-- W-6. -/
def checkMaxRequestBytesUnusuallyLarge (cfg : AppConfig) : Option BootWarning :=
  if MAX_REQUEST_BYTES_WARN_CEILING < cfg.limits.maxRequestBytes then
    some ⟨"W-6",
      "[W-6] limits.max_request_bytes = " ++ toString cfg.limits.maxRequestBytes
        ++ " bytes exceeds the recommended " ++ toString MAX_REQUEST_BYTES_WARN_CEILING
        ++ " (100 MiB) ceiling. FileFerry does NOT read file payloads out of the request "
        ++ "body — copies happen backend-to-backend — so the request body only carries "
        ++ "JSON metadata. If you meant to raise a per-file cap, set "
        ++ "limits.max_response_bytes instead."⟩
  else none

/-- `preflight`. -/
def preflight (cfg : AppConfig) (addr : SocketAddr) : List BootWarning :=
  [checkUnauthNonLoopback cfg addr, checkTrustNetworkWithoutToken cfg,
    checkAdminEnabledOnNonLoopback cfg addr, checkDocumentationEnabledOnNonLoopback cfg addr,
    checkCopyInactivityTooGenerous cfg, checkMaxRequestBytesUnusuallyLarge cfg].filterMap id

/-- The log line of a warning. -/
def BootWarning.record (w : BootWarning) : Record :=
  ⟨"fileferry::boot_warnings", .warn, [⟨"id", w.id, false⟩], w.message⟩

/-- What `log_preflight` logs. -/
def logPreflight (cfg : AppConfig) (addr : SocketAddr) : List Record :=
  (preflight cfg addr).map BootWarning.record

/-! ### `doctor.rs` -/

/-- `CARGO_PKG_VERSION`. -/
def version : String := "0.2.2-alpha"

/-- The lines of the report. -/
def reportLines (cfg : AppConfig) (addr : SocketAddr) : List String :=
  let warnings := preflight cfg addr
  ["fileferry doctor " ++ version,
    "==================================================",
    "",
    "Config summary:",
    "  port                        " ++ toString cfg.port,
    "  bind (expected)             " ++ addr.display,
    "  fs.data_directory           " ++ cfg.fs.dataDirectory.display,
    "  s3 backend                  " ++ if cfg.s3.isSome then "configured" else "disabled",
    "  documentation_enabled       " ++ toString cfg.documentationEnabled,
    "  security.inter_service_tok  "
      ++ if cfg.security.interServiceToken.isSome then "SET (masked)" else "unset",
    "  security.trust_network      " ++ toString cfg.security.trustNetwork,
    "  security.admin_enabled      " ++ toString cfg.security.adminEnabled ++
      " (FILEFERRY_ADMIN_ENABLED)",
    "  limits.copy_inactivity_secs " ++ toString cfg.limits.copyInactivitySecs,
    "  limits.max_request_bytes    " ++ toString cfg.limits.maxRequestBytes,
    ""] ++
  (if warnings.isEmpty then ["Preflight checks: OK  (0 warnings — green)"]
    else ["Preflight checks: " ++ toString warnings.length ++ " warning(s) surfaced — amber", ""]
      ++ warnings.map fun w => "  " ++ w.message) ++
  ["",
    "Exit code: " ++ toString (if warnings.isEmpty then 0 else 1) ++ " ("
      ++ toString warnings.length ++ " warning(s))"]

/-- `write_report`, to a sink that fails at the line `fault` names: what was written, and the number
of warnings. -/
def writeReport (fault : Option (Nat × IoError)) (cfg : AppConfig) (addr : SocketAddr) :
    List String × Except IoError Nat :=
  let lines := reportLines cfg addr
  match fault with
  | some (k, e) => if k < lines.length then (lines.take k, .error e) else (lines,
      .ok (preflight cfg addr).length)
  | none => (lines, .ok (preflight cfg addr).length)

end FileFerry
