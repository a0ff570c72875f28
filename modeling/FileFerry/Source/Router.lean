import FileFerry.Source.Backend

/-!
# Source — Router

`router.rs`, `auth.rs`, `extract.rs`, `trace_headers.rs`, `security_headers.rs`, `access_log.rs` and
the `IntoResponse` of `error.rs`: from a request to its response.

The layers, the outermost first: the access log, `tower-http`'s trace, the security headers, the
trace headers, the request timeout, and, around the two gated routes, the bearer check.
-/

namespace FileFerry
open Text Steps

structure AppState where
  backends : Backends
  config : AppConfig

/-- What answers a request. -/
abbrev Service := Steps.Proc World Event Response

/-! ### `error.rs` -/

/-- The log line of an error. -/
def FerryError.record (e : FerryError) : Record :=
  let message := clipUserMessage e.display
  match e with
  | .notFound path =>
    ⟨"fileferry::error", .warn,
      [⟨"error.code", e.code, false⟩, ⟨"requested_path", clipUserMessage path, true⟩],
      "request rejected: file not found"⟩
  | _ =>
    if 500 ≤ e.status then
      ⟨"fileferry::error", .warn,
        [⟨"error.code", e.code, false⟩, ⟨"error.message", message, true⟩], "request failed"⟩
    else
      ⟨"fileferry::error", .debug,
        [⟨"error.code", e.code, false⟩, ⟨"error.message", message, true⟩], "request rejected"⟩

/-- `FerryError::into_response`. -/
def FerryError.intoResponse (e : FerryError) : Service := do
  Proc.emit (.log e.record)
  pure (.json e.status
    (.obj [("error", .str e.code), ("message", .str (clipUserMessage e.display))]))

/-- The response of a handler. -/
def respond {α : Type} (p : Act α) (ok : α → Response) : Service := do
  match ← p.run with
  | .ok a => pure (ok a)
  | .error e => e.intoResponse

/-! ### `auth.rs` -/

/-- `subtle`'s `ct_eq` of byte strings. -/
def ctEq (a b : List UInt8) : Bool :=
  a.length == b.length && (List.zipWith (fun x y => x ^^^ y) a b).all fun d => d == 0

/-- `ct_eq_str`. -/
def ctEqStr (a b : String) : Bool :=
  if (bytes a).length ≠ (bytes b).length then false else ctEq (bytes a) (bytes b)

def unauthorized (message : String) : Response :=
  .json 401 (.obj [("error", .str "unauthorized"), ("message", .str message)])

/-- The token a request presents. -/
def presented (req : Request) : String :=
  let auth := ((req.headers.get "authorization").bind HeaderValue.toStr).getD ""
  trim ((stripPrefix "Bearer " auth).getD "")

/-- `require_bearer`. -/
def requireBearer (st : AppState) (req : Request) (next : Service) : Service :=
  match st.config.security.interServiceToken with
  | none => next
  | some expected =>
    let presented := presented req
    if presented = "" then pure (unauthorized "missing bearer token")
    else if !ctEqStr presented expected then pure (unauthorized "invalid bearer token")
    else next

/-! ### `extract.rs` -/

/-- `TypedQuery`. -/
def typedQuery (crates : Crates) (req : Request) : Act ListFilesQuery :=
  match crates.parseQuery (req.query.getD "") with
  | .ok q => pure q
  | .error text => Act.fail (.badQuery (clipUserMessage text))

/-- What `Json::from_request` gives, or the status and the text of its rejection; the statuses of
what does not decode are not told apart. -/
def jsonFromRequest (crates : Crates) (maxBody : Nat) (req : Request) :
    Except (Nat × String) CopyFileRequest :=
  if !crates.jsonContentType (req.headers.get "content-type") then
    .error (415, "Expected request with `Content-Type: application/json`")
  else if maxBody < req.body.bytes.length then
    .error (413, "Failed to buffer the request body: length limit exceeded")
  else
    match req.body.ending with
    | .broken text => .error (400, text)
    | _ => (crates.parseJson req.body.bytes).mapError fun text => (422, text)

/-- Whether the body is still being read when `BODY_READ_TIMEOUT` is over. -/
def bodyStalls (crates : Crates) (maxBody : Nat) (req : Request) : Bool :=
  crates.jsonContentType (req.headers.get "content-type")
    && decide (req.body.bytes.length ≤ maxBody)
    && (match req.body.ending with | .stalled => true | _ => false)

/-- `TypedJson`. -/
def typedJson (crates : Crates) (maxBody : Nat) (req : Request) : Act CopyFileRequest := do
  await
  if bodyStalls crates maxBody req then Act.fail .bodyReadTimeout
  else
    match jsonFromRequest crates maxBody req with
    | .ok v => pure v
    | .error (status, text) =>
      if status = 413 then Act.fail (.bodyTooLarge 0)
      else Act.fail (.badBody (clipUserMessage text))

/-! ### The handlers -/

/-- The limit `list_files` passes on. -/
def effectiveLimit : Option Nat → Except FerryError Nat
  | none => .ok DEFAULT_LIST_LIMIT
  | some 0 => .ok DEFAULT_LIST_LIMIT
  | some n => if MAX_LIST_LIMIT < n then .error (.listLimitTooLarge MAX_LIST_LIMIT) else .ok n

/-- `list_files`, after its extractors. -/
def listFiles (st : AppState) (env : Env) (q : ListFilesQuery) : Act ListFilesResponse := do
  let backend ← Act.ofExcept (st.backends.pick q.storageType)
  let limit ← Act.ofExcept (effectiveLimit q.limit)
  match q.startAfter with
  | some cursor => Act.ofExcept (validatePath cursor)
  | none => pure ()
  let files ← backend.list env ⟨some limit, q.startAfter⟩
  let count := files.length
  let nextCursor := if count = limit then files.getLast?.map FileEntry.name else none
  pure ⟨files, ⟨count, nextCursor⟩⟩

/-- `copy_file`, after its extractors. -/
def copyFile (crates : Crates) (st : AppState) (env : Env) (req : CopyFileRequest) : Act Unit := do
  if req.sourceStorageType = req.destinationStorageType then Act.fail .sameStorageType
  else
    Act.ofExcept (validatePath req.sourceFilePath)
    Act.ofExcept (validatePath req.destinationFilePath)
    let src ← Act.ofExcept (st.backends.pick req.sourceStorageType)
    let dst ← Act.ofExcept (st.backends.pick req.destinationStorageType)
    let _ ← streamCopy crates env src req.sourceFilePath dst req.destinationFilePath
      st.config.limits.maxResponseBytes st.config.limits.copyInactivitySecs
    pure ()

def FileEntry.json (e : FileEntry) : Json :=
  .obj [("name", .str e.name), ("size", .num e.size),
    ("lastModified", (e.lastModified.map Json.str).getD .null)]

def ListFilesResponse.json (r : ListFilesResponse) : Json :=
  .obj [("data", .arr (r.data.map FileEntry.json)),
    ("meta", .obj (("count", .num r.metaData.count) ::
      (r.metaData.nextCursor.map fun c => ("nextCursor", Json.str c)).toList))]

/-- `list_files`, its extractors first. -/
def listAction (crates : Crates) (st : AppState) (env : Env) (req : Request) :
    Act ListFilesResponse := do
  let q ← typedQuery crates req
  listFiles st env q

/-- `copy_file`, its extractors first. -/
def copyAction (crates : Crates) (st : AppState) (env : Env) (req : Request) : Act Unit := do
  let c ← typedJson crates st.config.limits.maxRequestBytes req
  copyFile crates st env c

def listService (crates : Crates) (st : AppState) (env : Env) (req : Request) : Service := do
  Proc.emit (.handler .listFiles)
  respond (listAction crates st env req) fun r => .json 200 r.json

def copyService (crates : Crates) (st : AppState) (env : Env) (req : Request) : Service := do
  Proc.emit (.handler .copyFile)
  respond (copyAction crates st env req) fun _ => .empty 204

def root : Response := .json 200 (.obj [("data", .str "FileFerry")])

def health : Response := .json 200 (.obj [("status", .str "ok")])

/-- `openapi`; of the document, what names the service. -/
def openapi (st : AppState) : Response :=
  if !st.config.security.adminEnabled then .empty 404
  else if !st.config.documentationEnabled then
    .json 404 (.obj [("error", .str "documentation_disabled")])
  else .json 200 (.obj [("openapi", .str "3.1.0"),
    ("info", .obj [("title", .str "FileFerry"), ("version", .str "0.2.2-alpha")])])

/-! ### Routes -/

def methodNotAllowed : Response := .empty 405

/-- A route with a `get` handler, which answers `HEAD` too. -/
def getRoute (req : Request) (s : Service) : Service :=
  if req.method = "GET" ∨ req.method = "HEAD" then s else pure methodNotAllowed

def postRoute (req : Request) (s : Service) : Service :=
  if req.method = "POST" then s else pure methodNotAllowed

/-- The routes, the gate around those that reach a backend. -/
def routes (crates : Crates) (st : AppState) (env : Env) (req : Request) : Service :=
  if req.path = "/v1/files" then requireBearer st req (getRoute req (listService crates st env req))
  else if req.path = "/v1/files/copy" then
    requireBearer st req (postRoute req (copyService crates st env req))
  else if req.path = "/" then getRoute req (pure root)
  else if req.path = "/health" then getRoute req (pure health)
  else if req.path = "/api" then getRoute req (pure (openapi st))
  else if crates.gatesFallback then requireBearer st req (pure (.empty 404))
  else pure (.empty 404)

/-- The pattern of the route a request matches. -/
def matchedPath (req : Request) : String :=
  if ["/v1/files", "/v1/files/copy", "/", "/health", "/api"].contains req.path then req.path
  else "<unmatched>"

/-! ### `trace_headers.rs` -/

/-- One turn of the generator. -/
def xorshift64 (state : UInt64) : UInt64 :=
  let state := state ^^^ (state <<< 13)
  let state := state ^^^ (state >>> 7)
  state ^^^ (state <<< 17)

def drawBytes : Nat → UInt64 → List UInt8
  | 0, _ => []
  | n + 1, state =>
    let state := xorshift64 state
    (state &&& 0xff).toUInt8 :: drawBytes n state

/-- `random_bytes`, from the clock and the counter. -/
def randomBytes (n : Nat) (nanos counter : UInt64) : List UInt8 := drawBytes n (nanos ^^^ counter)

def hexText (l : List UInt8) : String := String.ofList (l.flatMap fun b => hex 2 b.toNat)

/-- `char::is_ascii_hexdigit`. -/
def isAsciiHexdigit (c : Char) : Bool :=
  ('0' ≤ c && c ≤ '9') || ('a' ≤ c && c ≤ 'f') || ('A' ≤ c && c ≤ 'F')

/-- The second of four fields of a `traceparent`, when it is 32 hexadecimal digits. -/
def inboundTraceId (req : Request) : Option String :=
  match (req.headers.get "traceparent").bind HeaderValue.toStr with
  | none => none
  | some s =>
    match (s.toList.splitOn '-').map String.ofList with
    | [_, id, _, _] =>
      if (bytes id).length = 32 ∧ id.toList.all isAsciiHexdigit then some id else none
    | _ => none

def bumpTrace (w : World) : World := { w with traceCounter := w.traceCounter + 1 }

/-- `random_hex_128` and `generate_span_id`. -/
def mint (n : Nat) (nanos : UInt64) : Steps.Proc World Event String := do
  let w ← Proc.get
  Proc.step bumpTrace []
  pure (hexText (randomBytes n nanos w.traceCounter))

/-- `extract_or_generate_trace_id`. -/
def extractOrGenerateTraceId (env : Env) (req : Request) : Steps.Proc World Event String :=
  match inboundTraceId req with
  | some id => pure (toAsciiLowercase id)
  | none => mint 16 env.traceNanos

/-- The response with a header, when its text can be one. -/
def Response.withHeader (r : Response) (name text : String) : Response :=
  match HeaderValue.fromStr text with
  | some v => { r with headers := HeaderMap.insert r.headers name v }
  | none => r

/-- `traceparent`. -/
def traceparent (env : Env) (req : Request) (next : Service) : Service := do
  let traceId ← extractOrGenerateTraceId env req
  let spanId ← mint 8 env.spanNanos
  let response ← next
  pure ((response.withHeader "traceparent" ("00-" ++ traceId ++ "-" ++ spanId ++ "-01")).withHeader
    "x-trace-id" traceId)

/-! ### `security_headers.rs` -/

def securityDefaults : List (String × HeaderValue) :=
  [("content-security-policy",
      ⟨bytes "default-src 'none'; frame-ancestors 'none'", by decide⟩),
    ("strict-transport-security",
      ⟨bytes "max-age=63072000; includeSubDomains; preload", by decide⟩),
    ("x-frame-options", ⟨bytes "DENY", by decide⟩),
    ("x-content-type-options", ⟨bytes "nosniff", by decide⟩),
    ("referrer-policy", ⟨bytes "no-referrer", by decide⟩)]

/-- `security_headers`. -/
def securityHeaders (next : Service) : Service := do
  let response ← next
  pure { response with
    headers := securityDefaults.foldl (fun h p => HeaderMap.orInsert h p.1 p.2) response.headers }

/-! ### `tower-http` -/

def hexValue (c : Char) : Nat := if c ≤ '9' then c.toNat - 48 else c.toNat % 32 + 9

/-- The name of a query parameter: `+` is a space, and `%` comes before two hexadecimal digits. -/
def decodeName : List Char → List Char
  | [] => []
  | '+' :: l => ' ' :: decodeName l
  | '%' :: a :: b :: l =>
    if isAsciiHexdigit a && isAsciiHexdigit b then
      Char.ofNat (16 * hexValue a + hexValue b) :: decodeName l
    else '%' :: decodeName (a :: b :: l)
  | c :: l => c :: decodeName l

/-- The query has a parameter `startAfter`, whether it decodes or not. -/
def carriesCursor (query : String) : Bool :=
  (query.toList.splitOn '&').any fun pair =>
    decodeName (pair.takeWhile (· ≠ '=')) == "startAfter".toList

/-- The line `TraceLayer` writes of a request; the cursor of a listing is in the URI. -/
def traceRecord (req : Request) : Record :=
  let cursor := decide (req.path = "/v1/files") && carriesCursor (req.query.getD "")
  ⟨"tower_http::trace::on_request", .debug, [⟨"method", req.method, false⟩,
    ⟨"uri", req.uri, cursor⟩,
    ⟨"version", req.version, false⟩], "started processing request"⟩

def finishedRecord (response : Response) : Record :=
  ⟨"tower_http::trace::on_response", .debug, [⟨"status", toString response.status, false⟩],
    "finished processing request"⟩

/-- The reason phrase of a server error the service answers with. -/
def reason : Nat → String
  | 500 => "Internal Server Error"
  | 502 => "Bad Gateway"
  | 503 => "Service Unavailable"
  | _ => "<unknown status code>"

/-- The line of `DefaultOnFailure`. -/
def failedRecord (response : Response) : Record :=
  let classification := "Status code: " ++ toString response.status ++ " " ++ reason response.status
  ⟨"tower_http::trace::on_failure", .error, [⟨"classification", classification, false⟩],
    "response failed"⟩

/-- The lines of a response: a server error is a failure. -/
def responseRecords (response : Response) : List Record :=
  finishedRecord response ::
    if 500 ≤ response.status ∧ response.status < 600 then [failedRecord response] else []

/-- `TraceLayer`. -/
def traceLayer (req : Request) (next : Service) : Service := do
  Proc.emit (.log (traceRecord req))
  let response ← next
  Proc.step id ((responseRecords response).map Event.log)
  pure response

/-- `TimeoutLayer`. -/
def timeoutLayer (env : Env) (next : Service) : Service := timeout env.expire (.empty 408) next

/-! ### `access_log.rs` -/

def bumpLog (w : World) : World := { w with logCounter := w.logCounter + 1 }

/-- `extract_trace_id`. -/
def extractTraceId (env : Env) (req : Request) : Steps.Proc World Event String :=
  match inboundTraceId req with
  | some id => pure id
  | none => do
    let w ← Proc.get
    Proc.step bumpLog []
    pure (String.ofList (hex 16 (env.logNanos + w.logCounter).toNat))

def accessRecord (env : Env) (req : Request) (traceId : String) (response : Response) : Record where
  target := "fileferry::access_log"
  level := .info
  fields :=
    [⟨"method", req.method, false⟩, ⟨"route", matchedPath req, false⟩,
      ⟨"status", toString response.status, false⟩, ⟨"duration_us", toString env.durationUs, false⟩,
      ⟨"trace_id", traceId, false⟩]
  message := "http_request_completed"

/-- `access_log_middleware`. -/
def accessLog (env : Env) (req : Request) (next : Service) : Service := do
  let traceId ← extractTraceId env req
  let response ← next
  Proc.emit (.log (accessRecord env req traceId response))
  pure response

/-- A response to `HEAD` goes out without its body. -/
def stripBody (req : Request) (next : Service) : Service := do
  let response ← next
  pure (if req.method = "HEAD" then { response with body := none } else response)

/-- `build_router`: what answers a request. -/
def serve (crates : Crates) (st : AppState) (env : Env) (req : Request) : Service :=
  stripBody req <| accessLog env req <| traceLayer req <| securityHeaders <|
    traceparent env req <| timeoutLayer env <| routes crates st env req

end FileFerry
