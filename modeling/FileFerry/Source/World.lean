import FileFerry.Source.Config
import FileFerry.Source.Http
import FileFerry.Posix.Calls
import FileFerry.Support.Steps

/-!
# Source — World

What a request meets: the two stores and the process's counters (`World`), what is not the
program's own doing (`Env`), and the third-party code it calls (`Crates`).  What it does is told
by its events: the calls of the backends, what the file-system backend touches, and the log.
-/

namespace FileFerry
open Posix AsyncIo Steps

/-- `backend/fs.rs`: `FsBackend`, the bytes of its `root`. -/
structure FsBackend where
  rootBytes : List UInt8
  deriving DecidableEq

def FsBackend.root (fs : FsBackend) : Path := .ofBytes fs.rootBytes

/-- `backend/s3.rs`: `S3Backend`. -/
structure S3Backend where
  bucket : String
  bucketPath : String
  deriving DecidableEq

/-- `backend/offline.rs`: `OfflineBackend`. -/
structure OfflineBackend where
  reportsAs : StorageType
  deriving DecidableEq

/-- `backend/mod.rs`: `Arc<dyn Backend>`. -/
inductive BackendRef where
  | fs (b : FsBackend)
  | s3 (b : S3Backend)
  | offline (b : OfflineBackend)
  deriving DecidableEq

/-- The objects of the bucket, by their keys. -/
abbrev Bucket := AList fun _ : String => List UInt8

structure World where
  host : Host
  bucket : Bucket
  /-- `COUNTER` of `trace_headers::random_bytes`. -/
  traceCounter : UInt64
  /-- `COUNTER` of `access_log::extract_trace_id`. -/
  logCounter : UInt64

/-- Nothing is stored. -/
def World.empty : World := ⟨⟨Tree.empty, [], 0⟩, ∅, 0, 0⟩

/-! ### Events -/

inductive Level where
  | error | warn | info | debug | trace
  deriving DecidableEq

/-- A field of a log record.  `user` tells whether a path or the cursor of the request, or the
text of a rejection, goes into its value. -/
structure Field where
  name : String
  value : String
  user : Bool
  deriving DecidableEq

structure Record where
  target : String
  level : Level
  fields : List Field
  message : String
  deriving DecidableEq

inductive Call where
  | list
  | openRead (path : String)
  | writeAll (path : String)
  deriving DecidableEq

/-- What the file-system backend touches: a directory it makes, a file it opens for reading, and
one it opens for writing. -/
inductive Touch where
  | made (l : Loc)
  | read (l : Loc)
  | write (l : Loc)
  deriving DecidableEq

inductive Handler where
  | listFiles
  | copyFile
  deriving DecidableEq

inductive Event where
  | handler (h : Handler)
  | call (b : BackendRef) (c : Call)
  | opened (b : BackendRef) (path : String)
  | touch (t : Touch)
  | putObject (key : String)
  | log (r : Record)
  deriving DecidableEq

/-! ### What is not the program's doing -/

/-- `ListObjectsV2Input`. -/
structure ListObjectsV2Input where
  bucket : String
  keyPrefix : Option String
  startAfter : Option String
  continuationToken : Option String

/-- `aws_sdk_s3::types::Object`; a date that does not format is `some none`. -/
structure S3Object where
  key : Option String
  size : Option Int
  lastModified : Option (Option String)

/-- `ListObjectsV2Output`. -/
structure ListObjectsV2Output where
  contents : Option (List S3Object)
  isTruncated : Option Bool
  nextContinuationToken : Option String

/-- What answers a request for a page. -/
abbrev Endpoint := ListObjectsV2Input → Except String ListObjectsV2Output

/-- The answers of a server to the requests of one listing, in their order; a request after the
last fails. -/
abbrev Server := List Endpoint

/-- What happens to one request. -/
structure Env where
  /-- After how many steps `request_timeout_secs` are over. -/
  expire : Option Nat
  /-- How the bytes of the source come. -/
  feed : List Feed
  /-- How `tokio::io::copy` is driven. -/
  copy : CopyPlan
  /-- The write that fails, of those to the destination file or the temporary file. -/
  writeFault : Option (Nat × IoError)
  flushFault : Option IoError
  tmpFault : Option IoError
  buildFault : Option String
  getFault : Option String
  putFault : Option String
  server : Server
  durationMs : Nat
  durationUs : Nat
  traceNanos : UInt64
  spanNanos : UInt64
  logNanos : UInt64

/-- Nothing fails, and there is time. -/
def Env.calm : Env where
  expire := none
  feed := []
  copy := ⟨fun _ => 8191, fun _ => 8192⟩
  writeFault := none
  flushFault := none
  tmpFault := none
  buildFault := none
  getFault := none
  putFault := none
  server := []
  durationMs := 0
  durationUs := 0
  traceNanos := 0
  spanNanos := 0
  logNanos := 0

/-- What the program calls: the decoders of `axum` and `serde`, and `sha2`. -/
structure Crates where
  parseQuery : String → Except String ListFilesQuery
  parseJson : List UInt8 → Except String CopyFileRequest
  jsonContentType : Option HeaderValue → Bool
  sha256 : List UInt8 → List UInt8
  /-- Whether a layer of a merged router also wraps the fallback of the whole. -/
  gatesFallback : Bool

/-- Decoders that accept nothing. -/
def Crates.strict : Crates where
  parseQuery _ := .error "Failed to deserialize query string"
  parseJson _ := .error "Failed to parse the request body as JSON"
  jsonContentType _ := false
  sha256 _ := []
  gatesFallback := true

/-! ### Actions -/

/-- What a backend or a handler does. -/
abbrev Act := Steps.Act World Event FerryError

/-- A step that only waits. -/
def await : Act Unit := Act.step id []

def log (r : Record) : Act Unit := Act.emit (.log r)

/-- One step on the file system. -/
def setHost (h : Host) (evs : List Event) : Act Unit := Act.step (fun w => { w with host := h }) evs

/-- Writes, one step each, of the chunks one after the other from the offset `off`; the write
that `fault` counts down to fails. -/
def writeChunks (write : Nat → List UInt8 → World → World) :
    Option (Nat × IoError) → Nat → List (List UInt8) → Act Unit
  | _, _, [] => pure ()
  | some (0, e), _, _ :: _ => Act.fail (.io e)
  | fault, off, c :: cs => do
    Act.step (write off c) []
    writeChunks write (fault.map fun f => (f.1 - 1, f.2)) (off + c.length) cs

end FileFerry
