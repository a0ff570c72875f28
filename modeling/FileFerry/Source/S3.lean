import FileFerry.Source.Fs

/-!
# Source — S3

`backend/s3.rs` and `backend/offline.rs`: the backend that keeps its files as objects of a bucket,
and the one that answers every call with an error.
-/

namespace FileFerry
open Text AsyncIo Steps

namespace S3Backend

/-- `S3Backend::key`. -/
def key (b : S3Backend) (path : String) : String :=
  if b.bucketPath = "" then path
  else if b.bucketPath.toList.getLast? = some '/' then b.bucketPath ++ path
  else b.bucketPath ++ "/" ++ path

/-- `S3Backend::strip_prefix`. -/
def stripPrefix (b : S3Backend) (key : String) : Option String :=
  if b.bucketPath = "" then some key
  else if b.bucketPath.toList.getLast? = some '/' then Text.stripPrefix b.bucketPath key
  else Text.stripPrefix (b.bucketPath ++ "/") key

/-- `prefix_arg` of `S3Backend::list`. -/
def prefixArg (b : S3Backend) : Option String :=
  if b.bucketPath = "" then none
  else if b.bucketPath.toList.getLast? = some '/' then some b.bucketPath
  else some (b.bucketPath ++ "/")

/-- `start_after_key` of `S3Backend::list`. -/
def startAfterKey (b : S3Backend) (startAfter : Option String) : Option String :=
  startAfter.map fun name =>
    match b.prefixArg with
    | some p => p ++ name
    | none => name

/-- What `list` makes of an object. -/
def entry (b : S3Backend) (obj : S3Object) : Option FileEntry :=
  match obj.key with
  | none => none
  | some key =>
    match b.stripPrefix key with
    | none => none
    | some name =>
      if name = "" ∨ '/' ∈ name.toList then none
      else some
        { name := name
          size := (obj.size.getD 0).toNat
          lastModified := obj.lastModified.map fun t => t.getD "" }

/-- The inner loop of `S3Backend::list`: the entries of a page, until there are `limit` of them. -/
def collect (b : S3Backend) (limit : Nat) : List FileEntry → List S3Object → List FileEntry
  | out, [] => out
  | out, obj :: contents =>
    match b.entry obj with
    | none => collect b limit out contents
    | some e =>
      let out := out ++ [e]
      if limit ≤ out.length then out else collect b limit out contents

/-- The request for a page. -/
def listRequest (b : S3Backend) (startAfter continuationToken : Option String) :
    ListObjectsV2Input where
  bucket := b.bucket
  keyPrefix := b.prefixArg
  startAfter := if continuationToken = none then b.startAfterKey startAfter else none
  continuationToken := continuationToken

/-- The outer loop of `S3Backend::list`, one page a turn. -/
def listPages (b : S3Backend) (limit : Nat) (startAfter : Option String) :
    Server → Option String → List FileEntry → Act (List FileEntry)
  | [], _, _ => do
    await
    Act.fail (.upstream "s3 list: dispatch failure")
  | answer :: server, continuationToken, out => do
    await
    match answer (b.listRequest startAfter continuationToken) with
    | .error e => Act.fail (.upstream ("s3 list: " ++ e))
    | .ok resp =>
      let out := b.collect limit out (resp.contents.getD [])
      if limit ≤ out.length ∨ resp.isTruncated.getD false = false then pure out
      else if resp.nextContinuationToken = none then pure out
      else b.listPages limit startAfter server resp.nextContinuationToken out

/-- `S3Backend::list`. -/
def list (b : S3Backend) (env : Env) (opts : ListOptions) : Act (List FileEntry) :=
  b.listPages (opts.limit.getD DEFAULT_LIST_LIMIT) opts.startAfter env.server none []

/-- `S3Backend::open_read`. -/
def openRead (b : S3Backend) (env : Env) (path : String) : Act Script := do
  await
  let w ← Act.get
  match env.getFault with
  | some e => Act.fail (.upstream ("s3 get: " ++ e))
  | none =>
    match w.bucket.lookup (b.key path) with
    | none => Act.fail (.notFound path)
    | some content => pure ⟨deliver env.feed content, 0⟩

/-- `PutObject`, which stores the whole object or nothing; the answer comes a step later. -/
def putObject (b : S3Backend) (env : Env) (path : String) (content : List UInt8) : Act Unit := do
  Act.emit (.putObject (b.key path))
  match env.putFault with
  | some e => Act.fail (.upstream ("s3 put: " ++ e))
  | none =>
    Act.step (fun w => { w with bucket := w.bucket.insert (b.key path) content }) []
    await

/-- `S3Backend::write_all`; it gives back the reader, whose counter the caller looks at. -/
def writeAll {R : Type} [AsyncRead R] (b : S3Backend) (env : Env) (path : String) (reader : R) :
    Act R := do
  match env.tmpFault with
  | some e => Act.fail (.io e)
  | none =>
    -- the temporary file is the program's own, so writing to it leaves the world as it is
    let r ← copyInto (fun _ _ w => w) env reader
    match env.buildFault with
    | some e => Act.fail (.upstream ("preparing upload: " ++ e))
    | none =>
      b.putObject env path (copy env.copy reader).1.flatten
      pure r

end S3Backend

namespace OfflineBackend

def blocked : FerryError := .upstream "offline mode: outbound blocked by FILEFERRY_OFFLINE"

def list (_ : OfflineBackend) (_ : ListOptions) : Act (List FileEntry) := Act.fail blocked

def openRead (_ : OfflineBackend) (_ : String) : Act Script := Act.fail blocked

def writeAll {R : Type} (_ : OfflineBackend) (_ : String) (_ : R) : Act R := Act.fail blocked

end OfflineBackend

end FileFerry
