import FileFerry.Source.S3

/-!
# Source — Backend

`backend/mod.rs`: the calls every backend answers, the choice of a backend, the cap on the bytes
of a transfer, and `streamCopy`, which reads from one backend and writes to another.
-/

namespace FileFerry
open Text AsyncIo Steps

/-! ### The cap on a transfer -/

/-- `LimitedReader`; its counter is an unsigned number of 64 bits. -/
structure LimitedReader (R : Type) where
  inner : R
  max : Nat
  counter : Nat

/-- The error of a transfer over the cap. -/
def capError (max : Nat) : IoError :=
  .other ("transfer exceeded configured size cap of " ++ toString max ++ " bytes")

namespace LimitedReader

variable {R : Type}

def new (inner : R) (max : Nat) : LimitedReader R := ⟨inner, max, 0⟩

/-- `LimitedReader::poll_read`. -/
def pollRead [AsyncRead R] (r : LimitedReader R) (buf : ReadBuf) : Polled (LimitedReader R) :=
  if r.max < r.counter then ⟨.ready (.error (capError r.max)), r, buf⟩
  else
    let before := buf.filled.length
    let p := AsyncRead.pollRead r.inner buf
    match p.poll with
    | .ready (.ok ()) =>
      let added := p.buf.filled.length - before
      let newTotal := (r.counter + added) % 2 ^ 64
      let r' : LimitedReader R := ⟨p.reader, r.max, newTotal⟩
      if r.max < newTotal then
        -- the bytes over the cap do not stay in the buffer
        ⟨.ready (.error (capError r.max)), r', p.buf.setFilled before⟩
      else ⟨.ready (.ok ()), r', p.buf⟩
    | other => ⟨other, ⟨p.reader, r.max, r.counter⟩, p.buf⟩

instance [AsyncRead R] : AsyncRead (LimitedReader R) where
  pollRead := LimitedReader.pollRead
  clock r := clock r.inner
  rank r := rank r.inner

end LimitedReader

/-! ### The calls -/

namespace BackendRef

/-- `Backend::kind`. -/
def kind : BackendRef → StorageType
  | fs _ => .fs
  | s3 _ => .s3
  | offline b => b.reportsAs

/-- `Backend::list`. -/
def list (b : BackendRef) (env : Env) (opts : ListOptions) : Act (List FileEntry) := do
  Act.emit (.call b .list)
  match b with
  | fs b => b.list opts
  | s3 b => b.list env opts
  | offline b => b.list opts

/-- `Backend::open_read`. -/
def openRead (b : BackendRef) (env : Env) (path : String) : Act Script := do
  Act.emit (.call b (.openRead path))
  let r ← match b with
    | fs b => b.openRead env path
    | s3 b => b.openRead env path
    | offline b => b.openRead path
  Act.emit (.opened b path)
  pure r

/-- `Backend::write_all`. -/
def writeAll {R : Type} [AsyncRead R] (b : BackendRef) (env : Env) (path : String) (reader : R) :
    Act R := do
  Act.emit (.call b (.writeAll path))
  match b with
  | fs b => b.writeAll env path reader
  | s3 b => b.writeAll env path reader
  | offline b => b.writeAll path reader

end BackendRef

structure Backends where
  fs : BackendRef
  s3 : Option BackendRef

/-- `Backends::pick`. -/
def Backends.pick (b : Backends) : StorageType → Except FerryError BackendRef
  | .fs => .ok b.fs
  | .s3 =>
    match b.s3 with
    | some r => .ok r
    | none => .error (.backendNotConfigured .s3)

/-! ### Copying -/

/-- `path_hash`: twelve hexadecimal digits of the digest. -/
def pathHash (crates : Crates) (path : String) : String :=
  String.ofList (((crates.sha256 (bytes path)).take 6).flatMap fun b => hex 2 b.toNat)

/-- The audit line of a transfer. -/
def transferCompleted (crates : Crates) (env : Env) (src dst : BackendRef)
    (srcPath dstPath : String)
    (total : Nat) : Record where
  target := "fileferry::backend"
  level := .info
  fields :=
    [⟨"source", src.kind.asStr, false⟩, ⟨"destination", dst.kind.asStr, false⟩,
      ⟨"source_path_hash", pathHash crates srcPath, true⟩,
      ⟨"destination_path_hash", pathHash crates dstPath, true⟩,
      ⟨"bytes", toString total, false⟩, ⟨"duration_ms", toString env.durationMs, false⟩,
      ⟨"outcome", "success", false⟩]
  message := "file_transfer_completed"

/-- The reader `stream_copy` hands to the destination. -/
def guarded (reader : Script) (maxBytes inactivity : Nat) : LimitedReader (TimeoutReader Script) :=
  .new ((TimeoutReader.new reader).setTimeout (some inactivity)) maxBytes

/-- `stream_copy`. -/
def streamCopy (crates : Crates) (env : Env) (src : BackendRef) (srcPath : String)
    (dst : BackendRef) (dstPath : String) (maxBytes inactivity : Nat) : Act Nat := do
  let reader ← src.openRead env srcPath
  let limited ← dst.writeAll env dstPath (guarded reader maxBytes inactivity)
  log (transferCompleted crates env src dst srcPath dstPath limited.counter)
  pure limited.counter

end FileFerry
