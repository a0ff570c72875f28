import FileFerry.Source.World

/-!
# Source — Fs

`backend/fs.rs`: the backend that keeps its files under a directory of the host.
-/

namespace FileFerry
open Text Posix AsyncIo Steps

/-- `backend/mod.rs`: `DEFAULT_LIST_LIMIT`. -/
def DEFAULT_LIST_LIMIT : Nat := 1000

/-- `backend/mod.rs`: `MAX_LIST_LIMIT`. -/
def MAX_LIST_LIMIT : Nat := 10000

structure ListOptions where
  limit : Option Nat
  startAfter : Option String

/-- The decimal digits of `n`, with zeros to at least `w` of them. -/
def pad (w n : Nat) : String :=
  let digits := (toString n).toList
  String.ofList (List.replicate (w - digits.length) '0' ++ digits)

/-- `format_rfc3339`. -/
def formatRfc3339 (secs : Nat) : String :=
  let days := secs / 86400
  let secsOfDay := secs % 86400
  let h := secsOfDay / 3600
  let m := secsOfDay / 60 % 60
  let s := secsOfDay % 60
  let z : Int := days + 719468
  let era : Int := (if z ≥ 0 then z else z - 146096).tdiv 146097
  let doe : Nat := (z - era * 146097).toNat
  let yoe := (doe - doe / 1460 + doe / 36524 - doe / 146096) / 365
  let y : Int := yoe + era * 400
  let doy := doe - (365 * yoe + yoe / 4 - yoe / 100)
  let mp := (5 * doy + 2) / 153
  let d := doy - (153 * mp + 2) / 5 + 1
  let mOut := if mp < 10 then mp + 3 else mp - 9
  let yOut := if mOut ≤ 2 then y + 1 else y
  pad 4 yOut.toNat ++ "-" ++ pad 2 mOut ++ "-" ++ pad 2 d ++ "T" ++ pad 2 h ++ ":" ++ pad 2 m ++ ":"
    ++ pad 2 s ++ "Z"

example : formatRfc3339 1582934400 = "2020-02-29T00:00:00Z" := by decide

/-- `is_symlink_loop`. -/
def isSymlinkLoop (e : IoError) : Bool := e.rawOsError == some .eloop

/-- The reader of an open file, or of a directory, which cannot be read. -/
def readerOf (n : Option Node) (feed : List Feed) : Script :=
  match n with
  | some (.file f) => ⟨deliver feed f.content, 0⟩
  | _ => ⟨[.error (.os .eisdir)], 0⟩

namespace FsBackend

def fsTarget : String := "fileferry::backend::fs"

/-- The record of a refusal, which holds the path as it came. -/
def refusal (path message : String) (more : List Field) : Record :=
  ⟨fsTarget, .warn, ⟨"requested_path", path, true⟩ :: more, message⟩

def canonicalRoot (fs : FsBackend) (h : Host) : Path :=
  match h.canonicalize fs.root with
  | .ok p => p
  | .error _ => fs.root

def joined (fs : FsBackend) (path : String) : Path := join fs.root (Path.ofBytes (bytes path))

/-- Whether some ancestor of the joined path is the root. -/
def okPrefix (fs : FsBackend) (h : Host) (path : String) : Bool :=
  (ancestors (fs.joined path)).any fun a =>
    a == components (fs.canonicalRoot h) || a == components fs.root

/-- `FsBackend::resolve`. -/
def resolve (fs : FsBackend) (path : String) : Act Path := do
  let w ← Act.get
  if !fs.okPrefix w.host path then
    log (refusal path "path resolution escaped fs root"
      [⟨"root", toStringLossy fs.rootBytes, false⟩])
    Act.fail (.invalidPath "resolved path escapes fs root")
  else
    match w.host.lstat (fs.joined path) with
    | .ok (.symlink _) =>
      log (refusal path "rejected: path is a symlink" [])
      Act.fail (.invalidPath "path is a symlink; symlinks are not permitted")
    | .ok _ => pure (fs.joined path)
    | .error .enoent => pure (fs.joined path)
    | .error e => Act.fail (.io (.os e))

/-- What `list` makes of a directory entry. -/
def entry (fs : FsBackend) (h : Host) (x : Name) : Option FileEntry :=
  match h.lstat (join fs.root [x]) with
  | .ok (.file f) => some
      { name := toStringLossy x
        size := f.content.length
        lastModified := if 0 ≤ f.modified then some (formatRfc3339 f.modified.toNat) else none }
  | _ => none

/-- `FsBackend::list`, of the names `readdir` gave. -/
def listing (fs : FsBackend) (h : Host) (names : List Name) (opts : ListOptions) : List FileEntry :=
  let collected := names.filterMap (fs.entry h)
  let sorted := collected.insertionSort fun a b => bytes a.name ≤ bytes b.name
  let filtered := sorted.filter fun e =>
    match opts.startAfter with
    | some cursor => bytes cursor < bytes e.name
    | none => true
  filtered.take (opts.limit.getD DEFAULT_LIST_LIMIT)

/-- `FsBackend::list`. -/
def list (fs : FsBackend) (opts : ListOptions) : Act (List FileEntry) := do
  await
  let w ← Act.get
  match w.host.readDir fs.root with
  | .error e => Act.fail (.io (.os e))
  | .ok names => pure (fs.listing w.host names opts)

/-- `FsBackend::open_read`. -/
def openRead (fs : FsBackend) (env : Env) (path : String) : Act Script := do
  let resolved ← fs.resolve path
  let w ← Act.get
  match w.host.openRead resolved with
  | .ok l =>
    Act.emit (.touch (.read l))
    pure (readerOf (w.host.tree.get l) env.feed)
  | .error .enoent => Act.fail (.notFound path)
  | .error e =>
    if isSymlinkLoop (.os e) then
      log (refusal path "open refused: path became a symlink between check and open" [])
      Act.fail (.invalidPath "path is a symlink; symlinks are not permitted")
    else Act.fail (.io (.os e))

/-- `create_dir_all` of the parent of the resolved path. -/
def createParent (resolved : Path) : Act Unit := do
  match parent resolved with
  | none => pure ()
  | some cs =>
    let w ← Act.get
    let r := w.host.createDirAll cs.reverse
    setHost r.2.1 (r.1.map fun l => .touch (.made l))
    match r.2.2 with
    | .ok () => pure ()
    | .error e => Act.fail (.io (.os e))

/-- The open of `write_all`: the location of the file, which is empty now. -/
def openWrite (path : String) (resolved : Path) : Act Loc := do
  let w ← Act.get
  match w.host.openWrite resolved with
  | .ok (l, h) =>
    setHost h [.touch (.write l)]
    pure l
  | .error e =>
    if isSymlinkLoop (.os e) then
      log (refusal path "write refused: destination is or became a symlink" [])
      Act.fail (.invalidPath "path is a symlink; symlinks are not permitted")
    else Act.fail (.io (.os e))

/-- One write of `tokio::io::copy` to the file at `l`. -/
def writeChunk (l : Loc) (off : Nat) (c : List UInt8) (w : World) : World :=
  { w with host := w.host.writeAt l off c }

end FsBackend

/-- `tokio::io::copy` of the reader into a file, and the flush: the reader at its end. -/
def copyInto {R : Type} [AsyncRead R] (write : Nat → List UInt8 → World → World) (env : Env)
    (reader : R) : Act R := do
  let copied := copy env.copy reader
  writeChunks write env.writeFault 0 copied.1
  match copied.2 with
  | .error e => Act.fail (.io e)
  | .ok r =>
    match env.flushFault with
    | some e => Act.fail (.io e)
    | none => pure r

/-- `FsBackend::write_all`; it gives back the reader, whose counter the caller looks at. -/
def FsBackend.writeAll {R : Type} [AsyncRead R] (fs : FsBackend) (env : Env) (path : String)
    (reader : R) : Act R := do
  let resolved ← fs.resolve path
  FsBackend.createParent resolved
  let l ← FsBackend.openWrite path resolved
  copyInto (FsBackend.writeChunk l) env reader

end FileFerry
