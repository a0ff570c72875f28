import FileFerry.Results.Layers

/-!
# Results — Calls

What the steps of the backends do, as far as it can be told from the constructs they are built of:
for each call a `Does`, with what it needs of the events and of the worlds.
-/

namespace FileFerry
open Text Posix AsyncIo Steps

variable {Q : World → Prop} {P : Event → Prop}

/-- Giving way does nothing. -/
theorem Does.await : Does Q P await fun _ => True := .step (fun _ h => h) (by simp) trivial

/-- A log line is one event, and leaves the world. -/
theorem Does.log {r : Record} (h : P (.log r)) : Does Q P (log r) fun _ => True := .emit h trivial

/-- A new host is a new world, which `Q` must allow. -/
theorem Does.setHost {h : Host} {evs : List Event} (hQ : ∀ w, Q w → Q { w with host := h })
    (hP : ∀ e ∈ evs, P e) : Does Q P (setHost h evs) fun _ => True := .step hQ hP trivial

/-- What a refusal does: it is logged, and the call fails. -/
theorem Does.refuse {α : Type} {r : Record} {e : FerryError} (h : P (.log r)) :
    Does Q P (do FileFerry.log r; (Act.fail e : Act α)) fun _ => True :=
  Does.seq (Does.log h) fun _ => .fail trivial

/-- Chunks are written one after another, and emit nothing. -/
theorem Does.writeChunks {write : Nat → List UInt8 → World → World}
    (hQ : ∀ off c w, Q w → Q (write off c w)) :
    ∀ (cs : List (List UInt8)) (fault : Option (Nat × IoError)) (off : Nat),
      Does Q P (writeChunks write fault off cs) fun _ => True
  | [], _, _ => by rw [FileFerry.writeChunks]; exact .pure trivial
  | c :: cs, fault, off => by
      have hrest : ∀ fault, Does Q P (do
          Act.step (write off c) []
          FileFerry.writeChunks write fault (off + c.length) cs) fun _ => True := fun fault =>
        Does.seq (.step (hQ off c) (by simp) trivial) fun _ => Does.writeChunks hQ cs fault _
      rcases fault with _ | ⟨_ | n, e⟩
      · exact hrest none
      · exact .fail trivial
      · exact hrest (some (n, e))

/-- A copy writes chunks until the reader ends, and emits nothing either. -/
theorem Does.copyInto {R : Type} [AsyncRead R] {write : Nat → List UInt8 → World → World}
    {env : Env} {reader : R} (hQ : ∀ off c w, Q w → Q (write off c w)) :
    Does Q P (copyInto write env reader) fun _ => True := by
  refine Does.seq (Does.writeChunks hQ _ _ _) fun _ => ?_
  split
  · exact .fail trivial
  · split
    · exact .fail trivial
    · exact .pure trivial

/-! ### The file-system backend -/

namespace FsBackend

variable {fs : FsBackend} {env : Env} {path : String}

/-- The lines that tell of a refusal of the path. -/
def Logs (P : Event → Prop) (path : String) : Prop :=
  ∀ message more, (∀ f ∈ more, f.user = false) → P (.log (refusal path message more))

/-- Resolving a path only logs, where it refuses one. -/
theorem resolve_does (hlog : Logs P path) : Does Q P (fs.resolve path) fun _ => True := by
  refine Does.seq (.get fun _ _ => trivial) fun w => ?_
  split
  · exact Does.refuse (hlog _ _ (by simp))
  · split
    · exact Does.refuse (hlog _ _ (by simp))
    · exact .pure trivial
    · exact .pure trivial
    · exact .fail trivial

/-- A listing of the data root keeps the world and emits nothing. -/
theorem list_does (opts : ListOptions) : Does Q P (fs.list opts) fun _ => True := by
  refine Does.seq Does.await fun _ => Does.seq (.get fun _ _ => trivial) fun w => ?_
  split
  · exact .fail trivial
  · exact .pure trivial

/-- Opening a file for reading touches it. -/
theorem openRead_does (hlog : Logs P path) (hread : ∀ l, P (.touch (.read l))) :
    Does Q P (fs.openRead env path) fun _ => True := by
  refine Does.seq (resolve_does hlog) fun resolved => Does.seq (.get fun _ _ => trivial) fun w => ?_
  split
  · exact Does.seq (.emit (hread _) trivial) fun _ => .pure trivial
  · exact .fail trivial
  · split
    · exact Does.refuse (hlog _ _ (by simp))
    · exact .fail trivial

/-- Making the parent touches the directories it makes. -/
theorem createParent_does {resolved : Path} (hQ : ∀ w h, Q w → Q { w with host := h })
    (htouch : ∀ t, P (.touch t)) : Does Q P (createParent resolved) fun _ => True := by
  rw [createParent]
  split
  · exact .pure trivial
  · refine Does.seq (.get fun _ _ => trivial) fun w =>
      Does.seq (Does.setHost (fun _ h => hQ _ _ h) (by simp [htouch])) fun _ => ?_
    split
    · exact .pure trivial
    · exact .fail trivial

/-- Opening for writing touches the file. -/
theorem openWrite_does {resolved : Path} (hQ : ∀ w h, Q w → Q { w with host := h })
    (hlog : Logs P path) (htouch : ∀ t, P (.touch t)) :
    Does Q P (openWrite path resolved) fun _ => True := by
  refine Does.seq (.get fun _ _ => trivial) fun w => ?_
  split
  · exact Does.seq (Does.setHost (fun _ h => hQ _ _ h) (by simp [htouch])) fun _ => .pure trivial
  · split
    · exact Does.refuse (hlog _ _ (by simp))
    · exact .fail trivial

theorem writeAll_does {R : Type} [AsyncRead R] {reader : R}
    (hQ : ∀ w h, Q w → Q { w with host := h }) (hlog : Logs P path) (htouch : ∀ t, P (.touch t)) :
    Does Q P (fs.writeAll env path reader) fun _ => True :=
  Does.seq (resolve_does hlog) fun _ => Does.seq (createParent_does hQ htouch) fun _ =>
    Does.seq (openWrite_does hQ hlog htouch) fun _ => Does.copyInto fun _ _ w hw => hQ w _ hw

end FsBackend

/-! ### The bucket backend -/

namespace S3Backend

variable {b : S3Backend} {env : Env} {path : String}

/-- The pages of a listing are asked for one by one, and change nothing. -/
theorem listPages_does (limit : Nat) (startAfter : Option String) :
    ∀ (server : Server) (token : Option String) (out : List FileEntry),
      Does Q P (b.listPages limit startAfter server token out) fun _ => True
  | [], _, _ => Does.seq Does.await fun _ => .fail trivial
  | answer :: server, token, out => by
      refine Does.seq Does.await fun _ => ?_
      split
      · exact .fail trivial
      · dsimp only
        split
        · exact .pure trivial
        · split
          · exact .pure trivial
          · exact listPages_does limit startAfter server _ _

/-- Opening an object does nothing but ask for it. -/
theorem openRead_does : Does Q P (b.openRead env path) fun _ => True := by
  refine Does.seq Does.await fun _ => Does.seq (.get fun _ _ => trivial) fun w => ?_
  split
  · exact .fail trivial
  · split
    · exact .fail trivial
    · exact .pure trivial

/-- An upload changes the bucket, and says so. -/
theorem putObject_does {content : List UInt8} (hQ : ∀ w bucket, Q w → Q { w with bucket := bucket })
    (hput : ∀ key, P (.putObject key)) : Does Q P (b.putObject env path content) fun _ => True := by
  refine Does.seq (.emit (hput _) trivial) fun _ => ?_
  split
  · exact .fail trivial
  · exact Does.seq (.step (fun w hw => hQ w _ hw) (by simp) trivial) fun _ => Does.await

theorem writeAll_does {R : Type} [AsyncRead R] {reader : R}
    (hQ : ∀ w bucket, Q w → Q { w with bucket := bucket }) (hput : ∀ key, P (.putObject key)) :
    Does Q P (b.writeAll env path reader) fun _ => True := by
  rw [writeAll]
  split
  · exact .fail trivial
  · refine Does.seq (Does.copyInto fun _ _ _ hw => hw) fun r => ?_
    split
    · exact .fail trivial
    · exact Does.seq (putObject_does hQ hput) fun _ => .pure trivial

end S3Backend

/-! ### Either backend -/

namespace BackendRef

/-- Whatever the backend, an open is told of before and after. -/
theorem openRead_does (b : BackendRef) (env : Env) (path : String)
    (hcall : P (.call b (.openRead path))) (hopened : P (.opened b path))
    (hlog : FsBackend.Logs P path) (hread : ∀ l, P (.touch (.read l))) :
    Does Q P (b.openRead env path) fun _ => True := by
  have key : ∀ p : Act Script, Does Q P p (fun _ => True) →
      Does Q P (Act.emit (.call b (.openRead path)) >>= fun _ => p >>= fun r =>
        Act.emit (.opened b path) >>= fun _ => pure r) fun _ => True := fun p hp =>
    Does.seq (.emit hcall trivial) fun _ => Does.seq hp fun _ =>
      Does.seq (.emit hopened trivial) fun _ => .pure trivial
  cases b with
  | fs b => exact key _ (FsBackend.openRead_does hlog hread)
  | s3 b => exact key _ S3Backend.openRead_does
  | offline b => exact key _ (.fail trivial)

/-- …and a listing before. -/
theorem list_does (b : BackendRef) (env : Env) (opts : ListOptions) (hcall : P (.call b .list)) :
    Does Q P (b.list env opts) fun _ => True := by
  refine Does.seq (.emit hcall trivial) fun _ => ?_
  cases b with
  | fs b => exact FsBackend.list_does opts
  | s3 b => exact S3Backend.listPages_does _ _ _ _ _
  | offline b => exact .fail trivial

/-- …and a write before; what it changes is the host, or the bucket. -/
theorem writeAll_does {R : Type} [AsyncRead R] (b : BackendRef) (env : Env) (path : String)
    (reader : R) (hQ : ∀ w h bucket, Q w → Q { w with host := h, bucket := bucket })
    (hcall : P (.call b (.writeAll path))) (hlog : FsBackend.Logs P path)
    (htouch : ∀ t, P (.touch t)) (hput : ∀ key, P (.putObject key)) :
    Does Q P (b.writeAll env path reader) fun _ => True := by
  refine Does.seq (.emit hcall trivial) fun _ => ?_
  cases b with
  | fs b => exact FsBackend.writeAll_does (fun w h hw => hQ w h w.bucket hw) hlog htouch
  | s3 b => exact S3Backend.writeAll_does (fun w bucket hw => hQ w w.host bucket hw) hput
  | offline b => exact .fail trivial

end BackendRef

end FileFerry
