import FileFerry.Results.Resolve
import FileFerry.Source.Backend

/-!
# Results — Files

What the calls of the two stores do, one lemma for each.

* `FsBackend.resolve_run`, `FsBackend.openRead_cases`: a path is admitted or refused, and opened.
* `Opens`: what `write_all` does before it copies; `FsBackend.opening_opens`.
* `copyInto_file`: the file has, after each step of a copy, the bytes written by then.
* `Puts`: what `write_all` of the bucket does; `S3Backend.writeAll_puts`.
* `BackendRef.object`: the bytes a path names.
-/

namespace FileFerry
open Text Posix AsyncIo Steps

/-- Steps that leave the world as it is and emit nothing. -/
def Silent (w : World) (steps : List (Step World Event)) : Prop :=
  ∀ s ∈ steps, s.world = w ∧ s.events = []

theorem Silent.after {w : World} {steps : List (Step World Event)} (h : Silent w steps) :
    after w steps = w := after_of_forall (Q := fun v => v = w) rfl fun s hs => (h s hs).1

theorem Silent.trace {w : World} {steps : List (Step World Event)} (h : Silent w steps) :
    trace steps = [] := by
  refine List.flatMap_eq_nil_iff.mpr fun s hs => (h s hs).2

/-- One step for each record, which is logged. -/
def logging (w : World) (records : List Record) : List (Step World Event) :=
  records.map fun r => ⟨w, [.log r]⟩

/-! ### Admission -/

namespace FsBackend

variable {fs : FsBackend} {env : Env} {path : String} {w : World}

/-- The path stays under the root, and does not name a link. -/
def admits (fs : FsBackend) (h : Host) (path : String) : Bool :=
  fs.okPrefix h path && match h.lstat (fs.joined path) with
    | .ok n => !n.isSymlink
    | .error e => e == .enoent

/-- What the refusal of a path logs. -/
def refusals (fs : FsBackend) (h : Host) (path : String) : List Record :=
  if !fs.okPrefix h path then
    [refusal path "path resolution escaped fs root"
      [⟨"root", toStringLossy fs.rootBytes, false⟩]]
  else match h.lstat (fs.joined path) with
    | .ok (.symlink _) => [refusal path "rejected: path is a symlink" []]
    | _ => []

/-- **An admitted path** is the joined one; any other is refused. -/
theorem resolve_run (fs : FsBackend) (path : String) (w : World) :
    (fs.admits w.host path = true ∧ fs.resolve path w = ([], .ok (fs.joined path))) ∨
      (fs.admits w.host path = false ∧
        ∃ e, fs.resolve path w = (logging w (fs.refusals w.host path), .error e)) := by
  rw [resolve, Act.get_bind, admits, refusals]
  cases hp : fs.okPrefix w.host path with
  | false => exact .inr ⟨rfl, _, rfl⟩
  | true =>
      rcases hl : w.host.lstat (fs.joined path) with e | n
      · cases e with
        | enoent => exact .inl ⟨rfl, rfl⟩
        | eexist => exact .inr ⟨rfl, _, rfl⟩
        | enotdir => exact .inr ⟨rfl, _, rfl⟩
        | eisdir => exact .inr ⟨rfl, _, rfl⟩
        | enametoolong => exact .inr ⟨rfl, _, rfl⟩
        | eloop => exact .inr ⟨rfl, _, rfl⟩
      · cases n with
        | file f => exact .inl ⟨rfl, rfl⟩
        | dir => exact .inl ⟨rfl, rfl⟩
        | symlink target => exact .inr ⟨rfl, _, rfl⟩

/-- **What `open_read` does**: it refuses the path, opens what it names, or fails in silence. -/
theorem openRead_cases (fs : FsBackend) (env : Env) (path : String) (w : World) :
    (fs.admits w.host path = false ∧
        ∃ e, fs.openRead env path w = (logging w (fs.refusals w.host path), .error e)) ∨
      (fs.admits w.host path = true ∧
        ((∃ l, w.host.openRead (fs.joined path) = .ok l ∧ fs.openRead env path w
            = ([⟨w, [.touch (.read l)]⟩], .ok (readerOf (w.host.tree.get l) env.feed))) ∨
          ∃ x e, w.host.openRead (fs.joined path) = .error x ∧
            fs.openRead env path w = ([], .error e))) := by
  rw [openRead]
  rcases resolve_run fs path w with ⟨ha, e⟩ | ⟨ha, x, e⟩
  · refine .inr ⟨ha, ?_⟩
    rw [Act.bind_ok e, after_nil, Act.get_bind, List.nil_append]
    rcases ho : w.host.openRead (fs.joined path) with x | l
    · refine .inr ⟨x, ?_⟩
      cases x with
      | enoent => exact ⟨_, rfl, rfl⟩
      | eexist => exact ⟨_, rfl, rfl⟩
      | enotdir => exact ⟨_, rfl, rfl⟩
      | eisdir => exact ⟨_, rfl, rfl⟩
      | enametoolong => exact ⟨_, rfl, rfl⟩
      | eloop =>
          -- a link at the end, or too many on the way, was met by `lstat` before
          exfalso
          rw [admits, Bool.and_eq_true, Host.lstat] at ha
          rw [Host.openRead] at ho
          rcases hl : w.host.lookup false (fs.joined path) with e | l
          · rw [hl] at ha ho
            obtain rfl := Except.error.inj ho
            exact absurd ha.2 (by simp [bind, Except.bind])
          · rw [hl] at ha ho
            rcases hg : w.host.tree.get l with _ | n
            · simp [hg] at ho
            · cases n with
              | symlink target =>
                  simp [bind, Except.bind, Host.nodeAt, hg, Node.isSymlink] at ha
              | file f => simp [hg] at ho
              | dir => simp [hg] at ho
    · exact .inl ⟨l, rfl, rfl⟩
  · exact .inl ⟨ha, x, Act.bind_error e⟩

/-- The directories made for the parent of the path, the host after, and whether that succeeded. -/
def makeParent (h : Host) (p : Path) : List Loc × Host × Except Errno Unit :=
  match parent p with
  | none => ([], h, .ok ())
  | some cs => h.createDirAll cs.reverse

/-- What making the parent does to the tree. -/
theorem makeParent_made (fs : FsBackend) (h : Host) (path : String) :
    Made h (makeParent h (fs.joined path)).1 (makeParent h (fs.joined path)).2.1 := by
  rw [makeParent]
  split
  · exact .refl h
  · rename_i cs hp
    refine createDirAll_made (fun c hc => ?_) rfl
    obtain ⟨c', hc', -⟩ := parent_eq_some.mp hp
    refine slashFree_components (slashFree_joined fs path) c ?_
    rw [hc']
    exact List.mem_append_left _ (List.mem_reverse.mp hc)

/-- The step in which they are made. -/
def parentSteps (w : World) (p : Path) : List (Step World Event) :=
  match parent p with
  | none => []
  | some _ =>
    [⟨{ w with host := (makeParent w.host p).2.1 }, (makeParent w.host p).1.map
      fun l => .touch (.made l)⟩]

theorem after_parentSteps (w : World) (p : Path) :
    after w (parentSteps w p) = { w with host := (makeParent w.host p).2.1 } := by
  rw [parentSteps, makeParent]
  split <;> rfl

theorem createParent_run (p : Path) (w : World) :
    createParent p w = (parentSteps w p, (makeParent w.host p).2.2.mapError
      fun e => .io (.os e)) := by
  rcases hp : parent p with _ | cs
  · simp only [createParent, parentSteps, makeParent, hp]; rfl
  · simp only [createParent, parentSteps, makeParent, hp, Act.get_bind, setHost, Act.step_bind]
    rcases (w.host.createDirAll cs.reverse).2.2 with x | u
    · rfl
    · rfl

/-- What an open for writing logs when it fails. -/
def openRefusals (path : String) (x : Errno) : List Record :=
  if x = .eloop then [refusal path "write refused: destination is or became a symlink" []] else []

theorem openWrite_run (path : String) (p : Path) (w : World) :
    (∃ l h, w.host.openWrite p = .ok (l, h) ∧
        openWrite path p w = ([⟨{ w with host := h }, [.touch (.write l)]⟩], .ok l)) ∨
      ∃ x e, w.host.openWrite p = .error x ∧
        openWrite path p w = (logging w (openRefusals path x), .error e) ∧
        (x ≠ .eloop → e = .io (.os x)) := by
  rw [openWrite, Act.get_bind]
  rcases w.host.openWrite p with x | ⟨l, h⟩
  · refine .inr ⟨x, ?_⟩
    cases x with
    | enoent => exact ⟨_, rfl, rfl, fun _ => rfl⟩
    | eexist => exact ⟨_, rfl, rfl, fun _ => rfl⟩
    | enotdir => exact ⟨_, rfl, rfl, fun _ => rfl⟩
    | eisdir => exact ⟨_, rfl, rfl, fun _ => rfl⟩
    | enametoolong => exact ⟨_, rfl, rfl, fun _ => rfl⟩
    | eloop => exact ⟨_, rfl, rfl, fun h => absurd rfl h⟩
  · exact .inl ⟨l, h, rfl, rfl⟩

/-- `write_all` up to its copy. -/
def opening (fs : FsBackend) (path : String) : Act Loc := do
  let resolved ← fs.resolve path
  createParent resolved
  openWrite path resolved

theorem writeAll_eq {R : Type} [AsyncRead R] (fs : FsBackend) (env : Env) (path : String)
    (reader : R) :
    fs.writeAll env path reader = fs.opening path >>= fun l =>
      copyInto (writeChunk l) env reader := by
  rw [writeAll, opening, Act.bind_assoc]
  congr 1
  funext resolved
  rw [Act.bind_assoc]

/-- What `write_all` does before its copy: it refuses the path, fails to make its parent, fails to
open it, or opens it. -/
inductive Opens (fs : FsBackend) (path : String) (w : World) :
    List (Step World Event) × Except FerryError Loc → Prop where
  | refused {e : FerryError} : fs.admits w.host path = false →
      Opens fs path w (logging w (fs.refusals w.host path), .error e)
  | unmade {x : Errno} : fs.admits w.host path = true →
      (makeParent w.host (fs.joined path)).2.2 = .error x →
      Opens fs path w (parentSteps w (fs.joined path), .error (.io (.os x)))
  | unopened {x : Errno} {e : FerryError} : fs.admits w.host path = true →
      (makeParent w.host (fs.joined path)).2.2 = .ok () →
      (makeParent w.host (fs.joined path)).2.1.openWrite (fs.joined path) = .error x →
      (x ≠ .eloop → e = .io (.os x)) →
      Opens fs path w (parentSteps w (fs.joined path) ++
        logging { w with host := (makeParent w.host (fs.joined path)).2.1 } (openRefusals path x),
        .error e)
  | opened {l : Loc} {h : Host} : fs.admits w.host path = true →
      (makeParent w.host (fs.joined path)).2.2 = .ok () →
      (makeParent w.host (fs.joined path)).2.1.openWrite (fs.joined path) = .ok (l, h) →
      Opens fs path w (parentSteps w (fs.joined path) ++
        [⟨{ w with host := h }, [.touch (.write l)]⟩], .ok l)

/-- **What `write_all` does before its copy.** -/
theorem opening_opens (fs : FsBackend) (path : String) (w : World) :
    Opens fs path w (fs.opening path w) := by
  rw [opening]
  rcases resolve_run fs path w with ⟨ha, e⟩ | ⟨ha, x, e⟩
  · rw [Act.bind_ok e, after_nil, List.nil_append]
    have hparent := createParent_run (fs.joined path) w
    rcases hres : (makeParent w.host (fs.joined path)).2.2 with x | u
    · rw [hres] at hparent
      rw [Act.bind_error hparent]
      exact .unmade ha hres
    · rw [hres] at hparent
      rw [Act.bind_ok hparent, after_parentSteps]
      rcases openWrite_run path (fs.joined path)
        { w with host := (makeParent w.host (fs.joined path)).2.1 } with
        ⟨l, h, ho, e⟩ | ⟨x, y, ho, e, hx⟩
      · rw [e]; exact .opened ha hres ho
      · rw [e]; exact .unopened ha hres ho hx
  · rw [Act.bind_error e]
    exact .refused ha

end FsBackend

/-! ### Copying into a file -/

/-- The world `w`, but for the file at `l`, which has the bytes `c`. -/
def FileHas (h : Host) (w : World) (l : Loc) (c : List UInt8) (v : World) : Prop :=
  ∃ h', v = { w with host := h' } ∧ Rewrote h h' l c

theorem FileHas.of_step {h h' : Host} {w v : World} {l : Loc} {c : List UInt8}
    (hv : FileHas h { w with host := h' } l c v) : FileHas h w l c v := hv

/-- What writing does to the file at `l`, which has the bytes `c` already: after each step it has
some more of `total`, and in the end all of it, or a write failed. -/
structure Filled (h : Host) (l : Loc) (c total : List UInt8) (faulty : Prop) (w : World)
    (q : List (Step World Event) × Except FerryError Unit) : Prop where
  steps : ∀ s ∈ q.1, s.events = [] ∧ ∃ d, d <+: total ∧ FileHas h w l (c ++ d) s.world
  result : (∃ e, q.2 = .error (.io e) ∧ faulty) ∨
    q.2 = .ok () ∧ FileHas h w l (c ++ total) (after w q.1)

theorem writeChunks_file {h : Host} {l : Loc} : ∀ (cs : List (List UInt8))
    (fault : Option (Nat × IoError)) (c : List UInt8) (w : World), Rewrote h w.host l c →
    Filled h l c cs.flatten (fault ≠ none) w
      (writeChunks (FsBackend.writeChunk l) fault c.length cs w)
  | [], fault, c, w, hw => by
      rw [writeChunks]
      exact ⟨by simp, .inr ⟨rfl, w.host, rfl, by simpa using hw⟩⟩
  | b :: cs, fault, c, w, hw => by
      -- one chunk, and the others after it
      have hrest : ∀ fault', (fault' ≠ none → fault ≠ none) →
          Filled h l c (b :: cs).flatten (fault ≠ none) w
            ((Act.step (FsBackend.writeChunk l c.length b) [] >>= fun _ =>
              writeChunks (FsBackend.writeChunk l) fault' (c.length + b.length) cs :
                Act Unit) w) := by
        intro fault' hf
        have hv : Rewrote h (FsBackend.writeChunk l c.length b w).host l (c ++ b) := hw.append b
        have ih := writeChunks_file cs fault' (c ++ b) _ hv
        rw [List.length_append] at ih
        rw [Act.step_bind]
        refine ⟨List.forall_mem_cons.mpr ⟨⟨rfl, b, List.prefix_append _ _, _, rfl, hv⟩,
          fun s hs => ?_⟩, ?_⟩
        · obtain ⟨he, d, hd, hhas⟩ := ih.steps s hs
          refine ⟨he, b ++ d, (List.prefix_append_right_inj b).mpr hd, ?_⟩
          rw [← List.append_assoc]
          exact hhas.of_step
        · refine ih.result.imp (fun ⟨e, h₁, h₂⟩ => ⟨e, h₁, hf h₂⟩) fun ⟨h₁, h₂⟩ => ⟨h₁, ?_⟩
          rw [List.flatten_cons, ← List.append_assoc]
          exact h₂.of_step
      rcases fault with _ | ⟨_ | n, e⟩
      · exact hrest none id
      · exact ⟨by simp [writeChunks], .inl ⟨e, rfl, by simp⟩⟩
      · exact hrest (some (n, e)) fun _ => by simp

/-- No write to a destination fails. -/
structure Env.Writes (env : Env) : Prop where
  write : env.writeFault = none
  flush : env.flushFault = none
  tmp : env.tmpFault = none
  build : env.buildFault = none
  put : env.putFault = none

/-- What a copy into an empty file does: the file has, after each step, the bytes written by then,
and in the end all of them, or the copy failed. -/
structure Copied {R : Type} [AsyncRead R] (h : Host) (l : Loc) (env : Env) (reader : R) (w : World)
    (q : List (Step World Event) × Except FerryError R) : Prop where
  steps : ∀ s ∈ q.1, s.events = [] ∧
    ∃ d, d <+: (copy env.copy reader).1.flatten ∧ FileHas h w l d s.world
  result : (∃ e, q.2 = .error (.io e) ∧ (env.Writes → (copy env.copy reader).2 = .error e ∧
      FileHas h w l (copy env.copy reader).1.flatten (after w q.1))) ∨
    ∃ r, q.2 = .ok r ∧ (copy env.copy reader).2 = .ok r ∧
      FileHas h w l (copy env.copy reader).1.flatten (after w q.1)

/-- **What a copy into an empty file does.** -/
theorem copyInto_file {R : Type} [AsyncRead R] {h : Host} {l : Loc} (env : Env) (reader : R)
    (w : World) (hw : Rewrote h w.host l []) :
    Copied h l env reader w (copyInto (FsBackend.writeChunk l) env reader w) := by
  have hfill := writeChunks_file (copy env.copy reader).1 env.writeFault [] w hw
  rw [List.length_nil] at hfill
  rw [copyInto]
  rcases hres : writeChunks (FsBackend.writeChunk l) env.writeFault 0 (copy env.copy reader).1 w
    with ⟨steps, x | u⟩
  · rw [hres] at hfill
    rw [Act.bind_error hres]
    refine ⟨hfill.steps, .inl ?_⟩
    rcases hfill.result with ⟨e, h₁, h₂⟩ | ⟨h₁, -⟩
    · obtain rfl := Except.error.inj h₁
      exact ⟨e, rfl, fun hwr => absurd hwr.write h₂⟩
    · cases h₁
  · rw [hres] at hfill
    have hall : FileHas h w l (copy env.copy reader).1.flatten (after w steps) := by
      rcases hfill.result with ⟨e, h₁, -⟩ | ⟨-, h₂⟩
      · cases h₁
      · simpa using h₂
    rw [Act.bind_ok hres]
    rcases hc : (copy env.copy reader).2 with e | r
    · simp only [Act.fail_run, List.append_nil]
      exact ⟨hfill.steps, .inl ⟨e, rfl, fun _ => ⟨hc, hall⟩⟩⟩
    · rcases hf : env.flushFault with _ | e
      · simp only [Act.pure_run, List.append_nil]
        exact ⟨hfill.steps, .inr ⟨r, rfl, hc, hall⟩⟩
      · simp only [Act.fail_run, List.append_nil]
        refine ⟨hfill.steps, .inl ⟨e, rfl, fun hwr => ?_⟩⟩
        rw [hwr.flush] at hf; cases hf

/-- **A file that opens** has, after a copy none of whose writes fails, what was copied. -/
theorem FsBackend.writeAll_opened {R : Type} [AsyncRead R] {fs : FsBackend}
    {env : Env} {path : String}
    (reader : R) {w : World} {l : Loc} (hopen : (fs.opening path w).2 = .ok l) (hw : env.Writes) :
    (after w (fs.writeAll env path reader w).1).host.fileAt (fs.joined path)
        = some (copy env.copy reader).1.flatten ∧
      ((∃ e, (fs.writeAll env path reader w).2 = .error (.io e) ∧
        (copy env.copy reader).2 = .error e) ∨
        ∃ r, (fs.writeAll env path reader w).2 = .ok r ∧ (copy env.copy reader).2 = .ok r) := by
  have hop := FsBackend.opening_opens fs path w
  generalize ho : fs.opening path w = q at hop hopen
  cases hop with
  | refused => cases hopen
  | unmade => cases hopen
  | unopened => cases hopen
  | @opened l' h ha hp hl =>
      rw [FsBackend.writeAll_eq, Act.bind_ok ho]
      simp only [after_append, after_cons, after_nil]
      obtain ⟨hlook, hfree, hrw⟩ := openWrite_rewrote (FsBackend.joined_ne_nil fs path)
        (FsBackend.slashFree_joined fs path) hl
      have hcopied := copyInto_file env reader { w with host := h } hrw
      have hfile : ∀ {v : World}, FileHas (FsBackend.makeParent w.host (fs.joined path)).2.1
          { w with host := h } l' (copy env.copy reader).1.flatten v →
          v.host.fileAt (fs.joined path) = some (copy env.copy reader).1.flatten := by
        rintro v ⟨h', rfl, hr⟩
        exact hr.fileAt hfree hlook
      rcases hcopied.result with ⟨e, h₁, h₂⟩ | ⟨r, h₁, h₂, h₃⟩
      · obtain ⟨h₂, h₃⟩ := h₂ hw
        exact ⟨hfile h₃, .inl ⟨e, h₁, h₂⟩⟩
      · exact ⟨hfile h₃, .inr ⟨r, h₁, h₂⟩⟩

/-! ### The bucket -/

/-- Chunks written to the temporary file leave the world as it is. -/
theorem writeChunks_silent {w : World} : ∀ (cs : List (List UInt8)) (fault : Option (Nat × IoError))
    (off : Nat), Silent w (writeChunks (fun _ _ v => v) fault off cs w).1 ∧
      ((∃ e, (writeChunks (fun _ _ v => v) fault off cs w).2 = .error (.io e) ∧ fault ≠ none) ∨
        (writeChunks (fun _ _ v => v) fault off cs w).2 = .ok ())
  | [], _, _ => by rw [writeChunks]; exact ⟨by simp [Silent], .inr rfl⟩
  | b :: cs, fault, off => by
      have hrest : ∀ fault', (fault' ≠ none → fault ≠ none) →
        Silent w (((Act.step (fun v => v) [] >>=
            fun _ => writeChunks (fun _ _ v => v) fault' (off + b.length) cs : Act Unit) w).1) ∧
          ((∃ e, ((Act.step (fun v => v) [] >>= fun _ =>
              writeChunks (fun _ _ v => v) fault' (off + b.length) cs : Act Unit) w).2
              = .error (.io e) ∧ fault ≠ none) ∨
            ((Act.step (fun v => v) [] >>= fun _ =>
              writeChunks (fun _ _ v => v) fault' (off + b.length) cs : Act Unit) w).2
              = .ok ()) := by
        intro fault' hf
        obtain ⟨hs, hr⟩ := writeChunks_silent (w := w) cs fault' (off + b.length)
        rw [Act.step_bind]
        exact ⟨List.forall_mem_cons.mpr ⟨⟨rfl, rfl⟩, hs⟩,
          hr.imp (fun ⟨e, h₁, h₂⟩ => ⟨e, h₁, hf h₂⟩) id⟩
      rcases fault with _ | ⟨_ | n, e⟩
      · exact hrest none id
      · exact ⟨by simp [writeChunks, Silent], .inl ⟨e, rfl, by simp⟩⟩
      · exact hrest (some (n, e)) fun _ => by simp

/-- A copy into the temporary file. -/
theorem copyInto_silent {R : Type} [AsyncRead R] (env : Env) (reader : R) (w : World) :
    Silent w (copyInto (fun _ _ v => v) env reader w).1 ∧
      ((∃ e, (copyInto (fun _ _ v => v) env reader w).2 = .error (.io e) ∧
          (env.Writes → ∃ x, (copy env.copy reader).2 = .error x)) ∨
        ∃ r, (copyInto (fun _ _ v => v) env reader w).2 = .ok r ∧
          (copy env.copy reader).2 = .ok r) := by
  obtain ⟨hs, hr⟩ := writeChunks_silent (w := w) (copy env.copy reader).1 env.writeFault 0
  rw [copyInto]
  rcases hres : writeChunks (fun _ _ v => v) env.writeFault 0 (copy env.copy reader).1 w with
    ⟨steps, x | u⟩
  · rw [hres] at hs hr
    rw [Act.bind_error hres]
    refine ⟨hs, .inl ?_⟩
    rcases hr with ⟨e, h, hf⟩ | h
    · obtain rfl := Except.error.inj h
      exact ⟨e, rfl, fun hw => absurd hw.write hf⟩
    · cases h
  · rw [hres] at hs
    rw [Act.bind_ok hres]
    rcases hcopy : (copy env.copy reader).2 with e | r
    · simp only [Act.fail_run, List.append_nil]
      exact ⟨hs, .inl ⟨e, rfl, fun _ => ⟨e, rfl⟩⟩⟩
    · rcases hf : env.flushFault with _ | e
      · simp only [Act.pure_run, List.append_nil]
        exact ⟨hs, .inr ⟨r, rfl, rfl⟩⟩
      · simp only [Act.fail_run, List.append_nil]
        exact ⟨hs, .inl ⟨e, rfl, fun hw => by rw [hw.flush] at hf; cases hf⟩⟩

/-- What `write_all` of the bucket does: it fails before the upload, the upload is refused, or the
object is stored. -/
inductive Puts {R : Type} [AsyncRead R] (b : S3Backend) (env : Env) (path : String) (reader : R)
    (w : World) : List (Step World Event) × Except FerryError R → Prop where
  | failed {steps : List (Step World Event)} {e : FerryError} : Silent w steps →
      (env.Writes → ∃ x, (copy env.copy reader).2 = .error x) →
      Puts b env path reader w (steps, .error e)
  | refused {steps : List (Step World Event)} {e : FerryError} : Silent w steps → ¬ env.Writes →
      Puts b env path reader w (steps ++ [⟨w, [.putObject (b.key path)]⟩], .error e)
  | stored {steps : List (Step World Event)} {r : R} {v : World} : Silent w steps →
      (copy env.copy reader).2 = .ok r →
      v = { w with bucket := w.bucket.insert (b.key path) (copy env.copy reader).1.flatten } →
      Puts b env path reader w
        (steps ++ [⟨w, [.putObject (b.key path)]⟩, ⟨v, []⟩, ⟨v, []⟩], .ok r)

/-- **What `write_all` of the bucket does.** -/
theorem S3Backend.writeAll_puts {R : Type} [AsyncRead R] (b : S3Backend) (env : Env) (path : String)
    (reader : R) (w : World) : Puts b env path reader w (b.writeAll env path reader w) := by
  rcases ht : env.tmpFault with _ | e
  · obtain ⟨hs, hr⟩ := copyInto_silent env reader w
    simp only [S3Backend.writeAll, ht]
    rcases hc : copyInto (fun _ _ v => v) env reader w with ⟨steps, x | r⟩
    · rw [hc] at hs hr
      rw [Act.bind_error hc]
      rcases hr with ⟨e, -, h⟩ | ⟨r, h, -⟩
      · exact .failed hs h
      · cases h
    · rw [hc] at hs hr
      rw [Act.bind_ok hc, hs.after]
      have hcopy : (copy env.copy reader).2 = .ok r := by
        rcases hr with ⟨e, h, -⟩ | ⟨r', h, h'⟩
        · cases h
        · rw [Except.ok.inj h, h']
      rcases hb : env.buildFault with _ | e
      · rcases hp : env.putFault with _ | e
        · simp only [putObject, hp]
          exact .stored hs hcopy rfl
        · simp only [putObject, hp]
          exact .refused hs fun hw => by rw [hw.put] at hp; cases hp
      · simp only [Act.fail_run, List.append_nil]
        exact .failed hs fun hw => by rw [hw.build] at hb; cases hb
  · simp only [S3Backend.writeAll, ht]
    exact .failed (by simp [Silent]) fun hw => by rw [hw.tmp] at ht; cases ht

/-! ### Objects -/

/-- The bytes of the object a path names, if there is one. -/
def BackendRef.object (b : BackendRef) (w : World) (path : String) : Option (List UInt8) :=
  match b with
  | .fs b => w.host.fileAt (b.joined path)
  | .s3 b => w.bucket.lookup (b.key path)
  | .offline _ => none

end FileFerry
