import FileFerry.Posix.Same
import FileFerry.Results.Opening
import FileFerry.Results.Statuses

/-!
# Results — Relocation

Two data roots that hold the same, at different places.

* `Alike`: two backends whose roots hold the same, up to the times of the files.
* `FsBackend.SamePlace`: the path does not start with a slash, or leads to the same place below both
  roots.
* `FsBackend.openRead_relocated`, `FsBackend.writeAll_relocated`: what the calls then do.
* `copy_relocated`: a copy ends in the same way, and leaves roots that hold the same.
-/

namespace FileFerry
open Text Posix AsyncIo Steps

/-! ### Copies that do not look at the world -/

/-- How many writes are made, and how they end, does not depend on what they change. -/
theorem writeChunks_uniform (write write' : Nat → List UInt8 → World → World) :
    ∀ (cs : List (List UInt8)) (fault : Option (Nat × IoError)) (off : Nat) (w w' : World),
      (writeChunks write fault off cs w).1.length = (writeChunks write' fault off cs w').1.length ∧
        (writeChunks write fault off cs w).2 = (writeChunks write' fault off cs w').2
  | [], _, _, _, _ => by
      rw [writeChunks, writeChunks]
      exact ⟨rfl, rfl⟩
  | b :: cs, fault, off, w, w' => by
      have hrest : ∀ fault', ((Act.step (write off b) [] >>= fun _ =>
            writeChunks write fault' (off + b.length) cs : Act Unit) w).1.length
          = ((Act.step (write' off b) [] >>= fun _ =>
            writeChunks write' fault' (off + b.length) cs : Act Unit) w').1.length ∧
          ((Act.step (write off b) [] >>= fun _ =>
            writeChunks write fault' (off + b.length) cs : Act Unit) w).2
          = ((Act.step (write' off b) [] >>= fun _ =>
            writeChunks write' fault' (off + b.length) cs : Act Unit) w').2 := by
        intro fault'
        obtain ⟨h₁, h₂⟩ :=
          writeChunks_uniform write write' cs fault' (off + b.length) (write off b w)
          (write' off b w')
        rw [Act.step_bind, Act.step_bind]
        exact ⟨congrArg Nat.succ h₁, h₂⟩
      rcases fault with _ | ⟨_ | n, e⟩
      · exact hrest none
      · exact ⟨rfl, rfl⟩
      · exact hrest (some (n, e))

/-- How a copy ends does not depend on what it changes. -/
theorem copyInto_uniform {R : Type} [AsyncRead R] (write write' : Nat → List UInt8 → World → World)
    (env : Env) (reader : R) (w w' : World) :
    (copyInto write env reader w).1.length = (copyInto write' env reader w').1.length ∧
      (copyInto write env reader w).2 = (copyInto write' env reader w').2 := by
  obtain ⟨h₁, h₂⟩ := writeChunks_uniform write write' (copy env.copy reader).1 env.writeFault 0 w w'
  rw [copyInto_steps, copyInto_steps]
  refine ⟨h₁, ?_⟩
  rw [copyInto, copyInto]
  rcases hq : writeChunks write env.writeFault 0 (copy env.copy reader).1 w with ⟨steps, x⟩
  rcases hq' : writeChunks write' env.writeFault 0 (copy env.copy reader).1 w' with ⟨steps', x'⟩
  rw [hq, hq'] at h₂
  obtain rfl : x = x' := h₂
  rcases x with e | u
  · rw [Act.bind_error hq, Act.bind_error hq']
  · rw [Act.bind_ok hq, Act.bind_ok hq']
    rcases (copy env.copy reader).2 with e | rd
    · rfl
    · rcases env.flushFault with _ | e
      · rfl
      · rfl

/-! ### Two roots -/

/-- The roots of two backends hold the same, up to the times of the files, and so do the buckets. -/
structure Alike (fs fs' : FsBackend) (r r' : Loc) (w w' : World) : Prop where
  rooted : Rooted fs w.host r
  rooted' : Rooted fs' w'.host r'
  linkless : Linkless w.host.tree r
  same : SameBelow w.host.tree r w'.host.tree r'
  bucket : w.bucket = w'.bucket

theorem Alike.symm {fs fs' : FsBackend} {r r' : Loc} {w w' : World} (h : Alike fs fs' r r' w w') :
    Alike fs' fs r' r w' w :=
  ⟨h.rooted', h.rooted, h.same.linkless h.linkless, h.same.symm, h.bucket.symm⟩

namespace FsBackend

variable {fs fs' : FsBackend} {path : String} {w w' : World} {r r' : Loc}

/-- The path does not start with a slash; or both roots refuse it; or it leads to the same place
below both, which is not the root itself. -/
def SamePlace (fs fs' : FsBackend) (h h' : Host) (path : String) : Prop :=
  isAbsolute (Path.ofBytes (bytes path)) = false ∨
    (fs.okPrefix h path = false ∧ fs'.okPrefix h' path = false) ∨
    (fs.okPrefix h path = true ∧ fs'.okPrefix h' path = true ∧ fs.rel h path = fs'.rel h' path ∧
      fs.rel h path ≠ [])

/-- A path that does not start with a slash leads to the same place below every root. -/
theorem SamePlace.cases (hp : fs.SamePlace fs' w.host w'.host path) (hroot : Rooted fs w.host r)
    (hroot' : Rooted fs' w'.host r') :
    (fs.okPrefix w.host path = false ∧ fs'.okPrefix w'.host path = false) ∨
      (fs.okPrefix w.host path = true ∧ fs'.okPrefix w'.host path = true ∧
        fs.rel w.host path = fs'.rel w'.host path ∧ fs.rel w.host path ≠ []) := by
  rcases hp with ha | hp
  · have hrel : ∀ (g : FsBackend) (h : Host), g.rel h path = Path.ofBytes
      (bytes path) := fun g h => by
      simp only [rel, ha, Bool.false_eq_true, if_false]
    refine .inr ⟨okPrefix_relative (Host.ne_of_lookup hroot.lookup) ha,
      okPrefix_relative (Host.ne_of_lookup hroot'.lookup) ha, by rw [hrel, hrel], ?_⟩
    rw [hrel]
    exact path_ne_nil path
  · exact hp

theorem place_eq (fs : FsBackend) (h : Host) (r : Loc) (path : String) :
    fs.place h r path = (namesOf (fs.rel h path)).reverse ++ r := rfl

/-- **Reading** from two roots that hold the same. -/
theorem openRead_relocated (hw : Alike fs fs' r r' w w') (hv : validatePath path = .ok ())
    (hp : fs.SamePlace fs' w.host w'.host path) (env : Env) :
    (fs.openRead env path w).2 = (fs'.openRead env path w').2 := by
  have hlinks' := hw.same.linkless hw.linkless
  rcases hp.cases hw.rooted hw.rooted' with ⟨ho, ho'⟩ | ⟨ho, ho', hrel, hne⟩
  · rw [openRead_escaped ho, openRead_escaped ho']
  · by_cases hblock : Blocked w.host.tree r (fs.rel w.host path)
    · have hblock' := hw.same.blocked hblock
      rw [hrel] at hblock'
      rw [openRead_blocked hw.rooted hw.linkless hv ho hblock,
        openRead_blocked hw.rooted' hlinks' hv ho' hblock']
    · have hblock' : ¬ Blocked w'.host.tree r' (fs'.rel w'.host path) := fun h => by
        rw [← hrel] at h
        exact hblock (hw.same.symm.blocked h)
      by_cases hlong : TooLong w.host.tree r (fs.rel w.host path)
      · have hlong' := hw.same.tooLong hlong
        rw [hrel] at hlong'
        rw [openRead_tooLong hw.rooted hw.linkless hv ho hlong,
          openRead_tooLong hw.rooted' hlinks' hv ho' hlong']
      have hlong' : ¬ TooLong w'.host.tree r' (fs'.rel w'.host path) := fun h => by
        rw [← hrel] at h
        exact hlong (hw.same.symm.tooLong h)
      rw [openRead_free hw.rooted hw.linkless hv ho hne hblock hlong,
        openRead_free hw.rooted' hlinks' hv ho' (hrel ▸ hne) hblock' hlong', place_eq,
          place_eq, ← hrel]
      rcases hg : w.host.tree.get ((namesOf (fs.rel w.host path)).reverse ++ r) with _ | n
      · rw [hw.same.none hg]
      · cases n with
        | symlink target => exact absurd hg (hw.linkless _ target (List.suffix_append _ _))
        | dir => rw [hw.same.dir hg]
        | file g =>
            obtain ⟨g', hg', hc⟩ := hw.same.file hg
            rw [hg']
            simp only [readerOf, hc]

/-- What keeps the root where it is keeps two roots alike. -/
theorem alike_of_leaves {v v' : World} {P P' : Tree → Tree → Prop} (hw : Alike fs fs' r r' w w')
    (hl : Leaves w v P) (hl' : Leaves w' v' P') (hg : ∀ t, P w.host.tree t → Grows w.host.tree t)
    (hg' : ∀ t, P' w'.host.tree t → Grows w'.host.tree t)
    (hlinks : ∀ t, P w.host.tree t → Linkless t r)
    (hsame : ∀ t t', P w.host.tree t → P' w'.host.tree t' → SameBelow t r t' r') :
    Alike fs fs' r r' v v' := by
  obtain ⟨h, rfl, hc, hP⟩ := hl
  obtain ⟨h', rfl, hc', hP'⟩ := hl'
  exact ⟨rooted_grows hw.rooted (hg _ hP) hc, rooted_grows hw.rooted' (hg' _ hP') hc', hlinks _ hP,
    hsame _ _ hP hP', hw.bucket⟩

/-- **A copy into a file** that was opened leaves what was written by its end. -/
theorem copyInto_leaves {R : Type} [AsyncRead R] {v : World} {k : Loc} (env : Env) (reader : R)
    (hl : Leaves w v (Stored r k [])) :
    Leaves w (after v (copyInto (writeChunk k) env reader v).1) (Stored r k
      ((copy env.copy reader).1.take (copyInto (writeChunk k) env reader v).1.length).flatten) := by
  obtain ⟨h, rfl, hc, hst⟩ := hl
  have hrw : Rewrote h h k [] := ⟨hst.file, fun _ _ => rfl, rfl⟩
  have hnew := @writeChunks_take h k (copy env.copy reader).1 env.writeFault [] { w with host := h }
    (copyInto (writeChunk k) env reader { w with host := h }).1.length hrw (by
      rw [List.length_nil, ← copyInto_steps])
  rw [List.nil_append, List.length_nil, ← copyInto_steps, List.take_length] at hnew
  have hcopied := copyInto_file env reader { w with host := h } hrw
  obtain ⟨h', hafter⟩ : ∃ h', after { w with host := h } (copyInto (writeChunk k) env reader
      { w with host := h }).1 = { w with host := h' } :=
    after_of_forall (Q := fun v => ∃ h', v = { w with host := h' }) ⟨h, rfl⟩ fun s hs => by
      obtain ⟨-, d, -, h', hv, -⟩ := hcopied.steps s hs
      exact ⟨h', hv⟩
  rw [hafter] at hnew ⊢
  exact ⟨h', rfl, hnew.cwd.trans hc, hst.rewrote hnew⟩

/-! ### Writing -/

theorem writeAll_unopened {R : Type} [AsyncRead R] {e : FerryError} (env : Env) (reader : R)
    (h : (fs.opening path w).2 = .error e) :
    fs.writeAll env path reader w = ((fs.opening path w).1, .error e) := by
  rw [writeAll_eq]
  rcases hq : fs.opening path w with ⟨steps, x⟩
  rw [hq] at h
  obtain rfl : x = .error e := h
  rw [Act.bind_error hq]

theorem writeAll_copies {R : Type} [AsyncRead R] {l : Loc} (env : Env) (reader : R)
    (h : (fs.opening path w).2 = .ok l) : fs.writeAll env path reader w
      = ((fs.opening path w).1 ++
        (copyInto (writeChunk l) env reader (after w (fs.opening path w).1)).1,
        (copyInto (writeChunk l) env reader (after w (fs.opening path w).1)).2) := by
  rw [writeAll_eq]
  rcases hq : fs.opening path w with ⟨steps, x⟩
  rw [hq] at h
  obtain rfl : x = .ok l := h
  rw [Act.bind_ok hq]

theorem opening_escaped (ho : fs.okPrefix w.host path = false) :
    (fs.opening path w).2 = .error (.invalidPath "resolved path escapes fs root") ∧
      after w (fs.opening path w).1 = w := by
  have hresolve : fs.resolve path w = ([⟨w, [.log (refusal path "path resolution escaped fs root"
      [⟨"root", toStringLossy fs.rootBytes, false⟩])]⟩],
      .error (.invalidPath "resolved path escapes fs root")) := by
    rw [resolve, Act.get_bind, ho]
    rfl
  rw [opening, Act.bind_error hresolve]
  exact ⟨rfl, rfl⟩

/-- **Opening for writing** in two roots that hold the same: it fails in both, or both files are
empty now. -/
theorem opening_relocated (hw : Alike fs fs' r r' w w') (hv : validatePath path = .ok ())
    (hp : fs.SamePlace fs' w.host w'.host path) :
    (∃ e, (fs.opening path w).2 = .error e ∧ (fs'.opening path w').2 = .error e ∧
        Alike fs fs' r r' (after w (fs.opening path w).1) (after w' (fs'.opening path w').1)) ∨
      ∃ ns : Loc, w.host.tree.Open (ns ++ r) ∧ (fs.opening path w).2 = .ok (ns ++ r) ∧
        (fs'.opening path w').2 = .ok (ns ++ r') ∧
        Leaves w (after w (fs.opening path w).1) (Stored r (ns ++ r) []) ∧
        Leaves w' (after w' (fs'.opening path w').1) (Stored r' (ns ++ r') []) := by
  have hlinks' := hw.same.linkless hw.linkless
  rcases hp.cases hw.rooted hw.rooted' with ⟨ho, ho'⟩ | ⟨ho, ho', hrel, hne⟩
  · obtain ⟨h₁, h₂⟩ := opening_escaped ho
    obtain ⟨h₁', h₂'⟩ := opening_escaped ho'
    rw [h₂, h₂']
    exact .inl ⟨_, h₁, h₁', hw⟩
  have hne' : fs'.rel w'.host path ≠ [] := hrel ▸ hne
  by_cases hblock : Blocked w.host.tree r (fs.rel w.host path)
  · have hblock' := hw.same.blocked hblock
    rw [hrel] at hblock'
    rw [opening_blocked hw.rooted hw.linkless hv ho hblock,
      opening_blocked hw.rooted' hlinks' hv ho' hblock']
    exact .inl ⟨_, rfl, rfl, hw⟩
  have hblock' : ¬ Blocked w'.host.tree r' (fs'.rel w'.host path) := fun h => by
    rw [← hrel] at h
    exact hblock (hw.same.symm.blocked h)
  have hpl : fs.place w.host r path = (namesOf (fs.rel w.host path)).reverse ++ r := rfl
  have hpl' : fs'.place w'.host r' path = (namesOf (fs.rel w.host path)).reverse ++ r' := by
    rw [place_eq, hrel]
  have hmade : ∀ (ns : Loc) {v v' : World}, Leaves w v (Raised r (ns ++ r)) →
      Leaves w' v' (Raised r' (ns ++ r')) → Alike fs fs' r r' v v' := fun ns v v' h h' =>
    alike_of_leaves hw h h' (fun _ hr => hr.grows) (fun _ hr => hr.grows)
      (fun _ hr => hr.linkless hw.linkless) fun _ _ hr hr' => hw.same.raised hr hr'
  have hraised : ∀ {v v' : World}, Leaves w v (Raised r (fs.place w.host r path)) →
      Leaves w' v' (Raised r' (fs'.place w'.host r' path)) →
        Alike fs fs' r r' v v' := fun h h' => by
    rw [hpl] at h
    rw [hpl'] at h'
    exact hmade _ h h'
  -- a name that is too long stops both opens, at once or when the parent is made
  by_cases hlong : TooLong w.host.tree r (fs.rel w.host path)
  · have hlong' := hw.same.tooLong hlong
    rw [hrel] at hlong'
    rw [opening_tooLong hw.rooted hw.linkless hv ho hlong,
      opening_tooLong hw.rooted' hlinks' hv ho' hlong']
    exact .inl ⟨_, rfl, rfl, hw⟩
  have hlong' : ¬ TooLong w'.host.tree r' (fs'.rel w'.host path) := fun h => by
    rw [← hrel] at h
    exact hlong (hw.same.symm.tooLong h)
  by_cases hshort : fs.ShortNames w.host path
  swap
  · have hshort' : ¬ fs'.ShortNames w'.host path := by rwa [ShortNames, ← hrel]
    obtain ⟨h₁, h₂⟩ := opening_long hw.rooted hw.linkless hv ho hblock hlong hshort
    obtain ⟨h₁', h₂'⟩ := opening_long hw.rooted' hlinks' hv ho' hblock' hlong' hshort'
    rw [← hrel] at h₁' h₂'
    exact .inl ⟨_, h₁, h₁', hmade _ h₂ h₂'⟩
  have hshort' : fs'.ShortNames w'.host path := by rwa [ShortNames, ← hrel]
  by_cases hd : w.host.tree.get (fs.place w.host r path) = some .dir
  · have hd' : w'.host.tree.get (fs'.place w'.host r' path) = some .dir := by
      rw [hpl']; exact hw.same.dir hd
    obtain ⟨h₁, h₂⟩ := opening_dir hw.rooted hw.linkless hv ho hne hd
    obtain ⟨h₁', h₂'⟩ := opening_dir hw.rooted' hlinks' hv ho' hne' hd'
    exact .inl ⟨_, h₁, h₁', hraised h₂ h₂'⟩
  have hopen : w.host.tree.Open (fs.place w.host r path) := by
    rcases hg : w.host.tree.get (fs.place w.host r path) with _ | n
    · exact .inl hg
    · cases n with
      | symlink target => exact absurd hg (hw.linkless _ target (suffix_lexical _ _))
      | dir => exact absurd hg hd
      | file g => exact .inr ⟨g, hg⟩
  have hopen' : w'.host.tree.Open (fs'.place w'.host r' path) := by
    rw [hpl']; exact hw.same.opens hopen
  by_cases ht : Trailing (fs.rel w.host path)
  · -- a file there would block the path
    have hnone : ∀ {t : Tree} {q : Loc}, t.Open (lexical q (fs.rel w.host path)) →
        ¬ Blocked t q (fs.rel w.host path) → t.get (lexical q (fs.rel w.host path)) = none :=
          fun h hb =>
      h.resolve_right fun ⟨g, hg⟩ => hb (ht.blocked hg)
    obtain ⟨h₁, h₂⟩ := opening_trailing hw.rooted hw.linkless hv ho hblock hshort ht
      (hnone hopen hblock)
    obtain ⟨h₁', h₂'⟩ := opening_trailing hw.rooted' hlinks' hv ho' hblock' hshort' (hrel ▸ ht) (by
      rw [← hrel] at hblock'
      rw [hpl'] at hopen' ⊢
      exact hnone hopen' hblock')
    exact .inl ⟨_, h₁, h₁', hraised h₂ h₂'⟩
  · obtain ⟨h₁, h₂⟩ := opening_stored hw.rooted hw.linkless hv ho hne hblock hshort ht hopen
    obtain ⟨h₁', h₂'⟩ := opening_stored hw.rooted' hlinks' hv ho' hne' hblock' hshort' (hrel ▸ ht)
      hopen'
    rw [hpl'] at h₁' h₂'
    exact .inr ⟨_, hopen, h₁, h₁', h₂, h₂'⟩

/-- **Writing** to two roots that hold the same. -/
theorem writeAll_relocated {R : Type} [AsyncRead R] (hw : Alike fs fs' r r' w w')
    (hv : validatePath path = .ok ()) (hp : fs.SamePlace fs' w.host w'.host path)
      (env : Env) (reader : R) :
    (fs.writeAll env path reader w).2 = (fs'.writeAll env path reader w').2 ∧
      Alike fs fs' r r' (after w (fs.writeAll env path reader w).1)
        (after w' (fs'.writeAll env path reader w').1) := by
  rcases opening_relocated hw hv hp with ⟨e, h₁, h₁', hw'⟩ | ⟨ns, hopen, h₁, h₁', h₂, h₂'⟩
  · rw [writeAll_unopened env reader h₁, writeAll_unopened env reader h₁']
    exact ⟨rfl, hw'⟩
  · obtain ⟨hlen, hres⟩ :=
      copyInto_uniform (writeChunk (ns ++ r)) (writeChunk (ns ++ r')) env reader
      (after w (fs.opening path w).1) (after w' (fs'.opening path w').1)
    have hl := copyInto_leaves env reader h₂
    have hl' := copyInto_leaves env reader h₂'
    rw [← hlen] at hl'
    rw [writeAll_copies env reader h₁, writeAll_copies env reader h₁', after_append, after_append]
    refine ⟨hres, alike_of_leaves hw hl hl' (fun _ hs => hs.grows hopen)
      (fun _ hs => hs.grows (hw.same.opens hopen)) (fun _ hs => hs.linkless hw.linkless)
      fun _ _ hs hs' => hw.same.stored hs hs'⟩

end FsBackend

/-! ### The other backends -/

theorem S3Backend.openRead_uniform (b : S3Backend) (env : Env) (path : String) {w w' : World}
    (hb : w.bucket = w'.bucket) : (b.openRead env path w).2 = (b.openRead env path w').2 := by
  rw [S3Backend.openRead, await, Act.step_bind, Act.step_bind, Act.get_bind,
    Act.get_bind, id, id, hb]
  rcases env.getFault with _ | e
  · rcases w'.bucket.lookup (b.key path) with _ | c
    · rfl
    · rfl
  · rfl

/-- An upload does to every bucket the same, and ends in the same way. -/
theorem S3Backend.writeAll_uniform {R : Type} [AsyncRead R] (b : S3Backend)
    (env : Env) (path : String)
    (reader : R) : ∃ (g : Bucket → Bucket) (x : Except FerryError R), ∀ w,
      (b.writeAll env path reader w).2 = x ∧
        after w (b.writeAll env path reader w).1 = { w with bucket := g w.bucket } := by
  rcases ht : env.tmpFault with _ | e
  · have hcopy : ∀ w, (copyInto (fun _ _ v => v) env reader w).2
        = (copyInto (fun _ _ v => v) env reader World.empty).2 := fun w =>
      (copyInto_uniform _ _ env reader w World.empty).2
    have hsilent : ∀ w, after w (copyInto (fun _ _ v => v) env reader w).1 = w := fun w =>
      (copyInto_silent env reader w).1.after
    simp only [S3Backend.writeAll, ht]
    rcases hx : (copyInto (fun _ _ v => v) env reader World.empty).2 with e | rd
    · refine ⟨id, .error e, fun w => ?_⟩
      have h₂ := hsilent w
      rcases hq : copyInto (fun _ _ v => v) env reader w with ⟨steps, x⟩
      rw [hq] at h₂
      obtain rfl : x = .error e := by rw [← hx, ← hcopy w, hq]
      rw [Act.bind_error hq]
      exact ⟨rfl, h₂⟩
    · rcases hb : env.buildFault with _ | e
      · rcases hp : env.putFault with _ | e
        · refine ⟨fun m => m.insert (b.key path) (copy env.copy reader).1.flatten,
            .ok rd, fun w => ?_⟩
          have h₂ := hsilent w
          rcases hq : copyInto (fun _ _ v => v) env reader w with ⟨steps, x⟩
          rw [hq] at h₂
          obtain rfl : x = .ok rd := by rw [← hx, ← hcopy w, hq]
          rw [Act.bind_ok hq, after_append, h₂]
          simp only [putObject, hp]
          exact ⟨rfl, rfl⟩
        · refine ⟨id, .error (.upstream ("s3 put: " ++ e)), fun w => ?_⟩
          have h₂ := hsilent w
          rcases hq : copyInto (fun _ _ v => v) env reader w with ⟨steps, x⟩
          rw [hq] at h₂
          obtain rfl : x = .ok rd := by rw [← hx, ← hcopy w, hq]
          rw [Act.bind_ok hq, after_append, h₂]
          simp only [putObject, hp]
          exact ⟨rfl, rfl⟩
      · refine ⟨id, .error (.upstream ("preparing upload: " ++ e)), fun w => ?_⟩
        have h₂ := hsilent w
        rcases hq : copyInto (fun _ _ v => v) env reader w with ⟨steps, x⟩
        rw [hq] at h₂
        obtain rfl : x = .ok rd := by rw [← hx, ← hcopy w, hq]
        rw [Act.bind_ok hq, after_append, h₂]
        exact ⟨rfl, rfl⟩
  · refine ⟨id, .error (.io e), fun w => ?_⟩
    simp only [S3Backend.writeAll, ht]
    exact ⟨rfl, rfl⟩

/-- The one backend and the other: two with roots at different places, in which the path leads to
the same, or the same one without a root. -/
inductive Relocated (fs fs' : FsBackend) (w w' : World) (path : String) :
    BackendRef → BackendRef → Prop where
  | fs : validatePath path = .ok () → fs.SamePlace fs' w.host w'.host path →
      Relocated fs fs' w w' path (.fs fs) (.fs fs')
  | s3 (b : S3Backend) : Relocated fs fs' w w' path (.s3 b) (.s3 b)
  | offline (b : OfflineBackend) : Relocated fs fs' w w' path (.offline b) (.offline b)

namespace Relocated

variable {fs fs' : FsBackend} {r r' : Loc} {w w' : World} {path : String} {b b' : BackendRef}

theorem openRead (hw : Alike fs fs' r r' w w') (h : Relocated fs fs' w w' path b b') (env : Env) :
    (b.openRead env path w).2 = (b'.openRead env path w').2 := by
  rw [BackendRef.openRead_value, BackendRef.openRead_value]
  cases h with
  | fs hv hp => exact FsBackend.openRead_relocated hw hv hp env
  | s3 b => exact b.openRead_uniform env path hw.bucket
  | offline b => rfl

theorem writeAll {R : Type} [AsyncRead R] (hw : Alike fs fs' r r' w w')
    (h : Relocated fs fs' w w' path b b') (env : Env) (reader : R) :
    (b.writeAll env path reader w).2 = (b'.writeAll env path reader w').2 ∧
      Alike fs fs' r r' (after w (b.writeAll env path reader w).1)
        (after w' (b'.writeAll env path reader w').1) := by
  rw [BackendRef.writeAll_run, BackendRef.writeAll_run, after_cons, after_cons]
  cases h with
  | fs hv hp => exact FsBackend.writeAll_relocated hw hv hp env reader
  | s3 b =>
      obtain ⟨g, x, hg⟩ := b.writeAll_uniform env path reader
      obtain ⟨h₁, h₂⟩ := hg w
      obtain ⟨h₁', h₂'⟩ := hg w'
      refine ⟨h₁.trans h₁'.symm, ?_⟩
      show Alike fs fs' r r' (after w (b.writeAll env path reader w).1)
        (after w' (b.writeAll env path reader w').1)
      rw [h₂, h₂']
      exact ⟨hw.rooted, hw.rooted', hw.linkless, hw.same, congrArg g hw.bucket⟩
  | offline b => exact ⟨rfl, hw⟩

end Relocated

end FileFerry
