import FileFerry.Results.Sources
import FileFerry.Results.Writes

/-!
# Results — Statuses

What the status of a copy says of its destination, at whatever step the copy is given up.

* `writing_take`: after `n` steps of a write the object is what it was, unless the write has
  `Changed` it by then.
* `writing_failed`: a write that fails with another status than 500 leaves the object as it was.
* `truthful_iff`: an answer that is neither 204 nor 500 means an unchanged destination exactly when
  the request is not given up after its write changed it.
-/

namespace FileFerry
open Text Posix AsyncIo Steps

/-- After `n` steps of its write the object is another one than in `w`. -/
def BackendRef.Changed {R : Type} [AsyncRead R] (b : BackendRef) (env : Env)
    (path : String) (reader : R)
    (w : World) (n : Nat) : Prop :=
  match b with
  | .fs b => (∃ l, (b.opening path w).2 = .ok l) ∧ (b.opening path w).1.length ≤ n ∧
      w.host.fileAt (b.joined path)
        ≠ some ((copy env.copy reader).1.take (n - (b.opening path w).1.length)).flatten
  | .s3 b => (∃ r, (b.writeAll env path reader w).2 = .ok r) ∧
      (b.writeAll env path reader w).1.length ≤ n + 1 ∧
      w.bucket.lookup (b.key path) ≠ some (copy env.copy reader).1.flatten
  | .offline _ => False

/-! ### Into a file -/

/-- **The file after so many writes** has so many chunks more. -/
theorem writeChunks_take {h : Host} {l : Loc} : ∀ (cs : List (List UInt8))
    (fault : Option (Nat × IoError)) (c : List UInt8) (w : World) (n : Nat), Rewrote h w.host l c →
    n ≤ (writeChunks (FsBackend.writeChunk l) fault c.length cs w).1.length →
    Rewrote h (after w ((writeChunks (FsBackend.writeChunk l) fault c.length cs w).1.take n)).host l
      (c ++ (cs.take n).flatten)
  | [], fault, c, w, n, hw, _ => by
      rw [writeChunks]
      simpa using hw
  | b :: cs, fault, c, w, n, hw, hn => by
      have hrest : ∀ fault', n ≤ ((Act.step (FsBackend.writeChunk l c.length b) [] >>= fun _ =>
            writeChunks (FsBackend.writeChunk l) fault' (c.length + b.length) cs :
              Act Unit) w).1.length →
          Rewrote h (after w (((Act.step (FsBackend.writeChunk l c.length b) [] >>= fun _ =>
            writeChunks (FsBackend.writeChunk l) fault' (c.length + b.length) cs :
              Act Unit) w).1.take
              n)).host l (c ++ ((b :: cs).take n).flatten) := by
        intro fault' hn
        rw [Act.step_bind] at hn ⊢
        rcases n with _ | n
        · simpa using hw
        · have hv : Rewrote h (FsBackend.writeChunk l c.length b w).host l (c ++ b) := hw.append b
          have ih := writeChunks_take cs fault' (c ++ b) _ n hv
          rw [List.length_append] at ih
          have h := ih (Nat.le_of_succ_le_succ hn)
          rw [List.append_assoc] at h
          exact h
      rcases fault with _ | ⟨_ | k, e⟩
      · exact hrest none hn
      · obtain rfl : n = 0 := Nat.le_zero.mp hn
        simpa [writeChunks] using hw
      · exact hrest (some (k, e)) hn

/-- The steps of a copy into a file are its writes. -/
theorem copyInto_steps {R : Type} [AsyncRead R]
    (write : Nat → List UInt8 → World → World) (env : Env)
    (reader : R) (w : World) : (copyInto write env reader w).1
      = (writeChunks write env.writeFault 0 (copy env.copy reader).1 w).1 := by
  rw [copyInto]
  rcases hres : writeChunks write env.writeFault 0 (copy env.copy reader).1 w with ⟨steps, x | u⟩
  · rw [Act.bind_error hres]
  · rw [Act.bind_ok hres]
    rcases (copy env.copy reader).2 with e | r
    · simp
    · rcases env.flushFault with _ | e
      · simp
      · simp

namespace FsBackend

variable {fs : FsBackend} {path : String} {w : World} {r : Loc}

/-- Making the parent of an admitted path leaves the file it names. -/
theorem fileAt_makeParent (hroot : Rooted fs w.host r) (hv : validatePath path = .ok ())
    (ha : fs.admits w.host path = true) :
    (makeParent w.host (fs.joined path)).2.1.fileAt (fs.joined path)
      = w.host.fileAt (fs.joined path) := by
  rw [admits, Bool.and_eq_true] at ha
  have hb := below hroot hv ha.1
  rw [makeParent]
  rcases hp : parent (fs.joined path) with _ | cs
  · rfl
  · exact hb.fileAt_made hp rfl

/-- Before it opens the file, and where it does not, `write_all` leaves the file. -/
theorem opening_keeps (hroot : Rooted fs w.host r) (hv : validatePath path = .ok ()) :
    ∃ quiet, (∀ s ∈ quiet, s.world.host.fileAt (fs.joined path) = w.host.fileAt (fs.joined path)) ∧
      (((∃ e, (fs.opening path w).2 = .error e) ∧ (fs.opening path w).1 = quiet) ∨
        ∃ l s, (fs.opening path w).2 = .ok l ∧ (fs.opening path w).1 = quiet ++ [s] ∧
          (makeParent w.host (fs.joined path)).2.1.lookup false (fs.joined path) = .ok l ∧
          (makeParent w.host (fs.joined path)).2.1.tree.Open l ∧
          Rewrote (makeParent w.host (fs.joined path)).2.1 s.world.host l []) := by
  have hlogging : ∀ (v : World) (rs : List Record), ∀ s ∈ logging v rs, s.world = v :=
    fun v rs s hs => by obtain ⟨_, -, rfl⟩ := List.mem_map.mp hs; rfl
  have hparent : fs.admits w.host path = true → ∀ s ∈ parentSteps w (fs.joined path),
      s.world.host.fileAt (fs.joined path) = w.host.fileAt (fs.joined path) := fun ha s hs => by
    rw [parentSteps] at hs
    split at hs
    · cases hs
    · rw [List.mem_singleton.mp hs]
      exact fileAt_makeParent hroot hv ha
  have hop := opening_opens fs path w
  generalize fs.opening path w = q at hop
  cases hop with
  | @refused e ha =>
      exact ⟨_, fun s hs => by rw [hlogging _ _ s hs], .inl ⟨⟨e, rfl⟩, rfl⟩⟩
  | @unmade x ha hm => exact ⟨_, hparent ha, .inl ⟨⟨_, rfl⟩, rfl⟩⟩
  | @unopened x e ha hm ho _ =>
      refine ⟨_, fun s hs => ?_, .inl ⟨⟨e, rfl⟩, rfl⟩⟩
      rcases List.mem_append.mp hs with hs | hs
      · exact hparent ha s hs
      · rw [hlogging _ _ s hs]
        exact fileAt_makeParent hroot hv ha
  | @opened l h ha hm ho =>
      obtain ⟨hl, hopen, hrw⟩ := openWrite_rewrote (joined_ne_nil fs path)
        (slashFree_joined fs path) ho
      exact ⟨_, hparent ha, .inr ⟨l, _, rfl, rfl, hl, hopen, hrw⟩⟩

theorem fileAt_take {quiet : List (Step World Event)} (n : Nat)
    (h : ∀ s ∈ quiet, s.world.host.fileAt (fs.joined path) = w.host.fileAt (fs.joined path)) :
    (after w (quiet.take n)).host.fileAt (fs.joined path) = w.host.fileAt (fs.joined path) :=
  after_of_forall (Q := fun v => v.host.fileAt (fs.joined path) = w.host.fileAt
    (fs.joined path)) rfl
    fun s hs => h s (List.mem_of_mem_take hs)

/-- **A file after so many steps of a write** is what it was, unless the write changed it. -/
theorem writeAll_take {R : Type} [AsyncRead R] (hroot : Rooted fs w.host r)
    (hv : validatePath path = .ok ()) (env : Env) (reader : R) {n : Nat}
    (hn : n ≤ (fs.writeAll env path reader w).1.length) :
    (after w ((fs.writeAll env path reader w).1.take n)).host.fileAt (fs.joined path)
        = w.host.fileAt (fs.joined path) ↔
      ¬ (BackendRef.fs fs).Changed env path reader w n := by
  obtain ⟨quiet, hquiet, ⟨⟨e, he⟩, hsteps⟩ | ⟨l, s, hl, hsteps, hlook, hopen, hrw⟩⟩ :=
    @opening_keeps fs path w r hroot hv
  · rcases ho : fs.opening path w with ⟨steps, x⟩
    rw [ho] at he hsteps
    obtain rfl : x = .error e := he
    obtain rfl : steps = quiet := hsteps
    rw [writeAll_eq, Act.bind_error ho, fileAt_take n hquiet]
    exact ⟨fun _ ⟨⟨l, h⟩, _⟩ => (by rw [ho] at h; cases h), fun _ => rfl⟩
  · rcases ho : fs.opening path w with ⟨steps, x⟩
    rw [ho] at hl hsteps
    obtain rfl : x = .ok l := hl
    obtain rfl : steps = quiet ++ [s] := hsteps
    have hlen : (fs.opening path w).1.length = quiet.length + 1 := by rw [ho]; simp
    rw [BackendRef.Changed, hlen]
    rw [writeAll_eq, Act.bind_ok ho] at hn ⊢
    simp only [List.length_append, List.length_singleton] at hn
    by_cases hle : n ≤ quiet.length
    · rw [List.append_assoc, List.take_append_of_le_length hle, fileAt_take n hquiet]
      exact ⟨fun _ ⟨_, h, _⟩ => (by omega), fun _ => rfl⟩
    · have hnew := @writeChunks_take _ l (copy env.copy reader).1 env.writeFault [] s.world
        (n - (quiet.length + 1)) hrw (by
          rw [List.length_nil, ← copyInto_steps]
          simp only [after_append, after_cons, after_nil] at hn
          omega)
      rw [List.nil_append, List.length_nil, ← copyInto_steps] at hnew
      rw [List.take_append, List.take_of_length_le (by simp; omega), after_append, after_append,
        after_cons, after_nil, List.length_append, List.length_singleton,
        hnew.fileAt hopen hlook]
      constructor
      · exact fun h ⟨_, _, hne⟩ => hne h.symm
      · intro h
        by_contra hne
        exact h ⟨⟨l, by rw [ho]⟩, by omega, fun e => hne e.symm⟩

end FsBackend

/-! ### Into the bucket -/

/-- **An object after so many steps of an upload** is what it was, unless it was stored. -/
theorem S3Backend.writeAll_take {R : Type} [AsyncRead R] (b : S3Backend) (env : Env) (path : String)
    (reader : R) (w : World) (n : Nat) :
    (after w ((b.writeAll env path reader w).1.take n)).bucket.lookup (b.key path)
        = w.bucket.lookup (b.key path) ↔ ¬ (BackendRef.s3 b).Changed env path reader w n := by
  have hkeep : ∀ {steps : List (Step World Event)}, (∀ s ∈ steps, s.world = w) →
      after w (steps.take n) = w := fun h =>
    after_of_forall (Q := fun v => v = w) rfl fun s hs => h s (List.mem_of_mem_take hs)
  have hputs := b.writeAll_puts env path reader w
  rw [BackendRef.Changed]
  generalize b.writeAll env path reader w = q at hputs
  cases hputs with
  | failed hs _ =>
      rw [hkeep fun s h => (hs s h).1]
      exact ⟨fun _ ⟨⟨r, h⟩, _⟩ => (by cases h), fun _ => rfl⟩
  | refused hs _ =>
      rw [hkeep fun s h => by
        rcases List.mem_append.mp h with h | h
        · exact (hs s h).1
        · rw [List.mem_singleton.mp h]]
      exact ⟨fun _ ⟨⟨r, h⟩, _⟩ => (by cases h), fun _ => rfl⟩
  | @stored steps r v hs hr hv =>
      simp only [List.length_append, List.length_cons, List.length_nil]
      have hput : ∀ s ∈ steps ++ [(⟨w, [.putObject (b.key path)]⟩ : Step World Event)],
        s.world = w := by
        intro s h
        rcases List.mem_append.mp h with h | h
        · exact (hs s h).1
        · rw [List.mem_singleton.mp h]
      rw [show steps ++ [(⟨w, [.putObject (b.key path)]⟩ : Step World Event), ⟨v, []⟩, ⟨v, []⟩]
        = (steps ++ [⟨w, [.putObject (b.key path)]⟩]) ++ [⟨v, []⟩, ⟨v, []⟩] by simp]
      by_cases hle : n ≤ steps.length + 1
      · rw [List.take_append_of_le_length (by simpa using hle), hkeep hput]
        exact ⟨fun _ ⟨_, h, _⟩ => (by omega), fun _ => rfl⟩
      · have hstored : ∀ m, 0 < m → after w (List.take m [(⟨v, []⟩ : Step World Event), ⟨v, []⟩])
          = v := by
          intro m hm
          rcases m with _ | _ | m
          · cases hm
          · rfl
          · simp
        rw [List.take_append, List.take_of_length_le (by simp; omega), after_append,
          after_of_forall (Q := fun v => v = w) rfl hput, hstored _ (by simp; omega), hv,
          AList.lookup_insert]
        constructor
        · exact fun h ⟨_, _, hne⟩ => hne h.symm
        · intro h
          by_contra hne
          exact h ⟨⟨r, rfl⟩, by omega, fun e => hne e.symm⟩

/-! ### Either way -/

section Writing

variable {R : Type} [AsyncRead R] {b : BackendRef} {env : Env} {path : String}
    {reader : R} {w : World}

/-- **The object after so many steps of a write** is what it was, unless the write changed it. -/
theorem writing_take (hroots : ∀ fs, b = .fs fs → ∃ r, Rooted fs w.host r)
    (hv : validatePath path = .ok ()) {n : Nat} (hn : n ≤ (b.writing env path reader w).1.length) :
    b.object (after w ((b.writing env path reader w).1.take n)) path = b.object w path ↔
      ¬ b.Changed env path reader w n := by
  cases b with
  | fs b =>
      obtain ⟨r, hr⟩ := hroots b rfl
      exact FsBackend.writeAll_take hr hv env reader hn
  | s3 b => exact S3Backend.writeAll_take b env path reader w n
  | offline b => exact ⟨fun _ h => h, fun _ => rfl⟩

/-- **A write that fails** leaves the object as it was, if its status is not 500. -/
theorem writing_failed (hroots : ∀ fs, b = .fs fs → ∃ r, Rooted fs w.host r)
    (hv : validatePath path = .ok ()) {e : FerryError}
    (he : (b.writing env path reader w).2 = .error e)
    (hstatus : e.status ≠ 500) :
    b.object (after w (b.writing env path reader w).1) path = b.object w path := by
  cases b with
  | fs b =>
      obtain ⟨r, hr⟩ := hroots b rfl
      rw [BackendRef.writing] at he ⊢
      obtain ⟨quiet, hquiet, ⟨⟨x, hx⟩, hsteps⟩ | ⟨l, s, hl, hsteps, -, -, hrw⟩⟩ :=
        @FsBackend.opening_keeps b path w r hr hv
      · rcases ho : b.opening path w with ⟨steps, y⟩
        rw [ho] at hx hsteps
        obtain rfl : y = .error x := hx
        obtain rfl : steps = quiet := hsteps
        rw [FsBackend.writeAll_eq, Act.bind_error ho]
        exact after_of_forall (Q := fun v : World => v.host.fileAt (b.joined path)
          = w.host.fileAt (b.joined path)) rfl hquiet
      · -- a file that is open fails with the error of a read or a write
        exfalso
        rcases ho : b.opening path w with ⟨steps, y⟩
        rw [ho] at hl hsteps
        obtain rfl : y = .ok l := hl
        obtain rfl : steps = quiet ++ [s] := hsteps
        rw [FsBackend.writeAll_eq, Act.bind_ok ho, after_append, after_cons, after_nil] at he
        rcases (copyInto_file env reader s.world hrw).result with ⟨x, hx, -⟩ | ⟨y, hy, -⟩
        · rw [hx] at he
          obtain rfl := Except.error.inj he
          exact hstatus rfl
        · rw [hy] at he; cases he
  | s3 b =>
      have hchanged : ¬ (BackendRef.s3 b).Changed env path reader w
          (b.writeAll env path reader w).1.length := fun ⟨⟨r, hr⟩, _⟩ => by
        rw [show (b.writeAll env path reader w).2 = _ from he] at hr; cases hr
      have h := (S3Backend.writeAll_take b env path reader w _).mpr hchanged
      rw [List.take_length] at h
      exact h
  | offline b => rfl

end Writing

/-! ### Copies -/

/-- The request is given up when its write, of which it has taken some steps, has changed the
destination. -/
def Overtaken (crates : Crates) (st : AppState) (env : Env) (req : Request) (w : World) : Prop :=
  ∃ k c src dst l r, env.expire = some k ∧ k + 1 < (routes crates st env req w).1.length ∧
    Streams crates st req c src dst ∧ src.openRead env c.sourceFilePath w = (l, .ok r) ∧
    dst.Changed env c.destinationFilePath (guarded r st.config.limits.maxResponseBytes
      st.config.limits.copyInactivitySecs) w (k - (l.length + 2))

/-- If the answer is neither 204 nor 500, the destination the request names is what it was. -/
def Truthful (crates : Crates) (st : AppState) (env : Env) (req : Request) (w : World) : Prop :=
  (serve crates st env req w).2.status ≠ 204 → (serve crates st env req w).2.status ≠ 500 →
    ∀ c dst, jsonFromRequest crates st.config.limits.maxRequestBytes req = .ok c →
      st.backends.pick c.destinationStorageType = .ok dst →
      dst.object (after w (serve crates st env req w).1) c.destinationFilePath
        = dst.object w c.destinationFilePath

theorem BackendRef.object_of_same {w w' : World} (h : SameStores w w') (b : BackendRef)
    (path : String) :
    b.object w' path = b.object w path := by
  cases b with
  | fs b => simp only [object, h.1]
  | s3 b => simp only [object, h.2]
  | offline b => rfl

/-- The world a request leaves is the one its routes leave. -/
theorem after_serve (crates : Crates) (st : AppState) (env : Env) (req : Request) (w : World) :
    after w (serve crates st env req w).1
      = after (entered env req w) (timeoutLayer env (routes crates st env req)
        (entered env req w)).1 := by
  simp only [serve, stripBody, accessLog, traceLayer, securityHeaders, traceparent, entered,
    Proc.bind_run, Proc.pure_run, Proc.emit_run, Proc.step_run, id_eq, after_append,
      after_cons, after_nil]

section Steps

variable {crates : Crates} {st : AppState} {env : Env} {req : Request} {w : World}

/-- A request that does not stream changes nothing. -/
theorem routes_keep (h : ¬ ∃ c src dst, Streams crates st req c src dst) :
    ∀ s ∈ (routes crates st env req w).1, s.world = w := by
  intro s hs
  rcases routes_cases crates st env req w with ⟨hnil, -⟩ | ⟨-, -, hrun⟩ | ⟨hr, ha, -⟩
  · rw [hnil] at hs; cases hs
  · have hlist : Does (fun v => v = w) (fun _ => True) (listAction crates st env req)
      fun _ => True :=
      listAction_does fun _ => trivial
    rw [hrun, listService_run] at hs
    rcases List.mem_cons.mp hs with rfl | hs
    · rfl
    · exact (respond_does (fun _ => trivial) hlist rfl s hs).1
  · rcases streams_or_refused hr ha env w with hstream | ⟨x, e⟩
    · exact absurd hstream h
    · rw [e] at hs
      simp only [List.mem_cons, List.not_mem_nil, or_false] at hs
      rcases hs with rfl | rfl | rfl
      · rfl
      · rfl
      · rfl

variable {c : CopyFileRequest} {src dst : BackendRef} {l : List (Step World Event)}

/-- A copy whose source does not open changes nothing. -/
theorem Streams.unopened (h : Streams crates st req c src dst) {e : FerryError}
    (ho : src.openRead env c.sourceFilePath w = (l, .error e)) :
    ∀ s ∈ (FileFerry.routes crates st env req w).1, s.world = w := by
  have hl : ∀ s ∈ l, s.world = w := by
    have hkeep := src.openRead_keeps env c.sourceFilePath w
    rw [ho] at hkeep
    exact hkeep
  have hstream : streaming crates st env c src dst w = (l, .error e) := by
    rw [streaming, streamCopy, Act.bind_error ho]
  intro s hs
  rcases h.routes env w with ⟨n, hn, -⟩ | ⟨x, -, hrun⟩
  · rw [hstream] at hn; cases hn
  · rw [hrun, hstream] at hs
    simp only [List.mem_cons, List.mem_append, List.not_mem_nil, or_false] at hs
    rcases hs with rfl | rfl | hs | rfl
    · rfl
    · rfl
    · exact hl s hs
    · exact after_of_forall (Q := fun v => v = w) rfl hl

/-- **The steps of a copy whose source opens**: some that change nothing, those of its write, and
one that tells how the write ended. -/
theorem Streams.opened (h : Streams crates st req c src dst) {r : Script}
    (ho : src.openRead env c.sourceFilePath w = (l, .ok r)) :
    let write := dst.writing env c.destinationFilePath (guarded r st.config.limits.maxResponseBytes
      st.config.limits.copyInactivitySecs) w
    ∃ head last, (FileFerry.routes crates st env req w).1 = head ++ (write.1 ++ [last]) ∧
      head.length = l.length + 3 ∧ (∀ s ∈ head, s.world = w) ∧ last.world = after w write.1 ∧
      ((FileFerry.routes crates st env req w).2.status = 204 ∨
        ∃ e, write.2 = .error e ∧ (FileFerry.routes crates st env req w).2.status = e.status) := by
  intro write
  have hl : ∀ s ∈ l, s.world = w := by
    have hkeep := src.openRead_keeps env c.sourceFilePath w
    rw [ho] at hkeep
    exact hkeep
  have hafter : after w l = w := after_of_forall (Q := fun v => v = w) rfl hl
  have hwrite :=
    dst.writeAll_run env c.destinationFilePath (guarded r st.config.limits.maxResponseBytes
    st.config.limits.copyInactivitySecs) w
  let head : List (Step World Event) := ⟨w, [.handler .copyFile]⟩ :: ⟨w, []⟩ ::
    (l ++ [⟨w, [.call dst (.writeAll c.destinationFilePath)]⟩])
  have hhead : ∀ s ∈ head, s.world = w := fun s hs => by
    simp only [head, List.mem_cons, List.mem_append, List.not_mem_nil, or_false] at hs
    rcases hs with rfl | rfl | hs | rfl
    · rfl
    · rfl
    · exact hl s hs
    · rfl
  rcases @streamCopy_opened crates env src dst c.sourceFilePath c.destinationFilePath
    st.config.limits.maxResponseBytes st.config.limits.copyInactivitySecs w l r ho with
    ⟨e, he, hrun⟩ | ⟨r', -, hrun⟩
  · rw [hwrite] at he hrun
    have hstream : streaming crates st env c src dst w = _ := hrun
    rcases h.routes env w with ⟨n, hn, -⟩ | ⟨x, hx, hroutes⟩
    · rw [hstream] at hn; cases hn
    · rw [hstream] at hx hroutes
      obtain rfl := Except.error.inj hx
      refine ⟨head, ⟨after w write.1, [.log e.record]⟩, ?_, by simp [head], hhead, rfl,
        .inr ⟨e, he, by rw [hroutes]; rfl⟩⟩
      rw [hroutes]
      simp [head, write, hafter]
  · rw [hwrite] at hrun
    have hstream : streaming crates st env c src dst w = _ := hrun
    rcases h.routes env w with ⟨n, -, hroutes⟩ | ⟨x, hx, -⟩
    · rw [hstream] at hroutes
      refine ⟨head, ⟨after w write.1, [.log (transferCompleted crates env src dst c.sourceFilePath
        c.destinationFilePath r'.counter)]⟩, ?_, by simp [head], hhead, rfl,
          .inl (by rw [hroutes]; rfl)⟩
      rw [hroutes]
      simp [head, write]
    · rw [hstream] at hx; cases hx

end Steps

/-- Part of the steps of a copy whose source opens: after so many, its write has taken the
others. -/
theorem after_take_opened {w : World} {head write : List (Step World Event)}
    {last : Step World Event}
    (hhead : ∀ s ∈ head, s.world = w) {n : Nat} (hn : n < (head ++ (write ++ [last])).length) :
    after w ((head ++ (write ++ [last])).take n) = after w (write.take (n - head.length)) := by
  simp only [List.length_append, List.length_singleton] at hn
  rw [List.take_append, after_append, List.take_append_of_le_length (by omega),
    after_of_forall (Q := fun v => v = w) rfl fun s hs => hhead s (List.mem_of_mem_take hs)]

/-- A request names one copy, between two backends. -/
theorem Streams.unique {crates : Crates} {st : AppState} {req : Request} {c c' : CopyFileRequest}
    {src src' dst dst' : BackendRef} (h : Streams crates st req c src dst)
    (h' : Streams crates st req c' src' dst') : c = c' ∧ src = src' ∧ dst = dst' := by
  obtain rfl := Except.ok.inj (h.decoded.symm.trans h'.decoded)
  exact ⟨rfl, Except.ok.inj (h.copyable.src.symm.trans h'.copyable.src),
    Except.ok.inj (h.copyable.dst.symm.trans h'.copyable.dst)⟩

/-- **The answer tells the truth** about the destination exactly when the request is not given up
after its write changed it. -/
theorem truthful_iff {crates : Crates} {st : AppState} {env : Env} {req : Request} {w : World}
    (hroots : ∀ kind fs, st.backends.pick kind = .ok (.fs fs) → ∃ r, Rooted fs w.host r) :
    Truthful crates st env req w ↔ ¬ Overtaken crates st env req (entered env req w) := by
  have hsame := entered_same env req w
  rw [Truthful, (serve_answer crates st env req w).1, after_serve]
  have hobject : ∀ b path, BackendRef.object b w path = b.object (entered env req w) path :=
    fun b path => (BackendRef.object_of_same hsame b path).symm
  simp only [hobject]
  rw [← hsame.1] at hroots
  generalize entered env req w = v at hroots
  rw [timeoutLayer]
  have hkept : (∀ s ∈ (routes crates st env req v).1, s.world = v) →
      after v (timeout env.expire (.empty 408) (routes crates st env req) v).1 = v := fun h =>
    after_of_forall (Q := fun u => u = v) rfl fun s hs =>
      h s ((timeout_isPrefix env.expire (.empty 408) (routes crates st env req) v).subset hs)
  by_cases hstreams : ∃ c src dst, Streams crates st req c src dst
  · obtain ⟨c, src, dst, hs⟩ := hstreams
    have hnamed : ∀ {P : BackendRef → String → Prop}, (∀ c' dst',
        jsonFromRequest crates st.config.limits.maxRequestBytes req = .ok c' →
        st.backends.pick c'.destinationStorageType = .ok dst' → P dst' c'.destinationFilePath) ↔
          P dst c.destinationFilePath := by
      intro P
      refine ⟨fun h => h c dst hs.decoded hs.copyable.dst, fun h c' dst' hc' hdst' => ?_⟩
      rw [hs.decoded] at hc'
      cases hc'
      rw [hs.copyable.dst] at hdst'
      cases hdst'
      exact h
    rw [@hnamed fun b path => b.object _ path = b.object v path]
    rcases ho : src.openRead env c.sourceFilePath v with ⟨l, e | r⟩
    · rw [hkept (hs.unopened ho)]
      refine ⟨?_, fun _ _ _ => rfl⟩
      rintro - ⟨_, c', src', dst', l', r', -, -, hs', ho', -⟩
      obtain ⟨rfl, rfl, rfl⟩ := hs.unique hs'
      rw [ho] at ho'
      cases ho'
    · obtain ⟨head, last, hsteps, hlen, hhead, hlast, hstatus⟩ :=
        @Streams.opened _ _ env _ v _ _ _ l hs _ ho
      by_cases hout : TimesOut crates st env req v
      · obtain ⟨k, hk, hlt⟩ := hout
        rw [timeout_late _ hk hlt, hsteps, after_take_opened hhead (by rw [← hsteps]; exact hlt),
          hlen, show k + 1 - (l.length + 3) = k - (l.length + 2) by omega]
        have hn : k - (l.length + 2) ≤ (dst.writing env c.destinationFilePath (guarded r
            st.config.limits.maxResponseBytes st.config.limits.copyInactivitySecs) v).1.length := by
          rw [hsteps] at hlt
          simp only [List.length_append, List.length_singleton] at hlt
          omega
        have htake := writing_take (fun fs hfs => hroots _ fs (hs.copyable.dst.trans (by rw [hfs])))
          hs.copyable.destination hn
        constructor
        · rintro h ⟨k', c', src', dst', l', r', hk', -, hs', ho', hchanged⟩
          obtain ⟨rfl, rfl, rfl⟩ := hs.unique hs'
          rw [ho] at ho'
          cases ho'
          rw [hk] at hk'
          cases hk'
          exact htake.mp (h (by simp [Response.empty]) (by simp [Response.empty])) hchanged
        · exact fun h _ _ => htake.mpr fun hchanged =>
            h ⟨k, c, src, dst, l, r, hk, hlt, hs, ho, hchanged⟩
      · have hin := timeoutLayer_in_time hout
        rw [timeoutLayer] at hin
        rw [hin]
        refine ⟨?_, fun _ h₁ h₂ => ?_⟩
        · rintro - ⟨k, -, -, -, -, -, hk, hlt, -⟩
          exact hout ⟨k, hk, hlt⟩
        rcases hstatus with h | ⟨e, he, h⟩
        · exact absurd h h₁
        · rw [hsteps, after_append, after_append, after_cons, after_nil, hlast]
          exact writing_failed (fun fs hfs => hroots _ fs (hs.copyable.dst.trans (by rw [hfs])))
            hs.copyable.destination he (by rwa [← h])
  · rw [hkept (routes_keep hstreams)]
    refine ⟨?_, fun _ _ _ _ _ _ _ => rfl⟩
    rintro - ⟨-, c, src, dst, -, -, -, -, hs, -⟩
    exact hstreams ⟨c, src, dst, hs⟩

/-- A copy from the bucket, onto the file `a`. -/
def download : CopyFileRequest := ⟨.s3, "x", .fs, "a"⟩

def downloadCrates : Crates :=
  { Crates.strict with parseJson := fun _ => .ok download, jsonContentType := fun _ => true }

/-- The data root holds the file `a`, and the bucket the object to copy. -/
def downloadWorld : World := { belowWorld with bucket := .singleton "x" [2, 3] }

theorem streams_onto :
    Streams downloadCrates uploadState uploadRequest download (.s3 ⟨"objects", ""⟩)
    (.fs dataFs) :=
  ⟨⟨rfl, rfl⟩, (fun _ h => by cases h), rfl, rfl,
    ⟨(fun h => by cases h), by decide, by decide, rfl, rfl⟩⟩

/-- A copy given up when its source is open, and its destination is not yet. -/
theorem truthful_given_up :
    (serve downloadCrates uploadState { Env.calm with expire := some 3 } uploadRequest
      downloadWorld).2.status = 408 ∧
    Truthful downloadCrates uploadState { Env.calm with expire := some 3 } uploadRequest
      downloadWorld := by
  have hroots : ∀ kind fs, uploadState.backends.pick kind = .ok (.fs fs) →
      ∃ r, Rooted fs downloadWorld.host r := by
    intro kind fs h
    cases kind with
    | fs => cases h; exact ⟨[bytes "data"], rfl, rfl⟩
    | s3 => cases h
  refine ⟨by decide, (truthful_iff hroots).mpr ?_⟩
  rintro ⟨k, c, src, dst, l, r, hk, -, hs, ho, hchanged⟩
  obtain ⟨rfl, rfl, rfl⟩ := hs.unique streams_onto
  cases hk
  cases ho
  exact absurd hchanged.2.1 (by decide)

/-- **A copy given up** right after it opened its destination is answered 408, and the file is
empty. -/
theorem late_truncates :
    ¬ Truthful downloadCrates uploadState { Env.calm with
      expire := some 7 } uploadRequest downloadWorld := by
  intro h
  have hkept := h (by decide) (by decide) download (.fs dataFs) rfl rfl
  exact absurd hkept (by decide)

end FileFerry
