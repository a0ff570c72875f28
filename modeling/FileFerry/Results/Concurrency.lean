import FileFerry.Io.Sessions
import FileFerry.Results.Store

/-!
# Results — Concurrency

Copies that write one path of the file system and read it, at once.

* `CopyStep`: the steps of the copies, in any order.
* `CopyStep.shown`: they are moves of sessions with the file the path names.
* `writeAll_runs`: a copy that is alone does what `write_all` does.
* `concurrent_atomic`: runs in which no step disturbs another copy are atomic.
-/

namespace FileFerry
open Text Posix AsyncIo Steps Sessions

/-- The world, how far the copies are, and the files they have opened. -/
structure Copies (ι : Type) where
  world : World
  phase : ι → Phase
  handle : ι → Loc

variable {ι : Type} [DecidableEq ι]

/-- The steps of copies that succeed.  A copy into the file system opens the path for writing,
writes its chunks, each at its own offset, and is done; one from the file system opens the path for
reading, reads from its own offset until it gets no more bytes, and is done.  A directory can be
opened, but not read. -/
inductive CopyStep (fs : FsBackend) (path : String) (jobs : ι → Job) :
    Copies ι → Move ι → Copies ι → Prop where
  | openWrite {s : Copies ι} {i : ι} {cs : List (List UInt8)} {l : Loc} : s.phase i = .idle →
      jobs i = .write cs → (fs.opening path s.world).2 = .ok l →
      CopyStep fs path jobs s (.openWrite i) ⟨after s.world (fs.opening path s.world).1,
        Function.update s.phase i (.writing 0 cs), Function.update s.handle i l⟩
  | write {s : Copies ι} {i : ι} {off : Nat} {c : List UInt8} {cs : List (List UInt8)} :
      s.phase i = .writing off (c :: cs) →
      CopyStep fs path jobs s (.write i) ⟨FsBackend.writeChunk (s.handle i) off c s.world,
        Function.update s.phase i (.writing (off + c.length) cs), s.handle⟩
  | close {s : Copies ι} {i : ι} {off : Nat} : s.phase i = .writing off [] →
      CopyStep fs path jobs s (.close i) ⟨s.world, Function.update s.phase i (.done []), s.handle⟩
  | openRead {s : Copies ι} {i : ι} {l : Loc} {f : File} : s.phase i = .idle → jobs i = .read →
      fs.admits s.world.host path = true → s.world.host.openRead (fs.joined path) = .ok l →
      s.world.host.tree.get l = some (.file f) →
      CopyStep fs path jobs s (.openRead i)
        ⟨s.world, Function.update s.phase i (.reading 0 []), Function.update s.handle i l⟩
  | read {s : Copies ι} {i : ι} {off len : Nat} {got b : List UInt8} :
      s.phase i = .reading off got →
      s.world.host.readAt (s.handle i) off len = b → b ≠ [] →
      CopyStep fs path jobs s (.read i)
        ⟨s.world, Function.update s.phase i (.reading (off + b.length) (got ++ b)), s.handle⟩
  | eof {s : Copies ι} {i : ι} {off len : Nat} {got : List UInt8} : s.phase i = .reading off got →
      0 < len → s.world.host.readAt (s.handle i) off len = [] →
      CopyStep fs path jobs s (.read i) ⟨s.world, Function.update s.phase i (.done got), s.handle⟩

/-! ### The file the path names -/

/-- The path leads to the file at `l`, which has the bytes `c`. -/
structure Names (fs : FsBackend) (path : String) (h : Host) (l : Loc) (c : List UInt8) : Prop where
  lookup : h.lookup false (fs.joined path) = .ok l
  file : ∃ f, h.tree.get l = some (.file f) ∧ f.content = c

namespace Names

variable {fs : FsBackend} {path : String} {h h' : Host} {l k : Loc} {c d : List UInt8}

theorem fileAt (hn : Names fs path h l c) : h.fileAt (fs.joined path) = some c := by
  obtain ⟨f, hf, hc⟩ := hn.file
  exact Host.fileAt_eq_some.mpr ⟨l, f, hn.lookup, hf, hc⟩

theorem unique (hn : Names fs path h l c) (hk : Names fs path h k d) : k = l ∧ d = c :=
  ⟨Except.ok.inj (hk.lookup.symm.trans hn.lookup), Option.some.inj (hk.fileAt.symm.trans hn.fileAt)⟩

/-- The file was written. -/
theorem rewrote (hn : Names fs path h l c) (hr : Rewrote h h' l d) : Names fs path h' l d := by
  obtain ⟨f, hf, -⟩ := hn.file
  exact ⟨hr.lookup (.inr ⟨f, hf⟩) hn.lookup (.inl rfl), hr.file⟩

/-- A write to the file, at any offset. -/
theorem writeAt (hn : Names fs path h l c) (off : Nat) (b : List UInt8) :
    Names fs path (h.writeAt l off b) l (patch c off b) := by
  refine hn.rewrote ?_
  obtain ⟨f, hf, rfl⟩ := hn.file
  have hne : h.tree.get l ≠ none := by rw [hf]; simp
  match l with
  | [] => rw [Tree.get_top] at hf; cases hf
  | x :: m =>
      simp only [Host.writeAt, hf, patch]
      split
      · exact ⟨⟨f, hf, rfl⟩, fun _ _ => rfl, rfl⟩
      · exact rewrote_put (Tree.ordinary_of_get hne) (Tree.get_parent hne) (.inr ⟨f, hf⟩)

theorem readAt (hn : Names fs path h l c) (off len : Nat) :
    h.readAt l off len = (c.drop off).take len := by
  obtain ⟨f, hf, rfl⟩ := hn.file
  simp only [Host.readAt, hf]

end Names

/-- **An open for writing** leaves an empty file where the path leads, and if it led to a file,
there. -/
theorem opening_names {fs : FsBackend} {path : String} {w : World} {l : Loc}
    (ho : (fs.opening path w).2 = .ok l) :
    ∃ h, after w (fs.opening path w).1 = { w with host := h } ∧ Names fs path h l [] ∧
      ∀ k c, Names fs path w.host k c → k = l := by
  have hop := FsBackend.opening_opens fs path w
  rcases hq : fs.opening path w with ⟨steps, x⟩
  rw [hq] at hop ho
  obtain rfl : x = .ok l := ho
  cases hop with
  | @opened _ h ha hp hopen =>
      obtain ⟨hlook, hfree, hrw⟩ :=
        openWrite_rewrote (FsBackend.joined_ne_nil fs path)
          (FsBackend.slashFree_joined fs path) hopen
      refine ⟨h, ?_, ⟨hrw.lookup hfree hlook (.inl rfl), hrw.file⟩, fun k c hk => ?_⟩
      · rw [after_append, after_cons, after_nil]
      · obtain ⟨f, hf, -⟩ := hk.file
        have hmade := FsBackend.makeParent_made fs w.host path
        exact Except.ok.inj ((hmade.lookup hk.lookup (.inl (by rw [hf]; simp))).symm.trans hlook)

/-! ### Sessions -/

/-- The copies, as sessions with the file the path names: each has opened that file. -/
structure Shows (fs : FsBackend) (path : String) (s : Copies ι) (a : Shared ι) : Prop where
  phase : a.phase = s.phase
  content : a.content = s.world.host.fileAt (fs.joined path)
  handles : ∀ i, (s.phase i).Opened → ∃ c, Names fs path s.world.host (s.handle i) c

section Shown

variable {fs : FsBackend} {path : String} {jobs : ι → Job} {s s' : Copies ι} {a : Shared ι} {i : ι}

omit [DecidableEq ι] in
/-- The bytes of a file that a copy has open. -/
theorem Shows.held (ha : Shows fs path s a) (hi : (s.phase i).Opened) :
    ∃ c, Names fs path s.world.host (s.handle i) c ∧ a.content = some c := by
  obtain ⟨c, hc⟩ := ha.handles i hi
  exact ⟨c, hc, ha.content.trans hc.fileAt⟩

/-- A step that opens nothing and leaves the world. -/
theorem Shows.keep {p : Phase} (ha : Shows fs path s a) (hp : (s.phase i).Opened) :
    Shows fs path ⟨s.world, Function.update s.phase i p, s.handle⟩ ⟨a.content,
      Function.update a.phase i p⟩ where
  phase := by rw [ha.phase]
  content := ha.content
  handles j hj := by
    rcases eq_or_ne j i with rfl | hne
    · exact ha.handles j hp
    · simp only [Function.update_of_ne hne] at hj
      exact ha.handles j hj

/-- **A step of the copies** is a move of the sessions. -/
theorem CopyStep.shown {m : Move ι} (hs : CopyStep fs path jobs s m s') (ha : Shows fs path s a) :
    ∃ a', Step jobs a m a' ∧ Shows fs path s' a' := by
  cases hs with
  | @openWrite i cs l hp hj ho =>
      obtain ⟨h, hafter, hn, hsame⟩ := opening_names ho
      refine ⟨_, .openWrite (by rw [ha.phase]; exact hp) hj, by rw [ha.phase], ?_, fun j hj => ?_⟩
      · rw [hafter]
        exact hn.fileAt.symm
      · simp only [hafter]
        rcases eq_or_ne j i with rfl | hne
        · simp only [Function.update_self]
          exact ⟨[], hn⟩
        · simp only [Function.update_of_ne hne] at hj ⊢
          obtain ⟨c, hc⟩ := ha.handles j hj
          rw [hsame _ c hc]
          exact ⟨[], hn⟩
  | @write i off c cs hp =>
      obtain ⟨old, hn, hcont⟩ := ha.held (i := i) (by rw [hp]; trivial)
      have hw := hn.writeAt off c
      refine ⟨_, .write (by rw [ha.phase]; exact hp) hcont, by rw [ha.phase],
        hw.fileAt.symm, fun j hj => ?_⟩
      rcases eq_or_ne j i with rfl | hne
      · exact ⟨_, hw⟩
      · simp only [Function.update_of_ne hne] at hj
        obtain ⟨d, hd⟩ := ha.handles j hj
        simp only [(hn.unique hd).1]
        exact ⟨_, hw⟩
  | @close i off hp =>
      exact ⟨_, .close (by rw [ha.phase]; exact hp), ha.keep (by rw [hp]; trivial)⟩
  | @openRead i l f hp hj hadm ho hf =>
      have hlook : s.world.host.lookup false (fs.joined path) = .ok l := by
        rw [Host.openRead] at ho
        rcases hl : s.world.host.lookup false (fs.joined path) with e | k
        · rw [hl] at ho; cases ho
        · rw [hl] at ho
          simp only at ho
          split at ho
          · cases ho
          · cases ho
          · rw [Except.ok.inj ho]
      have hn : Names fs path s.world.host l f.content := ⟨hlook, f, hf, rfl⟩
      refine ⟨_, .openRead (by rw [ha.phase]; exact hp) hj (ha.content.trans hn.fileAt), by
        rw [ha.phase],
        ha.content, fun j hj => ?_⟩
      rcases eq_or_ne j i with rfl | hne
      · simp only [Function.update_self]
        exact ⟨_, hn⟩
      · simp only [Function.update_of_ne hne] at hj ⊢
        exact ha.handles j hj
  | @read i off len got b hp hb hne =>
      obtain ⟨c, hn, hcont⟩ := ha.held (i := i) (by rw [hp]; trivial)
      rw [hn.readAt] at hb
      subst hb
      exact ⟨_, .read (by rw [ha.phase]; exact hp) hcont hne, ha.keep (by rw [hp]; trivial)⟩
  | @eof i off len got hp hlen hb =>
      obtain ⟨c, hn, hcont⟩ := ha.held (i := i) (by rw [hp]; trivial)
      rw [hn.readAt] at hb
      exact ⟨_, .eof (by rw [ha.phase]; exact hp) hcont hlen hb, ha.keep (by rw [hp]; trivial)⟩

end Shown

/-! ### A copy that is not disturbed -/

section Alone

variable {fs : FsBackend} {path : String} {jobs : ι → Job} {s : Copies ι} {i : ι} {env : Env}

/-- Runs in which no step disturbs another copy. -/
abbrev CalmRuns (fs : FsBackend) (path : String) (jobs : ι → Job) : Copies ι → Copies ι → Prop :=
  Runs (CopyStep fs path jobs) fun s m => Calm s.phase m

/-- The writes of the chunks, one after the other. -/
theorem writeChunks_runs : ∀ (cs : List (List UInt8)) (fault : Option (Nat × IoError)) (off : Nat)
    (s : Copies ι), s.phase i = .writing off cs →
    (writeChunks (FsBackend.writeChunk (s.handle i)) fault off cs s.world).2 = .ok () →
    ∃ off', CalmRuns fs path jobs s
      ⟨after s.world (writeChunks (FsBackend.writeChunk (s.handle i)) fault off cs s.world).1,
        Function.update s.phase i (.writing off' []), s.handle⟩
  | [], fault, off, s, hp, _ => by
      refine ⟨off, ?_⟩
      rw [← hp, Function.update_eq_self, writeChunks]
      exact .refl
  | c :: cs, fault, off, s, hp, hok => by
      have hone : CalmRuns fs path jobs s ⟨FsBackend.writeChunk (s.handle i) off c s.world,
          Function.update s.phase i (.writing (off + c.length) cs), s.handle⟩ :=
        .one (m := .write i) trivial (.write hp)
      -- one chunk, and the others after it
      have hmore : ∀ fault', ((Act.step (FsBackend.writeChunk (s.handle i) off c) [] >>= fun _ =>
          writeChunks (FsBackend.writeChunk (s.handle i)) fault' (off + c.length) cs :
            Act Unit) s.world).2
            = .ok () →
          ∃ off', CalmRuns fs path jobs s
            ⟨after s.world ((Act.step (FsBackend.writeChunk (s.handle i) off c) [] >>= fun _ =>
              writeChunks (FsBackend.writeChunk (s.handle i)) fault' (off + c.length) cs :
                Act Unit) s.world).1,
              Function.update s.phase i (.writing off' []), s.handle⟩ := by
        intro fault' h
        rw [Act.step_bind] at h ⊢
        have hrest := writeChunks_runs cs fault' (off + c.length)
          ⟨FsBackend.writeChunk (s.handle i) off c s.world,
            Function.update s.phase i (.writing (off + c.length) cs), s.handle⟩
          (Function.update_self i _ _) h
        simp only [Function.update_idem] at hrest
        obtain ⟨off', hr⟩ := hrest
        exact ⟨off', hone.trans hr⟩
      rcases fault with _ | ⟨_ | n, e⟩
      · exact hmore none hok
      · cases hok
      · exact hmore (some (n, e)) hok

/-- **A copy into the file system** that nobody disturbs, and that disturbs nobody, does what
`write_all` does. -/
theorem writeAll_runs {R : Type} [AsyncRead R] {reader rd : R} (hi : s.phase i = .idle)
    (hj : jobs i = .write (copy env.copy reader).1)
    (hcalm : ∀ j, ¬ (s.phase j).Writes ∧ ¬ (s.phase j).Began)
    (hok : (fs.writeAll env path reader s.world).2 = .ok rd) :
    ∃ l, CalmRuns fs path jobs s ⟨after s.world (fs.writeAll env path reader s.world).1,
      Function.update s.phase i (.done []), Function.update s.handle i l⟩ := by
  rw [FsBackend.writeAll_eq] at hok ⊢
  rcases ho : fs.opening path s.world with ⟨steps, x | l⟩
  · rw [Act.bind_error ho] at hok
    cases hok
  · rw [Act.bind_ok ho] at hok ⊢
    refine ⟨l, ?_⟩
    -- the open, and the chunks after it
    have hopen : CalmRuns fs path jobs s ⟨after s.world steps,
        Function.update s.phase i (.writing 0 (copy env.copy reader).1),
          Function.update s.handle i l⟩ := by
      have hstep := @CopyStep.openWrite _ _ fs path _ _ _ _ l hi hj (by rw [ho])
      rw [ho] at hstep
      exact .one (m := .openWrite i) hcalm hstep
    have hchunks := @writeChunks_runs _ _ fs path jobs i (copy env.copy reader).1 env.writeFault 0
      ⟨after s.world steps, Function.update s.phase i (.writing 0 (copy env.copy reader).1),
        Function.update s.handle i l⟩ (Function.update_self i _ _)
    simp only [Function.update_self, Function.update_idem] at hchunks
    simp only [copyInto] at hok ⊢
    rcases hw : writeChunks (FsBackend.writeChunk l) env.writeFault 0 (copy env.copy reader).1
        (after s.world steps) with ⟨writes, y | u⟩
    · rw [Act.bind_error hw] at hok
      cases hok
    · rw [hw] at hchunks
      obtain ⟨off, hrun⟩ := hchunks rfl
      rw [Act.bind_ok hw] at hok ⊢
      -- the flush leaves nothing
      have hend : ∀ q : List (Steps.Step World Event), q = [] →
        after s.world (steps ++ (writes ++ q)) =
          after (after s.world steps) writes := by
        rintro _ rfl
        rw [List.append_nil, after_append]
      rw [hend]
      · have hclose := @CopyStep.close _ _ fs path jobs
          ⟨after (after s.world steps) writes, Function.update s.phase i (.writing off []),
            Function.update s.handle i l⟩ i off (Function.update_self i _ _)
        simp only [Function.update_idem] at hclose
        exact (hopen.trans hrun).tail (m := .close i) trivial hclose
      · rcases (copy env.copy reader).2 with e | r
        · rfl
        · rcases env.flushFault with _ | e
          · rfl
          · rfl

/-- **A copy from the file system** that nobody disturbs reads what `open_read` gives. -/
theorem openRead_runs {l : Loc} {f : File} (hi : s.phase i = .idle) (hj : jobs i = .read)
    (hcalm : ∀ j, ¬ (s.phase j).Writes) (hadm : fs.admits s.world.host path = true)
    (ho : s.world.host.openRead (fs.joined path) = .ok l)
    (hf : s.world.host.tree.get l = some (.file f)) :
    CalmRuns fs path jobs s ⟨s.world, Function.update s.phase i (.done f.content),
      Function.update s.handle i l⟩ := by
  have hopen := CopyStep.openRead hi hj hadm ho hf
  have hquiet : ∀ p : Phase, ¬ p.Writes → ∀ j, ¬ (Function.update s.phase i p j).Writes :=
    fun p hp =>
    (Function.forall_update_iff _ fun _ q => ¬ Phase.Writes q).mpr ⟨hp, fun j _ => hcalm j⟩
  -- all of it at once, if there is anything
  have hread : CalmRuns fs path jobs s ⟨s.world,
      Function.update s.phase i (.reading f.content.length f.content),
        Function.update s.handle i l⟩ := by
    refine (Runs.one (m := .openRead i) trivial hopen).trans ?_
    by_cases hc : f.content = []
    · rw [hc]
      exact .refl
    · have hstep := @CopyStep.read _ _ fs path jobs
        ⟨s.world, Function.update s.phase i (.reading 0 []), Function.update s.handle i l⟩ i 0
        f.content.length [] f.content (Function.update_self i _ _) (by simp [Host.readAt, hf]) hc
      simp only [Function.update_idem, Nat.zero_add, List.nil_append] at hstep
      exact .one (m := .read i) (hquiet _ id) hstep
  have hend := @CopyStep.eof _ _ fs path jobs
    ⟨s.world, Function.update s.phase i (.reading f.content.length f.content),
      Function.update s.handle i l⟩
    i f.content.length 1 f.content (Function.update_self i _ _) Nat.one_pos
      (by simp [Host.readAt, hf])
  simp only [Function.update_idem] at hend
  exact hread.tail (m := .read i) (hquiet _ id) hend

end Alone

/-! ### All copies -/

/-- The copies before any step. -/
def Copies.start (w : World) : Copies ι := ⟨w, fun _ => .idle, fun _ => []⟩

/-- What the copies leave of the file the path names, and how far they are. -/
def Copies.shared (fs : FsBackend) (path : String) (s : Copies ι) : Shared ι :=
  ⟨s.world.host.fileAt (fs.joined path), s.phase⟩

/-- **Runs in which no step disturbs another copy** are atomic: when all copies are done, the file
is the whole payload of one that wrote it, and each that read it got the whole file as it was before
or the whole payload of one that wrote it. -/
theorem concurrent_atomic {fs : FsBackend} {path : String} {jobs : ι → Job}
    {w : World} {s : Copies ι}
    (h : Runs (CopyStep fs path jobs) (fun s m => Calm s.phase m) (.start w) s) :
    Atomic jobs (w.host.fileAt (fs.joined path)) (s.shared fs path) := by
  have hstart : Shows fs path (.start w : Copies ι) ⟨w.host.fileAt (fs.joined path),
    fun _ => .idle⟩ :=
    ⟨rfl, rfl, fun _ h => h.elim⟩
  obtain ⟨a, hr, ha⟩ : ∃ a, Runs (Step jobs) (fun a m => Calm a.phase m) _ a ∧ Shows fs path s a :=
    h.simulates (fun ha hc hm => ⟨by rw [ha.phase]; exact hc, hm.shown ha⟩) hstart
  have hatomic := atomic_of_calm hr
  have hshared : s.shared fs path = a := by
    rw [Copies.shared, ← ha.content, ← ha.phase]
  rw [hshared]
  exact hatomic

/-- One copy writes two bytes, and one reads. -/
def writeAndRead : Bool → Job
  | true => .write (copy Env.calm.copy twoBytes).1
  | false => .read

/-- The one that reads comes after the other. -/
theorem in_turn_atomic : ∃ s : Copies Bool, s.phase true = .done [] ∧ s.phase false = .done [1, 2] ∧
    Atomic writeAndRead (emptyWorld.host.fileAt (dataFs.joined "a")) (s.shared dataFs "a") := by
  obtain ⟨l, hwrite⟩ := @writeAll_runs Bool _ dataFs "a" writeAndRead (.start emptyWorld) true .calm
    _ _ twoBytes _ rfl rfl (fun _ => ⟨id, id⟩) rfl
  have hread := @openRead_runs Bool _ dataFs "a" writeAndRead
    ⟨after emptyWorld (dataFs.writeAll .calm "a" twoBytes emptyWorld).1,
      Function.update (fun _ => .idle) true (.done []), Function.update (fun _ => []) true l⟩
    false [bytes "a", bytes "data"] ⟨[1, 2], 0⟩ rfl rfl (by rintro (_ | _) <;> exact id) rfl rfl rfl
  exact ⟨_, rfl, rfl, concurrent_atomic (hwrite.trans hread)⟩

/-- Two copies write one path. -/
def twoWriters : Bool → Job
  | true => .write [[1, 2]]
  | false => .write [[3]]

/-- Both open the path before either writes it. -/
theorem writers_mix : ∃ s : Copies Bool,
    Runs (CopyStep dataFs "a" twoWriters) (fun _ _ => True) (.start emptyWorld) s ∧
      (∀ i, ∃ d, s.phase i = .done d) ∧ s.world.host.fileAt (dataFs.joined "a") = some [3, 2] := by
  have hrun : Runs (CopyStep dataFs "a" twoWriters) (fun _ _ => True) (.start emptyWorld) _ :=
    .one trivial (@CopyStep.openWrite Bool _ dataFs "a" twoWriters (.start emptyWorld) true [[1, 2]]
      [bytes "a", bytes "data"] rfl rfl rfl)
  have hrun := hrun.tail trivial (@CopyStep.openWrite Bool _ dataFs "a" twoWriters _ false [[3]]
    [bytes "a", bytes "data"] rfl rfl rfl)
  have hrun :=
    hrun.tail trivial (@CopyStep.write Bool _ dataFs "a" twoWriters _ true 0 [1, 2] [] rfl)
  have hrun := hrun.tail trivial (@CopyStep.write Bool _ dataFs "a" twoWriters _ false 0 [3] [] rfl)
  have hrun := hrun.tail trivial (@CopyStep.close Bool _ dataFs "a" twoWriters _ true 2 rfl)
  have hrun := hrun.tail trivial (@CopyStep.close Bool _ dataFs "a" twoWriters _ false 1 rfl)
  refine ⟨_, hrun, ?_, rfl⟩
  rintro (_ | _)
  · exact ⟨[], rfl⟩
  · exact ⟨[], rfl⟩

/-- A file of two bytes. -/
def twoByteWorld : World :=
  { World.empty with host := dataHost.put (bytes "a") [bytes "data"] (.file ⟨[8, 9], 0⟩) }

/-- Between the open of the one that writes and its write, the file is empty. -/
theorem reader_cut : ∃ s : Copies Bool,
    Runs (CopyStep dataFs "a" writeAndRead) (fun _ _ => True) (.start twoByteWorld) s ∧
      (∀ i, ∃ d, s.phase i = .done d) ∧ s.phase false = .done [] := by
  have hrun : Runs (CopyStep dataFs "a" writeAndRead) (fun _ _ => True) (.start twoByteWorld) _ :=
    .one trivial (@CopyStep.openWrite Bool _ dataFs "a" writeAndRead (.start twoByteWorld) true _
      [bytes "a", bytes "data"] rfl rfl rfl)
  have hrun := hrun.tail trivial (@CopyStep.openRead Bool _ dataFs "a" writeAndRead _ false
    [bytes "a", bytes "data"] ⟨[], 0⟩ rfl rfl rfl rfl rfl)
  have hrun := hrun.tail trivial (@CopyStep.eof Bool _ dataFs "a" writeAndRead _ false 0 8 [] rfl
    (by decide) rfl)
  have hrun :=
    hrun.tail trivial (@CopyStep.write Bool _ dataFs "a" writeAndRead _ true 0 [1, 2] [[]] rfl)
  have hrun := hrun.tail trivial (@CopyStep.write Bool _ dataFs "a" writeAndRead _ true 2 [] [] rfl)
  have hrun := hrun.tail trivial (@CopyStep.close Bool _ dataFs "a" writeAndRead _ true 2 rfl)
  refine ⟨_, hrun, ?_, rfl⟩
  rintro (_ | _)
  · exact ⟨[], rfl⟩
  · exact ⟨[], rfl⟩

/-- **Copies that disturb each other** mix what they write, and read what nobody wrote. -/
theorem disturbed_not_atomic :
    (∃ s : Copies Bool, Runs (CopyStep dataFs "a" twoWriters) (fun _ _ => True)
      (.start emptyWorld) s ∧
      ¬ Atomic twoWriters (emptyWorld.host.fileAt (dataFs.joined "a")) (s.shared dataFs "a")) ∧
    ∃ s : Copies Bool, Runs (CopyStep dataFs "a" writeAndRead) (fun _ _ => True)
      (.start twoByteWorld) s ∧
      ¬ Atomic writeAndRead (twoByteWorld.host.fileAt (dataFs.joined "a"))
        (s.shared dataFs "a") := by
  constructor
  · obtain ⟨s, hrun, hdone, hfile⟩ := writers_mix
    refine ⟨s, hrun, fun hatomic => ?_⟩
    obtain ⟨i, cs, hj, hc⟩ := (hatomic hdone).1 ⟨true, _, rfl⟩
    have hfile' : some cs.flatten = some [3, 2] := hc.symm.trans hfile
    cases i with
    | true => cases hj; cases hfile'
    | false => cases hj; cases hfile'
  · obtain ⟨s, hrun, hdone, hread⟩ := reader_cut
    refine ⟨s, hrun, fun hatomic => ?_⟩
    rcases (hatomic hdone).2 false [] rfl hread with hbefore | ⟨i, cs, hj, hc⟩
    · have hfile : twoByteWorld.host.fileAt (dataFs.joined "a") = some [8, 9] := by rfl
      rw [hfile] at hbefore
      cases hbefore
    · cases i with
      | true => cases hj; cases hc
      | false => cases hj

end FileFerry
