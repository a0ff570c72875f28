import FileFerry.Results.Opening

/-!
# Results — Links

What the calls of the file-system backend touch in a data root with links.

* `Contained`: what a call touches is where the names of its path spell, so that no link was
  followed; and a call that touches nothing fails and leaves everything.
* `FsBackend.openRead_contained`, `FsBackend.writeAll_contained`: when the calls are.
* `contained_iff`: both calls are contained exactly when the path leaves the root, meets no link
  before its last segment, or comes to a dead end.
-/

namespace FileFerry
open Text Posix AsyncIo Steps

/-- The location is the one the names `ns` spell from `r`, or for a directory that is made, the one
some of them spell.  Everything above a location that holds a node is a directory, so no link is on
the way there. -/
def Touch.Spelled (r : Loc) (ns : List Name) : Touch → Prop
  | .made l => ∃ pre, pre <+: ns ∧ l = pre.reverse ++ r
  | .read l => l = ns.reverse ++ r
  | .write l => l = ns.reverse ++ r

/-- What a call touches is below the root, and reached along the names of its path without following
a link; if it touches nothing, it fails and leaves the world; and nothing changes outside the
root. -/
structure Contained {α : Type} (r : Loc) (ns : List Name) (w : World)
    (q : List (Step World Event) × Except FerryError α) : Prop where
  spelled : ∀ t, .touch t ∈ trace q.1 → t.Spelled r ns
  refused : (∀ t, .touch t ∉ trace q.1) → (∃ e, q.2 = .error e) ∧ ∀ s ∈ q.1, s.world = w
  outside : ∀ s ∈ q.1, ∀ m, ¬ r <:+ m → s.world.host.tree.get m = w.host.tree.get m

/-- A call that fails, touches nothing and leaves the world. -/
theorem Contained.of_quiet {α : Type} {r : Loc} {ns : List Name} {w : World}
    {steps : List (Step World Event)} {e : FerryError} (hw : ∀ s ∈ steps, s.world = w)
    (ht : ∀ t, .touch t ∉ trace steps) : Contained r ns w (steps,
      (.error e : Except FerryError α)) where
  spelled t h := absurd h (ht t)
  refused _ := ⟨⟨e, rfl⟩, hw⟩
  outside s hs m _ := by rw [hw s hs]

theorem touch_notMem_logging (w : World) (records : List Record) (t : Touch) :
    .touch t ∉ trace (logging w records) := fun h => by
  obtain ⟨s, hs, he⟩ := mem_trace.mp h
  obtain ⟨r, -, rfl⟩ := List.mem_map.mp hs
  simp at he

theorem world_logging {w : World} {records : List Record} : ∀ s ∈ logging w records, s.world = w :=
  fun s hs => by
    obtain ⟨r, -, rfl⟩ := List.mem_map.mp hs
    rfl

namespace FsBackend

variable {fs : FsBackend} {path : String} {w : World} {r : Loc} {ns : List Name}

/-! ### Reading -/

/-- **A read is contained** when what it opens is where the names spell. -/
theorem openRead_contained (env : Env) : Contained r ns w (fs.openRead env path w) ↔
    (fs.admits w.host path = true → ∀ l, w.host.openRead (fs.joined path) = .ok l →
      l = ns.reverse ++ r) := by
  rcases openRead_cases fs env path w with ⟨ha, e, hrun⟩ | ⟨ha, ⟨l, ho, hrun⟩ | ⟨x, e, ho, hrun⟩⟩
  · rw [hrun]
    refine ⟨fun _ h => ?_, fun _ => .of_quiet world_logging (touch_notMem_logging _ _)⟩
    rw [ha] at h; cases h
  · rw [hrun]
    constructor
    · intro h _ l' hl'
      rw [ho] at hl'
      obtain rfl := Except.ok.inj hl'
      exact h.spelled (.read l) (by simp [trace])
    · intro h
      refine ⟨fun t ht => ?_, fun ht => ?_, fun s hs m _ => ?_⟩
      · obtain rfl : t = .read l := by simpa [trace] using ht
        exact h ha l ho
      · exact absurd (by simp [trace]) (ht (.read l))
      · rw [List.mem_singleton.mp hs]
  · rw [hrun]
    refine ⟨fun _ _ l hl => ?_, fun _ => .of_quiet (by simp) (by simp [trace])⟩
    rw [ho] at hl; cases hl

/-! ### Writing -/

/-- Where no directory is made, nothing is. -/
theorem makeParent_nil {h : Host} {p : Path} (hm : (makeParent h p).1 = []) :
    (makeParent h p).2.1 = h := by
  rw [makeParent] at hm ⊢
  split
  · rfl
  · rename_i cs hp
    rw [hp] at hm
    by_cases hc : Creatable h cs
    · obtain ⟨q, l, hne, hq, hl, hn⟩ := hc
      have := createDirAll_makes hne hq hl hn
      rw [show (h.createDirAll cs.reverse).1 = [] from hm] at this
      cases this
    · obtain ⟨res, e⟩ := createDirAll_quiet hc
      rw [e]

theorem touch_mem_parentSteps {p : Path} {t : Touch} :
    .touch t ∈ trace (parentSteps w p) ↔ ∃ l ∈ (makeParent w.host p).1, t = .made l := by
  rw [parentSteps, makeParent]
  split
  · simp [trace]
  · simp [trace, eq_comm]

theorem world_parentSteps {p : Path} :
    ∀ s ∈ parentSteps w p, s.world = { w with host := (makeParent w.host p).2.1 } := fun s hs => by
  rw [parentSteps] at hs
  split at hs
  · cases hs
  · rw [List.mem_singleton.mp hs]

/-- Directories made where the names spell leave what is outside the root. -/
theorem outside_made {h h' : Host} {made : List Loc} (hm : Made h made h')
    (hs : Posix.Spelled r ns made)
    {m : Loc} (hr : ¬ r <:+ m) : h'.tree.get m = h.tree.get m := by
  rw [hm.get, if_neg fun hmem => hr ?_]
  obtain ⟨pre, -, rfl⟩ := hs m hmem
  exact List.suffix_append _ _

/-- A write that makes directories and fails. -/
theorem contained_of_made {α : Type} {steps : List (Step World Event)} {e : FerryError}
    (hw : ∀ s ∈ steps, s.world = { w with host := (makeParent w.host (fs.joined path)).2.1 })
    (ht : ∀ t, .touch t ∈ trace steps ↔ ∃ l ∈ (makeParent w.host (fs.joined path)).1, t = .made l) :
    Contained r ns w (steps, (.error e : Except FerryError α)) ↔
      Posix.Spelled r ns (makeParent w.host (fs.joined path)).1 := by
  constructor
  · intro h l hl
    exact h.spelled (.made l) ((ht _).mpr ⟨l, hl, rfl⟩)
  · intro h
    refine ⟨fun t htm => ?_, fun hno => ⟨⟨e, rfl⟩, fun s hs => ?_⟩, fun s hs m hm => ?_⟩
    · obtain ⟨l, hl, rfl⟩ := (ht t).mp htm
      exact h l hl
    · rw [hw s hs, makeParent_nil]
      exact List.eq_nil_iff_forall_not_mem.mpr fun l hl => hno _ ((ht _).mpr ⟨l, hl, rfl⟩)
    · rw [hw s hs]
      exact outside_made (makeParent_made fs w.host path) h hm

/-- **A write is contained** when the directories it makes and the file it opens are where the names
spell. -/
theorem writeAll_contained {R : Type} [AsyncRead R] (env : Env) (reader : R) :
    Contained r ns w (fs.writeAll env path reader w) ↔ (fs.admits w.host path = true →
      Posix.Spelled r ns (makeParent w.host (fs.joined path)).1 ∧
      ((makeParent w.host (fs.joined path)).2.2 = .ok () → ∀ l h,
        (makeParent w.host (fs.joined path)).2.1.openWrite (fs.joined path) = .ok (l, h) →
        l = ns.reverse ++ r)) := by
  have hop := opening_opens fs path w
  rw [writeAll_eq]
  generalize hq : fs.opening path w = q at hop
  cases hop with
  | @refused e ha =>
      rw [Act.bind_error hq, ha]
      exact ⟨fun _ h => (by cases h), fun _ => .of_quiet world_logging (touch_notMem_logging _ _)⟩
  | @unmade x ha hm =>
      rw [Act.bind_error hq, contained_of_made world_parentSteps fun t => touch_mem_parentSteps]
      simp [ha, hm]
  | @unopened x e ha hm ho _ =>
      have hmade :=
        @contained_of_made fs path w r ns R _ e (fun s hs => (List.mem_append.mp hs).elim
        (world_parentSteps s) (world_logging s)) fun t => by
          rw [trace_append, List.mem_append,
            or_iff_left (touch_notMem_logging _ (openRefusals path x) t)]
          exact touch_mem_parentSteps
      rw [Act.bind_error hq, hmade]
      simp [ha, ho]
  | @opened l h ha hm ho =>
      rw [Act.bind_ok hq]
      simp only [ha, hm, ho, forall_const, Except.ok.injEq, Prod.mk.injEq, and_imp]
      obtain ⟨-, -, hrw⟩ := openWrite_rewrote (joined_ne_nil fs path) (slashFree_joined fs path) ho
      simp only [after_append, after_cons, after_nil]
      have hcopied := copyInto_file env reader { w with host := h } hrw
      -- the copy touches nothing more
      have hwrite : ∀ t, .touch t ∈ trace (parentSteps w (fs.joined path) ++
            [⟨{ w with host := h }, [.touch (.write l)]⟩] ++
            (copyInto (writeChunk l) env reader { w with host := h }).1) ↔
          (∃ k ∈ (makeParent w.host (fs.joined path)).1, t = .made k) ∨ t = .write l := fun t => by
        have hnone : .touch t ∉ trace (copyInto (writeChunk l) env reader { w with
          host := h }).1 := fun ht => by
          obtain ⟨s, hs, he⟩ := mem_trace.mp ht
          rw [(hcopied.steps s hs).1] at he
          cases he
        rw [trace_append, trace_append, List.mem_append, List.mem_append, or_iff_left hnone,
          touch_mem_parentSteps]
        simp [trace]
      constructor
      · intro hc
        exact ⟨fun k hk => hc.spelled (.made k) ((hwrite _).mpr (.inl ⟨k, hk, rfl⟩)),
          fun k _ hk _ =>
          hk ▸ hc.spelled (.write l) ((hwrite _).mpr (.inr rfl))⟩
      · rintro ⟨hs, hl⟩
        have hl := hl l h rfl rfl
        have hout : ∀ {g : Host} {c : List UInt8} {m : Loc},
            Rewrote (makeParent w.host (fs.joined path)).2.1 g l c → ¬ r <:+ m →
            g.tree.get m = w.host.tree.get m := fun {g c m} hg hm => by
          rw [hg.frame m fun e => hm (by rw [e, hl]; exact List.suffix_append _ _)]
          exact outside_made (makeParent_made fs w.host path) hs hm
        refine ⟨fun t ht => ?_, fun hno => absurd ((hwrite _).mpr (.inr rfl)) (hno (.write l)),
          fun s hmem m hm => ?_⟩
        · rcases (hwrite t).mp ht with ⟨k, hk, rfl⟩ | rfl
          · exact hs k hk
          · exact hl
        · rcases List.mem_append.mp hmem with hmem | hmem
          · rcases List.mem_append.mp hmem with hmem | hmem
            · rw [world_parentSteps s hmem]
              exact outside_made (makeParent_made fs w.host path) hs hm
            · rw [List.mem_singleton.mp hmem]
              exact hout hrw hm
          · obtain ⟨-, d, -, g, hg, hgr⟩ := hcopied.steps s hmem
            rw [hg]
            exact hout hgr hm

/-! ### With links on the way -/

/-- The path leads to a link, or nowhere, and no part of it leads to a name that is not used: there
is nothing to open, and nothing to make. -/
def DeadEnd (fs : FsBackend) (h : Host) (path : String) : Prop :=
  match h.lookup false (fs.joined path) with
  | .ok l => ∃ target, h.tree.get l = some (.symlink target)
  | .error .enoent => ∀ cs, parent (fs.joined path) = some cs → ¬ Creatable h cs
  | .error _ => True

theorem admits_of_lookup {h : Host} {l : Loc} (ho : fs.okPrefix h path = true)
    (hl : h.lookup false (fs.joined path) = .ok l)
    (hs : ∀ target, h.tree.get l ≠ some (.symlink target)) :
    fs.admits h path = true := by
  rw [admits, ho, Host.lstat, hl]
  rcases hg : h.tree.get l with _ | n
  · simp [bind, Except.bind, Host.nodeAt, hg]
  · cases n with
    | symlink target => exact absurd hg (hs target)
    | file g => simp [bind, Except.bind, Host.nodeAt, hg, Node.isSymlink]
    | dir => simp [bind, Except.bind, Host.nodeAt, hg, Node.isSymlink]

/-- **Without a link** before the last segment, the calls are contained. -/
theorem contained_linkFree {R : Type} [AsyncRead R] (hroot : Rooted fs w.host r)
    (hv : validatePath path = .ok ()) (env : Env) (reader : R) (ho : fs.okPrefix w.host path = true)
    (hf : linkFree w.host.tree r (fs.rel w.host path) = true) :
    Contained r (namesOf (fs.rel w.host path)) w (fs.openRead env path w) ∧
      Contained r (namesOf (fs.rel w.host path)) w (fs.writeAll env path reader w) := by
  have hb := below hroot hv ho
  rw [openRead_contained, writeAll_contained]
  refine ⟨fun _ l hl => ?_, fun _ => ⟨?_, fun _ l h hopen => ?_⟩⟩
  · rw [Host.openRead] at hl
    rcases hlook : w.host.lookup false (fs.joined path) with e | k
    · rw [hlook] at hl; cases hl
    · rw [hlook] at hl
      rcases hg : w.host.tree.get k with _ | n
      · simp [hg] at hl
      · cases n with
        | symlink target => simp [hg] at hl
        | file g =>
            simp only [hg, Except.ok.injEq] at hl
            rw [← hl]
            exact hb.at_lexical hf hlook (by rw [hg]; simp)
        | dir =>
            simp only [hg, Except.ok.injEq] at hl
            rw [← hl]
            exact hb.at_lexical hf hlook (by rw [hg]; simp)
  · rw [makeParent]
    split
    · simp [Posix.Spelled]
    · rename_i cs hp
      exact hb.parent_spelled hf hp rfl
  · have hmade := makeParent_made fs w.host path
    obtain ⟨hlook, hfile, -⟩ := openWrite_rewrote (joined_ne_nil fs path)
      (slashFree_joined fs path) hopen
    refine (hb.grows hmade.grows hmade.cwd).at_lexical (hmade.linkFree.trans hf) hlook ?_
    rcases hfile with hn | ⟨g, hg⟩
    · rw [hn]; simp
    · rw [hg]; simp

/-- **At a dead end**, the calls touch nothing. -/
theorem contained_deadEnd {R : Type} [AsyncRead R] (env : Env) (reader : R)
    (hd : fs.DeadEnd w.host path) :
    Contained r ns w (fs.openRead env path w) ∧
    Contained r ns w (fs.writeAll env path reader w) := by
  rw [openRead_contained, writeAll_contained]
  rw [DeadEnd] at hd
  rcases hl : w.host.lookup false (fs.joined path) with e | l
  · -- the lookup fails, and so does every open
    have hread : w.host.openRead (fs.joined path) = .error e := by rw [Host.openRead, hl]
    refine ⟨fun _ l h => (by rw [hread] at h; cases h), fun ha => ?_⟩
    obtain rfl : e = .enoent := by
      rw [admits, Host.lstat, hl, Bool.and_eq_true] at ha
      simpa [bind, Except.bind] using ha.2
    rw [hl] at hd
    have hquiet : (makeParent w.host (fs.joined path)).1 = [] ∧
        (makeParent w.host (fs.joined path)).2.1 = w.host := by
      rw [makeParent]
      split
      · exact ⟨rfl, rfl⟩
      · rename_i cs hp
        obtain ⟨res, e⟩ := createDirAll_quiet (hd cs hp)
        rw [e]
        exact ⟨rfl, rfl⟩
    rw [hquiet.1, hquiet.2]
    refine ⟨by simp [Posix.Spelled], fun _ l h hopen => ?_⟩
    obtain ⟨e', he⟩ := Host.openWrite_error hl
    rw [he] at hopen
    cases hopen
  · rw [hl] at hd
    obtain ⟨target, ht⟩ := hd
    have ha : fs.admits w.host path = false := by
      rw [admits, Host.lstat, hl]
      simp [bind, Except.bind, Host.nodeAt, ht, Node.isSymlink]
    rw [ha]
    exact ⟨fun h => (by cases h), fun h => (by cases h)⟩

/-- **Beyond a link**, one of the calls is not contained. -/
theorem not_contained_beyond {R : Type} [AsyncRead R] (hroot : Rooted fs w.host r)
    (hv : validatePath path = .ok ()) (env : Env) (reader : R) (ho : fs.okPrefix w.host path = true)
    (hf : linkFree w.host.tree r (fs.rel w.host path) = false) (hd : ¬ fs.DeadEnd w.host path) :
    ¬ (Contained r (namesOf (fs.rel w.host path)) w (fs.openRead env path w) ∧
      Contained r (namesOf (fs.rel w.host path)) w (fs.writeAll env path reader w)) := by
  have hb := below hroot hv ho
  rw [openRead_contained, writeAll_contained]
  rintro ⟨hread, hwrite⟩
  rw [DeadEnd] at hd
  rcases hl : w.host.lookup false (fs.joined path) with e | l
  · -- a directory is made beyond the link
    rw [hl] at hd
    cases e with
    | enoent =>
        simp only [not_forall, not_not] at hd
        obtain ⟨cs, hp, hc⟩ := hd
        have ha : fs.admits w.host path = true := by
          rw [admits, ho, Host.lstat, hl]
          simp [bind, Except.bind]
        refine hb.parent_astray hf hp hc ?_
        have hmade := (hwrite ha).1
        rwa [makeParent, hp] at hmade
    | eexist => exact hd trivial
    | enotdir => exact hd trivial
    | eisdir => exact hd trivial
    | enametoolong => exact hd trivial
    | eloop => exact hd trivial
  · rw [hl] at hd
    have hs : ∀ target, w.host.tree.get l ≠ some (.symlink target) :=
      fun target ht => hd ⟨target, ht⟩
    have ha := admits_of_lookup ho hl hs
    refine hb.astray hf hl hs ?_
    rcases hg : w.host.tree.get l with _ | n
    · -- the name is not used: the file is made there
      obtain ⟨x, m, rfl⟩ : ∃ x m, l = x :: m := by
        rcases l with _ | ⟨x, m⟩
        · rw [Tree.get_top] at hg; cases hg
        · exact ⟨x, m, rfl⟩
      have hparent : makeParent w.host (fs.joined path) = ([], w.host, .ok ()) := by
        rw [makeParent]
        split
        · rfl
        · rename_i cs hp
          exact hb.parent_ready hp hl
      rw [hparent] at hwrite
      refine (hwrite ha).2 rfl _ (w.host.put x m (.file ⟨[], w.host.now⟩)) ?_
      rw [Host.openWrite_eq hl]
      simp only [Host.create, hg]
    · refine hread ha l ?_
      rw [Host.openRead, hl]
      cases n with
      | symlink target => exact absurd hg (hs target)
      | file g => simp only [hg]
      | dir => simp only [hg]

end FsBackend

/-- **Both calls are contained** exactly when the path leaves the root, meets no link before its
last segment, or comes to a dead end. -/
theorem contained_iff {R : Type} [AsyncRead R] {fs : FsBackend} {path : String}
    {w : World} {r : Loc}
    (hroot : Rooted fs w.host r) (hv : validatePath path = .ok ()) (env : Env) (reader : R) :
    (Contained r (namesOf (fs.rel w.host path)) w (fs.openRead env path w) ∧
      Contained r (namesOf (fs.rel w.host path)) w (fs.writeAll env path reader w)) ↔
    fs.okPrefix w.host path = false ∨ linkFree w.host.tree r (fs.rel w.host path) = true ∨
      fs.DeadEnd w.host path := by
  cases ho : fs.okPrefix w.host path with
  | false =>
      have ha : fs.admits w.host path = false := by rw [FsBackend.admits, ho]; rfl
      rw [FsBackend.openRead_contained, FsBackend.writeAll_contained, ha]
      simp
  | true =>
      cases hf : linkFree w.host.tree r (fs.rel w.host path) with
      | true => simp [FsBackend.contained_linkFree hroot hv env reader ho hf]
      | false =>
          by_cases hd : fs.DeadEnd w.host path
          · simp [FsBackend.contained_deadEnd env reader hd, hd]
          · have hno := FsBackend.not_contained_beyond hroot hv env reader ho hf hd
            simp [hno, hd]

/-- Below `/data` the link `link` leads to the directory `/out`, which holds the file `x`. -/
def linkWorld : World :=
  { World.empty with host := ((dataHost.put (bytes "out") [] .dir).put (bytes "x") [bytes "out"]
      (.file ⟨[1], 0⟩)).put (bytes "link") [bytes "data"] (.symlink (bytes "/out")) }

/-- A reader of one byte. -/
def oneByte : TimeoutReader Script := TimeoutReader.new ⟨[.data 2 []], 0⟩

theorem dataFs_rooted_link : Rooted dataFs linkWorld.host [bytes "data"] := ⟨by decide, by decide⟩

/-- A path without a link is contained. -/
theorem contained_plain : Contained [bytes "data"]
    (namesOf (dataFs.rel linkWorld.host "a")) linkWorld
      (dataFs.openRead .calm "a" linkWorld) ∧
    Contained [bytes "data"] (namesOf (dataFs.rel linkWorld.host "a")) linkWorld
      (dataFs.writeAll .calm "a" oneByte linkWorld) :=
  (contained_iff dataFs_rooted_link (by decide) .calm oneByte).mpr (.inr (.inl (by decide)))

/-- **A link before the last segment** is followed: the file read, and the file written, is outside
the root. -/
theorem link_followed : Rooted dataFs linkWorld.host [bytes "data"] ∧
    validatePath "link/x" = .ok () ∧
    ¬ Contained [bytes "data"] (namesOf (dataFs.rel linkWorld.host "link/x")) linkWorld
        (dataFs.openRead .calm "link/x" linkWorld) ∧
    ¬ Contained [bytes "data"] (namesOf (dataFs.rel linkWorld.host "link/x")) linkWorld
        (dataFs.writeAll .calm "link/x" oneByte linkWorld) := by
  have hread : Event.touch (.read [bytes "x", bytes "out"])
      ∈ trace (dataFs.openRead .calm "link/x" linkWorld).1 := by decide
  have hwrite : Event.touch (.write [bytes "x", bytes "out"])
      ∈ trace (dataFs.writeAll .calm "link/x" oneByte linkWorld).1 := by decide
  have hspell : [bytes "x", bytes "out"]
      ≠ (namesOf (dataFs.rel linkWorld.host "link/x")).reverse ++ [bytes "data"] := by decide
  exact ⟨dataFs_rooted_link, by decide, fun h => hspell (h.spelled _ hread),
    fun h => hspell (h.spelled _ hwrite)⟩

end FileFerry
