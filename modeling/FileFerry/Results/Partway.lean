import FileFerry.Results.Statuses
import FileFerry.Results.Store
import FileFerry.Support.Copier

/-!
# Results — Partway

The two stores as one map from slots to bytes, and what every single step of a write makes of it, so
that it does not matter at which step a request is given up.

* `World.store`: the files by their locations, and the objects by their keys.
* `Grown`: what no step of a request takes back: where the root is, what is in it, that it has no
  links, and everything outside.
* `FsBackend.opening_iff`: a path opens for writing exactly when it is free.
* `BackendRef.writing_partway`: every step of a write leaves the store alone, or its slot with the
  beginning of what was copied; an object is stored whole.
* `BackendRef.writing_done`: a write that succeeds stores what was copied.
* `BackendRef.openRead_store`: what is read are the bytes of the slot.
-/

namespace FileFerry
open Text Posix AsyncIo Steps Copier

/-- Where bytes are kept. -/
inductive Slot where
  | file (l : Loc)
  | object (key : String)
  deriving DecidableEq

/-- An object is stored at once. -/
def Slot.Whole : Slot → Prop
  | .file _ => False
  | .object _ => True

/-- What is stored in the two stores. -/
def World.store (w : World) : Store Slot UInt8
  | .file l => w.host.tree.contents l
  | .object key => w.bucket.lookup key

/-- The slot a path names. -/
def BackendRef.slot (h : Host) (r : Loc) (path : String) : BackendRef → Option Slot
  | .fs b => some (.file (b.place h r path))
  | .s3 b => some (.object (b.key path))
  | .offline _ => none

theorem store_eq {w v : World} (hc : v.host.tree.contents = w.host.tree.contents)
    (hb : v.bucket = w.bucket) : v.store = w.store := by
  funext k
  cases k with
  | file l => exact congrFun hc l
  | object key => show v.bucket.lookup key = w.bucket.lookup key; rw [hb]

theorem store_file {w v : World} {l : Loc} {c : List UInt8}
    (hc : v.host.tree.contents = Function.update w.host.tree.contents l (some c))
    (hb : v.bucket = w.bucket) : v.store = Function.update w.store (.file l) (some c) := by
  funext k
  cases k with
  | object key =>
      rw [Function.update_of_ne (by simp)]
      show v.bucket.lookup key = w.bucket.lookup key
      rw [hb]
  | file m =>
      show v.host.tree.contents m = _
      rw [hc]
      by_cases hm : m = l
      · subst hm
        rw [Function.update_self, Function.update_self]
      · rw [Function.update_of_ne hm, Function.update_of_ne (by simpa using hm)]
        rfl

theorem store_object {w : World} {key : String} {c : List UInt8} :
    World.store { w with bucket := w.bucket.insert key c }
      = Function.update w.store (.object key) (some c) := by
  funext k
  cases k with
  | file l => rw [Function.update_of_ne (by simp)]; rfl
  | object key' =>
      show (w.bucket.insert key c).lookup key' = _
      by_cases hk : key' = key
      · subst hk
        rw [AList.lookup_insert, Function.update_self]
      · rw [AList.lookup_insert_ne hk, Function.update_of_ne (by simpa using hk)]
        rfl

/-! ### A root that grows -/

/-- The world `v` is `w` with more in the root at `r`. -/
structure Grown (r : Loc) (w v : World) : Prop where
  cwd : v.host.cwd = w.host.cwd
  grows : Grows w.host.tree v.host.tree
  linkless : Linkless w.host.tree r → Linkless v.host.tree r
  outside : ∀ m, ¬ r <:+ m → v.host.tree.get m = w.host.tree.get m

namespace Grown

variable {r : Loc} {u v w : World} {fs : FsBackend}

theorem of_host (h : v.host = w.host) : Grown r w v := by
  refine ⟨by rw [h], ?_, ?_, ?_⟩
  · rw [h]; exact .refl _
  · rw [h]; exact id
  · intro m _
    rw [h]

theorem trans (h : Grown r u v) (h' : Grown r v w) : Grown r u w :=
  ⟨h'.cwd.trans h.cwd, h.grows.trans h'.grows, fun hl => h'.linkless (h.linkless hl),
    fun m hm => (h'.outside m hm).trans (h.outside m hm)⟩

theorem rooted (h : Grown r w v) (hroot : Rooted fs w.host r) : Rooted fs v.host r :=
  FsBackend.rooted_grows hroot h.grows h.cwd

/-- Paths lead where they led before. -/
theorem slot (h : Grown r w v) (hroot : Rooted fs w.host r) {b : BackendRef}
    (hb : ∀ fs', b = .fs fs' → fs' = fs) (path : String) :
    b.slot v.host r path = b.slot w.host r path := by
  cases b with
  | fs fs' =>
      obtain rfl := hb fs' rfl
      simp only [BackendRef.slot, FsBackend.place_grows hroot h.grows h.cwd]
  | s3 b => rfl
  | offline b => rfl

end Grown

theorem raised_contents {r k : Loc} {t t' : Tree} (hr : Raised r k t t') :
    t'.contents = t.contents := by
  funext m
  rw [Tree.contents, Tree.contents, hr m]
  split_ifs with hm
  · rw [hm.1]
  · rfl

/-! ### Into a file -/

namespace FsBackend

variable {fs : FsBackend} {path : String} {w : World} {r : Loc}

/-- The path leads, in the root, to a file or to a name that is not used, does not end in a slash,
and no name of it is too long. -/
structure Free (fs : FsBackend) (h : Host) (r : Loc) (path : String) : Prop where
  inside : fs.okPrefix h path = true
  unblocked : ¬ Blocked h.tree r (fs.rel h path)
  untrailed : ¬ Trailing (fs.rel h path)
  short : fs.ShortNames h path
  vacant : h.tree.Open (fs.place h r path)

/-- What a write of the bytes `c` to the path may leave at some step: the world as it was,
directories above the file, or a file with the beginning of the bytes. -/
inductive Partway (fs : FsBackend) (r : Loc) (path : String) (c : List UInt8) (w : World) :
    World → Prop where
  | same : Partway fs r path c w w
  | raised {v : World} {k : Loc} : k <:+ fs.place w.host r path → Leaves w v (Raised r k) →
      Partway fs r path c w v
  | stored {v : World} {d : List UInt8} : w.host.tree.Open (fs.place w.host r path) → d <+: c →
      Leaves w v (Stored r (fs.place w.host r path) d) → Partway fs r path c w v

theorem Partway.grown {c : List UInt8} {v : World} (h : Partway fs r path c w v) : Grown r w v := by
  cases h with
  | same => exact .of_host rfl
  | raised _ h =>
      obtain ⟨h', rfl, hcwd, hr⟩ := h
      refine ⟨hcwd, hr.grows, hr.linkless, fun m hm => ?_⟩
      show h'.tree.get m = w.host.tree.get m
      rw [hr m, if_neg fun hm' => hm hm'.2.1]
  | stored ho _ h =>
      obtain ⟨h', rfl, hcwd, hs⟩ := h
      exact ⟨hcwd, hs.grows ho, hs.linkless, fun m hm => hs.outside (suffix_lexical _ _) hm⟩

theorem Partway.store {c : List UInt8} {v : World} (h : Partway fs r path c w v) :
    v.store = w.store ∨ ∃ d, d <+: c ∧
      v.store = Function.update w.store (.file (fs.place w.host r path)) (some d) := by
  cases h with
  | same => exact .inl rfl
  | raised _ h =>
      obtain ⟨h', rfl, -, hr⟩ := h
      exact .inl (store_eq (raised_contents hr) rfl)
  | @stored _ d _ hd h =>
      obtain ⟨h', rfl, -, hs⟩ := h
      exact .inr ⟨d, hd, store_file hs.contents rfl⟩

section Linkless

variable (hroot : Rooted fs w.host r) (hlinks : Linkless w.host.tree r)
    (hv : validatePath path = .ok ())

include hroot hlinks hv

/-- A path that opens for writing is free. -/
theorem free_of_opening {l : Loc} (hl : (fs.opening path w).2 = .ok l) : fs.Free w.host r path := by
  -- with nothing to copy, and nothing that fails, the write succeeds
  obtain ⟨rd, hok⟩ : ∃ rd, (fs.writeAll .calm path (⟨[], 0⟩ : Script) w).2 = .ok rd := by
    have hcalm : Env.calm.Writes := ⟨rfl, rfl, rfl, rfl, rfl⟩
    rcases (writeAll_opened (⟨[], 0⟩ : Script) hl hcalm).2 with
      ⟨e, -, he⟩ | ⟨rd, h, -⟩
    · exact absurd he (by simp [copy, copyRounds, AsyncRead.pollRead, Script.pollRead])
    · exact ⟨rd, h⟩
  obtain ⟨ho, ht, hopen, -, -, -⟩ := writeAll_ok hroot hlinks hv .calm (⟨[], 0⟩ : Script) hok
  have hfree : ¬ Blocked w.host.tree r (fs.rel w.host path) := fun hblock => by
    rw [opening_blocked hroot hlinks hv ho hblock] at hl
    cases hl
  exact ⟨ho, hfree, ht, short_of_opening hroot hlinks hv ho hfree hl, hopen⟩

/-- …and a free path opens where it leads, with a new file there. -/
theorem Free.opening (h : fs.Free w.host r path) :
    (fs.opening path w).2 = .ok (fs.place w.host r path) ∧
      Leaves w (after w (fs.opening path w).1) (Stored r (fs.place w.host r path) []) := by
  have hne : fs.rel w.host path ≠ [] := fun e => by
    have hdir : w.host.tree.get (fs.place w.host r path) = some .dir := by
      rw [place, e, lexical_nil]
      exact hroot.dir
    rcases h.vacant with hn | ⟨f, hf⟩
    · rw [hdir] at hn; cases hn
    · rw [hdir] at hf; cases hf
  exact opening_stored hroot hlinks hv h.inside hne h.unblocked h.short h.untrailed h.vacant

/-- **A path opens for writing** exactly when it is free. -/
theorem opening_iff : (∃ l, (fs.opening path w).2 = .ok l) ↔ fs.Free w.host r path :=
  ⟨fun ⟨_, hl⟩ => free_of_opening hroot hlinks hv hl, fun h => ⟨_, (h.opening hroot hlinks hv).1⟩⟩

/-- **A path that opens** for writing is open where it leads, and a file is there now. -/
theorem opening_place {l : Loc} (hl : (fs.opening path w).2 = .ok l) :
    l = fs.place w.host r path ∧ w.host.tree.Open (fs.place w.host r path) ∧
      Leaves w (after w (fs.opening path w).1) (Stored r (fs.place w.host r path) []) := by
  have hfree := free_of_opening hroot hlinks hv hl
  obtain ⟨hplace, hleaves⟩ := hfree.opening hroot hlinks hv
  exact ⟨Except.ok.inj (hl.symm.trans hplace), hfree.vacant, hleaves⟩

/-- What comes before the open of the file makes directories at most. -/
theorem opening_quiet {c : List UInt8} :
    ∃ quiet, (∀ s ∈ quiet, Partway fs r path c w s.world) ∧
      (((∃ e, (fs.opening path w).2 = .error e) ∧ (fs.opening path w).1 = quiet) ∨
        ∃ l s, (fs.opening path w).2 = .ok l ∧ (fs.opening path w).1 = quiet ++ [s]) := by
  have hlogging : ∀ (v : World) (rs : List Record), ∀ s ∈ logging v rs, s.world = v := by
    intro v rs s hs
    obtain ⟨_, -, rfl⟩ := List.mem_map.mp hs
    rfl
  by_cases ho : fs.okPrefix w.host path = true
  · by_cases hblock : Blocked w.host.tree r (fs.rel w.host path)
    · rw [opening_blocked hroot hlinks hv ho hblock]
      exact ⟨[], by simp, .inl ⟨⟨_, rfl⟩, rfl⟩⟩
    · obtain ⟨h, hmade, hcwd, -, hraised⟩ := makeParent_raised hroot hlinks hv ho hblock
      have hp : Partway fs r path c w { w with
        host := (makeParent w.host (fs.joined path)).2.1 } := by
        rw [hmade]
        exact .raised (ceiling_suffix r _) ⟨h, rfl, hcwd, hraised⟩
      have hparent : ∀ s ∈ parentSteps w (fs.joined path), Partway fs r path c w s.world := by
        intro s hs
        rw [parentSteps] at hs
        split at hs
        · cases hs
        · rw [List.mem_singleton.mp hs]; exact hp
      have hop := opening_opens fs path w
      generalize fs.opening path w = q at hop
      cases hop with
      | refused _ =>
          exact ⟨_, fun s hs => by rw [hlogging _ _ s hs]; exact .same, .inl ⟨⟨_, rfl⟩, rfl⟩⟩
      | unmade _ _ => exact ⟨_, hparent, .inl ⟨⟨_, rfl⟩, rfl⟩⟩
      | unopened _ _ _ _ =>
          refine ⟨_, fun s hs => ?_, .inl ⟨⟨_, rfl⟩, rfl⟩⟩
          rcases List.mem_append.mp hs with hs | hs
          · exact hparent s hs
          · rw [hlogging _ _ s hs]; exact hp
      | opened _ _ _ => exact ⟨_, hparent, .inr ⟨_, _, rfl, rfl⟩⟩
  · have ha : fs.admits w.host path = false := by
      rw [admits, Bool.and_eq_false_iff]
      exact .inl (by simpa using ho)
    have hop := opening_opens fs path w
    generalize fs.opening path w = q at hop
    cases hop with
    | refused _ =>
        exact ⟨_, fun s hs => by rw [hlogging _ _ s hs]; exact .same, .inl ⟨⟨_, rfl⟩, rfl⟩⟩
    | unmade h _ => rw [ha] at h; cases h
    | unopened h _ _ _ => rw [ha] at h; cases h
    | opened h _ _ => rw [ha] at h; cases h

/-- **Every step of a write** leaves the file with the beginning of what was copied, if it is
there. -/
theorem writeAll_partway {R : Type} [AsyncRead R] (env : Env) (reader : R) :
    ∀ s ∈ (fs.writeAll env path reader w).1,
      Partway fs r path (copy env.copy reader).1.flatten w s.world := by
  obtain ⟨quiet, hquiet, ⟨⟨e, he⟩, hsteps⟩ | ⟨l, last, hl, hsteps⟩⟩ :=
    @opening_quiet fs path w r hroot hlinks hv (copy env.copy reader).1.flatten
  · rcases ho : fs.opening path w with ⟨steps, x⟩
    rw [ho] at he hsteps
    obtain rfl : x = .error e := he
    obtain rfl : steps = quiet := hsteps
    rw [writeAll_eq, Act.bind_error ho]
    exact hquiet
  · obtain ⟨rfl, hopen, hleaves⟩ := opening_place hroot hlinks hv hl
    rcases ho : fs.opening path w with ⟨steps, x⟩
    rw [ho] at hl hsteps hleaves
    obtain rfl : x = .ok (fs.place w.host r path) := hl
    obtain rfl : steps = quiet ++ [last] := hsteps
    obtain ⟨h, hafter, hcwd, hst⟩ := hleaves
    simp only [after_append, after_cons, after_nil] at hafter
    have hrw : Rewrote h h (fs.place w.host r path) [] := ⟨hst.file, fun _ _ => rfl, rfl⟩
    have hcopied := copyInto_file env reader { w with host := h } hrw
    rw [writeAll_eq, Act.bind_ok ho]
    simp only [after_append, after_cons, after_nil, hafter]
    intro s hs
    rcases List.mem_append.mp hs with hs | hs
    · rcases List.mem_append.mp hs with hs | hs
      · exact hquiet s hs
      · rw [List.mem_singleton.mp hs, hafter]
        exact .stored hopen List.nil_prefix ⟨h, rfl, hcwd, hst⟩
    · obtain ⟨-, d, hd, h', hv', hrw'⟩ := hcopied.steps s hs
      rw [hv']
      exact .stored hopen hd ⟨h', rfl, hrw'.cwd.trans hcwd, hst.rewrote hrw'⟩

/-- **What is opened for reading** is the file where the path leads, or a directory. -/
theorem openRead_place {env : Env} {rd : Script} (hok : (fs.openRead env path w).2 = .ok rd) :
    (∃ c, w.host.tree.contents (fs.place w.host r path) = some c ∧ rd = ⟨deliver env.feed c, 0⟩) ∨
      rd = ⟨[.error (.os .eisdir)], 0⟩ := by
  cases ho : fs.okPrefix w.host path with
  | false => rw [openRead_escaped ho] at hok; cases hok
  | true =>
      rw [openRead_outcome ho] at hok
      rcases lookup_linkless hroot hlinks hv ho with
        ⟨l, target, hl, ht⟩ | ⟨-, hl⟩ | ⟨-, hl⟩ | ⟨-, -, hl | ⟨hl, -⟩⟩
      · rw [hl] at hok
        simp only [outcome, ht] at hok
        cases hok
      · rw [hl] at hok; cases hok
      · rw [hl] at hok; cases hok
      · rw [hl] at hok
        rcases hg : w.host.tree.get (lexical r (fs.rel w.host path)) with _ | n
        · simp only [outcome, hg] at hok
          cases hok
        · cases n with
          | symlink target => exact absurd hg (hlinks _ target (suffix_lexical _ _))
          | dir =>
              simp only [outcome, hg, readerOf] at hok
              exact .inr (Except.ok.inj hok).symm
          | file f =>
              simp only [outcome, hg, readerOf] at hok
              exact .inl ⟨f.content, Tree.contents_eq_some.mpr ⟨f, hg, rfl⟩,
                (Except.ok.inj hok).symm⟩
      · rw [hl] at hok; cases hok

end Linkless

end FsBackend

/-! ### Into the bucket -/

/-- **Every step of an upload** leaves the bucket alone, or with the object that was copied. -/
theorem S3Backend.writeAll_partway {R : Type} [AsyncRead R] (b : S3Backend) (env : Env)
    (path : String) (reader : R) (w : World) :
    (∀ s ∈ (b.writeAll env path reader w).1, s.world = w ∨
      (∃ rd, (copy env.copy reader).2 = .ok rd) ∧ s.world
        = { w with bucket := w.bucket.insert (b.key path) (copy env.copy reader).1.flatten }) ∧
    ∀ rd, (b.writeAll env path reader w).2 = .ok rd → (copy env.copy reader).2 = .ok rd ∧
      after w (b.writeAll env path reader w).1
        = { w with bucket := w.bucket.insert (b.key path) (copy env.copy reader).1.flatten } := by
  have hputs := b.writeAll_puts env path reader w
  generalize b.writeAll env path reader w = q at hputs
  cases hputs with
  | failed hs _ => exact ⟨fun s h => .inl (hs s h).1, fun rd h => by cases h⟩
  | refused hs _ =>
      refine ⟨fun s h => .inl ?_, fun rd h => by cases h⟩
      rcases List.mem_append.mp h with h | h
      · exact (hs s h).1
      · rw [List.mem_singleton.mp h]
  | @stored steps rd v hs hr hv =>
      subst hv
      refine ⟨fun s h => ?_, fun rd' h => ?_⟩
      · rcases List.mem_append.mp h with h | h
        · exact .inl (hs s h).1
        · simp only [List.mem_cons, List.not_mem_nil, or_false] at h
          rcases h with rfl | rfl | rfl
          · exact .inl rfl
          · exact .inr ⟨⟨rd, hr⟩, rfl⟩
          · exact .inr ⟨⟨rd, hr⟩, rfl⟩
      · obtain rfl := Except.ok.inj h
        exact ⟨hr, by rw [after_append, hs.after]; rfl⟩

/-! ### Either way -/

section Slots

variable {fs : FsBackend} {w : World} {r : Loc} {b : BackendRef} {path : String} {k : Slot}
  (hroot : Rooted fs w.host r) (hlinks : Linkless w.host.tree r) (hv : validatePath path = .ok ())
  (hb : ∀ fs', b = .fs fs' → fs' = fs)

include hroot hlinks hv hb

/-- **Every step of a write** leaves the store alone, or its slot with the beginning of what was
copied; an object is all of it, once the copy ended well. -/
theorem BackendRef.writing_partway {R : Type} [AsyncRead R] (env : Env) (reader : R)
    (hk : b.slot w.host r path = some k) :
    ∀ s ∈ (b.writing env path reader w).1, Grown r w s.world ∧ (s.world.store = w.store ∨
      ∃ d, d <+: (copy env.copy reader).1.flatten ∧
        (k.Whole → d = (copy env.copy reader).1.flatten ∧ ∃ rd, (copy env.copy reader).2 = .ok rd) ∧
        s.world.store = Function.update w.store k (some d)) := by
  intro s hs
  cases b with
  | fs fs' =>
      obtain rfl := hb fs' rfl
      obtain rfl := Option.some.inj hk
      have hp := FsBackend.writeAll_partway hroot hlinks hv env reader s hs
      refine ⟨hp.grown, hp.store.imp id ?_⟩
      rintro ⟨d, hd, e⟩
      exact ⟨d, hd, fun h => h.elim, e⟩
  | s3 b =>
      obtain rfl := Option.some.inj hk
      rcases (b.writeAll_partway env path reader w).1 s hs with e | ⟨hok, e⟩
      · rw [e]; exact ⟨.of_host rfl, .inl rfl⟩
      · rw [e]
        exact ⟨.of_host rfl, .inr ⟨_, List.prefix_refl _, fun _ => ⟨rfl, hok⟩, store_object⟩⟩
  | offline b => cases hk

/-- **A write that succeeds** stores what was copied. -/
theorem BackendRef.writing_done {R : Type} [AsyncRead R] (env : Env) (reader : R)
    (hk : b.slot w.host r path = some k) {rd : R} (hok : (b.writing env path reader w).2 = .ok rd) :
    (copy env.copy reader).2 = .ok rd ∧ (after w (b.writing env path reader w).1).store
      = Function.update w.store k (some (copy env.copy reader).1.flatten) := by
  cases b with
  | fs fs' =>
      obtain rfl := hb fs' rfl
      obtain rfl := Option.some.inj hk
      obtain ⟨-, -, -, -, hcopy, h, hafter, -, hst⟩ :=
        FsBackend.writeAll_ok hroot hlinks hv env reader hok
      refine ⟨hcopy, ?_⟩
      show (after w (fs'.writeAll env path reader w).1).store = _
      rw [hafter]
      exact store_file hst.contents rfl
  | s3 b =>
      obtain rfl := Option.some.inj hk
      obtain ⟨hcopy, e⟩ := (b.writeAll_partway env path reader w).2 rd hok
      refine ⟨hcopy, ?_⟩
      show (after w (b.writeAll env path reader w).1).store = _
      rw [e]
      exact store_object
  | offline b => cases hk

/-- **What is opened for reading** are the bytes of the slot, as they come, or a directory. -/
theorem BackendRef.openRead_store {env : Env} {rd : Script}
    (hok : (b.openRead env path w).2 = .ok rd) :
    ∃ k, b.slot w.host r path = some k ∧
      ((∃ c, w.store k = some c ∧ rd = ⟨deliver env.feed c, 0⟩) ∨
        (∃ fs', b = .fs fs') ∧ rd = ⟨[.error (.os .eisdir)], 0⟩) := by
  rw [BackendRef.openRead_value] at hok
  cases b with
  | fs fs' =>
      obtain rfl := hb fs' rfl
      refine ⟨_, rfl, (FsBackend.openRead_place hroot hlinks hv hok).imp id fun h => ⟨⟨_, rfl⟩, h⟩⟩
  | s3 b =>
      refine ⟨_, rfl, .inl ?_⟩
      have hrun : BackendRef.reading (.s3 b) env path w = b.openRead env path w := rfl
      rw [hrun, S3Backend.openRead, await, Act.step_bind, Act.get_bind] at hok
      rcases hg : env.getFault with _ | e
      · rcases hl : w.bucket.lookup (b.key path) with _ | c
        · simp only [id, hg, hl] at hok
          cases hok
        · simp only [id, hg, hl] at hok
          exact ⟨c, hl, (Except.ok.inj hok).symm⟩
      · simp only [hg] at hok
        cases hok
  | offline b => cases hok

end Slots

/-- Nothing is written where there is no slot. -/
theorem BackendRef.writing_nowhere {R : Type} [AsyncRead R] {b : BackendRef} {h : Host} {r : Loc}
    {path : String} (hk : b.slot h r path = none) (env : Env) (reader : R) (w : World) :
    ∃ e, b.writing env path reader w = ([], .error e) := by
  cases b with
  | fs b => cases hk
  | s3 b => cases hk
  | offline b => exact ⟨_, rfl⟩

end FileFerry
