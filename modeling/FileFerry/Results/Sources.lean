import FileFerry.Results.Envelope
import FileFerry.Results.Transfer

/-!
# Results — Sources

How a copy from the file system is answered when its source is no regular file.

* `FsBackend.lookup_linkless`: where a path leads in a data root without links.
* `FsBackend.openRead_outcome`: how an open ends, from where its path leads.
* `FsBackend.openRead_absent`: opening what is no file fails, or gives a reader that cannot be read.
* `absent_source_iff`: the answer is a client error exactly when the path is refused, or names no
  directory and nothing below a file, and has no name that is too long for the directory it is
  looked up in.
-/

namespace FileFerry
open Text Posix AsyncIo Steps

/-- The response is `404 not_found` or `400 invalid_path`. -/
def SourceRefused (r : Response) : Prop :=
  ∃ body, r.body = some body ∧ (r.status = 404 ∧ body.text "error" = some "not_found" ∨
    r.status = 400 ∧ body.text "error" = some "invalid_path")

/-- The path names a regular file beneath the root, which is at `r`.  The process may read every
file of the host. -/
def FsBackend.NamesFile (fs : FsBackend) (h : Host) (r : Loc) (path : String) : Prop :=
  ∃ l f, h.lookup false (fs.joined path) = .ok l ∧ r <:+ l ∧ h.tree.get l = some (.file f)

/-- The path leaves the root, or is a link; or it names no directory, no regular file comes before
its end, and no name too long for a directory comes to be looked up in one. -/
def FsBackend.Nowhere (fs : FsBackend) (h : Host) (r : Loc) (path : String) : Prop :=
  fs.okPrefix h path = false ∨ (∃ target, h.lstat (fs.joined path) = .ok (.symlink target)) ∨
    ¬ Blocked h.tree r (fs.rel h path) ∧ ¬ TooLong h.tree r (fs.rel h path) ∧
      h.tree.get (lexical r (fs.rel h path)) ≠ some .dir

theorem refused_of_error {e : FerryError} :
    SourceRefused e.response ↔ (∃ path, e = .notFound path) ∨
    ∃ message, e = .invalidPath message := by
  cases e <;> simp [SourceRefused, FerryError.response, Response.json, FerryError.status,
    FerryError.code,
    Json.text, List.lookup]

namespace FsBackend

variable {fs : FsBackend} {h : Host} {r : Loc} {path : String}

/-- **Where a path leads** in a data root without links: to a link, when it is the path of the root
itself; else it is stopped by a regular file or at a name that is too long, arrives, or misses a
directory. -/
theorem lookup_linkless (hroot : Rooted fs h r) (hlinks : Linkless h.tree r)
    (hv : validatePath path = .ok ()) (ho : fs.okPrefix h path = true) :
    (∃ l target, h.lookup false (fs.joined path) = .ok l ∧ h.tree.get l = some (.symlink target)) ∨
      (Blocked h.tree r (fs.rel h path) ∧ h.lookup false (fs.joined path) = .error .enotdir) ∨
      (TooLong h.tree r (fs.rel h path) ∧
        h.lookup false (fs.joined path) = .error .enametoolong) ∨
      ¬ Blocked h.tree r (fs.rel h path) ∧ ¬ TooLong h.tree r (fs.rel h path) ∧
        (h.lookup false (fs.joined path) = .ok (lexical r (fs.rel h path)) ∨
          h.lookup false (fs.joined path) = .error .enoent ∧
            h.tree.get (lexical r (fs.rel h path)) = none) := by
  have hb := below hroot hv ho
  by_cases hrel : fs.rel h path = []
  · rw [hrel] at hb ⊢
    obtain ⟨pre, cs₀, hp, hw, -⟩ := hb.leads
    rw [List.append_nil] at hp
    rw [← hp] at hw
    obtain ⟨l, hl, hne⟩ := walk_nofollow_of hw (by rw [hb.dir]; simp)
    replace hl := Host.lookup_of_walk hb.nonempty hne hl
    rcases link_or_not h.tree l with ⟨target, ht⟩ | hs
    · exact .inl ⟨l, target, hl, ht⟩
    · obtain rfl := hb.lookup_self hl hs
      exact .inr (.inr (.inr ⟨not_blocked_nil, not_tooLong_nil, .inl hl⟩))
  · obtain ⟨m, hm⟩ := hb.lookup hrel
    rw [hm]
    rcases walk_linkless hb.clean hlinks hb.short with h₁ | ⟨h₁, -, h₂⟩ | h₁
    · exact .inr (.inl h₁)
    · exact .inr (.inr (.inl ⟨h₁, h₂⟩))
    · exact .inr (.inr (.inr h₁))

/-- How an open ends, from where its path leads. -/
def outcome (t : Tree) (feed : List Feed) (path : String) :
    Except Errno Loc → Except FerryError Script
  | .error .enoent => .error (.notFound path)
  | .error e => .error (.io (.os e))
  | .ok l =>
    match t.get l with
    | none => .error (.notFound path)
    | some (.symlink _) => .error (.invalidPath "path is a symlink; symlinks are not permitted")
    | some n => .ok (readerOf (some n) feed)

/-- **An open** of a path that stays under the root. -/
theorem openRead_outcome {w : World} (ho : fs.okPrefix w.host path = true) (env : Env) :
    (fs.openRead env path w).2
      = outcome w.host.tree env.feed path (w.host.lookup false (fs.joined path)) := by
  -- what is made of the answer of `lstat`, and then of that of `open`
  have hpass : ∀ x, w.host.lstat (fs.joined path) = x → x = .error .enoent ∨
      (∃ n, x = .ok n ∧ n.isSymlink = false) → fs.resolve path w = ([], .ok (fs.joined path)) := by
    rintro x hx (rfl | ⟨n, rfl, hn⟩)
    · simp only [resolve, Act.get_bind, ho, hx]; rfl
    · simp only [resolve, Act.get_bind, ho, hx]
      cases n with
      | symlink target => cases hn
      | file f => rfl
      | dir => rfl
  have hmiss : fs.resolve path w = ([], .ok (fs.joined path)) →
      w.host.openRead (fs.joined path) = .error .enoent →
      (fs.openRead env path w).2 = .error (.notFound path) := fun h he => by
    rw [openRead, Act.bind_ok h, after_nil, Act.get_bind, he]; rfl
  have hfind : ∀ l, fs.resolve path w = ([], .ok (fs.joined path)) →
      w.host.openRead (fs.joined path) = .ok l →
      (fs.openRead env path w).2 = .ok (readerOf (w.host.tree.get l) env.feed) := fun l h he => by
    rw [openRead, Act.bind_ok h, after_nil, Act.get_bind, he]; rfl
  rcases hl : w.host.lookup false (fs.joined path) with e | l
  · have hstat : w.host.lstat (fs.joined path) = .error e := by rw [Host.lstat, hl]; rfl
    have hopen : w.host.openRead (fs.joined path) = .error e := by rw [Host.openRead, hl]
    by_cases he : e = .enoent
    · subst he
      exact hmiss (hpass _ hstat (.inl rfl)) hopen
    · have hfail : fs.resolve path w = ([], .error (.io (.os e))) := by
        simp only [resolve, Act.get_bind, ho, hstat]
        cases e <;> first | exact absurd rfl he | rfl
      rw [openRead, Act.bind_error hfail]
      cases e <;> first | exact absurd rfl he | rfl
  · have hstat : w.host.lstat (fs.joined path) = w.host.nodeAt l := by rw [Host.lstat, hl]; rfl
    rw [Host.nodeAt] at hstat
    rcases hg : w.host.tree.get l with _ | n
    · rw [hg] at hstat
      rw [hmiss (hpass _ hstat (.inl rfl)) (by rw [Host.openRead, hl]; simp only [hg]), outcome, hg]
    · rw [hg] at hstat
      cases n with
      | symlink target =>
          have hfail : (fs.resolve path w).2
              = .error (.invalidPath "path is a symlink; symlinks are not permitted") := by
            simp only [resolve, Act.get_bind, ho, hstat]; rfl
          rcases hr : fs.resolve path w with ⟨steps, x⟩
          rw [hr] at hfail
          subst hfail
          rw [openRead, Act.bind_error hr, outcome, hg]
      | file f =>
          rw [hfind l (hpass _ hstat (.inr ⟨_, rfl, rfl⟩))
            (by rw [Host.openRead, hl]; simp only [hg]), outcome, hg]
      | dir =>
          rw [hfind l (hpass _ hstat (.inr ⟨_, rfl, rfl⟩))
            (by rw [Host.openRead, hl]; simp only [hg]), outcome, hg]

/-- A path that leaves the root is refused. -/
theorem openRead_escaped {w : World} (ho : fs.okPrefix w.host path = false) (env : Env) :
    (fs.openRead env path w).2 = .error (.invalidPath "resolved path escapes fs root") := by
  have hx : (fs.resolve path w).2 = .error (.invalidPath "resolved path escapes fs root") := by
    rw [resolve, Act.get_bind, ho]
    rfl
  rcases hr : fs.resolve path w with ⟨steps, x⟩
  rw [hr] at hx
  subst hx
  rw [openRead, Act.bind_error hr]

/-- **Opening what is no regular file** fails with the error of a missing or refused path exactly
where the path leads nowhere; else it fails with another, or opens a directory. -/
theorem openRead_absent {w : World} (hroot : Rooted fs w.host r) (hlinks : Linkless w.host.tree r)
    (hv : validatePath path = .ok ()) (hnone : ¬ fs.NamesFile w.host r path) (env : Env) :
    (fs.Nowhere w.host r path ∧ ∃ e, (fs.openRead env path w).2 = .error e ∧
        ((∃ p, e = .notFound p) ∨ ∃ message, e = .invalidPath message)) ∨
      ¬ fs.Nowhere w.host r path ∧ ((∃ x, (fs.openRead env path w).2 = .error (.io (.os x))) ∨
        (fs.openRead env path w).2 = .ok ⟨[.error (.os .eisdir)], 0⟩) := by
  cases ho : fs.okPrefix w.host path with
  | false =>
      exact .inl ⟨.inl ho, _, openRead_escaped ho env, .inr ⟨_, rfl⟩⟩
  | true =>
      have hresult := @openRead_outcome fs path w ho env
      have hlstat : ∀ l, w.host.lookup false (fs.joined path) = .ok l →
          w.host.lstat (fs.joined path) = w.host.nodeAt l := fun l hl => by rw [Host.lstat, hl]; rfl
      rcases lookup_linkless hroot hlinks hv ho with
        ⟨l, target, hl, ht⟩ | ⟨hblock, hl⟩ | ⟨hlong, hl⟩ | ⟨hfree, hshort, hl | ⟨hl, hg⟩⟩
      · rw [hl] at hresult
        simp only [outcome, ht] at hresult
        exact .inl ⟨.inr (.inl ⟨target, by rw [hlstat l hl, Host.nodeAt, ht]⟩), _, hresult,
          .inr ⟨_, rfl⟩⟩
      · rw [hl] at hresult
        refine .inr ⟨?_, .inl ⟨_, hresult⟩⟩
        rintro (h | ⟨target, h⟩ | ⟨h, -⟩)
        · rw [h] at ho; cases ho
        · rw [Host.lstat, hl] at h; cases h
        · exact h hblock
      · rw [hl] at hresult
        refine .inr ⟨?_, .inl ⟨_, hresult⟩⟩
        rintro (h | ⟨target, h⟩ | ⟨-, h, -⟩)
        · rw [h] at ho; cases ho
        · rw [Host.lstat, hl] at h; cases h
        · exact h hlong
      · rw [hl] at hresult
        have hsuf := suffix_lexical r (fs.rel w.host path)
        rcases hg : w.host.tree.get (lexical r (fs.rel w.host path)) with _ | n
        · simp only [outcome, hg] at hresult
          exact .inl ⟨.inr (.inr ⟨hfree, hshort, by rw [hg]; simp⟩), _, hresult, .inl ⟨_, rfl⟩⟩
        · cases n with
          | symlink target => exact absurd hg (hlinks _ target hsuf)
          | file f => exact absurd ⟨_, f, hl, hsuf, hg⟩ hnone
          | dir =>
              simp only [outcome, hg] at hresult
              refine .inr ⟨?_, .inr hresult⟩
              rintro (h | ⟨target, h⟩ | ⟨-, -, h⟩)
              · rw [h] at ho; cases ho
              · rw [hlstat _ hl, Host.nodeAt, hg] at h; cases h
              · exact h hg
      · rw [hl] at hresult
        exact .inl ⟨.inr (.inr ⟨hfree, hshort, by rw [hg]; simp⟩), _, hresult, .inl ⟨_, rfl⟩⟩

end FsBackend

/-- A reader that fails at once is copied to nothing. -/
theorem copy_failing (plan : CopyPlan) (e : IoError) (max inactivity : Nat) :
    copy plan (guarded ⟨[.error e], 0⟩ max inactivity) = ([], .error e) := rfl

/-- An upload from such a reader fails. -/
theorem S3Backend.writeAll_failing (b : S3Backend) (env : Env) (path : String) (e : IoError)
    (max inactivity : Nat) (w : World) :
    ∃ x, (b.writeAll env path (guarded ⟨[.error e], 0⟩ max inactivity) w).2 = .error (.io x) := by
  rw [S3Backend.writeAll]
  rcases ht : env.tmpFault with _ | x
  · refine ⟨e, ?_⟩
    have hc : copyInto (fun _ _ v => v) env (guarded ⟨[.error e], 0⟩ max inactivity) w
        = ([], .error (.io e)) := by
      rw [copyInto, copy_failing]
      rfl
    simp only [Act.bind_error hc]
  · exact ⟨x, rfl⟩

/-- **The stream of a source that is no file** fails: with the error of a missing or refused path
exactly where the path leads nowhere. -/
theorem streaming_absent {crates : Crates} {st : AppState} {env : Env} {c : CopyFileRequest}
    {fs : FsBackend} {b : S3Backend} {w : World} {r : Loc} (hroot : Rooted fs w.host r)
    (hlinks : Linkless w.host.tree r) (hv : validatePath c.sourceFilePath = .ok ())
    (hnone : ¬ fs.NamesFile w.host r c.sourceFilePath) :
    ∃ e, (streaming crates st env c (.fs fs) (.s3 b) w).2 = .error e ∧
      (SourceRefused e.response ↔ fs.Nowhere w.host r c.sourceFilePath) := by
  have hvalue : ((BackendRef.fs fs).openRead env c.sourceFilePath w).2
      = (fs.openRead env c.sourceFilePath w).2 := BackendRef.openRead_value _ _ _ _
  have hio : ∀ x, ¬ SourceRefused (FerryError.io x).response := fun x h => by
    rcases refused_of_error.mp h with ⟨_, h⟩ | ⟨_, h⟩ <;> cases h
  rcases ho : (BackendRef.fs fs).openRead env c.sourceFilePath w with ⟨l, x⟩
  rw [ho] at hvalue
  rcases FsBackend.openRead_absent hroot hlinks hv hnone env with
    ⟨hnow, e, he, hkind⟩ | ⟨hnow, ⟨y, he⟩ | he⟩
  · rw [he] at hvalue
    obtain rfl : x = .error e := hvalue
    exact ⟨e, by rw [streaming, streamCopy, Act.bind_error ho],
      ⟨fun _ => hnow, fun _ => refused_of_error.mpr hkind⟩⟩
  · rw [he] at hvalue
    obtain rfl : x = .error (.io (.os y)) := hvalue
    exact ⟨_, by rw [streaming, streamCopy, Act.bind_error ho],
      ⟨fun h => absurd h (hio _), fun h => absurd h hnow⟩⟩
  · rw [he] at hvalue
    obtain rfl : x = .ok ⟨[.error (.os .eisdir)], 0⟩ := hvalue
    obtain ⟨y, hy⟩ := S3Backend.writeAll_failing b env c.destinationFilePath (.os .eisdir)
      st.config.limits.maxResponseBytes st.config.limits.copyInactivitySecs w
    have hw : ((BackendRef.s3 b).writeAll env c.destinationFilePath
      (guarded ⟨[.error (.os .eisdir)], 0⟩
        st.config.limits.maxResponseBytes st.config.limits.copyInactivitySecs) w).2
          = .error (.io y) := by
      rw [BackendRef.writeAll_run]
      exact hy
    rcases @streamCopy_opened crates env (.fs fs) (.s3 b) c.sourceFilePath c.destinationFilePath
      st.config.limits.maxResponseBytes st.config.limits.copyInactivitySecs w l _ ho with
      ⟨z, hz, h⟩ | ⟨z, hz, -⟩
    · rw [hw] at hz
      obtain rfl := Except.error.inj hz
      exact ⟨_, by rw [streaming, h], ⟨fun h => absurd h (hio _), fun h => absurd h hnow⟩⟩
    · rw [hw] at hz; cases hz

/-- **The answer to a copy whose source is no regular file**, given in time, is a client error
exactly when the source path leads nowhere. -/
theorem absent_source_iff {crates : Crates} {st : AppState} {env : Env} {req : Request}
    {c : CopyFileRequest} {fs : FsBackend} {b : S3Backend} {w : World} {r : Loc}
    (hcopy : Streams crates st req c (.fs fs) (.s3 b)) (hroot : Rooted fs w.host r)
    (hlinks : Linkless w.host.tree r) (hnone : ¬ fs.NamesFile w.host r c.sourceFilePath)
    (hin : ¬ TimesOut crates st env req (entered env req w)) :
    SourceRefused (serve crates st env req w).2 ↔ fs.Nowhere w.host r c.sourceFilePath := by
  obtain ⟨hstatus, hbody⟩ := serve_answer crates st env req w
  rw [if_neg (by rw [hcopy.routed.2]; decide)] at hbody
  have hhost := (entered_same env req w).1
  rw [timeoutLayer_in_time hin] at hstatus hbody
  obtain ⟨e, he, hiff⟩ := @streaming_absent crates st env c fs b (entered env req w) r
    (by rw [hhost]; exact hroot) (by rw [hhost]; exact hlinks) hcopy.copyable.source
    (by rw [hhost]; exact hnone)
  rw [hhost] at hiff
  rw [← hiff]
  rcases hcopy.routes env (entered env req w) with ⟨n, hn, -⟩ | ⟨x, hx, h⟩
  · rw [he] at hn; cases hn
  · rw [he] at hx
    obtain rfl := Except.error.inj hx
    rw [h] at hstatus hbody
    rw [SourceRefused, SourceRefused, hstatus, hbody]

/-! ### Samples -/

/-- A request to copy to the bucket. -/
def uploadRequest : Request where
  method := "POST"
  path := "/v1/files/copy"
  query := none
  version := "HTTP/1.1"
  headers := []
  body := ⟨[], .complete⟩

/-- What its body decodes to. -/
def upload (path : String) : CopyFileRequest := ⟨.fs, path, .s3, "x"⟩

def uploadCrates (path : String) : Crates :=
  { Crates.strict with parseJson := fun _ => .ok (upload path), jsonContentType := fun _ => true }

def uploadState : AppState := ⟨⟨.fs dataFs, some (.s3 ⟨"objects", ""⟩)⟩, .default⟩

theorem streams_upload {path : String} (hv : validatePath path = .ok ()) :
    Streams (uploadCrates path) uploadState uploadRequest (upload path) (.fs dataFs)
      (.s3 ⟨"objects", ""⟩) :=
  ⟨⟨rfl, rfl⟩, (fun _ h => by cases h), rfl, rfl,
    ⟨(fun h => by cases h), hv, show validatePath "x" = .ok () by decide, rfl, rfl⟩⟩

theorem get_dataHost {l : Loc} (hl : [bytes "data"] <:+ l) :
    dataHost.tree.get l = if l = [bytes "data"] then some .dir else none := by
  rw [dataHost, Tree.get_put (by decide) (by decide) (by decide),
    Tree.get_below_none (t := Tree.empty) (k := [bytes "data"]) (by decide) hl]

theorem dataHost_linkless : Linkless dataHost.tree [bytes "data"] := fun l target hl => by
  rw [get_dataHost hl]
  split
  · simp
  · simp

/-- A missing file is answered 404. -/
theorem absent_source_missing :
    SourceRefused (serve (uploadCrates "a") uploadState .calm uploadRequest
    { World.empty with host := dataHost }).2 := by
  have hnofile : ∀ l f, [bytes "data"] <:+ l →
    dataHost.tree.get l ≠ some (.file f) := fun l f hl => by
    rw [get_dataHost hl]
    split
    · simp
    · simp
  exact (absent_source_iff (streams_upload (by decide)) dataFs_rooted dataHost_linkless
    (fun ⟨l, f, _, hl, hf⟩ => hnofile l f hl hf) (fun ⟨k, hk, _⟩ => by cases hk)).mpr
    (.inr (.inr ⟨fun ⟨b, c, f, _, _, hf⟩ => hnofile _ f (suffix_lexical _ b) hf,
      not_tooLong (by decide), by decide⟩))

/-- The data root holds the file `a`. -/
def belowWorld : World :=
  { World.empty with host := dataHost.put (bytes "a") [bytes "data"] (.file ⟨[1], 0⟩) }

theorem get_belowWorld (l : Loc) : belowWorld.host.tree.get l =
    if l = [bytes "a", bytes "data"] then some (.file ⟨[1], 0⟩) else dataHost.tree.get l :=
  Tree.get_put (by decide) (by decide) (by decide)

theorem belowWorld_linkless : Linkless belowWorld.host.tree [bytes "data"] := fun l target hl => by
  rw [get_belowWorld]
  split
  · simp
  · exact dataHost_linkless l target hl

/-- **A path below a file** is answered 500, with the text of the system's error. -/
theorem below_file_io_error :
    Streams (uploadCrates "a/b") uploadState uploadRequest (upload "a/b") (.fs dataFs)
        (.s3 ⟨"objects", ""⟩) ∧
      Linkless belowWorld.host.tree [bytes "data"] ∧
      ¬ dataFs.NamesFile belowWorld.host [bytes "data"] "a/b" ∧
      (serve (uploadCrates "a/b") uploadState .calm uploadRequest belowWorld).2.status = 500 := by
  refine ⟨streams_upload (by decide), belowWorld_linkless, ?_, by decide⟩
  · rintro ⟨l, f, hl, -, -⟩
    have hlook : belowWorld.host.lookup false (dataFs.joined "a/b") = .error .enotdir := by decide
    rw [hlook] at hl
    cases hl

end FileFerry
