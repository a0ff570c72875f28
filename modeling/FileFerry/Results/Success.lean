import FileFerry.Results.Refinement

/-!
# Results — Success

When a copy is answered 204.

* `BackendRef.Gives`, `BackendRef.Takes`: a path to read from and one to write to, from what is
  stored.
* `Streams.routes_done`: a copy that streams is done exactly when its source gives, its destination
  takes, and the bytes come in time, without an error and within the cap.
* `copied_iff`: of all requests, just those are answered 204.
-/

namespace FileFerry
open Text Posix AsyncIo Steps Copier

variable {fs : FsBackend} {r : Loc} {w : World} {path : String} {env : Env}

/-! ### Sources and destinations -/

/-- Read at `path`, the backend gives the bytes `c`. -/
def BackendRef.Gives (w : World) (r : Loc) (path : String) (c : List UInt8) : BackendRef → Prop
  | .fs b => b.okPrefix w.host path = true ∧ ¬ Trailing (b.rel w.host path) ∧
      w.host.tree.contents (b.place w.host r path) = some c
  | .s3 b => w.bucket.lookup (b.key path) = some c
  | .offline _ => False

/-- The backend takes what is written to `path`. -/
def BackendRef.Takes (w : World) (r : Loc) (path : String) : BackendRef → Prop
  | .fs b => b.Free w.host r path
  | .s3 _ => True
  | .offline _ => False

theorem BackendRef.gives_same {b : BackendRef} {w' : World} (h : SameStores w w') (c : List UInt8) :
    b.Gives w' r path c ↔ b.Gives w r path c := by
  cases b <;> simp only [BackendRef.Gives, h.1, h.2]

theorem BackendRef.takes_same {b : BackendRef} {w' : World} (h : SameStores w w') :
    b.Takes w' r path ↔ b.Takes w r path := by
  cases b <;> simp only [BackendRef.Takes, h.1]

section Slots

variable {b : BackendRef} (hroot : Rooted fs w.host r) (hlinks : Linkless w.host.tree r)
  (hv : validatePath path = .ok ()) (hb : ∀ fs', b = .fs fs' → fs' = fs)

include hroot hlinks hv hb

/-- What gives is opened, and comes as it is delivered. -/
theorem BackendRef.Gives.openRead {c : List UInt8} (h : b.Gives w r path c)
    (hget : env.getFault = none) :
    (b.openRead env path w).2 = .ok ⟨deliver env.feed c, 0⟩ := by
  rw [BackendRef.openRead_value]
  cases b with
  | fs fs' =>
      obtain rfl := hb fs' rfl
      exact (FsBackend.yields_iff hroot hlinks hv).mpr h env
  | s3 b =>
      have hlook : w.bucket.lookup (b.key path) = some c := h
      have hrun : BackendRef.reading (.s3 b) env path w = b.openRead env path w := rfl
      rw [hrun, S3Backend.openRead, await, Act.step_bind, Act.get_bind]
      simp only [id, hget, hlook]
      rfl
  | offline b => exact h.elim

/-- …and what is opened gives, or is a directory. -/
theorem BackendRef.gives_of_openRead {rd : Script} (h : (b.openRead env path w).2 = .ok rd) :
    (∃ c, b.Gives w r path c ∧ rd = ⟨deliver env.feed c, 0⟩) ∨
    rd = ⟨[.error (.os .eisdir)], 0⟩ := by
  cases b with
  | fs fs' =>
      obtain rfl := hb fs' rfl
      rw [BackendRef.openRead_value] at h
      have hrun : (fs'.openRead env path w).2 = .ok rd := h
      rcases FsBackend.openRead_cases fs' env path w with ⟨-, e, he⟩ |
        ⟨ha, ⟨l, hl, he⟩ | ⟨x, e, -, he⟩⟩
      · rw [he] at hrun; cases hrun
      · rw [he] at hrun
        obtain rfl := Except.ok.inj hrun
        rcases hn : w.host.tree.get l with _ | n
        · exact .inr rfl
        · cases n with
          | file f =>
              refine .inl ⟨f.content, (FsBackend.yields_iff hroot hlinks hv).mp fun env' => ?_, rfl⟩
              rcases FsBackend.openRead_cases fs' env' path w with ⟨ha', -⟩ |
                ⟨-, ⟨k, hk, he'⟩ | ⟨x, e, hx, -⟩⟩
              · rw [ha] at ha'; cases ha'
              · obtain rfl := Except.ok.inj (hl.symm.trans hk)
                rw [he', hn]
                rfl
              · rw [hl] at hx; cases hx
          | dir => exact .inr rfl
          | symlink t => exact .inr rfl
      · rw [he] at hrun; cases hrun
  | s3 b =>
      obtain ⟨k, hk, ⟨c, hc, hrd⟩ | ⟨⟨fs', e⟩, -⟩⟩ := BackendRef.openRead_store hroot hlinks hv hb h
      · obtain rfl := Option.some.inj hk
        exact .inl ⟨c, hc, hrd⟩
      · cases e
  | offline b =>
      rw [BackendRef.openRead_value] at h
      cases h

/-- Where writes do not fail, what takes is what can be written. -/
theorem BackendRef.writable_iff (hw : env.Writes) : Writable b env path w ↔ b.Takes w r path := by
  cases b with
  | fs fs' =>
      obtain rfl := hb fs' rfl
      rw [BackendRef.Takes, ← FsBackend.opening_iff hroot hlinks hv]
      exact ⟨fun h => h.opens _ rfl, fun h => ⟨hw, by simp, fun _ e => by cases e; exact h⟩⟩
  | s3 b => exact ⟨fun _ => trivial, fun _ => ⟨hw, by simp, by simp⟩⟩
  | offline b => exact ⟨fun h => h.online _ rfl, False.elim⟩

/-- What a write succeeds at takes. -/
theorem BackendRef.takes_of_writeAll {R : Type} [AsyncRead R] {reader rd : R}
    (h : (b.writeAll env path reader w).2 = .ok rd) : b.Takes w r path := by
  rw [BackendRef.writeAll_run] at h
  cases b with
  | fs fs' =>
      obtain rfl := hb fs' rfl
      have hrun : (fs'.writeAll env path reader w).2 = .ok rd := h
      refine (FsBackend.opening_iff hroot hlinks hv).mp ?_
      rcases ho : fs'.opening path w with ⟨steps, x | l⟩
      · rw [FsBackend.writeAll_eq, Act.bind_error ho] at hrun
        cases hrun
      · exact ⟨l, rfl⟩
  | s3 b => trivial
  | offline b => cases h

end Slots

theorem BackendRef.Gives.sized {b : BackendRef} {c : List UInt8} (hw : Sound fs r w)
    (h : b.Gives w r path c) : c.length < 2 ^ 64 := by
  cases b with
  | fs b => exact hw.sized (.file _) c h.2.2
  | s3 b => exact hw.sized (.object _) c h
  | offline b => exact h.elim

/-! ### Copies -/

/-- What a copy needs of its stores, and of how the bytes come. -/
structure Ready (st : AppState) (env : Env) (w : World) (r : Loc) (c : CopyFileRequest)
    (src dst : BackendRef) (content : List UInt8) : Prop where
  gives : src.Gives w r c.sourceFilePath content
  takes : dst.Takes w r c.destinationFilePath
  fits : content.length ≤ st.config.limits.maxResponseBytes
  timely : Timely st.config.limits.copyInactivitySecs none 0 (deliver env.feed content)
  faultless : Faultless (deliver env.feed content)

theorem Ready.same {st : AppState} {w' : World} {c : CopyFileRequest} {src dst : BackendRef}
    {content : List UInt8} (hs : SameStores w w') :
    Ready st env w' r c src dst content ↔ Ready st env w r c src dst content :=
  ⟨fun h => ⟨(BackendRef.gives_same hs _).mp h.gives, (BackendRef.takes_same hs).mp h.takes, h.fits,
    h.timely, h.faultless⟩, fun h => ⟨(BackendRef.gives_same hs _).mpr h.gives,
    (BackendRef.takes_same hs).mpr h.takes, h.fits, h.timely, h.faultless⟩⟩

/-- Nothing fails that is not the request's, its stores', or its source's doing. -/
structure Healthy (env : Env) : Prop where
  unexpired : env.expire = none
  writes : env.Writes
  reads : env.getFault = none

section Copies

variable {crates : Crates} {st : AppState} {req : Request} {c : CopyFileRequest}
    {src dst : BackendRef}

section Streaming

variable (h : Streams crates st req c src dst) (hst : Deployed st fs) (hw : Sound fs r w)
    (henv : Healthy env)

include h hst hw henv

/-- What takes takes a whole source that comes in time, without an error and within the cap. -/
theorem Streams.capped (rd : Script) (hlen : (bytesOf rd.events).length < 2 ^ 64)
    (htakes : dst.Takes w r c.destinationFilePath) :
    (∃ rd', (dst.writeAll env c.destinationFilePath (guarded rd st.config.limits.maxResponseBytes
      st.config.limits.copyInactivitySecs) w).2 = .ok rd') ↔
      Timely st.config.limits.copyInactivitySecs none rd.clock rd.events ∧ Faultless rd.events ∧
        (bytesOf rd.events).length ≤ st.config.limits.maxResponseBytes := by
  exact (writeAll_capped rd _ _ hlen ((BackendRef.writable_iff hw.rooted hw.linkless
    h.copyable.destination (hst.only h.copyable.dst) henv.writes).mpr htakes)).1

/-- What is done was ready. -/
theorem Streams.ready_of_streaming {n : Nat}
    (hn : (streaming crates st env c src dst w).2 = .ok n) :
    ∃ content, Ready st env w r c src dst content := by
  rcases ho : src.openRead env c.sourceFilePath w with ⟨l, e | rd⟩
  · rw [streaming, streamCopy, Act.bind_error ho] at hn
    cases hn
  rcases @streamCopy_opened crates env src dst c.sourceFilePath c.destinationFilePath
    st.config.limits.maxResponseBytes st.config.limits.copyInactivitySecs w l rd ho with
    ⟨e, -, hrun⟩ | ⟨rd', hok, -⟩
  · rw [streaming, hrun] at hn
    cases hn
  have htakes := BackendRef.takes_of_writeAll hw.rooted hw.linkless h.copyable.destination
    (hst.only h.copyable.dst) hok
  rcases BackendRef.gives_of_openRead hw.rooted hw.linkless h.copyable.source
    (hst.only h.copyable.src)
    (by rw [ho] : (src.openRead env c.sourceFilePath w).2 = .ok rd) with
      ⟨content, hgives, rfl⟩ | rfl
  · have hlen : (bytesOf (deliver env.feed content)).length < 2 ^ 64 := by
      rw [bytesOf_deliver]
      exact hgives.sized hw
    obtain ⟨ht, hf, hle⟩ := (h.capped hst hw henv _ hlen htakes).mp ⟨rd', hok⟩
    rw [bytesOf_deliver] at hle
    exact ⟨content, hgives, htakes, hle, ht, hf⟩
  · -- a directory opens, and gives an error at once
    obtain ⟨-, hf, -⟩ := (h.capped hst hw henv _ (by decide) htakes).mp ⟨rd', hok⟩
    exact absurd List.mem_cons_self (hf (.os .eisdir))

/-- What is ready is done. -/
theorem Ready.streaming {content : List UInt8} (hready : Ready st env w r c src dst content) :
    ∃ n, (streaming crates st env c src dst w).2 = .ok n := by
  have hopen := hready.gives.openRead hw.rooted hw.linkless h.copyable.source
    (hst.only h.copyable.src) henv.reads
  rcases ho : src.openRead env c.sourceFilePath w with ⟨l, x⟩
  rw [ho] at hopen
  obtain rfl : x = .ok ⟨deliver env.feed content, 0⟩ := hopen
  have hlen : (bytesOf (deliver env.feed content)).length < 2 ^ 64 := by
    rw [bytesOf_deliver]
    exact hready.gives.sized hw
  have hfits : (bytesOf (deliver env.feed content)).length ≤ st.config.limits.maxResponseBytes := by
    rw [bytesOf_deliver]
    exact hready.fits
  obtain ⟨rd', hok⟩ :=
    (h.capped hst hw henv ⟨deliver env.feed content, 0⟩ hlen hready.takes).mpr
      ⟨hready.timely, hready.faultless, hfits⟩
  rcases @streamCopy_opened crates env src dst c.sourceFilePath c.destinationFilePath
    st.config.limits.maxResponseBytes st.config.limits.copyInactivitySecs w l _ ho with
    ⟨e, he, -⟩ | ⟨rd'', -, hrun⟩
  · rw [hok] at he
    cases he
  · rw [FileFerry.streaming, hrun]
    exact ⟨_, rfl⟩

/-- **A stream is done** exactly when it can be. -/
theorem Streams.streaming_iff :
    (∃ n, (streaming crates st env c src dst w).2 = .ok n) ↔
      ∃ content, Ready st env w r c src dst content :=
  ⟨fun hdone => hdone.elim fun _ hn => h.ready_of_streaming hst hw henv hn,
    fun hready => hready.elim fun _ hc => Ready.streaming h hst hw henv hc⟩

end Streaming

/-- **A copy is answered 204 exactly when it can be done**: the request is a copy that passes the
gate, decodes, and names two configured backends by valid paths; the source gives a whole file or
object within the cap, which comes in time; and the destination can be written. -/
theorem copied_iff (crates : Crates) (req : Request) (hst : Deployed st fs) (hw : Sound fs r w)
    (henv : Healthy env) : (serve crates st env req w).2.status = 204 ↔
      ∃ c src dst content, Streams crates st req c src dst ∧
      Ready st env w r c src dst content := by
  obtain ⟨pre, post, hpre, -, -, hstatus⟩ :=
    serve_wraps crates st env req (L := fun _ => True) (fun _ _ => trivial) trivial w
  have hsame := hpre.after
  have hstore : (after w pre).store = w.store := store_eq (by rw [hsame.1]) hsame.2
  have hw' : Sound fs r (after w pre) :=
    hw.grown (.of_host hsame.1) (by rw [hstore]; exact hw.sized)
  have hin : timeoutLayer env (routes crates st env req) (after w pre)
      = routes crates st env req (after w pre) := by
    rw [timeoutLayer, henv.unexpired]
    rfl
  rw [hstatus, hin]
  have hdone : ∀ {c src dst}, Streams crates st req c src dst →
      ((routes crates st env req (after w pre)).2.status = 204 ↔
        ∃ content, Ready st env w r c src dst content) := fun {c src dst} h => by
    refine Iff.trans ?_ ((h.streaming_iff hst hw' henv).trans (exists_congr
      fun _ => Ready.same hsame))
    rcases h.routes env (after w pre) with ⟨n, hn, hrun⟩ | ⟨e, he, hrun⟩
    · rw [hrun]
      exact ⟨fun _ => ⟨n, hn⟩, fun _ => rfl⟩
    · rw [hrun]
      constructor
      · exact fun h => absurd h e.response_status
      · intro hok
        obtain ⟨n, hn⟩ := hok
        rw [he] at hn
        cases hn
  constructor
  · intro h
    obtain ⟨c, src, dst, hs⟩ := streams_of_status h
    obtain ⟨content, hready⟩ := (hdone hs).mp h
    exact ⟨c, src, dst, content, hs, hready⟩
  · rintro ⟨c, src, dst, content, hs, hready⟩
    exact (hdone hs).mpr ⟨content, hready⟩

end Copies

theorem healthy_calm : Healthy .calm := ⟨rfl, ⟨rfl, rfl, rfl, rfl, rfl⟩, rfl⟩

/-- A name in an empty directory is free. -/
theorem free_dataHost {path : String} {x : Name} (hinside : dataFs.okPrefix dataHost path = true)
    (hrel : dataFs.rel dataHost path = [x]) (hx : ¬ Stay x) (hshort : x.length ≤ nameMax)
    (hnone : dataHost.tree.get [x, bytes "data"] = none) :
    dataFs.Free dataHost [bytes "data"] path := by
  refine ⟨hinside, ?_, ?_, ?_, .inl ?_⟩
  · rintro ⟨b, c, f, -, -, hf⟩
    have hcontents := contents_dataHost (lexical [bytes "data"] b)
    rw [Tree.contents, hf] at hcontents
    cases hcontents
  · rw [hrel]
    rintro ⟨b, s, e, hs⟩
    obtain ⟨-, hlast⟩ := List.append_inj' (show [] ++ [x] = b ++ [s] from e) rfl
    rw [← List.head_eq_of_cons_eq hlast] at hs
    exact hx hs
  · intro s hs
    rw [hrel] at hs
    rw [List.mem_singleton.mp hs]
    exact hshort
  · rw [FsBackend.place, hrel, lexical_name hx]
    exact hnone

/-- Two bytes, which come at once, can be copied from the bucket into an empty directory. -/
theorem ready_download :
    Ready uploadState .calm relayWorld [bytes "data"] download (.s3 ⟨"objects", ""⟩)
    (.fs dataFs) [2, 3] := by
  refine ⟨rfl, free_dataHost (x := bytes "a") (by decide) rfl (by decide)
    (by decide) rfl, by decide, ?_, ?_⟩
  · simp [Env.calm, deliver, ReadEvent.push, Timely]
  · simp [Env.calm, deliver, ReadEvent.push, Faultless]

theorem copied_download :
    (serve relayCrates uploadState .calm (relayRequest downloadJson) relayWorld).2.status = 204 :=
  (copied_iff relayCrates _ uploadState_deployed relayWorld_sound healthy_calm).mpr
    ⟨download, _, _, [2, 3], streams_download, ready_download⟩

end FileFerry
