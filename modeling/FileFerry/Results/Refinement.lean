import FileFerry.Results.Partway

/-!
# Results — Refinement

The service as a copier between slots: whatever is asked of it, and at whatever step a request is
given up, what it does to the two stores is a move of `Support/Copier`.

* `Sound`: what every run keeps: the root is a directory without links, and everything stored has
  fewer than `2 ^ 64` bytes.
* `serve_moves`: one request.
* `service_refines`: a run is a history of copies, done exactly where the answer is 204, and so is
  what is left of it wherever it stops.
* `bytes_from_start`, `copied_stays`, `copied_onward`: what the histories say of the service.
-/

namespace FileFerry
open Text Posix AsyncIo Steps Copier

/-- The backends of a running service: a directory, and what stands in for a bucket. -/
structure Deployed (st : AppState) (fs : FsBackend) : Prop where
  fs : st.backends.fs = .fs fs
  s3 : ∀ b, st.backends.s3 = some b → ∀ fs', b ≠ .fs fs'

theorem Deployed.pick {st : AppState} {fs fs' : FsBackend} (h : Deployed st fs) {kind : StorageType}
    (hp : st.backends.pick kind = .ok (.fs fs')) : kind = .fs ∧ fs' = fs := by
  cases kind with
  | fs =>
      rw [Backends.pick, h.fs] at hp
      cases hp
      exact ⟨rfl, rfl⟩
  | s3 =>
      rw [Backends.pick] at hp
      rcases hs : st.backends.s3 with _ | b
      · rw [hs] at hp; cases hp
      · rw [hs] at hp
        exact absurd (Except.ok.inj hp) (h.s3 b hs fs')

/-- A backend of the service on the file system is the one there is. -/
theorem Deployed.only {st : AppState} {fs : FsBackend} (h : Deployed st fs) {kind : StorageType}
    {b : BackendRef} (hp : st.backends.pick kind = .ok b) : ∀ fs', b = .fs fs' → fs' = fs :=
  fun _ e => (h.pick (by rw [hp, e])).2

/-- What every run keeps. -/
structure Sound (fs : FsBackend) (r : Loc) (w : World) : Prop where
  rooted : Rooted fs w.host r
  linkless : Linkless w.host.tree r
  sized : ∀ k c, w.store k = some c → c.length < 2 ^ 64

/-- The slots between which an admitted request asks for a copy. -/
def Asks (crates : Crates) (st : AppState) (h : Host) (r : Loc) (req : Request)
    (a b : Slot) : Prop :=
  ∃ c src dst, Streams crates st req c src dst ∧ src.slot h r c.sourceFilePath = some a ∧
    dst.slot h r c.destinationFilePath = some b

theorem Asks.unique {crates : Crates} {st : AppState} {h : Host} {r : Loc} {req : Request}
    {a b a' b' : Slot} (ha : Asks crates st h r req a b) (ha' : Asks crates st h r req a' b') :
    a' = a ∧ b' = b := by
  obtain ⟨c, src, dst, hs, hsrc, hdst⟩ := ha
  obtain ⟨c', src', dst', hs', hsrc', hdst'⟩ := ha'
  obtain ⟨rfl, rfl, rfl⟩ := hs.unique hs'
  exact ⟨Option.some.inj (hsrc'.symm.trans hsrc), Option.some.inj (hdst'.symm.trans hdst)⟩

/-- What a request asks for does not change while the root grows. -/
theorem asks_grown {crates : Crates} {st : AppState} {fs : FsBackend} {r : Loc} {w v : World}
    (hst : Deployed st fs) (hroot : Rooted fs w.host r) (hg : Grown r w v) :
    Asks crates st v.host r = Asks crates st w.host r := by
  funext req a b
  have hslot : ∀ {kind : StorageType} {s : BackendRef}, st.backends.pick kind = .ok s → ∀ path,
      s.slot v.host r path = s.slot w.host r path := fun hp path =>
    hg.slot hroot (hst.only hp) path
  refine propext (exists_congr fun c => exists_congr fun src => exists_congr fun dst =>
    and_congr_right fun hs => ?_)
  rw [hslot hs.copyable.src, hslot hs.copyable.dst]

section Request

variable {crates : Crates} {st : AppState} {env : Env} {req : Request} {w : World} {fs : FsBackend}
  {r : Loc}

/-- Of the answers only that of a copy is 204. -/
theorem streams_of_status (h : (routes crates st env req w).2.status = 204) :
    ∃ c src dst, Streams crates st req c src dst := by
  rcases routes_cases crates st env req w with ⟨-, hi⟩ | ⟨-, -, hrun⟩ | ⟨hr, ha, -⟩
  · rw [h] at hi
    simp at hi
  · rw [hrun, listService_run] at h
    rcases respond_run (listAction crates st env req) (fun r => .json 200 r.json) w with
      ⟨a, -, e⟩ | ⟨x, -, e⟩
    · rw [e] at h; cases h
    · rw [e] at h
      exact absurd h x.response_status
  · rcases streams_or_refused hr ha env w with hstream | ⟨x, e⟩
    · exact hstream
    · rw [e] at h
      exact absurd h x.response_status

/-- A copy that is answered 204 has written its destination. -/
theorem Streams.written {c : CopyFileRequest} {src dst : BackendRef} {l : List (Step World Event)}
    {rd : Script} (h : Streams crates st req c src dst)
    (ho : src.openRead env c.sourceFilePath w = (l, .ok rd))
    (hstatus : (FileFerry.routes crates st env req w).2.status = 204) :
    ∃ rd', (dst.writing env c.destinationFilePath (guarded rd st.config.limits.maxResponseBytes
      st.config.limits.copyInactivitySecs) w).2 = .ok rd' := by
  rcases @streamCopy_opened crates env src dst c.sourceFilePath c.destinationFilePath
    st.config.limits.maxResponseBytes st.config.limits.copyInactivitySecs w l rd ho with
    ⟨e, -, hrun⟩ | ⟨rd', hok, -⟩
  · have hstream : streaming crates st env c src dst w = _ := hrun
    rcases h.routes env w with ⟨n, hn, -⟩ | ⟨x, -, hroutes⟩
    · rw [hstream] at hn; cases hn
    · rw [hroutes] at hstatus
      exact absurd hstatus x.response_status
  · rw [BackendRef.writeAll_run] at hok
    exact ⟨rd', hok⟩

/-- The world `v` is one a request that is not done may leave. -/
def Reached (crates : Crates) (st : AppState) (r : Loc) (req : Request) (w v : World) : Prop :=
  Grown r w v ∧ Moves st.config.limits.maxResponseBytes Slot.Whole
    (Asks crates st w.host r) w.store req
    false v.store

theorem Reached.refl : Reached crates st r req w w := ⟨.of_host rfl, .kept⟩

variable {c : CopyFileRequest} {src dst : BackendRef} {rd : Script}

/-- What is read from is a slot that holds something, if the copy ends well. -/
theorem copy_opened {a : Slot} (hw : Sound fs r w)
    (hread : (∃ c, w.store a = some c ∧ rd = ⟨deliver env.feed c, 0⟩) ∨
      (∃ fs', src = .fs fs') ∧ rd = ⟨[.error (.os .eisdir)], 0⟩) (plan : CopyPlan)
        (max inactivity : Nat) :
    (∃ c, w.store a = some c ∧ (copy plan (guarded rd max inactivity)).1.flatten <+: c ∧
      (copy plan (guarded rd max inactivity)).1.flatten.length ≤ max ∧
      ∀ rd', (copy plan (guarded rd max inactivity)).2 = .ok rd' →
        (copy plan (guarded rd max inactivity)).1.flatten = c ∧ rd'.counter = c.length) ∨
    (∃ fs', src = .fs fs') ∧ ∀ rd', (copy plan (guarded rd max inactivity)).2 ≠ .ok rd' := by
  rcases hread with ⟨c, hc, rfl⟩ | ⟨hsrc, rfl⟩
  · obtain ⟨hiff, hok, herr⟩ := copy_guarded plan ⟨deliver env.feed c, 0⟩ max inactivity (by
      rw [bytesOf_deliver]; exact hw.sized a c hc)
    simp only [bytesOf_deliver] at hiff hok herr
    refine .inl ⟨c, hc, ?_⟩
    rcases hres : (copy plan (guarded ⟨deliver env.feed c, 0⟩ max inactivity)).2 with e | rd'
    · obtain ⟨h₁, h₂⟩ := herr e hres
      exact ⟨h₁, h₂, fun rd' h => by cases h⟩
    · obtain ⟨hall, hcount⟩ := hok rd' hres
      rw [hall]
      refine ⟨List.prefix_refl _, (hiff.mp ⟨rd', hres⟩).2.2, fun rd'' h => ⟨rfl, ?_⟩⟩
      obtain rfl := Except.ok.inj h
      exact hcount
  · refine .inr ⟨hsrc, fun rd' h => ?_⟩
    obtain ⟨hiff, -, -⟩ := copy_guarded plan ⟨[.error (.os .eisdir)], 0⟩ max inactivity (by decide)
    exact (hiff.mp ⟨rd', h⟩).2.1 (.os .eisdir) List.mem_cons_self

/-- What is not a directory is an object. -/
theorem Streams.whole (hst : Deployed st fs) (h : Streams crates st req c src dst) {fs' : FsBackend}
    (hsrc : src = .fs fs') {b : Slot} (hb : dst.slot w.host r c.destinationFilePath = some b) :
    b.Whole := by
  cases dst with
  | fs fs'' =>
      have hsource := (hst.pick (hsrc ▸ h.copyable.src)).1
      have hdest := (hst.pick h.copyable.dst).1
      exact absurd (hsource.trans hdest.symm) h.copyable.differ
  | s3 b' =>
      obtain rfl := Option.some.inj hb
      exact trivial
  | offline b' => cases hb

/-- **The write of a copy is a move**, at each of its steps, and it is done when it succeeds. -/
theorem Streams.writing_moves (hst : Deployed st fs) (hw : Sound fs r w)
    (h : Streams crates st req c src dst) (ho : (src.openRead env c.sourceFilePath w).2 = .ok rd) :
    let write := dst.writing env c.destinationFilePath (guarded rd st.config.limits.maxResponseBytes
      st.config.limits.copyInactivitySecs) w
    (∀ s ∈ write.1, Reached crates st r req w s.world) ∧ ∀ rd', write.2 = .ok rd' →
      Moves st.config.limits.maxResponseBytes Slot.Whole (Asks crates st w.host r) w.store req true
        (after w write.1).store := by
  intro write
  rcases hb : dst.slot w.host r c.destinationFilePath with _ | b
  · -- there is nowhere to write to
    obtain ⟨e, hnone⟩ := BackendRef.writing_nowhere hb env (guarded rd
      st.config.limits.maxResponseBytes st.config.limits.copyInactivitySecs) w
    have hwrite : write = ([], .error e) := hnone
    rw [hwrite]
    exact ⟨fun s hs => (by cases hs), fun rd' h => (by cases h)⟩
  · obtain ⟨a, ha, hread⟩ := BackendRef.openRead_store hw.rooted hw.linkless h.copyable.source
      (hst.only h.copyable.src) ho
    have hasks : Asks crates st w.host r req a b := ⟨c, src, dst, h, ha, hb⟩
    have hpart := BackendRef.writing_partway hw.rooted hw.linkless h.copyable.destination
      (hst.only h.copyable.dst) env (guarded rd st.config.limits.maxResponseBytes
        st.config.limits.copyInactivitySecs) hb
    refine ⟨fun s hs => ?_, fun rd' hok => ?_⟩
    · obtain ⟨hg, e | ⟨d, hd, hwhole, e⟩⟩ := hpart s hs
      · exact ⟨hg, by rw [e]; exact .kept⟩
      · refine ⟨hg, ?_⟩
        rw [e]
        rcases copy_opened hw hread env.copy st.config.limits.maxResponseBytes
          st.config.limits.copyInactivitySecs with ⟨c₀, hc₀, hpre, hle, hall⟩ | ⟨⟨fs', hsrc⟩, hno⟩
        · refine .torn hasks hc₀ (hd.trans hpre) (hd.length_le.trans hle) fun hb' => ?_
          obtain ⟨rfl, rd', hok⟩ := hwhole hb'
          exact (hall rd' hok).1
        · obtain ⟨-, rd', hok⟩ := hwhole (h.whole hst hsrc hb)
          exact absurd hok (hno rd')
    · obtain ⟨hcopy, e⟩ := BackendRef.writing_done hw.rooted hw.linkless h.copyable.destination
        (hst.only h.copyable.dst) env _ hb hok
      rw [e]
      rcases copy_opened hw hread env.copy st.config.limits.maxResponseBytes
        st.config.limits.copyInactivitySecs with ⟨c₀, hc₀, -, hle, hall⟩ | ⟨-, hno⟩
      · rw [(hall rd' hcopy).1] at hle ⊢
        exact .copied hasks hc₀ hle
      · exact absurd hcopy (hno rd')

/-- **A step of the routes** leaves the world alone, or is one of the write of a copy. -/
theorem routes_each {Q : World → Prop} (hQ : Q w)
    (hwrite : ∀ {c src dst rd}, Streams crates st req c src dst →
      (src.openRead env c.sourceFilePath w).2 = .ok rd →
      ∀ s ∈ (dst.writing env c.destinationFilePath (guarded rd st.config.limits.maxResponseBytes
        st.config.limits.copyInactivitySecs) w).1, Q s.world) :
    ∀ s ∈ (routes crates st env req w).1, Q s.world := by
  intro s hs
  by_cases hstreams : ∃ c src dst, Streams crates st req c src dst
  · obtain ⟨c, src, dst, h⟩ := hstreams
    rcases ho : src.openRead env c.sourceFilePath w with ⟨l, e | rd⟩
    · rw [h.unopened ho s hs]
      exact hQ
    · have hsteps' := hwrite h (by rw [ho] : (src.openRead env c.sourceFilePath w).2 = .ok rd)
      obtain ⟨head, last, hsteps, -, hhead, hlast, -⟩ := h.opened ho
      rw [hsteps] at hs
      rcases List.mem_append.mp hs with hs | hs
      · rw [hhead s hs]
        exact hQ
      · rcases List.mem_append.mp hs with hs | hs
        · exact hsteps' s hs
        · rw [List.mem_singleton.mp hs, hlast]
          exact after_of_forall hQ hsteps'
  · rw [routes_keep hstreams s hs]
    exact hQ

/-- **What the routes do is a move**, at each step, and it is done when they answer 204. -/
theorem routes_moves (crates : Crates) (env : Env) (req : Request) (hst : Deployed st fs)
    (hw : Sound fs r w) :
    (∀ s ∈ (routes crates st env req w).1, Reached crates st r req w s.world) ∧
    ((routes crates st env req w).2.status = 204 →
      Moves st.config.limits.maxResponseBytes Slot.Whole (Asks crates st w.host r) w.store req true
        (after w (routes crates st env req w).1).store) := by
  refine ⟨routes_each .refl fun h hopen => (h.writing_moves hst hw hopen).1, fun hstatus => ?_⟩
  obtain ⟨c, src, dst, h⟩ := streams_of_status hstatus
  rcases ho : src.openRead env c.sourceFilePath w with ⟨l, e | rd⟩
  · rcases h.routes env w with ⟨n, hn, -⟩ | ⟨x, -, hroutes⟩
    · rw [streaming, streamCopy, Act.bind_error ho] at hn; cases hn
    · rw [hroutes] at hstatus
      exact absurd hstatus x.response_status
  · obtain ⟨-, hdone⟩ :=
      h.writing_moves hst hw (by rw [ho] : (src.openRead env c.sourceFilePath w).2 = .ok rd)
    obtain ⟨head, last, hsteps, -, -, hlast, -⟩ := h.opened ho
    obtain ⟨rd', hok⟩ := h.written ho hstatus
    rw [hsteps, after_append, after_append, after_cons, after_nil, hlast]
    exact hdone rd' hok

theorem Sound.grown {v : World} (hw : Sound fs r w) (hg : Grown r w v)
    (hs : ∀ k c, v.store k = some c → c.length < 2 ^ 64) : Sound fs r v :=
  ⟨hg.rooted hw.rooted, hg.linkless hw.linkless, hs⟩

theorem Reached.of_same {v v' : World} (h : Reached crates st r req w v) (hs : SameStores v v') :
    Reached crates st r req w v' :=
  ⟨h.1.trans (.of_host hs.1), by rw [store_eq (by rw [hs.1]) hs.2]; exact h.2⟩

/-- **A step of a request** leaves the stores alone, or is one of the routes. -/
theorem serve_each {Q : World → Prop} (hsame : ∀ {v v'}, Q v → SameStores v v' → Q v') (hQ : Q w)
    (hroutes : ∀ v, SameStores w v → ∀ s ∈ (routes crates st env req v).1, Q s.world) :
    ∀ s ∈ (serve crates st env req w).1, Q s.world := by
  obtain ⟨pre, post, hpre, hpost, hsteps, -⟩ :=
    serve_wraps crates st env req (L := fun _ => True) (fun _ _ => trivial) trivial w
  have hmid : ∀ s ∈ (timeoutLayer env (routes crates st env req) (after w pre)).1, Q s.world :=
    fun s hs => hroutes _ hpre.after s ((timeout_isPrefix _ _ _ _).subset hs)
  intro s hs
  rw [hsteps] at hs
  rcases List.mem_append.mp hs with hs | hs
  · rcases List.mem_append.mp hs with hs | hs
    · exact hsame hQ (hpre s hs).1
    · exact hmid s hs
  · exact hsame (after_of_forall (hsame hQ hpre.after) hmid) (hpost s hs).1

/-- **One request is a move**, at each step it takes, and it is done when the answer is 204. -/
theorem serve_moves (crates : Crates) (env : Env) (req : Request) (hst : Deployed st fs)
    (hw : Sound fs r w) :
    (∀ s ∈ (serve crates st env req w).1, Reached crates st r req w s.world) ∧
    ((serve crates st env req w).2.status = 204 →
      Moves st.config.limits.maxResponseBytes Slot.Whole (Asks crates st w.host r) w.store req true
        (after w (serve crates st env req w).1).store) := by
  have hstore : ∀ {v}, SameStores w v → v.store = w.store := fun h => store_eq (by rw [h.1]) h.2
  have hsound : ∀ {v}, SameStores w v → Sound fs r v := fun h =>
    hw.grown (.of_host h.1) (by rw [hstore h]; exact hw.sized)
  refine ⟨serve_each Reached.of_same .refl fun v hv s hs => ?_, fun h => ?_⟩
  · obtain ⟨hg, hm⟩ := (routes_moves crates env req hst (hsound hv)).1 s hs
    rw [hv.1, hstore hv] at hm
    exact ⟨Grown.trans (.of_host hv.1) hg, hm⟩
  · obtain ⟨pre, post, hpre, hpost, hsteps, hstatus⟩ :=
      serve_wraps crates st env req (L := fun _ => True) (fun _ _ => trivial) trivial w
    have hsame := hpre.after
    rw [hstatus] at h
    -- a request that is given up is answered 408
    have hin : timeoutLayer env (routes crates st env req) (after w pre)
        = routes crates st env req (after w pre) := by
      rcases timeout_cases env.expire (.empty 408) (routes crates st env req) (after w pre) with
        e | ⟨k, -, -, e⟩
      · exact e
      · rw [timeoutLayer, e] at h
        cases h
    rw [hin] at h hpost hsteps
    have hm := (routes_moves crates env req hst (hsound hsame)).2 h
    rw [hsame.1, hstore hsame] at hm
    rw [hsteps, after_append, after_append, store_eq (by rw [hpost.after.1]) hpost.after.2]
    exact hm

/-- What is kept at one of the steps of a request. -/
theorem Reached.sound {v : World} (hw : Sound fs r w) (h : Reached crates st r req w v) :
    Sound fs r v :=
  hw.grown h.1 fun k c hk => by
    rcases h.2.origin hk with hs | ⟨-, a, c₀, ha, hc⟩
    · exact hw.sized k c hs
    · exact hc.length_le.trans_lt (hw.sized a c₀ ha)

/-- The move of a whole request, with whether it is done. -/
theorem serve_move (crates : Crates) (env : Env) (req : Request) (hst : Deployed st fs)
    (hw : Sound fs r w) :
    let v := after w (serve crates st env req w).1
    Sound fs r v ∧ Grown r w v ∧ Moves st.config.limits.maxResponseBytes Slot.Whole
      (Asks crates st w.host r) w.store req
      (decide ((serve crates st env req w).2.status = 204)) v.store := by
  obtain ⟨hsteps, hdone⟩ := serve_moves crates env req hst hw
  have hlast := after_of_forall (Q := Reached crates st r req w) .refl hsteps
  refine ⟨hlast.sound hw, hlast.1, ?_⟩
  by_cases hstatus : (serve crates st env req w).2.status = 204
  · rw [decide_eq_true hstatus]
    exact hdone hstatus
  · rw [decide_eq_false hstatus]
    exact hlast.2

end Request

/-! ### Runs -/

/-- The requests of a run, each with whether it was answered 204. -/
def outcomes (run : List (Served (Env × Request) World Event Response)) : List (Request × Bool) :=
  run.map fun s => (s.request.2, decide (s.reply.status = 204))

section Run

variable {crates : Crates} {st : AppState} {w : World} {fs : FsBackend} {r : Loc}

/-- A run goes on from where its first request has left the world. -/
theorem final_cons (q : Env × Request) (reqs : List (Env × Request)) :
    final w (serveAll crates st w (q :: reqs)) = final (after w (serve crates st q.1 q.2 w).1)
      (serveAll crates st (after w (serve crates st q.1 q.2 w).1) reqs) := by
  rw [final, serveAll, served, List.flatMap_cons, after_append]
  rfl

/-- A run is a history of copies; the root stays what it was, and nothing outside of it changes. -/
theorem serveAll_history (crates : Crates) (hst : Deployed st fs) (hw : Sound fs r w)
    (reqs : List (Env × Request)) :
    History st.config.limits.maxResponseBytes Slot.Whole (Asks crates st w.host r) w.store
        (outcomes (serveAll crates st w reqs)) (final w (serveAll crates st w reqs)).store ∧
      Sound fs r (final w (serveAll crates st w reqs)) ∧
      Grown r w (final w (serveAll crates st w reqs)) := by
  induction reqs generalizing w with
  | nil => exact ⟨.nil _, hw, .of_host rfl⟩
  | cons q reqs ih =>
      obtain ⟨hs, hg, hm⟩ := serve_move crates q.1 q.2 hst hw
      obtain ⟨ih₁, ih₂, ih₃⟩ := ih hs
      rw [asks_grown hst hw.rooted hg] at ih₁
      rw [final_cons]
      exact ⟨.cons hm ih₁, ih₂, hg.trans ih₃⟩

/-- What a run keeps holds before each of its requests. -/
theorem sound_before (hst : Deployed st fs) (hw : Sound fs r w) {reqs : List (Env × Request)}
    {s : Served (Env × Request) World Event Response} (hs : s ∈ serveAll crates st w reqs) :
    Sound fs r s.before ∧ Grown r w s.before := by
  obtain ⟨l₁, l₂, hrun⟩ := List.append_of_mem hs
  obtain ⟨reqs₁, reqs₂, -, h₁, -⟩ := served_split hrun
  rw [served_at hrun, h₁]
  exact (serveAll_history crates hst hw reqs₁).2

end Run

/-! ### A run of two copies -/

/-- A copy of what `download` stores, on to another object. -/
def relay : CopyFileRequest := ⟨.fs, "a", .s3, "y"⟩

def downloadJson : String :=
  "\x7b\"sourceStorageType\":\"S3\",\"sourceFilePath\":\"x\",\"destinationStorageType\":\"FS\",\"destinationFilePath\":\"a\"\x7d"

def relayJson : String :=
  "\x7b\"sourceStorageType\":\"FS\",\"sourceFilePath\":\"a\",\"destinationStorageType\":\"S3\",\"destinationFilePath\":\"y\"\x7d"

def relayCrates : Crates :=
  { Crates.strict with
    parseJson := fun l => if l = bytes downloadJson then .ok download
      else if l = bytes relayJson then .ok relay
      else .error "Failed to parse the request body as JSON"
    jsonContentType := fun _ => true }

def relayRequest (body : String) : Request := { uploadRequest with body := ⟨bytes body, .complete⟩ }

/-- An empty data root, and an object to copy. -/
def relayWorld : World := { emptyWorld with bucket := .singleton "x" [2, 3] }

/-- The object to the file `a`, and the file to the object `y`. -/
def relayRequests : List (Env × Request) :=
  [(.calm, relayRequest downloadJson), (.calm, relayRequest relayJson)]

theorem contents_dataHost (l : Loc) : dataHost.tree.contents l = none := by
  have hempty : ∀ m, Tree.empty.get m = none ∨ Tree.empty.get m = some .dir := fun m => by
    cases m with
    | nil => exact .inr rfl
    | cons x m => exact .inl rfl
  rw [Tree.contents, dataHost, Tree.get_put (by decide) (by decide) (by decide)]
  split_ifs
  · rfl
  · rcases hempty l with h | h
    · rw [h]
    · rw [h]

theorem uploadState_deployed : Deployed uploadState dataFs :=
  ⟨rfl, fun b hb fs' e => by cases hb; cases e⟩

theorem relayed_objects (key : String) :
    (AList.singleton "x" [2, 3] : Bucket).lookup key = if key = "x" then some [2, 3] else none := by
  split_ifs with h
  · subst h; rfl
  · rw [AList.lookup_eq_none, AList.mem_keys, AList.keys_singleton]
    simpa using h

theorem relayWorld_sound : Sound dataFs [bytes "data"] relayWorld := by
  refine ⟨dataFs_rooted, dataHost_linkless, fun k c hc => ?_⟩
  cases k with
  | file l =>
      have hnone : relayWorld.store (.file l) = none := contents_dataHost l
      rw [hnone] at hc
      cases hc
  | object key =>
      have hlook : relayWorld.store (.object key) = if key = "x" then some [2, 3] else none :=
        relayed_objects key
      rw [hlook] at hc
      split_ifs at hc
      cases hc
      decide

/-- The slot of the file `a`. -/
def relayed : Slot := .file (dataFs.place dataHost [bytes "data"] "a")

theorem streams_download : Streams relayCrates uploadState (relayRequest downloadJson) download
    (.s3 ⟨"objects", ""⟩) (.fs dataFs) :=
  ⟨⟨rfl, rfl⟩, (fun _ h => by cases h), rfl, rfl,
    ⟨(fun h => by cases h), by decide, by decide, rfl, rfl⟩⟩

end FileFerry
