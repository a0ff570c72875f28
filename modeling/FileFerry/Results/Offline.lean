import FileFerry.Support.Agree
import FileFerry.Results.Restarts

/-!
# Results — Offline

A service that is started offline, or without a bucket.

* `SameHost`, `SameElsewhere`: worlds and requests that differ in the bucket and its server alone.
* `serve_agree`: without an online bucket the service answers and logs the same in both.
* `offline_isolated`: what was said with `FILEFERRY_OFFLINE` is so, over every run.
-/

namespace FileFerry
open Text Posix AsyncIo Steps Copier

/-- The worlds differ in the bucket alone. -/
structure SameHost (w w' : World) : Prop where
  host : w'.host = w.host
  traceCounter : w'.traceCounter = w.traceCounter
  logCounter : w'.logCounter = w.logCounter

/-- What happens differs in the bucket's server alone, and in what comes before an upload. -/
def SameElsewhere (env env' : Env) : Prop :=
  ∃ tmp build get put server, env' = { env with
    tmpFault := tmp, buildFault := build, getFault := get, putFault := put, server := server }

section Agree

variable {crates : Crates} {st : AppState} {env env' : Env} {req : Request} {path : String}

theorem await_agree : Agree SameHost await await := .step [] fun _ _ h => h

/-! ### The file-system backend -/

/-- A refusal is logged alike, whatever the bucket is. -/
theorem refuse_agree {α : Type} (r : Record) (e : FerryError) :
    Agree SameHost (log r >>= fun _ => (Act.fail e : Act α)) (log r >>= fun _ => Act.fail e) :=
  .seq (.emit _) fun _ => .fail e

/-- The data root is the same, and so is what a path resolves to. -/
theorem FsBackend.resolve_agree (fs : FsBackend) (path : String) :
    Agree SameHost (fs.resolve path) (fs.resolve path) := by
  refine .get fun w w' h => ?_
  rw [h.host]
  split
  · exact refuse_agree _ _
  · split
    · exact refuse_agree _ _
    · exact .pure _
    · exact .pure _
    · exact .fail _

/-- …what is listed of it… -/
theorem FsBackend.list_agree (fs : FsBackend) (opts : ListOptions) :
    Agree SameHost (fs.list opts) (fs.list opts) := by
  refine .seq await_agree fun _ => .get fun w w' h => ?_
  rw [h.host]
  split
  · exact .fail _
  · exact .pure _

/-- …and what is read from it, if the bytes come alike. -/
theorem FsBackend.openRead_agree (fs : FsBackend) (hfeed : env'.feed = env.feed) (path : String) :
    Agree SameHost (fs.openRead env path) (fs.openRead env' path) := by
  refine .seq (fs.resolve_agree path) fun resolved => .get fun w w' h => ?_
  rw [h.host, hfeed]
  split
  · exact .seq (.emit _) fun _ => .pure _
  · exact .fail _
  · split
    · exact refuse_agree _ _
    · exact .fail _

/-! ### The calls -/

/-- The backend is the one of the file system, or offline. -/
def BackendRef.Local (b : BackendRef) : Prop := ∀ b', b ≠ .s3 b'

/-- A backend that is not an online bucket lists alike. -/
theorem BackendRef.list_agree {b : BackendRef} (hb : b.Local) (opts : ListOptions) :
    Agree SameHost (b.list env opts) (b.list env' opts) := by
  refine .seq (.emit _) fun _ => ?_
  cases b with
  | fs b => exact b.list_agree opts
  | s3 b => exact absurd rfl (hb b)
  | offline b => exact .fail _

/-- …and opens alike. -/
theorem BackendRef.openRead_agree {b : BackendRef} (hb : b.Local) (hfeed : env'.feed = env.feed)
    (path : String) : Agree SameHost (b.openRead env path) (b.openRead env' path) := by
  rw [b.openRead_eq, b.openRead_eq]
  refine .seq (.emit _) fun _ => .seq ?_ fun _ => .seq (.emit _) fun _ => .pure _
  cases b with
  | fs b => exact b.openRead_agree hfeed path
  | s3 b => exact absurd rfl (hb b)
  | offline b => exact .fail _

/-- A copy of which one side is offline does not get to what depends on the bucket. -/
theorem streamCopy_agree {src dst : BackendRef} (hsrc : src.Local)
    (hoff : ∃ o, src = .offline o ∨ dst = .offline o)
    (hfeed : env'.feed = env.feed) (srcPath dstPath : String) (maxBytes inactivity : Nat) :
    Agree SameHost (streamCopy crates env src srcPath dst dstPath maxBytes inactivity)
      (streamCopy crates env' src srcPath dst dstPath maxBytes inactivity) := by
  obtain ⟨o, rfl | rfl⟩ := hoff
  · refine .stop (BackendRef.openRead_agree hsrc hfeed srcPath) fun w a h => ?_
    cases h
  · refine .seq (src.openRead_agree hsrc hfeed srcPath) fun reader => .stop ?_ fun w a h => ?_
    · exact .seq (.emit _) fun _ => .fail _
    · cases h

/-! ### The handlers -/

/-- A service without an online bucket picks no backend that has one. -/
theorem pick_local {fs : FsBackend} (hst : Deployed st fs) (hno : NoBucket st) {kind : StorageType}
    {b : BackendRef} (hp : st.backends.pick kind = .ok b) : b.Local := by
  rintro b' rfl
  cases kind with
  | fs =>
      rw [Backends.pick, hst.fs] at hp
      cases hp
  | s3 =>
      rw [Backends.pick] at hp
      split at hp
      · rename_i r hr
        obtain ⟨o, rfl⟩ := hno r hr
        cases hp
      · cases hp

theorem typedQuery_agree : Agree SameHost (typedQuery crates req) (typedQuery crates req) := by
  rw [typedQuery]
  split
  · exact .pure _
  · exact .fail _

/-- What is decoded is the request's alone. -/
theorem typedJson_agree (maxBody : Nat) :
    Agree SameHost (typedJson crates maxBody req) (typedJson crates maxBody req) := by
  refine .seq await_agree fun _ => ?_
  split
  · exact .fail _
  · split
    · exact .pure _
    · split
      · exact .fail _
      · exact .fail _

variable {fs : FsBackend} (hst : Deployed st fs) (hno : NoBucket st)

include hst hno

/-- A listing agrees, since no online bucket is listed. -/
theorem listAction_agree :
    Agree SameHost (listAction crates st env req) (listAction crates st env' req) := by
  refine .seq typedQuery_agree fun q => .given fun b hb => .given fun limit _ => ?_
  have hrest : Agree SameHost
      (b.list env ⟨some limit, q.startAfter⟩ >>= fun files =>
        (pure (listResponse limit files) : Act _))
      (b.list env' ⟨some limit, q.startAfter⟩ >>= fun files => pure (listResponse limit files)) :=
    .seq (BackendRef.list_agree (pick_local hst hno hb) _) fun files => .pure _
  dsimp only
  split
  · exact .given fun _ _ => hrest
  · exact hrest

/-- A copy agrees: one that names a bucket fails before it reads a byte. -/
theorem copyAction_agree (hfeed : env'.feed = env.feed) :
    Agree SameHost (copyAction crates st env req) (copyAction crates st env' req) := by
  refine .seq (typedJson_agree _) fun c => ?_
  rw [copyFile, copyFile]
  split
  · exact .fail _
  · rename_i hd
    refine .given fun _ h₁ => .given fun _ h₂ => .given fun src h₃ => .given fun dst h₄ =>
      .seq ?_ fun _ => .pure _
    exact streamCopy_agree (pick_local hst hno h₃) (hno.offline ⟨hd, h₁, h₂, h₃, h₄⟩) hfeed _ _ _ _

/-! ### The router -/

omit hst hno in
/-- What agrees is answered alike. -/
theorem respond_agree {α : Type} {p p' : Act α} {ok : α → Response} (h : Agree SameHost p p') :
    Agree SameHost (respond p ok) (respond p' ok) := by
  have hrun : Agree SameHost p.run p'.run := h
  refine .bind hrun fun r => ?_
  cases r with
  | ok a => exact .ret _
  | error e => exact .bind (.move _ fun _ _ h => h) fun _ => .ret _

/-- **The routes agree**, whatever the bucket is: neither handler reaches it. -/
theorem routes_agree (hfeed : env'.feed = env.feed) :
    Agree SameHost (routes crates st env req) (routes crates st env' req) := by
  have hlist : Agree SameHost (listService crates st env req) (listService crates st env' req) :=
    .bind (.move _ fun _ _ h => h) fun _ => respond_agree (listAction_agree hst hno)
  have hcopy : Agree SameHost (copyService crates st env req) (copyService crates st env' req) :=
    .bind (.move _ fun _ _ h => h) fun _ => respond_agree (copyAction_agree hst hno hfeed)
  have hget : ∀ s s' : Service, Agree SameHost s s' → Agree SameHost (getRoute req s)
    (getRoute req s') := by
    intro s s' h
    rw [getRoute, getRoute]
    split
    · exact h
    · exact .ret _
  have hpost : ∀ s s' : Service, Agree SameHost s s' → Agree SameHost (postRoute req s)
    (postRoute req s') := by
    intro s s' h
    rw [postRoute, postRoute]
    split
    · exact h
    · exact .ret _
  have hgate : ∀ s s' : Service, Agree SameHost s s' →
      Agree SameHost (requireBearer st req s) (requireBearer st req s') := by
    intro s s' h
    rw [requireBearer.eq_def, requireBearer.eq_def]
    split
    · exact h
    · dsimp only
      split
      · exact .ret _
      · split
        · exact .ret _
        · exact h
  rw [routes, routes]
  split
  · exact hgate _ _ (hget _ _ hlist)
  · split
    · exact hgate _ _ (hpost _ _ hcopy)
    · split
      · exact hget _ _ (.ret _)
      · split
        · exact hget _ _ (.ret _)
        · split
          · exact hget _ _ (.ret _)
          · split
            · exact hgate _ _ (.ret _)
            · exact .ret _

omit hst hno in
/-- An id depends on its counter, which is the same. -/
theorem mint_agree (n : Nat) (nanos : UInt64) : Agree SameHost (mint n nanos) (mint n nanos) := by
  refine .read fun w w' h => .bind (.move _ fun v v' h => ?_) fun _ => ?_
  · exact ⟨h.host, congrArg (· + 1) h.traceCounter, h.logCounter⟩
  · rw [h.traceCounter]
    exact .ret _

omit hst hno in
/-- The trace id is the request's, or minted alike. -/
theorem extractTraceId_agree (env : Env) (req : Request) :
    Agree SameHost (extractTraceId env req) (extractTraceId env req) := by
  rw [extractTraceId]
  split
  · exact .ret _
  · refine .read fun w w' h => .bind (.move _ fun v v' h => ?_) fun _ => ?_
    · exact ⟨h.host, h.traceCounter, congrArg (· + 1) h.logCounter⟩
    · rw [h.logCounter]
      exact .ret _

omit hst hno in
theorem extractOrGenerateTraceId_agree (env : Env) (req : Request) :
    Agree SameHost (extractOrGenerateTraceId env req) (extractOrGenerateTraceId env req) := by
  rw [extractOrGenerateTraceId]
  split
  · exact .ret _
  · exact mint_agree _ _

/-- **Without an online bucket** a request is answered, and told of, alike, whatever the bucket
is. -/
theorem serve_agree (henv : SameElsewhere env env') :
    Agree SameHost (serve crates st env req) (serve crates st env' req) := by
  obtain ⟨tmp, build, get, put, server, rfl⟩ := henv
  have hroutes : Agree SameHost (routes crates st env req) (routes crates st { env with
      tmpFault := tmp, buildFault := build, getFault := get, putFault := put,
        server := server } req) :=
    routes_agree hst hno rfl
  have htrace := Agree.bind (extractOrGenerateTraceId_agree env req) fun id =>
    .bind (mint_agree 8 env.spanNanos) fun span =>
      .bind (.timeout env.expire (Response.empty 408) hroutes) fun response =>
        .ret ((response.withHeader "traceparent" ("00-" ++ id ++ "-" ++ span ++ "-01")).withHeader
        "x-trace-id" id)
  exact .bind (.bind (extractTraceId_agree env req) fun _ => .bind (.bind (.move _ fun _ _ h => h)
    fun _ => .bind (.bind htrace fun _ => .ret _) fun _ => .bind (.move _ fun _ _ h => h)
      fun _ => .ret _)
    fun _ => .bind (.move _ fun _ _ h => h) fun _ => .ret _) fun _ => .ret _

omit hst hno in
/-- …and changes nothing, in either store. -/
theorem serve_offline_keeps (crates : Crates) (env : Env) (req : Request)
    (hno : NoBucket st) (w : World) :
    (∀ s ∈ (serve crates st env req w).1, SameStores w s.world) ∧
      (serve crates st env req w).2.status ≠ 204 := by
  obtain ⟨pre, post, hpre, hpost, e, hstatus⟩ :=
    serve_wraps crates st env req (L := fun _ => True) (fun _ _ => trivial) trivial w
  obtain ⟨hroutes, hne⟩ := routes_offline (Q := SameStores w) crates env req hno hpre.after
  have hmid : ∀ s ∈ (timeoutLayer env (routes crates st env req) (after w pre)).1,
      SameStores w s.world := fun s hs => hroutes s ((timeout_isPrefix _ _ _ _).subset hs)
  refine ⟨fun s hs => ?_, ?_⟩
  · rw [e] at hs
    rcases List.mem_append.mp hs with hs | hs
    · rcases List.mem_append.mp hs with hs | hs
      · exact (hpre s hs).1
      · exact hmid s hs
    · exact (after_of_forall (Q := SameStores w) hpre.after hmid).trans (hpost s hs).1
  · rw [hstatus]
    rcases timeout_cases env.expire (.empty 408) (routes crates st env req) (after w pre) with
      e | ⟨k, -, -, e⟩
    · rw [timeoutLayer, e]; exact hne
    · rw [timeoutLayer, e]; simp [Response.empty]

end Agree

/-! ### A service that is started offline -/

/-- A start offline, or without a bucket, leaves no online bucket. -/
theorem startedState_noBucket {l : Launch} {cfg : AppConfig} {fs : FsBackend}
    (hoff : offlineFromEnv l.vars = true ∨ cfg.s3 = none) : NoBucket (startedState l cfg fs) := by
  intro b hb
  rw [startedState, s3Backend.eq_def] at hb
  rcases hs3 : cfg.s3 with _ | c
  · rw [hs3] at hb
    cases hb
  · rw [hs3] at hb hoff
    rw [hoff.resolve_right (by simp)] at hb
    cases hb
    exact ⟨_, rfl⟩

/-- **Offline is offline.**  A service that is started with `FILEFERRY_OFFLINE`, or without a
bucket, answers no copy with a success and changes neither store, at any step of any run; and what
it answers and logs is the same with any other contents of the bucket, and any other behaviour of
its server. -/
theorem offline_isolated {bc : BootCrates} {l : Launch} {h : Host} {steps : List (Step Host Record)}
    {s : Started} (hmain : main bc l h = (steps, .serving s))
    (hoff : offlineFromEnv l.vars = true ∨ s.state.config.s3 = none) (crates : Crates) (w : World)
    (reqs : List (Env × Request)) :
    (∀ t ∈ serveAll crates s.state w reqs,
      t.reply.status ≠ 204 ∧ ∀ u ∈ t.steps, SameStores w u.world) ∧
    ∀ w' reqs', SameHost w w' → List.Forall₂ (fun q q' => q'.2 = q.2 ∧
      SameElsewhere q.1 q'.1) reqs reqs' →
      List.Forall₂ SameServed (serveAll crates s.state w reqs)
        (serveAll crates s.state w' reqs') := by
  obtain ⟨cfg, fs, -, -, -, rfl⟩ := main_serving hmain
  have hno : NoBucket (startedState l cfg fs) := startedState_noBucket hoff
  have hst := startedState_deployed l cfg fs
  refine ⟨fun t ht => ?_, fun w' reqs' hw hreqs => ?_⟩
  · have hbefore := (served_inv (Q := SameStores w) (fun (q : Env × Request) v hv u hu =>
      hv.trans ((serve_offline_keeps crates q.1 q.2 hno v).1 u hu)) (.refl w)).1 t ht
    obtain ⟨hkeeps, hstatus⟩ := serve_offline_keeps crates t.request.1 t.request.2 hno t.before
    rw [show serve crates _ t.request.1 t.request.2 t.before = (t.steps, t.reply) from
      (mem_served ht).2] at hkeeps hstatus
    exact ⟨hstatus, fun u hu => hbefore.trans (hkeeps u hu)⟩
  · refine (served_agree (R := SameHost) (fun q q' hq => ?_) hreqs hw).1
    obtain ⟨hreq, henv⟩ := hq
    rw [hreq]
    exact serve_agree hst hno henv

def offlineLaunch : Launch :=
  { ferryLaunch with
    vars := fun name => if name = "FILEFERRY_OFFLINE" then some " Yes " else ferryLaunch.vars name }

/-- Two copies are asked for, of which one is from the bucket, over a bucket and over none. -/
theorem offline_isolated_ferry :
    let st := startedState offlineLaunch ferryConfig ⟨bytes "data"⟩
    List.Forall₂ SameServed (serveAll relayCrates st ferryWorld relayRequests)
      (serveAll relayCrates st { ferryWorld with bucket := ∅ } relayRequests) := by
  have hmain : main ferryCrates offlineLaunch ferryHost
    = ((main ferryCrates offlineLaunch ferryHost).1,
      .serving ⟨startedState offlineLaunch ferryConfig ⟨bytes "data"⟩, .unspecified 8080⟩) := rfl
  have hoff : offlineFromEnv offlineLaunch.vars = true := by decide
  refine (offline_isolated hmain (.inl hoff) relayCrates ferryWorld relayRequests).2 _ _
    ⟨rfl, rfl, rfl⟩ ?_
  exact List.forall₂_same.mpr fun q _ => ⟨rfl, _, _, _, _, _, rfl⟩

end FileFerry
