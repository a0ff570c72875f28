import FileFerry.Results.Statuses

/-!
# Results — Secrets

Two runs of the same requests, against two services.

* `SameService.serveAll`: services whose gates give the same verdicts, and which differ only in what
  `build_router` does not hand on (the token, the credentials of the bucket, the port, and so on),
  do the same: the same answers, the same log, the same stores.
* `refused_blind`: to a client none of whose requests is admitted, any two services with the same
  flags look the same, whatever is stored, whatever the backends and the limits are; and nothing
  that is stored changes.
-/

namespace FileFerry
open Text Steps

variable {crates : Crates} {st st' : AppState} {env : Env} {req : Request} {w w' : World}

/-! ### The gate -/

/-- The refusal of a request does not depend on the token. -/
theorem requireBearer_refused (h : ¬ Admitted st req) (next : Service) :
    requireBearer st req next = pure (unauthorized
      (if presented req = "" then "missing bearer token" else "invalid bearer token")) := by
  rw [Admitted] at h
  push Not at h
  obtain ⟨token, ht, h⟩ := h
  rw [requireBearer, ht]
  by_cases he : presented req = ""
  · simp only [if_pos he]
  · simp [he, h he]

/-- The gate is the same to a request on which the two services agree. -/
theorem requireBearer_verdict (h : Admitted st req ↔ Admitted st' req) (next : Service) :
    requireBearer st req next = requireBearer st' req next := by
  by_cases ha : Admitted st req
  · rw [requireBearer_open ha, requireBearer_open (h.mp ha)]
  · rw [requireBearer_refused ha, requireBearer_refused (mt h.mpr ha)]

/-! ### What the configuration is for -/

/-- The two services have the same backends, limits and flags. -/
structure SameService (st st' : AppState) : Prop where
  backends : st'.backends = st.backends
  limits : st'.config.limits = st.config.limits
  adminEnabled : st'.config.security.adminEnabled = st.config.security.adminEnabled
  documentationEnabled : st'.config.documentationEnabled = st.config.documentationEnabled

theorem SameService.openapi (h : SameService st st') : openapi st' = FileFerry.openapi st := by
  rw [FileFerry.openapi, FileFerry.openapi, h.adminEnabled, h.documentationEnabled]

theorem SameService.listService (h : SameService st st') :
    listService crates st' env req = FileFerry.listService crates st env req := by
  simp only [FileFerry.listService, listAction, listFiles, h.backends]

theorem SameService.copyService (h : SameService st st') :
    copyService crates st' env req = FileFerry.copyService crates st env req := by
  simp only [FileFerry.copyService, copyAction, copyFile, h.backends, h.limits]

theorem SameService.routes (h : SameService st st') (hv : Admitted st req ↔ Admitted st' req) :
    routes crates st' env req = FileFerry.routes crates st env req := by
  simp only [FileFerry.routes, h.openapi, h.listService, h.copyService, requireBearer_verdict hv]

/-- A run depends on the token only by the gate's verdict on each of its requests, and on the
credentials of the bucket, and whatever else of the configuration is not handed on, not at all. -/
theorem SameService.serveAll (h : SameService st st') (w : World) {reqs : List (Env × Request)}
    (hv : ∀ q ∈ reqs, Admitted st q.2 ↔ Admitted st' q.2) :
    FileFerry.serveAll crates st' w reqs = FileFerry.serveAll crates st w reqs := by
  induction reqs generalizing w with
  | nil => rw [FileFerry.serveAll, FileFerry.serveAll, served, served]
  | cons q reqs ih =>
      have hserve : serve crates st' q.1 q.2 = serve crates st q.1 q.2 := by
        simp only [serve, h.routes (hv q List.mem_cons_self)]
      have hrest := ih (after w (serve crates st q.1 q.2 w).1) fun p hp =>
        hv p (List.mem_cons_of_mem _ hp)
      rw [FileFerry.serveAll, FileFerry.serveAll] at hrest ⊢
      rw [served, served, hserve, hrest]

/-- A service with a token. -/
def tokenState (backends : Backends) (token : String) : AppState :=
  ⟨backends, { AppConfig.default with security := ⟨some token, false, false⟩ }⟩

theorem tokenState_shut (backends : Backends) (token : String) :
    ¬ Admitted (tokenState backends token) uploadRequest := fun h => (h token rfl).1 rfl

/-! ### Answers given at once -/

/-- The two worlds have the same counters. -/
def SameCounters (w w' : World) : Prop :=
  w'.traceCounter = w.traceCounter ∧ w'.logCounter = w.logCounter

/-- What two runs of a process look like from outside. -/
structure LooksLike (p p' : Service) (w w' : World) : Prop where
  reply : (p' w').2 = (p w).2
  events : trace (p' w').1 = trace (p w).1
  counters : SameCounters (after w (p w).1) (after w' (p' w').1)
  stores : SameStores w (after w (p w).1)

theorem mint_alike (n : Nat) (nanos : UInt64) (h : SameCounters w w') :
    (mint n nanos w').2 = (mint n nanos w).2 ∧
      SameCounters (after w (mint n nanos w).1) (after w' (mint n nanos w').1) := by
  refine ⟨?_, ?_, h.2⟩
  · show hexText (randomBytes n nanos w'.traceCounter)
      = hexText (randomBytes n nanos w.traceCounter)
    rw [h.1]
  · show w'.traceCounter + 1 = w.traceCounter + 1
    rw [h.1]

theorem traceId_alike (env : Env) (req : Request) (h : SameCounters w w') :
    (extractOrGenerateTraceId env req w').2 = (extractOrGenerateTraceId env req w).2 ∧
      SameCounters (after w (extractOrGenerateTraceId env req w).1)
        (after w' (extractOrGenerateTraceId env req w').1) := by
  rw [extractOrGenerateTraceId]
  rcases inboundTraceId req with _ | id
  · exact mint_alike _ _ h
  · exact ⟨rfl, h⟩

theorem logId_alike (env : Env) (req : Request) (h : SameCounters w w') :
    (extractTraceId env req w').2 = (extractTraceId env req w).2 ∧
      SameCounters (after w (extractTraceId env req w).1)
        (after w' (extractTraceId env req w').1) := by
  rw [extractTraceId]
  rcases inboundTraceId req with _ | id
  · refine ⟨?_, h.1, ?_⟩
    · show String.ofList (hex 16 (env.logNanos + w'.logCounter).toNat)
        = String.ofList (hex 16 (env.logNanos + w.logCounter).toNat)
      rw [h.2]
    · show w'.logCounter + 1 = w.logCounter + 1
      rw [h.2]
  · exact ⟨rfl, h⟩

/-- **An answer given at once** looks the same in any two worlds with the same counters. -/
theorem immediate_alike (env : Env) (req : Request) (answer : Response)
    (h : SameCounters w w') :
    let p : Service := stripBody req <| accessLog env req <| traceLayer req <| securityHeaders <|
      traceparent env req <| timeoutLayer env (pure answer)
    LooksLike p p w w' := by
  obtain ⟨hlog, h₁⟩ := logId_alike env req h
  obtain ⟨htrace, h₂⟩ := traceId_alike env req h₁
  obtain ⟨hspan, h₃⟩ := mint_alike 8 env.spanNanos h₂
  have hanswer : ∀ v, timeoutLayer env (pure answer) v = ([], answer) := fun v => by
    rcases timeout_cases env.expire (.empty 408) (pure answer : Service) v with e | ⟨k, -, hlt, -⟩
    · exact e
    · cases hlt
  have hquiet : ∀ v, trace (extractTraceId env req v).1 = [] ∧
      trace (extractOrGenerateTraceId env req v).1 = [] ∧
        trace (mint 8 env.spanNanos v).1 = [] := by
    intro v
    rw [extractTraceId, extractOrGenerateTraceId]
    rcases inboundTraceId req with _ | id
    · exact ⟨rfl, rfl, rfl⟩
    · exact ⟨rfl, rfl, rfl⟩
  intro p
  constructor
  · simp only [p, stripBody, accessLog, traceLayer, securityHeaders, traceparent, Proc.bind_run,
      Proc.pure_run, Proc.emit_run, Proc.step_run, id_eq, after_cons, after_nil,
        hanswer, htrace, hspan]
  · simp only [p, stripBody, accessLog, traceLayer, securityHeaders, traceparent, Proc.bind_run,
      Proc.pure_run, Proc.emit_run, Proc.step_run, id_eq, after_cons, after_nil, trace_append,
        trace_cons, trace_nil,
      hanswer, htrace, hspan, hlog, hquiet]
  · simp only [p, stripBody, accessLog, traceLayer, securityHeaders, traceparent, Proc.bind_run,
      Proc.pure_run, Proc.emit_run, Proc.step_run, id_eq, after_append, after_cons,
        after_nil, hanswer]
    exact h₃
  · simp only [p, stripBody, accessLog, traceLayer, securityHeaders, traceparent, Proc.bind_run,
      Proc.pure_run, Proc.emit_run, Proc.step_run, id_eq, after_append, after_cons,
        after_nil, hanswer]
    exact entered_same env req w

/-! ### Requests that are not admitted -/

/-- A request that two services with the same flags do not admit is answered at once, and alike. -/
theorem routes_refused (crates : Crates) (env : Env) (ha : ¬ Admitted st req)
    (ha' : ¬ Admitted st' req)
    (hflags : openapi st' = openapi st) : ∃ answer : Response,
      routes crates st env req = pure answer ∧ routes crates st' env req = pure answer := by
  have hget : ∀ r : Response, getRoute req (pure r)
      = pure (if req.method = "GET" ∨
        req.method = "HEAD" then r else methodNotAllowed) := fun r => by
    rw [getRoute]
    split
    · rfl
    · rfl
  simp only [routes, requireBearer_refused ha, requireBearer_refused ha', hget, hflags]
  split
  · exact ⟨_, rfl, rfl⟩
  · split
    · exact ⟨_, rfl, rfl⟩
    · split
      · exact ⟨_, rfl, rfl⟩
      · split
        · exact ⟨_, rfl, rfl⟩
        · split
          · exact ⟨_, rfl, rfl⟩
          · split
            · exact ⟨_, rfl, rfl⟩
            · exact ⟨_, rfl, rfl⟩

/-- **A client that is not admitted sees nothing.**  To requests none of which is admitted, two
services with the same flags give the same answers and the same log, whatever their tokens, backends
and limits are, and whatever is stored; and what is stored stays. -/
theorem refused_blind (crates : Crates)
    (hadmin : st'.config.security.adminEnabled = st.config.security.adminEnabled)
    (hdocs : st'.config.documentationEnabled = st.config.documentationEnabled)
    (hw : SameCounters w w') {reqs : List (Env × Request)} (ha : ∀ q ∈ reqs, ¬ Admitted st q.2)
    (ha' : ∀ q ∈ reqs, ¬ Admitted st' q.2) :
    (serveAll crates st' w' reqs).map Served.reply = (serveAll crates st w reqs).map Served.reply ∧
      ((serveAll crates st' w' reqs).map fun s => trace s.steps)
        = ((serveAll crates st w reqs).map fun s => trace s.steps) ∧
      SameStores w (final w (serveAll crates st w reqs)) := by
  have hflags : openapi st' = openapi st := by rw [openapi, openapi, hadmin, hdocs]
  induction reqs generalizing w w' with
  | nil =>
      rw [serveAll, serveAll, served, served]
      exact ⟨rfl, rfl, .refl w⟩
  | cons q reqs ih =>
      obtain ⟨answer, e, e'⟩ := routes_refused crates q.1 (ha q List.mem_cons_self)
        (ha' q List.mem_cons_self) hflags
      have hone : LooksLike (serve crates st q.1 q.2) (serve crates st' q.1 q.2) w w' := by
        rw [serve, serve, e, e']
        exact immediate_alike q.1 q.2 answer hw
      obtain ⟨ih₁, ih₂, ih₃⟩ := ih hone.counters (fun p hp => ha p (List.mem_cons_of_mem _ hp))
        fun p hp => ha' p (List.mem_cons_of_mem _ hp)
      rw [serveAll, serveAll] at ih₁ ih₂
      rw [serveAll, serveAll, served, served]
      refine ⟨?_, ?_, ?_⟩
      · rw [List.map_cons, List.map_cons, hone.reply, ih₁]
      · rw [List.map_cons, List.map_cons, hone.events, ih₂]
      · rw [final, List.flatMap_cons, after_append]
        exact hone.stores.trans ih₃

/-- A client without a token does not see that there is a file, nor that there is no bucket. -/
theorem refused_blind_files :
    ((serveAll (uploadCrates "a") (tokenState ⟨.fs dataFs, none⟩ "second") downloadWorld
        [(.calm, uploadRequest)]).map fun s => trace s.steps)
      = (serveAll (uploadCrates "a") (tokenState uploadState.backends "first") World.empty
        [(.calm, uploadRequest)]).map fun s => trace s.steps := by
  have hadmin : (tokenState ⟨.fs dataFs, none⟩ "second").config.security.adminEnabled
      = (tokenState uploadState.backends "first").config.security.adminEnabled := rfl
  have hcounters : SameCounters World.empty downloadWorld := ⟨rfl, rfl⟩
  refine (refused_blind (uploadCrates "a") hadmin rfl hcounters (fun q hq => ?_) fun q hq => ?_).2.1
  · rw [List.mem_singleton.mp hq]; exact tokenState_shut _ _
  · rw [List.mem_singleton.mp hq]; exact tokenState_shut _ _

end FileFerry
