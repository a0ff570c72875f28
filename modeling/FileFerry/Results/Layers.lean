import FileFerry.Source.Router

/-!
# Results — Layers

What the layers around the routes add to what the routes do.

* `Wraps L outer inner`: `outer` does what `inner` does, and before and after it takes steps that
  keep the two stores and emit log lines that satisfy `L`; the status stays.
* `serve_wraps`: the router wraps the routes under their timeout.
* `requireBearer_open`, `requireBearer_shut`: the gate does what it guards, or answers 401.
-/

namespace FileFerry
open Steps

/-- The two worlds have the same stores. -/
def SameStores (w w' : World) : Prop := w'.host = w.host ∧ w'.bucket = w.bucket

theorem SameStores.refl (w : World) : SameStores w w := ⟨rfl, rfl⟩

/-- The stores stay the same from step to step. -/
theorem SameStores.trans {w w' w'' : World} (h : SameStores w w') (h' : SameStores w' w'') :
    SameStores w w'' := ⟨h'.1.trans h.1, h'.2.trans h.2⟩

/-- Steps that keep the stores of `w` and emit log lines that satisfy `L`. -/
def Idle (L : Record → Prop) (w : World) (steps : List (Step World Event)) : Prop :=
  ∀ s ∈ steps, SameStores w s.world ∧ ∀ e ∈ s.events, ∃ r, e = .log r ∧ L r

variable {L : Record → Prop} {w w' : World} {steps more : List (Step World Event)}

theorem Idle.nil : Idle L w [] := fun _ h => by cases h

theorem Idle.one {evs : List Event} (hs : SameStores w w') (he : ∀ e ∈ evs, ∃ r, e = .log r ∧ L r) :
    Idle L w [⟨w', evs⟩] := fun s h => by
  rw [List.mem_singleton.mp h]
  exact ⟨hs, he⟩

theorem Idle.quiet (hs : SameStores w w') : Idle L w [⟨w', []⟩] := Idle.one hs (by simp)

theorem Idle.log {r : Record} (hr : L r) : Idle L w [⟨w, [.log r]⟩] :=
  Idle.one (.refl w) (by simpa using hr)

/-- Idle steps after idle steps are idle. -/
theorem Idle.append (h : Idle L w steps) (h' : Idle L w more) : Idle L w (steps ++ more) :=
  fun s hs => (List.mem_append.mp hs).elim (h s) (h' s)

theorem Idle.after (h : Idle L w steps) : SameStores w (after w steps) :=
  after_of_forall (.refl w) fun s hs => (h s hs).1

theorem Idle.of_same (hs : SameStores w w') (h : Idle L w' steps) : Idle L w steps :=
  fun s h' => ⟨hs.trans (h s h').1, (h s h').2⟩

/-- What `outer` does around what `inner` does. -/
def Wraps (L : Record → Prop) (outer inner : Service) : Prop :=
  ∀ w, ∃ pre post, Idle L w pre ∧
    Idle L (Steps.after (Steps.after w pre) (inner (Steps.after w pre)).1) post ∧
    (outer w).1 = pre ++ (inner (Steps.after w pre)).1 ++ post ∧
    (outer w).2.status = (inner (Steps.after w pre)).2.status

/-- A layer around a layer is a layer. -/
theorem Wraps.trans {a b c : Service} (h : Wraps L a b) (h' : Wraps L b c) : Wraps L a c := by
  intro w
  obtain ⟨pre₁, post₁, hpre₁, hpost₁, e₁, st₁⟩ := h w
  obtain ⟨pre₂, post₂, hpre₂, hpost₂, e₂, st₂⟩ := h' (Steps.after w pre₁)
  rw [e₂, after_append, after_append] at hpost₁
  refine ⟨pre₁ ++ pre₂, post₂ ++ post₁, hpre₁.append (hpre₂.of_same hpre₁.after), ?_, ?_, ?_⟩
  · rw [after_append]
    exact hpost₂.append (hpost₁.of_same hpost₂.after)
  · rw [after_append, e₁, e₂]; simp
  · rw [after_append, st₁, st₂]

/-! ### The layers -/

/-- The access log adds a line at the end. -/
theorem accessLog_wraps {env : Env} {req : Request} (next : Service)
    (hL : ∀ r : Record, (∀ f ∈ r.fields, f.user = false) → L r) :
    Wraps L (accessLog env req next) next := by
  intro w
  have hpre : Idle L w (extractTraceId env req w).1 := by
    rcases h : inboundTraceId req with _ | id
    · simp only [extractTraceId, h]; exact Idle.quiet ⟨rfl, rfl⟩
    · simp only [extractTraceId, h]; exact Idle.nil
  have hlog : L (accessRecord env req (extractTraceId env req w).2
      (next (Steps.after w (extractTraceId env req w).1)).2) := hL _ (by simp [accessRecord])
  exact ⟨(extractTraceId env req w).1, [⟨_, [.log _]⟩], hpre, Idle.log hlog,
    by simp [accessLog, Proc.bind_run], rfl⟩

/-- The lines of a response hold no text of the request. -/
theorem responseRecords_plain {response : Response} {r : Record}
    (hr : r ∈ responseRecords response) :
    ∀ f ∈ r.fields, f.user = false := by
  rw [responseRecords] at hr
  rcases List.mem_cons.mp hr with rfl | hr
  · simp [finishedRecord]
  · split at hr
    · rw [List.mem_singleton.mp hr]
      simp [failedRecord]
    · cases hr

/-- The trace layer adds its span and its lines. -/
theorem traceLayer_wraps {req : Request} (next : Service)
    (hL : ∀ r : Record, (∀ f ∈ r.fields, f.user = false) → L r) (ht : L (traceRecord req)) :
    Wraps L (traceLayer req next) next := by
  intro w
  refine ⟨[⟨w, [.log (traceRecord req)]⟩], [⟨_, (responseRecords (next w).2).map .log⟩],
    Idle.log ht,
    Idle.one (.refl _) fun e he => ?_, by simp [traceLayer, Proc.bind_run], rfl⟩
  obtain ⟨r, hr, rfl⟩ := List.mem_map.mp he
  exact ⟨r, rfl, hL r (responseRecords_plain hr)⟩

theorem securityHeaders_wraps (next : Service) : Wraps L (securityHeaders next) next :=
  fun _ => ⟨[], [], Idle.nil, Idle.nil, by simp [securityHeaders, Proc.bind_run], rfl⟩

/-- What `HEAD` is answered keeps its status. -/
theorem stripBody_wraps {req : Request} (next : Service) : Wraps L (stripBody req next) next := by
  refine fun w => ⟨[], [], Idle.nil, Idle.nil, by simp [stripBody, Proc.bind_run], ?_⟩
  simp only [stripBody, Proc.bind_run, Proc.pure_run, Steps.after_nil]
  split
  · rfl
  · rfl

theorem withHeader_status (r : Response) (name text : String) :
    (r.withHeader name text).status = r.status ∧ (r.withHeader name text).body = r.body := by
  rw [Response.withHeader]
  split
  · exact ⟨rfl, rfl⟩
  · exact ⟨rfl, rfl⟩

theorem traceparent_wraps {env : Env} {req : Request} (next : Service) :
    Wraps L (traceparent env req next) next := by
  intro w
  have hid : Idle L w (extractOrGenerateTraceId env req w).1 := by
    rcases h : inboundTraceId req with _ | id
    · simp only [extractOrGenerateTraceId, h]; exact Idle.quiet ⟨rfl, rfl⟩
    · simp only [extractOrGenerateTraceId, h]; exact Idle.nil
  have hspan : ∀ w', Idle L w' (mint 8 env.spanNanos w').1 := fun w' => Idle.quiet ⟨rfl, rfl⟩
  refine ⟨(extractOrGenerateTraceId env req w).1 ++
    (mint 8 env.spanNanos (Steps.after w (extractOrGenerateTraceId env req w).1)).1, [],
    hid.append ((hspan _).of_same hid.after), Idle.nil, ?_, ?_⟩
  · simp [traceparent, Proc.bind_run]
  · simp [traceparent, Proc.bind_run, withHeader_status]

/-- **The router** wraps the routes under their timeout. -/
theorem serve_wraps (crates : Crates) (st : AppState) (env : Env) (req : Request)
    (hL : ∀ r : Record, (∀ f ∈ r.fields, f.user = false) → L r) (ht : L (traceRecord req)) :
    Wraps L (serve crates st env req) (timeoutLayer env (routes crates st env req)) :=
  (stripBody_wraps _).trans <| (accessLog_wraps _ hL).trans <| (traceLayer_wraps _ hL ht).trans <|
    (securityHeaders_wraps _).trans (traceparent_wraps _)

/-- The world in which the routes are entered: identifiers were minted before. -/
def entered (env : Env) (req : Request) (w : World) : World :=
  let w₁ := Steps.after w (extractTraceId env req w).1
  let w₂ := Steps.after w₁ (extractOrGenerateTraceId env req w₁).1
  Steps.after w₂ (mint 8 env.spanNanos w₂).1

/-- Minting identifiers changes no store. -/
theorem entered_same (env : Env) (req : Request) (w : World) :
    SameStores w (entered env req w) := by
  have hmint : ∀ n nanos v, SameStores v (Steps.after v (mint n nanos v).1) :=
    fun n nanos v => ⟨rfl, rfl⟩
  have hlog : ∀ v, SameStores v (Steps.after v (extractTraceId env req v).1) := fun v => by
    rw [extractTraceId]
    rcases inboundTraceId req with _ | id
    · exact ⟨rfl, rfl⟩
    · exact .refl v
  have htrace : ∀ v,
    SameStores v (Steps.after v (extractOrGenerateTraceId env req v).1) := fun v => by
    rw [extractOrGenerateTraceId]
    rcases inboundTraceId req with _ | id
    · exact hmint ..
    · exact .refl v
  exact (hlog w).trans ((htrace _).trans (hmint 8 env.spanNanos _))

/-- **What goes out**: the status of what the routes answered in time, and its body. -/
theorem serve_answer (crates : Crates) (st : AppState) (env : Env) (req : Request) (w : World) :
    (serve crates st env req w).2.status
        = (timeoutLayer env (routes crates st env req) (entered env req w)).2.status ∧
      (serve crates st env req w).2.body = if req.method = "HEAD" then none
        else (timeoutLayer env (routes crates st env req) (entered env req w)).2.body := by
  simp only [serve, stripBody, accessLog, traceLayer, securityHeaders, traceparent, entered,
    Proc.bind_run, Proc.pure_run, Proc.emit_run, after_append, after_cons, after_nil]
  split
  · exact ⟨by simp only [withHeader_status], rfl⟩
  · exact ⟨by simp only [withHeader_status], by simp only [withHeader_status]⟩

/-! ### The gate -/

/-- The bearer check lets the request through. -/
def Admitted (st : AppState) (req : Request) : Prop :=
  ∀ token, st.config.security.interServiceToken = some token →
    presented req ≠ "" ∧ ctEqStr (presented req) token = true

/-- An admitted request goes through the gate. -/
theorem requireBearer_open {st : AppState} {req : Request} {next : Service}
    (h : Admitted st req) : requireBearer st req next = next := by
  rw [requireBearer]
  split
  · rfl
  · rename_i token ht
    obtain ⟨h₁, h₂⟩ := h token ht
    simp [h₁, h₂]

/-- …and any other is answered by it. -/
theorem requireBearer_shut {st : AppState} {req : Request} (next : Service)
    (h : ¬ Admitted st req) :
    ∃ message, requireBearer st req next = pure (unauthorized message) := by
  rw [Admitted] at h
  push Not at h
  obtain ⟨token, ht, h⟩ := h
  rw [requireBearer, ht]
  by_cases h₁ : presented req = ""
  · exact ⟨"missing bearer token", by simp [h₁]⟩
  · exact ⟨"invalid bearer token", by simp [h₁, h h₁]⟩

/-- The request is one a handler answers. -/
def Routed (req : Request) : Handler → Prop
  | .listFiles => req.path = "/v1/files" ∧ (req.method = "GET" ∨ req.method = "HEAD")
  | .copyFile => req.path = "/v1/files/copy" ∧ req.method = "POST"

/-- An answer given at once. -/
def Immediate (p : List (Step World Event) × Response) : Prop :=
  p.1 = [] ∧ p.2.status ∈ [200, 401, 404, 405]

theorem getRoute_immediate {req : Request} {r : Response} (hr : r.status ∈ [200, 401, 404, 405])
    (w : World) : Immediate (getRoute req (pure r) w) := by
  rw [getRoute]
  split
  · exact ⟨rfl, hr⟩
  · exact ⟨rfl, by simp [methodNotAllowed, Response.empty]⟩

theorem openapi_status (st : AppState) : (openapi st).status ∈ [200, 401, 404, 405] := by
  rw [openapi]
  repeat' split
  all_goals simp [Response.empty, Response.json]

/-- A gated route: shut, it answers at once. -/
theorem gated_cases {st : AppState} {req : Request} (next : Service) (w : World) :
    (Immediate (requireBearer st req next w) ∧ ¬ Admitted st req) ∨
      (Admitted st req ∧ requireBearer st req next = next) := by
  by_cases h : Admitted st req
  · exact .inr ⟨h, requireBearer_open h⟩
  · obtain ⟨message, e⟩ := requireBearer_shut next h
    exact .inl ⟨by rw [e]; exact ⟨rfl, by simp [unauthorized, Response.json]⟩, h⟩

/-- **What the routes do**: they answer at once, or a handler does, for a request of its own that
was let through. -/
theorem routes_cases (crates : Crates) (st : AppState) (env : Env) (req : Request) (w : World) :
    Immediate (routes crates st env req w) ∨
      (Routed req .listFiles ∧ Admitted st req ∧
        routes crates st env req w = listService crates st env req w) ∨
      (Routed req .copyFile ∧ Admitted st req ∧
        routes crates st env req w = copyService crates st env req w) := by
  rw [routes]
  split
  · rename_i hp
    rcases gated_cases (getRoute req (listService crates st env req)) w with ⟨h, -⟩ | ⟨ha, e⟩
    · exact .inl h
    · rw [e, getRoute]
      split
      · rename_i hm; exact .inr (.inl ⟨⟨hp, hm⟩, ha, rfl⟩)
      · exact .inl ⟨rfl, by simp [methodNotAllowed, Response.empty]⟩
  · split
    · rename_i hp
      rcases gated_cases (postRoute req (copyService crates st env req)) w
        with ⟨h, -⟩ | ⟨ha, e⟩
      · exact .inl h
      · rw [e, postRoute]
        split
        · rename_i hm; exact .inr (.inr ⟨⟨hp, hm⟩, ha, rfl⟩)
        · exact .inl ⟨rfl, by simp [methodNotAllowed, Response.empty]⟩
    · left
      split
      · exact getRoute_immediate (by simp [root, Response.json]) w
      · split
        · exact getRoute_immediate (by simp [health, Response.json]) w
        · split
          · exact getRoute_immediate (openapi_status st) w
          · split
            · rcases gated_cases (pure (.empty 404)) w with ⟨h, -⟩ | ⟨-, e⟩
              · exact h
              · rw [e]; exact ⟨rfl, by simp [Response.empty]⟩
            · exact ⟨rfl, by simp [Response.empty]⟩

/-- A request for a handler that is let through meets it. -/
theorem routes_of_routed (crates : Crates) {st : AppState} (env : Env) {req : Request} {h : Handler}
    (hr : Routed req h) (ha : Admitted st req) (w : World) :
    ∃ l, (routes crates st env req w).1 = ⟨w, [.handler h]⟩ :: l := by
  cases h with
  | listFiles =>
      obtain ⟨hp, hm⟩ := hr
      rw [routes, if_pos hp, requireBearer_open ha, getRoute, if_pos hm]
      exact ⟨_, rfl⟩
  | copyFile =>
      obtain ⟨hp, hm⟩ := hr
      rw [routes, if_neg (by rw [hp]; decide), if_pos hp, requireBearer_open ha, postRoute,
        if_pos hm]
      exact ⟨_, rfl⟩

/-! ### Responses -/

/-- The response of an error. -/
def FerryError.response (e : FerryError) : Response :=
  .json e.status (.obj [("error", .str e.code), ("message", .str (clipUserMessage e.display))])

/-- What a handler's action leads to: its own answer, or that of an error, which is logged. -/
theorem respond_run {α : Type} (p : Act α) (ok : α → Response) (w : World) :
    (∃ a, (p w).2 = .ok a ∧ respond p ok w = ((p w).1, ok a)) ∨
      ∃ e, (p w).2 = .error e ∧ respond p ok w
        = ((p w).1 ++ [⟨Steps.after w (p w).1, [.log e.record]⟩], e.response) := by
  have hrun : p.run w = p w := rfl
  rw [respond, Proc.bind_run, hrun]
  rcases h : (p w).2 with e | a
  · exact .inr ⟨e, rfl, rfl⟩
  · exact .inl ⟨a, rfl, by simp⟩

/-- `ct_eq_str` is equality. -/
theorem ctEqStr_iff {a b : String} : ctEqStr a b = true ↔ a = b := by
  have hxor : ∀ x y : UInt8, x ^^^ y = 0 ↔ x = y := fun x y => UInt8.xor_eq_zero_iff
  have hct : ∀ l m : List UInt8, ctEq l m = true ↔ l = m := by
    intro l
    induction l with
    | nil =>
        intro m
        cases m with
        | nil => exact ⟨fun _ => rfl, fun _ => rfl⟩
        | cons y m => exact ⟨fun h => (by cases h), fun h => (by cases h)⟩
    | cons x l ih =>
        intro m
        cases m with
        | nil => exact ⟨fun h => (by cases h), fun h => (by cases h)⟩
        | cons y m =>
            have := ih m
            simp only [ctEq, Bool.and_eq_true, beq_iff_eq, List.length_cons, List.zipWith_cons_cons,
              List.all_cons, Nat.add_right_cancel_iff, hxor, List.cons.injEq] at this ⊢
            rw [← this]
            exact ⟨fun ⟨h₁, h₂, h₃⟩ => ⟨h₂, h₁, h₃⟩, fun ⟨h₁, h₂, h₃⟩ => ⟨h₂, h₁, h₃⟩⟩
  rw [ctEqStr]
  split
  · rename_i hl
    exact ⟨fun h => (by cases h), fun h => absurd (by rw [h]) hl⟩
  · rw [hct, Text.bytes_inj]

end FileFerry
