import FileFerry.Results.Handlers

/-!
# Results — Envelope

Failing responses and their bodies.

* `Answer`: how the routes answer, one constructor for each way; `routes_answer`.
* `Bare`: the failing responses that lack an error code or a message, told by the request, the
  configuration and the time left.
* `envelope_iff`: a failing response has both exactly when it is not bare.
-/

namespace FileFerry
open Text Steps

/-- A body with an error code and a message. -/
def Enveloped (r : Response) : Prop :=
  ∃ body code message, r.body = some body ∧ body.text "error" = some code ∧
    body.text "message" = some message

theorem error_enveloped (e : FerryError) : Enveloped e.response := ⟨_, e.code, _, rfl, rfl, rfl⟩

theorem unauthorized_enveloped (message : String) : Enveloped (unauthorized message) :=
  ⟨_, "unauthorized", message, rfl, rfl, rfl⟩

theorem empty_not_enveloped (status : Nat) : ¬ Enveloped (.empty status) := by
  rintro ⟨body, _, _, h, -⟩
  cases h

/-! ### How the routes answer -/

/-- The request is for a route behind the gate. -/
def Gated (crates : Crates) (req : Request) : Prop :=
  req.path = "/v1/files" ∨ req.path = "/v1/files/copy" ∨
    matchedPath req = "<unmatched>" ∧ crates.gatesFallback = true

/-- The gate, where there is one, lets the request through. -/
def Passes (crates : Crates) (st : AppState) (req : Request) : Prop :=
  Gated crates req → Admitted st req

/-- The method is one of the route. -/
def Allowed (req : Request) : Prop :=
  if req.path = "/v1/files/copy" then req.method = "POST"
  else req.method = "GET" ∨ req.method = "HEAD"

/-- The listing the request asks for is accepted, and the store answers it. -/
def Listable (crates : Crates) (st : AppState) (env : Env) (req : Request) (w : World) : Prop :=
  ∃ q b limit files, crates.parseQuery (req.query.getD "") = .ok q ∧
    st.backends.pick q.storageType = .ok b ∧ effectiveLimit q.limit = .ok limit ∧
    (∀ cursor, q.startAfter = some cursor → validatePath cursor = .ok ()) ∧
    (b.list env ⟨some limit, q.startAfter⟩ w).2 = .ok files

theorem listAction_of_listable {crates : Crates} {st : AppState} {env : Env} {req : Request}
    {w : World} (h : Listable crates st env req w) :
    ∃ r, (listAction crates st env req w).2 = .ok r := by
  obtain ⟨q, b, limit, files, hq, hb, hl, hc, hfiles⟩ := h
  rcases hrun : b.list env ⟨some limit, q.startAfter⟩ w with ⟨l, r⟩
  rw [hrun] at hfiles
  subst hfiles
  have hlist : ∀ (nextCursor : List FileEntry → Option String),
      ((b.list env ⟨some limit, q.startAfter⟩ >>= fun files =>
        (pure ⟨files, ⟨files.length, nextCursor files⟩⟩ : Act ListFilesResponse)) w).2
        = .ok ⟨files, ⟨files.length, nextCursor files⟩⟩ := fun nextCursor => by
    rw [Act.bind_ok hrun]; rfl
  refine ⟨listResponse limit files, ?_⟩
  simp only [listAction, typedQuery, hq, Act.pure_bind, listFiles, hb, hl, Act.ofExcept]
  rcases hs : q.startAfter with _ | cursor
  · rw [hs] at hlist
    exact hlist _
  · rw [hs] at hlist
    simp only [hc cursor hs]
    exact hlist _

theorem listable_of_listAction {crates : Crates} {st : AppState} {env : Env} {req : Request}
    {w : World} {r : ListFilesResponse} (h : (listAction crates st env req w).2 = .ok r) :
    Listable crates st env req w := by
  rcases hq : crates.parseQuery (req.query.getD "") with text | q
  · simp only [listAction, typedQuery, hq, Act.fail_bind] at h
    cases h
  · simp only [listAction, typedQuery, hq, Act.pure_bind] at h
    rcases listFiles_cases st env q w with ⟨x, e⟩ | ⟨b, limit, hb, hl, hc, e⟩
    · rw [e] at h; cases h
    · rw [e] at h
      rcases hrun : b.list env ⟨some limit, q.startAfter⟩ w with ⟨l, x | files⟩
      · rw [Act.bind_error hrun] at h; cases h
      · exact ⟨q, b, limit, files, hq, hb, hl, hc, by rw [hrun]⟩

/-- How the routes answer in the world `w`. -/
inductive Answer (crates : Crates) (st : AppState) (env : Env) (req : Request) (w : World) :
    Response → Prop where
  | shut (message : String) : ¬ Passes crates st req →
      Answer crates st env req w (unauthorized message)
  | unmatched : Passes crates st req → matchedPath req = "<unmatched>" →
      Answer crates st env req w (.empty 404)
  | notAllowed : Passes crates st req → matchedPath req ≠ "<unmatched>" → ¬ Allowed req →
      Answer crates st env req w methodNotAllowed
  | banner {r : Response} : req.path = "/" ∨ req.path = "/health" → Passes crates st req →
      Allowed req → r.status = 200 → Answer crates st env req w r
  | api : req.path = "/api" → Passes crates st req → Allowed req →
      Answer crates st env req w (openapi st)
  | listed (r : ListFilesResponse) : req.path = "/v1/files" → Passes crates st req → Allowed req →
      Listable crates st env req w → Answer crates st env req w (.json 200 r.json)
  | unlisted (e : FerryError) : req.path = "/v1/files" → Passes crates st req → Allowed req →
      ¬ Listable crates st env req w → Answer crates st env req w e.response
  | copied : req.path = "/v1/files/copy" → Passes crates st req → Allowed req →
      Answer crates st env req w (.empty 204)
  | uncopied (e : FerryError) : req.path = "/v1/files/copy" → Passes crates st req → Allowed req →
      Answer crates st env req w e.response

theorem gated_answer {crates : Crates} {st : AppState} {env : Env} {req : Request} {w : World}
    {next : Service} (hg : Gated crates req)
    (h : Passes crates st req → Answer crates st env req w (next w).2) :
    Answer crates st env req w (requireBearer st req next w).2 := by
  by_cases ha : Admitted st req
  · rw [requireBearer_open ha]
    exact h fun _ => ha
  · obtain ⟨message, e⟩ := requireBearer_shut next ha
    rw [e]
    exact .shut message fun hp => ha (hp hg)

theorem getRoute_answer {crates : Crates} {st : AppState} {env : Env} {req : Request} {w : World}
    {next : Service} (hp : Passes crates st req) (hm : matchedPath req ≠ "<unmatched>")
    (hpath : req.path ≠ "/v1/files/copy")
    (h : Allowed req → Answer crates st env req w (next w).2) :
    Answer crates st env req w (getRoute req next w).2 := by
  have hiff : Allowed req ↔ req.method = "GET" ∨ req.method = "HEAD" := by
    rw [Allowed, if_neg hpath]
  rw [getRoute]
  split
  · rename_i hmethod
    exact h (hiff.mpr hmethod)
  · rename_i hmethod
    exact .notAllowed hp hm (hiff.not.mpr hmethod)

/-- **How the routes answer.** -/
theorem routes_answer (crates : Crates) (st : AppState) (env : Env) (req : Request) (w : World) :
    Answer crates st env req w (routes crates st env req w).2 := by
  rw [routes]
  split
  · rename_i hpath
    refine gated_answer (.inl hpath) fun hp =>
      getRoute_answer hp (by rw [matchedPath, hpath]; decide)
      (by rw [hpath]; decide) fun ha => ?_
    show Answer crates st env req w
      (respond (listAction crates st env req) (fun r => .json 200 r.json) w).2
    rcases respond_run (listAction crates st env req) (fun r => .json 200 r.json) w with
      ⟨r, hr, e⟩ | ⟨x, hx, e⟩
    · rw [e]; exact .listed r hpath hp ha (listable_of_listAction hr)
    · rw [e]
      refine .unlisted x hpath hp ha fun hl => ?_
      obtain ⟨r, hr⟩ := listAction_of_listable hl
      rw [hx] at hr
      cases hr
  · split
    · rename_i hpath
      refine gated_answer (.inr (.inl hpath)) fun hp => ?_
      have hiff : Allowed req ↔ req.method = "POST" := by rw [Allowed, if_pos hpath]
      rw [postRoute]
      split
      · rename_i hmethod
        show Answer crates st env req w
          (respond (copyAction crates st env req) (fun _ => .empty 204) w).2
        rcases respond_run (copyAction crates st env req) (fun _ => .empty 204) w with
          ⟨r, -, e⟩ | ⟨x, -, e⟩
        · rw [e]; exact .copied hpath hp (hiff.mpr hmethod)
        · rw [e]; exact .uncopied x hpath hp (hiff.mpr hmethod)
      · rename_i hmethod
        exact .notAllowed hp (by rw [matchedPath, hpath]; decide) (hiff.not.mpr hmethod)
    · rename_i h₁ h₂
      -- the open routes: the gate is not in their way
      have hopen : ∀ p, req.path = p → ["/", "/health", "/api"].contains p = true →
          Passes crates st req ∧ matchedPath req ≠ "<unmatched>" := by
        intro p hpath hmem
        have hmatched : matchedPath req ≠ "<unmatched>" := by
          rw [matchedPath, hpath]
          simp only [List.contains_cons, List.contains_nil, Bool.or_false, Bool.or_eq_true,
            beq_iff_eq] at hmem
          rcases hmem with rfl | rfl | rfl <;> decide
        refine ⟨fun hg => ?_, hmatched⟩
        rcases hg with hg | hg | ⟨hg, -⟩
        · exact absurd hg h₁
        · exact absurd hg h₂
        · exact absurd hg hmatched
      split
      · rename_i hpath
        obtain ⟨hp, hm⟩ := hopen _ hpath (by decide)
        exact getRoute_answer hp hm h₂ fun ha => .banner (.inl hpath) hp ha rfl
      · split
        · rename_i hpath
          obtain ⟨hp, hm⟩ := hopen _ hpath (by decide)
          exact getRoute_answer hp hm h₂ fun ha => .banner (.inr hpath) hp ha rfl
        · split
          · rename_i hpath
            obtain ⟨hp, hm⟩ := hopen _ hpath (by decide)
            exact getRoute_answer hp hm h₂ fun ha => .api hpath hp ha
          · rename_i h₃ h₄ h₅
            have hm : matchedPath req = "<unmatched>" := by
              rw [matchedPath, if_neg]
              simp [h₁, h₂, h₃, h₄, h₅]
            split
            · rename_i hgates
              exact gated_answer (.inr (.inr ⟨hm, hgates⟩)) fun hp => .unmatched hp hm
            · rename_i hgates
              refine .unmatched (fun hg => ?_) hm
              rcases hg with hg | hg | ⟨-, hg⟩
              · exact absurd hg h₁
              · exact absurd hg h₂
              · exact absurd hg hgates

/-! ### Bare failures -/

/-- The timer of the request is over while a handler runs. -/
def TimesOut (crates : Crates) (st : AppState) (env : Env) (req : Request) (w : World) : Prop :=
  ∃ k, env.expire = some k ∧ k + 1 < (routes crates st env req w).1.length

/-- A request that does not time out is answered by the routes. -/
theorem timeoutLayer_in_time {crates : Crates} {st : AppState} {env : Env}
    {req : Request} {w : World}
    (hin : ¬ TimesOut crates st env req w) :
    timeoutLayer env (routes crates st env req) w = routes crates st env req w := by
  rcases timeout_cases env.expire (.empty 408) (routes crates st env req) w with e | ⟨k, hk, hlt, -⟩
  · exact e
  · exact absurd ⟨k, hk, hlt⟩ hin

/-- The request, met in the world `w`, is answered with a failure that lacks an error code or a
message, if it is answered in time. -/
def Bare (crates : Crates) (st : AppState) (env : Env) (req : Request) (w : World) : Prop :=
  -- what the gate refuses has both, but its body does not go out to `HEAD`
  (¬ Passes crates st req ∧ req.method = "HEAD") ∨
  -- no route, or not this method
  (Passes crates st req ∧ (matchedPath req = "<unmatched>" ∨ ¬ Allowed req)) ∨
  (Passes crates st req ∧ Allowed req ∧ req.path = "/v1/files" ∧ req.method = "HEAD" ∧
    ¬ Listable crates st env req w) ∨
  -- the document is switched off, and the answer has a code only
  (Passes crates st req ∧ Allowed req ∧ req.path = "/api" ∧
    (st.config.security.adminEnabled = true ∧ st.config.documentationEnabled = false ∨
      req.method = "HEAD" ∧ st.config.security.adminEnabled = false))

/-- The request whose failure has no body on purpose: `GET /api`, not enabled. -/
def Hidden (st : AppState) (req : Request) : Prop :=
  req.method = "GET" ∧ req.path = "/api" ∧ st.config.security.adminEnabled = false

/-- The response goes out with an envelope if it is a failure, but for the hidden one. -/
def Kept (st : AppState) (req : Request) (r : Response) : Prop :=
  400 ≤ r.status → Hidden st req ∨ req.method ≠ "HEAD" ∧ Enveloped r

theorem Hidden.known {st : AppState} {req : Request} (h : Hidden st req) :
    matchedPath req ≠ "<unmatched>" ∧ Allowed req := by
  obtain ⟨hm, hp, -⟩ := h
  refine ⟨by rw [matchedPath, hp]; decide, ?_⟩
  rw [Allowed, if_neg (by rw [hp]; decide)]
  exact .inl hm

theorem Hidden.passes {st : AppState} {req : Request} (crates : Crates) (h : Hidden st req) :
    Passes crates st req := by
  intro hg
  rcases hg with hg | hg | ⟨hg, -⟩
  · rw [h.2.1] at hg; exact absurd hg (by decide)
  · rw [h.2.1] at hg; exact absurd hg (by decide)
  · exact absurd hg h.known.1

/-- **An answer of the routes** keeps the envelope exactly when it is not bare. -/
theorem Answer.kept_iff {crates : Crates} {st : AppState} {env : Env} {req : Request} {w : World}
    {r : Response} (h : Answer crates st env req w r) :
    Kept st req r ↔ ¬ Bare crates st env req w := by
  have hfine : ∀ {r : Response}, r.status < 400 → Kept st req r := fun hs h => by omega
  have hbare : ∀ {r : Response}, 400 ≤ r.status → ¬ Enveloped r → ¬ Hidden st req →
      ¬ Kept st req r := fun hs he hh hk => (hk hs).elim hh fun h => he h.2
  have hsent : ∀ {r : Response}, 400 ≤ r.status → Enveloped r → ¬ Hidden st req →
      (Kept st req r ↔ req.method ≠ "HEAD") := fun hs he hh =>
    ⟨fun hk => (hk hs).elim (fun h => absurd h hh) And.left, fun hm _ => .inr ⟨hm, he⟩⟩
  have hknown : ∀ p, req.path = p → ["/v1/files", "/v1/files/copy", "/", "/health",
    "/api"].contains p
      = true → p ≠ "<unmatched>" → matchedPath req ≠ "<unmatched>" := fun p hp hc hne => by
    rw [matchedPath, hp, if_pos hc]; exact hne
  have hvisible : ∀ p, req.path = p → p ≠ "/api" → ¬ Hidden st req := fun p hp hne h =>
    hne (hp.symm.trans h.2.1)
  cases h with
  | shut message hp =>
      rw [hsent (by simp [unauthorized, Response.json]) (unauthorized_enveloped _)
        fun h => hp (h.passes crates)]
      simp [Bare, hp]
  | unmatched hp hm =>
      have := hbare (r := .empty 404) (by decide) (empty_not_enveloped _) fun h => h.known.1 hm
      simp [Bare, hp, hm, this]
  | notAllowed hp hm ha =>
      have := hbare (r := .empty 405) (by decide) (empty_not_enveloped _) fun h => ha h.known.2
      simp [Bare, hp, ha, methodNotAllowed, this]
  | banner hpath hp ha hr =>
      have := hfine (r := r) (by omega)
      rcases hpath with hpath | hpath
      · have hm := hknown _ hpath (by decide) (by decide)
        simp [Bare, hp, ha, hm, hpath, this]
      · have hm := hknown _ hpath (by decide) (by decide)
        simp [Bare, hp, ha, hm, hpath, this]
  | api hpath hp ha =>
      have hm := hknown _ hpath (by decide) (by decide)
      have hmethod : req.method = "GET" ∨ req.method = "HEAD" := by
        rwa [Allowed, if_neg (by rw [hpath]; decide)] at ha
      rw [openapi]
      cases hadmin : st.config.security.adminEnabled with
      | false =>
          rcases hmethod with hmethod | hmethod
          · have hh : Hidden st req := ⟨hmethod, hpath, hadmin⟩
            simp [Kept, Bare, hp, ha, hm, hpath, hmethod, hadmin, hh]
          · have hh : ¬ Hidden st req := fun h => by
              have := h.1
              rw [hmethod] at this
              exact absurd this (by decide)
            have := hbare (r := .empty 404) (by decide) (empty_not_enveloped _) hh
            simp [Bare, hp, ha, hm, hpath, hmethod, hadmin, this]
      | true =>
          have hh : ¬ Hidden st req := fun h => by
            have := h.2.2
            rw [hadmin] at this
            cases this
          cases hdoc : st.config.documentationEnabled with
          | false =>
              have hcode :
                ¬ Enveloped (.json 404 (.obj [("error", .str "documentation_disabled")])) := by
                rintro ⟨body, _, _, hb, -, h⟩
                obtain rfl := Option.some.inj hb
                cases h
              have := hbare (by decide) hcode hh
              simp [Bare, hp, ha, hm, hpath, hadmin, hdoc, this]
          | true =>
              have := hfine (r := .json 200 (.obj [("openapi", .str "3.1.0"),
                ("info", .obj [("title", .str "FileFerry"), ("version", .str "0.2.2-alpha")])]))
                (by simp [Response.json])
              simp [Bare, hp, ha, hm, hpath, hadmin, hdoc, this]
  | listed r hpath hp ha hl =>
      have := hfine (r := .json 200 r.json) (by simp [Response.json])
      have hm := hknown _ hpath (by decide) (by decide)
      simp [Bare, hp, ha, hm, hpath, hl, this]
  | unlisted e hpath hp ha hl =>
      have hm := hknown _ hpath (by decide) (by decide)
      rw [hsent e.status_error.1 (error_enveloped e) (hvisible _ hpath (by decide))]
      simp [Bare, hp, ha, hm, hpath, hl]
  | copied hpath hp ha =>
      have := hfine (r := .empty 204) (by decide)
      have hm := hknown _ hpath (by decide) (by decide)
      simp [Bare, hp, ha, hm, hpath, this]
  | uncopied e hpath hp ha =>
      have hm := hknown _ hpath (by decide) (by decide)
      have hpost : req.method = "POST" := by rwa [Allowed, if_pos hpath] at ha
      rw [hsent e.status_error.1 (error_enveloped e) (hvisible _ hpath (by decide))]
      simp [Bare, hp, ha, hm, hpath, hpost]

/-- **Every failing response has an error code and a message**, but for the hidden one, exactly when
the request is not timed out and not bare. -/
theorem envelope_iff (crates : Crates) (st : AppState) (env : Env) (req : Request) (w : World) :
    (400 ≤ (serve crates st env req w).2.status →
        Hidden st req ∨ Enveloped (serve crates st env req w).2) ↔
      ¬ TimesOut crates st env req (entered env req w) ∧
      ¬ Bare crates st env req (entered env req w) := by
  obtain ⟨hstatus, hbody⟩ := serve_answer crates st env req w
  have hsent : Enveloped (serve crates st env req w).2 ↔ req.method ≠ "HEAD" ∧
      Enveloped (timeoutLayer env (routes crates st env req) (entered env req w)).2 := by
    by_cases hm : req.method = "HEAD"
    · rw [if_pos hm] at hbody
      refine ⟨fun ⟨_, _, _, h, _⟩ => ?_, fun h => absurd hm h.1⟩
      rw [hbody] at h
      cases h
    · rw [if_neg hm] at hbody
      rw [Enveloped, hbody]
      exact ⟨fun h => ⟨hm, h⟩, And.right⟩
  rw [hstatus, hsent, timeoutLayer]
  by_cases hout : TimesOut crates st env req (entered env req w)
  · obtain ⟨k, hk, hlt⟩ := hout
    rw [timeout_late _ hk hlt]
    refine ⟨fun h => ?_, fun h => absurd ⟨k, hk, hlt⟩ h.1⟩
    rcases h (by simp [Response.empty]) with hh | ⟨-, he⟩
    · -- what is hidden is answered at once
      exfalso
      rcases routes_cases crates st env req (entered env req w) with ⟨hnil, -⟩ | ⟨hr, -⟩ | ⟨hr, -⟩
      · rw [hnil] at hlt; exact absurd hlt (by simp)
      · rw [Routed, hh.2.1] at hr; exact absurd hr.1 (by decide)
      · rw [Routed, hh.2.1] at hr; exact absurd hr.1 (by decide)
    · exact absurd he (empty_not_enveloped _)
  · have e := timeoutLayer_in_time hout
    rw [timeoutLayer] at e
    rw [e]
    exact (routes_answer crates st env req _).kept_iff.trans ⟨fun h => ⟨hout, h⟩, And.right⟩

/-- A request for a route there is not. -/
def strayRequest : Request where
  method := "GET"
  path := "/nope"
  query := none
  version := "HTTP/1.1"
  headers := []
  body := ⟨[], .complete⟩

/-- **A request for a route there is not** is answered with an empty 404. -/
theorem stray_bare :
    (serve .strict ⟨⟨.offline ⟨.fs⟩, none⟩, .default⟩ .calm strayRequest .empty).2.status = 404 ∧
      (serve .strict ⟨⟨.offline ⟨.fs⟩, none⟩, .default⟩ .calm strayRequest .empty).2.body.isNone ∧
      ¬ Hidden ⟨⟨.offline ⟨.fs⟩, none⟩, .default⟩ strayRequest :=
  ⟨by decide, by decide, fun h => absurd h.2.1 (by decide)⟩

end FileFerry
