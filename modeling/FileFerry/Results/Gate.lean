import FileFerry.Results.Handlers

/-!
# Results — Gate

The bearer token, from the environment of the process to the gate of the two routes.

* `handler_iff`: a handler runs exactly for a request of its own that is admitted.
* `presented_of_header`: what the gate takes a header for.
* `token_agrees_iff`: the gate lets in who presents the token, and no one else, exactly when the
  token is one a header can carry as it is.
-/

namespace FileFerry
open Text Steps

variable {crates : Crates} {st : AppState} {env : Env} {req : Request} {w : World}

/-- What a request does, layers and all, ends with what it does under its timeout. -/
theorem serve_trace (crates : Crates) (st : AppState) (env : Env) (req : Request) (w : World) :
    ∃ w' pre post, SameStores w w' ∧ (∀ e ∈ pre ++ post, ∃ r, e = .log r) ∧
      trace (serve crates st env req w).1
        = pre ++ trace (timeoutLayer env (routes crates st env req) w').1 ++ post := by
  obtain ⟨pre, post, hpre, hpost, e, -⟩ :=
    serve_wraps crates st env req (L := fun _ => True) (fun _ _ => trivial) trivial w
  have hlogs : ∀ {v : World} {l : List (Step World Event)}, Idle (fun _ => True) v l →
      ∀ e ∈ trace l, ∃ r, e = .log r := by
    intro v l hl e he
    obtain ⟨s, hs, he⟩ := mem_trace.mp he
    obtain ⟨r, rfl, -⟩ := (hl s hs).2 e he
    exact ⟨r, rfl⟩
  refine ⟨after w pre, trace pre, trace post, hpre.after, fun e he => ?_, by rw [e]; simp⟩
  rcases List.mem_append.mp he with he | he
  · exact hlogs hpre e he
  · exact hlogs hpost e he

/-- Of the events of a request, those that are not log lines are its routes'. -/
theorem mem_serve_trace (crates : Crates) (st : AppState) (env : Env) (req : Request) (w : World)
    {e : Event} (he : ∀ r, e ≠ .log r) :
    ∃ w', SameStores w w' ∧ (e ∈ trace (serve crates st env req w).1 ↔
      e ∈ trace (timeoutLayer env (routes crates st env req) w').1) := by
  obtain ⟨w', pre, post, hs, hlogs, e'⟩ := serve_trace crates st env req w
  refine ⟨w', hs, ?_⟩
  have hno : ∀ l : List Event, (∀ e' ∈ l, ∃ r, e' = .log r) → e ∉ l := by
    intro l hl hm
    obtain ⟨r, hr⟩ := hl _ hm
    exact he r hr
  rw [e', List.mem_append, List.mem_append]
  have hpre := hno pre fun e h => hlogs e (List.mem_append_left _ h)
  have hpost := hno post fun e h => hlogs e (List.mem_append_right _ h)
  exact ⟨fun h => h.elim (fun h => h.elim (fun h => absurd h hpre) id) fun h => absurd h hpost,
    fun h => .inl (.inr h)⟩

/-- An event of a request that is not a log line comes from a handler that ran. -/
theorem routed_of_mem {e : Event}
    (he : e ∈ trace (timeoutLayer env (routes crates st env req) w).1) :
    ∃ h, Routed req h ∧ Admitted st req := by
  have hmem := (trace_isPrefix (timeout_isPrefix env.expire (.empty 408)
    (routes crates st env req) w)).subset he
  rcases routes_cases crates st env req w with ⟨h, -⟩ | ⟨hr, ha, -⟩ | ⟨hr, ha, -⟩
  · rw [h] at hmem; cases hmem
  · exact ⟨_, hr, ha⟩
  · exact ⟨_, hr, ha⟩

theorem handler_of_routed {h : Handler} (hr : Routed req h) (ha : Admitted st req) :
    .handler h ∈ trace (serve crates st env req w).1 := by
  obtain ⟨w', -, e⟩ := mem_serve_trace crates st env req w (e := .handler h) (by simp)
  rw [e]
  obtain ⟨l, hl⟩ := routes_of_routed crates env hr ha w'
  obtain ⟨l', hl'⟩ := timeout_head env.expire (Response.empty 408) hl
  rw [timeoutLayer, hl']
  simp

/-! ### What the gate takes a header for -/

/-- The token presented by a header that reads as text is what follows `Bearer `, trimmed. -/
theorem presented_of_header {v : HeaderValue} {s : String}
    (hv : req.headers.get "authorization" = some v) (hb : v.bytes = bytes ("Bearer " ++ s)) :
    presented req = if v.bytes.all visibleByte then trim s else "" := by
  rw [presented, hv, Option.bind_some]
  split
  · rename_i h
    rw [HeaderValue.toStr_eq_some.mpr ⟨hb, h⟩, Option.getD_some, stripPrefix_eq_some.mpr rfl,
      Option.getD_some]
  · rename_i h
    rw [HeaderValue.toStr, if_neg h]
    decide

/-- Whoever presents a token sent `Bearer ` and a text around it. -/
theorem header_of_presented (h : presented req ≠ "") :
    ∃ v s, req.headers.get "authorization" = some v ∧ v.bytes = bytes ("Bearer " ++ s) ∧
      trim s = presented req := by
  rw [presented] at h ⊢
  rcases hv : req.headers.get "authorization" with _ | v
  · rw [hv] at h; exact absurd (by decide) h
  · rw [hv, Option.bind_some] at h
    rw [Option.bind_some]
    rcases ht : v.toStr with _ | text
    · rw [ht] at h; exact absurd (by decide) h
    · rw [ht, Option.getD_some] at h
      rw [Option.getD_some]
      rcases hs : stripPrefix "Bearer " text with _ | s
      · rw [hs] at h; exact absurd (by decide) h
      · obtain rfl := stripPrefix_eq_some.mp hs
        exact ⟨v, s, rfl, (HeaderValue.toStr_eq_some.mp ht).1, rfl⟩

/-- A token no header can hold, or one that reads as text and is not changed by trimming. -/
def Presentable (token : String) : Prop :=
  (∃ b ∈ bytes token, validByte b = false) ∨
    ((bytes token).all visibleByte = true ∧ trim token = token)

/-- The gate lets in only who presents the token. -/
theorem token_of_handler {h : Handler} {token : String}
    (ht : st.config.security.interServiceToken = some token)
    (hh : .handler h ∈ trace (serve crates st env req w).1) :
    ∃ v s, req.headers.get "authorization" = some v ∧ v.bytes = bytes ("Bearer " ++ s) ∧
      trim s = token := by
  obtain ⟨w', -, e⟩ := mem_serve_trace crates st env req w (e := .handler h) (by simp)
  obtain ⟨_, -, ha⟩ := routed_of_mem (e.mp hh)
  obtain ⟨h₁, h₂⟩ := ha token ht
  obtain ⟨v, s, hv, hb, hs⟩ := header_of_presented h₁
  exact ⟨v, s, hv, hb, hs.trans (ctEqStr_iff.mp h₂)⟩

/-- A token that a header holds as text and that trimming leaves is let in. -/
theorem admitted_of_header {token : String} {v : HeaderValue}
    (ht : st.config.security.interServiceToken = some token) (hne : token ≠ "")
    (hvis : (bytes token).all visibleByte = true) (htrim : trim token = token)
    (hv : req.headers.get "authorization" = some v) (hb : v.bytes = bytes ("Bearer " ++ token)) :
    Admitted st req := by
  have hall : v.bytes.all visibleByte = true := by
    rw [hb, bytes_append, List.all_append, hvis, Bool.and_true]
    decide
  have hp : presented req = token := by rw [presented_of_header hv hb, if_pos hall, htrim]
  intro token' ht'
  rw [ht, Option.some.injEq] at ht'
  subst ht'
  rw [hp]
  exact ⟨hne, ctEqStr_iff.mpr rfl⟩

/-- The request that presents a token a header can hold. -/
def presentingRequest (token : String) (h : (bytes token).all validByte = true) : Request where
  method := "GET"
  path := "/v1/files"
  query := some "type=FS"
  version := "HTTP/1.1"
  headers := [("authorization", ⟨bytes ("Bearer " ++ token), by
    rw [bytes_append, List.all_append, h, Bool.and_true]; decide⟩)]
  body := ⟨[], .complete⟩

/-- **The gate and the configured token agree** on every request exactly when the token is
presentable. -/
theorem token_agrees_iff {vars : Vars} {y : AppConfigYaml} {cfg : AppConfig} {token : String}
    (hcfg : fromYaml vars y = .ok cfg) (ht : cfg.security.interServiceToken = some token) :
    ((∀ (crates : Crates) (backends : Backends) (env : Env) (req : Request) (w : World)
        (h : Handler), .handler h ∈ trace (serve crates ⟨backends, cfg⟩ env req w).1 →
        ∃ v s, req.headers.get "authorization" = some v ∧ v.bytes = bytes ("Bearer " ++ s) ∧
          trim s = token) ∧
      ∀ (crates : Crates) (backends : Backends) (env : Env) (req : Request) (w : World)
        (h : Handler) (v : HeaderValue), Routed req h →
        req.headers.get "authorization" = some v → v.bytes = bytes ("Bearer " ++ token) →
        .handler h ∈ trace (serve crates ⟨backends, cfg⟩ env req w).1) ↔ Presentable token := by
  obtain ⟨hne, -⟩ := token_of_fromYaml hcfg ht
  constructor
  · rintro ⟨-, hcomplete⟩
    by_cases hvalid : (bytes token).all validByte = true
    · -- a request can present this token, so it is let in, and the gate takes it for the token
      set req := presentingRequest token hvalid with hreq
      obtain ⟨v, hv, hb⟩ : ∃ v, req.headers.get "authorization" = some v ∧
          v.bytes = bytes ("Bearer " ++ token) := ⟨_, rfl, rfl⟩
      have hrun := hcomplete .strict ⟨.offline ⟨.fs⟩, none⟩ .calm req .empty .listFiles v
        ⟨rfl, .inl rfl⟩ hv hb
      obtain ⟨_, -, e⟩ := mem_serve_trace .strict ⟨⟨.offline ⟨.fs⟩, none⟩, cfg⟩ .calm req .empty
        (e := .handler .listFiles) (by simp)
      obtain ⟨_, -, ha⟩ := routed_of_mem (e.mp hrun)
      obtain ⟨hp, heq⟩ := ha token ht
      rw [presented_of_header hv hb] at hp heq
      by_cases hall : v.bytes.all visibleByte = true
      · rw [if_pos hall] at heq
        rw [hb, bytes_append, List.all_append, Bool.and_eq_true] at hall
        exact .inr ⟨hall.2, ctEqStr_iff.mp heq⟩
      · rw [if_neg hall] at hp
        exact absurd rfl hp
    · rw [List.all_eq_true] at hvalid
      push Not at hvalid
      obtain ⟨b, hb, hv⟩ := hvalid
      exact .inl ⟨b, hb, by simpa using hv⟩
  · intro hpres
    refine ⟨fun crates backends env req w h => token_of_handler ht, ?_⟩
    intro crates backends env req w h v hr hv hb
    rcases hpres with ⟨b, hmem, hbad⟩ | ⟨hvis, htrim⟩
    · have := List.all_eq_true.mp v.valid b (by rw [hb, bytes_append]; simp [hmem])
      rw [hbad] at this
      cases this
    · exact handler_of_routed hr (admitted_of_header ht hne hvis htrim hv hb)

/-- A document that names the variable of the token. -/
def tokenDocument : AppConfigYaml :=
  ⟨none, none, none, none, none, none, some ⟨some "FERRY_TOKEN", none⟩⟩

/-- The configuration it gives. -/
def tokenConfig (token : String) : AppConfig :=
  { AppConfig.default with security := ⟨some token, false, false⟩ }

theorem tokenConfig_of_document {token : String} (h : token ≠ "") :
    fromYaml (fun name => if name = "FERRY_TOKEN" then some token else none) tokenDocument
      = .ok (tokenConfig token) := by
  have hadmin : adminEnabledFromEnv
      (fun name => if name = "FERRY_TOKEN" then some token else none) = false := rfl
  have henv : requireEnv (fun name => if name = "FERRY_TOKEN" then some token else none)
      "FERRY_TOKEN" = .ok token := by rw [require_iff]; exact ⟨rfl, h⟩
  have hs : securityFromYaml (fun name => if name = "FERRY_TOKEN" then some token else none)
      tokenDocument.security = .ok ⟨some token, false, false⟩ := by
    rw [tokenDocument, securityFromYaml, tokenFromYaml, if_pos (by decide), henv, hadmin]
    rfl
  rw [fromYaml, hs]
  rfl

/-- A token of visible text agrees with the gate. -/
theorem token_agrees_plain :
    Presentable "s3cret" ∧
      ∀ (crates : Crates) (backends : Backends) (env : Env) (req : Request) (w : World)
        (h : Handler) (v : HeaderValue), Routed req h →
        req.headers.get "authorization" = some v → v.bytes = bytes ("Bearer " ++ "s3cret") →
        .handler h ∈ trace (serve crates ⟨backends, tokenConfig "s3cret"⟩ env req w).1 := by
  have hp : Presentable "s3cret" := .inr (by decide)
  exact ⟨hp, ((token_agrees_iff (tokenConfig_of_document (by decide)) rfl).mpr hp).2⟩

/-- **A token with a blank before it** starts the process, and locks out who presents it. -/
theorem padded_token_locks_out :
    fromYaml (fun name => if name = "FERRY_TOKEN" then some " s3cret" else none) tokenDocument
        = .ok (tokenConfig " s3cret") ∧
      ∃ req v, Routed req .listFiles ∧ req.headers.get "authorization" = some v ∧
        v.bytes = bytes ("Bearer " ++ " s3cret") ∧
        ∀ (crates : Crates) (backends : Backends) (env : Env) (w : World) (h : Handler),
          .handler h ∉ trace (serve crates ⟨backends, tokenConfig " s3cret"⟩ env req w).1 := by
  refine ⟨tokenConfig_of_document (by decide), presentingRequest " s3cret" (by decide), _,
    ⟨rfl, .inl rfl⟩, rfl, rfl, fun crates backends env w h hh => ?_⟩
  obtain ⟨v, s, hv, hb, hs⟩ := token_of_handler rfl hh
  obtain rfl := Option.some.inj hv
  rw [bytes_inj, String.append_right_inj] at hb
  subst hb
  exact absurd hs (by decide)

end FileFerry
