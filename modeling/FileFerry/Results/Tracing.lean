import FileFerry.Results.Handlers

/-!
# Results — Tracing

The trace identifiers of one request: in its access-log line and in the two headers of its response.

* `HexText`: a text of hexadecimal digits, which a header holds as it is.
* `accessIds_eq`: there is one access-log line, and its identifier is that of `extract_trace_id`.
* `responseIds_eq`: the two headers have the identifier of `extract_or_generate_trace_id`.
* `trace_ids`: how the three are related.
-/

namespace FileFerry
open Text Steps

/-! ### Hexadecimal texts -/

/-- Hexadecimal digits only. -/
def HexText (s : String) : Prop := ∀ c ∈ s.toList, isAsciiHexdigit c = true

theorem hexdigit_lt {c : Char} (h : isAsciiHexdigit c = true) : c.toNat < 128 := by
  simp only [isAsciiHexdigit, Bool.or_eq_true, Bool.and_eq_true, decide_eq_true_eq, Char.le_def,
    UInt32.le_iff_toNat_le] at h
  have hval : c.toNat = c.val.toNat := rfl
  rw [hval]
  rcases h with (⟨-, h⟩ | ⟨-, h⟩) | ⟨-, h⟩
  all_goals exact lt_of_le_of_lt h (by decide)

theorem hexdigit_visible {c : Char} (h : isAsciiHexdigit c = true) :
    (String.utf8EncodeChar c).all visibleByte = true ∧ c ≠ '-' ∧
    isAsciiHexdigit c.toLower = true := by
  have hall : ∀ n : Fin 128, isAsciiHexdigit (Char.ofNat n.val) = true →
      (String.utf8EncodeChar (Char.ofNat n.val)).all visibleByte = true ∧ Char.ofNat n.val ≠ '-' ∧
        isAsciiHexdigit (Char.ofNat n.val).toLower = true := by decide
  have hc := hall ⟨c.toNat, hexdigit_lt h⟩
  simp only [Char.ofNat_toNat] at hc
  exact hc h

/-- Such a text can be the value of a header. -/
theorem HexText.visible {s : String} (h : HexText s) : (bytes s).all visibleByte = true := by
  rw [bytes_eq_flatMap, List.all_flatMap, List.all_eq_true]
  exact fun c hc => (hexdigit_visible (h c hc)).1

theorem HexText.no_dash {s : String} (h : HexText s) : '-' ∉ s.toList :=
  fun hm => (hexdigit_visible (h _ hm)).2.1 rfl

theorem HexText.lower {s : String} (h : HexText s) : HexText (toAsciiLowercase s) := by
  intro c hc
  rw [toAsciiLowercase, String.toList_ofList, List.mem_map] at hc
  obtain ⟨c, hc, rfl⟩ := hc
  exact (hexdigit_visible (h c hc)).2.2

theorem isAsciiHexdigit_hexDigit (n : Nat) : isAsciiHexdigit (hexDigit (n % 16)) = true := by
  have hall : ∀ k : Fin 16, isAsciiHexdigit (hexDigit k.val) = true := by decide
  exact hall ⟨n % 16, Nat.mod_lt _ (by decide)⟩

theorem hexdigit_of_mem_hex {c : Char} : ∀ {w n : Nat}, c ∈ hex w n → isAsciiHexdigit c = true
  | 0, _, h => by cases h
  | w + 1, n, h => by
      rw [hex, List.mem_append, List.mem_singleton] at h
      rcases h with h | rfl
      · exact hexdigit_of_mem_hex h
      · exact isAsciiHexdigit_hexDigit n

/-- Bytes are written in such digits… -/
theorem hexText_hexText (l : List UInt8) : HexText (hexText l) := by
  intro c hc
  rw [hexText, String.toList_ofList, List.mem_flatMap] at hc
  obtain ⟨b, -, hc⟩ := hc
  exact hexdigit_of_mem_hex hc

theorem length_drawBytes : ∀ (n : Nat) (state : UInt64), (drawBytes n state).length = n
  | 0, _ => rfl
  | n + 1, state => by rw [drawBytes, List.length_cons, length_drawBytes n]

/-- …two for each. -/
theorem length_hexText (l : List UInt8) : (hexText l).toList.length = 2 * l.length := by
  rw [hexText, String.toList_ofList, List.length_flatMap]
  simp only [length_hex, List.map_const', List.sum_replicate, smul_eq_mul]
  omega

theorem inboundTraceId_hex {req : Request} {id : String} (h : inboundTraceId req = some id) :
    HexText id := by
  rw [inboundTraceId] at h
  split at h
  · cases h
  · split at h
    · split at h
      · rename_i hid
        obtain rfl := Option.some.inj h
        exact fun c hc => List.all_eq_true.mp hid.2 c hc
      · cases h
    · cases h

/-! ### The headers -/

/-- The text of a header. -/
def headerText (r : Response) (name : String) : Option String :=
  (r.headers.get name).bind HeaderValue.toStr

/-- The second of the fields between dashes. -/
def secondField (s : String) : Option String := ((s.toList.splitOn '-').map String.ofList)[1]?

/-- The fields between dashes. -/
def fields (s : String) : List String := (s.toList.splitOn '-').map String.ofList

theorem secondField_fields (s : String) : secondField s = (fields s)[1]? := rfl

/-- Four parts without a dash are the fields of what they are joined to. -/
theorem fields_eq {a b c d : String} (ha : '-' ∉ a.toList) (hb : '-' ∉ b.toList)
    (hc : '-' ∉ c.toList) (hd : '-' ∉ d.toList) :
    fields (a ++ "-" ++ b ++ "-" ++ c ++ "-" ++ d) = [a, b, c, d] := by
  have hsplit : (a ++ "-" ++ b ++ "-" ++ c ++ "-" ++ d).toList.splitOn '-'
      = [a.toList, b.toList, c.toList, d.toList] := by
    have hdash : ∀ l ∈ [a.toList, b.toList, c.toList, d.toList], '-' ∉ l := by
      simp [ha, hb, hc, hd]
    rw [← List.splitOn_intercalate '-' hdash (by simp)]
    simp [List.intercalate, List.intersperse]
  rw [fields, hsplit]
  simp only [List.map_cons, List.map_nil, String.ofList_toList]

/-- A text is its fields, with a dash between them. -/
theorem eq_of_fields {s a b c d : String} (h : fields s = [a, b, c, d]) :
    s = a ++ "-" ++ b ++ "-" ++ c ++ "-" ++ d := by
  have hlists : s.toList.splitOn '-' = [a.toList, b.toList, c.toList, d.toList] := by
    have hmap := congrArg (List.map String.toList) h
    rw [fields, List.map_map] at hmap
    simpa [Function.comp_def] using hmap
  have hjoin : List.intercalate ['-'] (s.toList.splitOn '-') = s.toList :=
    List.intercalate_splitOn '-'
  rw [hlists] at hjoin
  rw [← String.toList_inj, ← hjoin]
  simp [List.intercalate, List.intersperse]

/-- A visible text goes into a header as it is. -/
theorem withHeader_visible (r : Response) (name : String) {text : String}
    (h : (bytes text).all visibleByte = true) :
    ∃ v, r.withHeader name text = { r with headers := r.headers.insert name v } ∧
      v.toStr = some text := by
  have hvalid : (bytes text).all validByte = true := by
    refine List.all_eq_true.mpr fun b hb => ?_
    have hv := List.all_eq_true.mp h b hb
    simp only [visibleByte, validByte, Bool.or_eq_true, Bool.and_eq_true, decide_eq_true_eq,
      beq_iff_eq, bne_iff_ne, ne_eq] at hv ⊢
    rcases hv with ⟨h₁, h₂⟩ | rfl
    · exact .inl ⟨h₁, fun e => by rw [e] at h₂; exact absurd h₂ (by decide)⟩
    · exact .inr rfl
  refine ⟨⟨bytes text, hvalid⟩, ?_, HeaderValue.toStr_eq_some.mpr ⟨rfl, h⟩⟩
  rw [Response.withHeader, HeaderValue.fromStr, dif_pos hvalid]

/-- The security headers leave the others alone. -/
theorem get_securityDefaults (m : HeaderMap) {name : String}
    (h : ∀ p ∈ securityDefaults, name ≠ p.1) :
    (securityDefaults.foldl (fun h p => HeaderMap.orInsert h p.1 p.2) m).get name = m.get name := by
  generalize securityDefaults = l at h
  induction l generalizing m with
  | nil => rfl
  | cons p l ih =>
      rw [List.foldl_cons, ih _ fun q hq => h q (List.mem_cons_of_mem _ hq),
        HeaderMap.get_orInsert_ne _ _ (h p List.mem_cons_self)]

/-- The identifier of the response, and that of its span. -/
def responseId (env : Env) (req : Request) (w : World) : String :=
  (extractOrGenerateTraceId env req (after w (extractTraceId env req w).1)).2

theorem responseId_hex (env : Env) (req : Request) (w : World) :
    HexText (responseId env req w) := by
  rw [responseId]
  rcases h : inboundTraceId req with _ | id
  · simp only [extractOrGenerateTraceId, h]
    exact hexText_hexText _
  · simp only [extractOrGenerateTraceId, h]
    exact (inboundTraceId_hex h).lower

/-- The identifier of the response's span. -/
def spanId (env : Env) (req : Request) (w : World) : String :=
  let v := after w (extractTraceId env req w).1
  (mint 8 env.spanNanos (after v (extractOrGenerateTraceId env req v).1)).2

theorem spanId_hex (env : Env) (req : Request) (w : World) : HexText (spanId env req w) :=
  hexText_hexText _

/-- **The two headers** of a response. -/
theorem traceHeaders_eq (crates : Crates) (st : AppState) (env : Env) (req : Request) (w : World) :
    headerText (serve crates st env req w).2 "x-trace-id" = some (responseId env req w) ∧
      headerText (serve crates st env req w).2 "traceparent"
        = some ("00-" ++ responseId env req w ++ "-" ++ spanId env req w ++ "-01") := by
  obtain ⟨inner, hserve⟩ : ∃ inner, (serve crates st env req w).2.headers
      = securityDefaults.foldl (fun h p => HeaderMap.orInsert h p.1 p.2)
        ((Response.withHeader inner "traceparent"
          ("00-" ++ responseId env req w ++ "-" ++ spanId env req w ++ "-01")).withHeader
            "x-trace-id"
            (responseId env req w)).headers := by
    refine ⟨(timeoutLayer env (routes crates st env req) (entered env req w)).2, ?_⟩
    simp only [serve, stripBody, accessLog, traceLayer, securityHeaders, traceparent, entered,
      responseId, spanId, Proc.bind_run, Proc.pure_run, Proc.emit_run, after_append, after_cons,
      after_nil]
    split
    · rfl
    · rfl
  have hid := responseId_hex env req w
  have hspan := spanId_hex env req w
  generalize responseId env req w = id at hserve hid ⊢
  generalize spanId env req w = span at hserve hspan ⊢
  have hvisible : (bytes ("00-" ++ id ++ "-" ++ span ++ "-01")).all visibleByte = true := by
    simp only [bytes_append, List.all_append, hid.visible, hspan.visible, Bool.and_true]
    decide
  obtain ⟨v, e, hv⟩ := withHeader_visible inner "traceparent" hvisible
  obtain ⟨v', e', hv'⟩ := withHeader_visible
    (Response.withHeader inner "traceparent" ("00-" ++ id ++ "-" ++ span ++ "-01")) "x-trace-id"
    hid.visible
  rw [e', e] at hserve
  constructor
  · rw [headerText, hserve, get_securityDefaults _ (by decide), HeaderMap.get_insert,
      Option.bind_some,
      hv']
  · rw [headerText, hserve, get_securityDefaults _ (by decide),
      HeaderMap.get_insert_ne _ _ (by decide), HeaderMap.get_insert, Option.bind_some, hv]

/-- **The two headers** have the identifier of the response. -/
theorem responseIds_eq (crates : Crates) (st : AppState) (env : Env) (req : Request) (w : World) :
    headerText (serve crates st env req w).2 "x-trace-id" = some (responseId env req w) ∧
      (headerText (serve crates st env req w).2 "traceparent").bind secondField
        = some (responseId env req w) := by
  obtain ⟨hid, hparent⟩ := traceHeaders_eq crates st env req w
  refine ⟨hid, ?_⟩
  have hfields := fields_eq (a := "00") (d := "01") (by decide) (responseId_hex env req w).no_dash
    (spanId_hex env req w).no_dash (by decide)
  have htext : "00-" ++ responseId env req w ++ "-" ++ spanId env req w ++ "-01"
      = "00" ++ "-" ++ responseId env req w ++ "-" ++ spanId env req w ++ "-" ++ "01" := by
    simp only [String.append_assoc]
    rfl
  rw [hparent, Option.bind_some, htext, secondField_fields, hfields]
  rfl

/-! ### The access log -/

/-- The identifiers in the access-log lines of an event. -/
def Event.accessIds : Event → List String
  | .log r =>
    if r.target = "fileferry::access_log" then
      (r.fields.filter fun f => f.name = "trace_id").map Field.value
    else []
  | _ => []

/-- The identifiers in the access-log lines of a request. -/
def accessIds (p : List (Step World Event) × Response) : List String :=
  (trace p.1).flatMap Event.accessIds

/-- No other record is an access-log line. -/
theorem logged_elsewhere (crates : Crates) (env : Env) :
    Logged (fun e => e.accessIds = []) crates env where
  other e he := by
    cases e with
    | log r => exact absurd rfl (he r)
    | _ => rfl
  refusal path message more _ := by
    simp [Event.accessIds, FsBackend.refusal, FsBackend.fsTarget]
  transfer src dst srcPath dstPath total := by
    rw [Event.accessIds, if_neg]
    simp [transferCompleted]
  error e := by
    rw [Event.accessIds, if_neg]
    cases e <;> simp [FerryError.record, FerryError.status]

/-- **There is one access-log line**, with the identifier of `extract_trace_id`. -/
theorem accessIds_eq (crates : Crates) (st : AppState) (env : Env) (req : Request) (w : World) :
    accessIds (serve crates st env req w) = [(extractTraceId env req w).2] := by
  have hmint : trace (extractTraceId env req w).1 = [] := by
    rcases h : inboundTraceId req with _ | id
    · simp only [extractTraceId, h]; rfl
    · simp only [extractTraceId, h]; rfl
  have hmint' : ∀ v, trace (extractOrGenerateTraceId env req v).1 = [] := fun v => by
    rcases h : inboundTraceId req with _ | id
    · simp only [extractOrGenerateTraceId, h]; rfl
    · simp only [extractOrGenerateTraceId, h]; rfl
  have hroutes : ∀ v, (trace (timeoutLayer env (routes crates st env req) v).1).flatMap
      Event.accessIds = [] := fun v => List.flatMap_eq_nil_iff.mpr fun e he =>
    routes_logged (logged_elsewhere crates env) st req v
      ((trace_isPrefix (timeout_isPrefix _ _ _ _)).subset he)
  have hlines : ∀ r : Response, ((responseRecords r).map Event.log).flatMap Event.accessIds
    = [] := by
    intro r
    rw [responseRecords]
    split
    · rfl
    · rfl
  simp only [accessIds, serve, stripBody, accessLog, traceLayer, securityHeaders, traceparent,
    Proc.bind_run, Proc.pure_run, Proc.emit_run, Proc.step_run, hlines, after_append, after_cons,
      after_nil, trace_append,
    trace_cons, trace_nil, hmint, hmint', List.nil_append, List.append_nil, List.flatMap_append,
    hroutes]
  rfl

/-! ### One request -/

/-- The id that was taken over is sent on in small letters, and logged as it came. -/
theorem inbound_ids (env : Env) {req : Request} {inbound : String} (w : World)
    (h : inboundTraceId req = some inbound) :
    responseId env req w = toAsciiLowercase inbound ∧ (extractTraceId env req w).2 = inbound := by
  simp only [responseId, extractOrGenerateTraceId, extractTraceId, h]
  exact ⟨rfl, rfl⟩

/-- The two identifiers a request draws that comes without one: 32 digits from a reading of the
clock and the count of the trace, and 16 from another and the count of the log.  Both counts are
taken. -/
structure OwnIds (env : Env) (req : Request) (w : World) (id own : String) : Prop where
  drawn : id = hexText (randomBytes 16 env.traceNanos w.traceCounter)
  logged : own = String.ofList (hex 16 (env.logNanos + w.logCounter).toNat)
  digits : HexText id ∧ HexText own
  lengths : id.toList.length = 32 ∧ own.toList.length = 16
  counted : (entered env req w).traceCounter = w.traceCounter + 1 + 1 ∧
    (entered env req w).logCounter = w.logCounter + 1

/-- Without one the ids are minted. -/
theorem own_ids (env : Env) {req : Request} (w : World) (h : inboundTraceId req = none) :
    OwnIds env req w (responseId env req w) (extractTraceId env req w).2 := by
  have hid : responseId env req w = hexText (randomBytes 16 env.traceNanos w.traceCounter) := by
    simp only [responseId, extractOrGenerateTraceId, extractTraceId, h]
    rfl
  have hown : (extractTraceId env req w).2
      = String.ofList (hex 16 (env.logNanos + w.logCounter).toNat) := by
    simp only [extractTraceId, h]
    rfl
  refine ⟨hid, hown, ⟨responseId_hex env req w, fun c hc => ?_⟩, ⟨?_, ?_⟩, ?_⟩
  · rw [hown, String.toList_ofList] at hc
    exact hexdigit_of_mem_hex hc
  · rw [hid, length_hexText, randomBytes, length_drawBytes]
  · rw [hown, String.toList_ofList, length_hex]
  · simp only [entered, extractOrGenerateTraceId, extractTraceId, h]
    exact ⟨rfl, rfl⟩

/-- **The trace identifiers of a request.**  The two headers always have one.  An inbound one in
lower case is theirs and the access log's; without one, theirs is minted with 32 digits, and the
access log has one of its own, of 16. -/
theorem trace_ids (crates : Crates) (st : AppState) (env : Env) (req : Request) (w : World) :
    ∃ id, headerText (serve crates st env req w).2 "x-trace-id" = some id ∧
      (headerText (serve crates st env req w).2 "traceparent").bind secondField = some id ∧
      (∀ inbound, inboundTraceId req = some inbound → id = toAsciiLowercase inbound ∧
        (toAsciiLowercase inbound = inbound → accessIds (serve crates st env req w) = [id])) ∧
      (inboundTraceId req = none →
        ∃ own, accessIds (serve crates st env req w) = [own] ∧ OwnIds env req w id own) := by
  obtain ⟨hid, hfield⟩ := responseIds_eq crates st env req w
  refine ⟨_, hid, hfield, fun inbound h => ?_, fun h => ?_⟩
  · obtain ⟨hresponse, hlog⟩ := inbound_ids env w h
    refine ⟨hresponse, fun hlower => ?_⟩
    rw [accessIds_eq, hlog, hresponse, hlower]
  · exact ⟨_, accessIds_eq crates st env req w, own_ids env w h⟩

/-- A request that comes without an identifier. -/
def untracedRequest : Request where
  method := "GET"
  path := "/health"
  query := none
  version := "HTTP/1.1"
  headers := []
  body := ⟨[], .complete⟩

/-- **A request without an inbound identifier** has one in its headers and another in the log. -/
theorem untraced_ids_differ :
    accessIds (serve .strict ⟨⟨.offline ⟨.fs⟩, none⟩, .default⟩ .calm untracedRequest .empty)
      ≠ (headerText (serve .strict ⟨⟨.offline ⟨.fs⟩, none⟩, .default⟩ .calm untracedRequest
          .empty).2 "x-trace-id").toList := by
  obtain ⟨hid, -⟩ := responseIds_eq .strict ⟨⟨.offline ⟨.fs⟩, none⟩, .default⟩ .calm untracedRequest
    .empty
  obtain ⟨hresponse, hlog⟩ := (own_ids .calm (.empty : World)
    (rfl : inboundTraceId untracedRequest = none)).lengths
  rw [hid, accessIds_eq]
  intro e
  rw [Option.toList_some, List.cons.injEq] at e
  rw [e.1, hresponse] at hlog
  cases hlog

end FileFerry
