import FileFerry.Results.Tracing

/-!
# Results — Grammar

Which `traceparent` of a request is taken over.

* `Documented s id`: the text has the shape `00-<32 hex>-<16 hex>-<2 hex>`, and `id` is its second
  field.
* `inboundTraceId_iff`: what is taken over is the second of four fields, of whatever shape the
  others are.
* `grammar_iff`: so the shape is what decides exactly when no other field is looked at in vain.
-/

namespace FileFerry
open Text Steps

/-! ### Hexadecimal fields -/

/-- `n` hexadecimal digits. -/
def HexField (n : Nat) (s : String) : Prop := s.toList.length = n ∧ HexText s

/-- `n` of them, in lower case. -/
def LowerHex (n : Nat) (s : String) : Prop :=
  s.toList.length = n ∧ ∀ c ∈ s.toList, ('0' ≤ c ∧ c ≤ '9') ∨ ('a' ≤ c ∧ c ≤ 'f')

theorem hexdigit_lower {c : Char} (h : isAsciiHexdigit c = true) :
    (String.utf8EncodeChar c).length = 1 ∧
      (('0' ≤ c.toLower ∧ c.toLower ≤ '9') ∨ ('a' ≤ c.toLower ∧ c.toLower ≤ 'f')) := by
  have hall : ∀ n : Fin 128, isAsciiHexdigit (Char.ofNat n.val) = true →
      (String.utf8EncodeChar (Char.ofNat n.val)).length = 1 ∧
        (('0' ≤ (Char.ofNat n.val).toLower ∧ (Char.ofNat n.val).toLower ≤ '9') ∨
          ('a' ≤ (Char.ofNat n.val).toLower ∧ (Char.ofNat n.val).toLower ≤ 'f')) := by decide
  have hc := hall ⟨c.toNat, hexdigit_lt h⟩
  simp only [Char.ofNat_toNat] at hc
  exact hc h

/-- A hexadecimal text has one byte for each digit. -/
theorem HexText.length_bytes {s : String} (h : HexText s) : (bytes s).length = s.toList.length := by
  rw [bytes_eq_flatMap, List.length_flatMap]
  have hone : s.toList.map (fun c => (String.utf8EncodeChar c).length) = s.toList.map fun _ => 1 :=
    List.map_congr_left fun c hc => (hexdigit_lower (h c hc)).1
  rw [hone]
  simp

theorem HexField.lower {n : Nat} {s : String} (h : HexField n s) :
    LowerHex n (toAsciiLowercase s) := by
  rw [LowerHex, toAsciiLowercase, String.toList_ofList, List.length_map]
  refine ⟨h.1, fun c hc => ?_⟩
  obtain ⟨d, hd, rfl⟩ := List.mem_map.mp hc
  exact (hexdigit_lower (h.2 d hd)).2

theorem lower_of_mem_hex {c : Char} : ∀ {w n : Nat}, c ∈ hex w n →
    ('0' ≤ c ∧ c ≤ '9') ∨ ('a' ≤ c ∧ c ≤ 'f')
  | 0, _, h => by cases h
  | w + 1, n, h => by
      have hall : ∀ k : Fin 16, ('0' ≤ hexDigit k.val ∧ hexDigit k.val ≤ '9') ∨
          ('a' ≤ hexDigit k.val ∧ hexDigit k.val ≤ 'f') := by decide
      rw [hex, List.mem_append, List.mem_singleton] at h
      rcases h with h | rfl
      · exact lower_of_mem_hex h
      · exact hall ⟨n % 16, Nat.mod_lt _ (by decide)⟩

/-- What is minted from `n` bytes. -/
theorem mint_lower (n : Nat) (nanos : UInt64) (w : World) : LowerHex (2 * n)
    (mint n nanos w).2 := by
  simp only [mint, Proc.bind_run, Proc.pure_run]
  rw [LowerHex, length_hexText, randomBytes, length_drawBytes]
  refine ⟨rfl, fun c hc => ?_⟩
  rw [hexText, String.toList_ofList, List.mem_flatMap] at hc
  obtain ⟨b, -, hc⟩ := hc
  exact lower_of_mem_hex hc

/-! ### What is taken over -/

/-- The `traceparent` of a request, when it is text. -/
def traceparentText (req : Request) : Option String :=
  (req.headers.get "traceparent").bind HeaderValue.toStr

/-- **The code's own test**: four fields, of which the second is looked at. -/
theorem inboundTraceId_iff {req : Request} {id : String} : inboundTraceId req = some id ↔
    ∃ s version span flags, traceparentText req = some s ∧ fields s = [version, id, span, flags] ∧
      HexField 32 id := by
  rw [inboundTraceId, ← traceparentText]
  rcases traceparentText req with _ | s
  · constructor
    · intro h
      cases h
    · rintro ⟨s, version, span, flags, h, -⟩
      cases h
  constructor
  · intro h
    dsimp only at h
    split at h
    · rename_i version id' span flags hfields
      split at h
      · rename_i hid
        obtain rfl := Option.some.inj h
        have hhex : HexText id' := fun c hc => List.all_eq_true.mp hid.2 c hc
        exact ⟨s, version, span, flags, rfl, hfields, hhex.length_bytes ▸ hid.1, hhex⟩
      · cases h
    · cases h
  · rintro ⟨s', version, span, flags, hs, hfields, hlen, hhex⟩
    obtain rfl := Option.some.inj hs
    rw [fields] at hfields
    simp only [hfields]
    exact if_pos ⟨hhex.length_bytes.trans hlen, List.all_eq_true.mpr hhex⟩

/-- The documented shape of a `traceparent`, with its trace identifier. -/
def Documented (s id : String) : Prop :=
  ∃ span flags, s = "00-" ++ id ++ "-" ++ span ++ "-" ++ flags ∧ HexField 32 id ∧ HexField 16 span ∧
    HexField 2 flags

theorem documented_iff {s id : String} : Documented s id ↔
    ∃ span flags, fields s = ["00", id, span, flags] ∧ HexField 32 id ∧ HexField 16 span ∧
      HexField 2 flags := by
  have htext : ∀ span flags : String, "00-" ++ id ++ "-" ++ span ++ "-" ++ flags
      = "00" ++ "-" ++ id ++ "-" ++ span ++ "-" ++ flags := fun _ _ => rfl
  constructor
  · rintro ⟨span, flags, rfl, hid, hspan, hflags⟩
    refine ⟨span, flags, ?_, hid, hspan, hflags⟩
    rw [htext, fields_eq (by decide) hid.2.no_dash hspan.2.no_dash hflags.2.no_dash]
  · rintro ⟨span, flags, hfields, h⟩
    exact ⟨span, flags, (eq_of_fields hfields).trans (htext span flags).symm, h⟩

/-- What the documentation says of a request: an identifier in the documented shape is taken over in
lower case, and otherwise there is a fresh one. -/
def AcceptsDocumented (req : Request) : Prop :=
  ∀ (env : Env) (w : World),
    (∀ s id, traceparentText req = some s → Documented s id →
      extractOrGenerateTraceId env req w = ([], toAsciiLowercase id)) ∧
    ((∀ s id, traceparentText req = some s → ¬ Documented s id) →
      extractOrGenerateTraceId env req w = mint 16 env.traceNanos w)

/-- The fields that are not looked at are as documented where the second one is. -/
def RestDocumented (req : Request) : Prop :=
  ∀ s version id span flags, traceparentText req = some s → fields s = [version, id, span, flags] →
    HexField 32 id → version = "00" ∧ HexField 16 span ∧ HexField 2 flags

theorem acceptsDocumented_iff (req : Request) : AcceptsDocumented req ↔ RestDocumented req := by
  constructor
  · intro h s version id span flags hs hfields hid
    have hin : inboundTraceId req = some id :=
      inboundTraceId_iff.mpr ⟨s, version, span, flags, hs, hfields, hid⟩
    by_contra hrest
    -- what is taken over is not minted
    have hmint := (h .calm .empty).2 fun s' id' hs' hdoc => by
      obtain rfl := Option.some.inj (hs.symm.trans hs')
      obtain ⟨span', flags', hfields', -, hspan, hflags⟩ := documented_iff.mp hdoc
      rw [hfields] at hfields'
      simp only [List.cons.injEq, and_true] at hfields'
      obtain ⟨rfl, rfl, rfl, rfl⟩ := hfields'
      exact hrest ⟨rfl, hspan, hflags⟩
    have hsteps := congrArg Prod.fst hmint
    simp only [extractOrGenerateTraceId, hin] at hsteps
    cases hsteps
  · intro h env w
    constructor
    · intro s id hs hdoc
      obtain ⟨span, flags, hfields, hid, -⟩ := documented_iff.mp hdoc
      have hin : inboundTraceId req = some id := inboundTraceId_iff.mpr ⟨s, _, span, flags,
        hs, hfields, hid⟩
      simp only [extractOrGenerateTraceId, hin]
      rfl
    · intro hno
      have hout : inboundTraceId req = none := by
        rcases hin : inboundTraceId req with _ | id
        · rfl
        · obtain ⟨s, version, span, flags, hs, hfields, hid⟩ := inboundTraceId_iff.mp hin
          obtain ⟨rfl, hspan, hflags⟩ := h s version id span flags hs hfields hid
          exact absurd (documented_iff.mpr ⟨span, flags, hfields, hid, hspan, hflags⟩) (hno s id hs)
      simp only [extractOrGenerateTraceId, hout]

/-- What every response says of its trace. -/
def EmitsTrace (r : Response) : Prop :=
  ∃ id span, LowerHex 32 id ∧ LowerHex 16 span ∧
    headerText r "traceparent" = some ("00-" ++ id ++ "-" ++ span ++ "-01") ∧
    headerText r "x-trace-id" = some id

theorem serve_emitsTrace (crates : Crates) (st : AppState) (env : Env) (req : Request) (w : World) :
    EmitsTrace (serve crates st env req w).2 := by
  obtain ⟨hid, hparent⟩ := traceHeaders_eq crates st env req w
  refine ⟨responseId env req w, spanId env req w, ?_, mint_lower 8 _ _, hparent, hid⟩
  rw [responseId]
  rcases hin : inboundTraceId req with _ | id
  · simp only [extractOrGenerateTraceId, hin]
    exact mint_lower 16 _ _
  · obtain ⟨_, _, _, _, _, _, hfield⟩ := inboundTraceId_iff.mp hin
    simp only [extractOrGenerateTraceId, hin]
    exact hfield.lower

/-- **The trace of a request is taken over on its documented shape**, and every response has one in
that shape, exactly when the other three fields are as documented where the second one is. -/
theorem grammar_iff (req : Request) :
    (AcceptsDocumented req ∧ ∀ (crates : Crates) (st : AppState) (env : Env) (w : World),
      EmitsTrace (serve crates st env req w).2) ↔ RestDocumented req :=
  ⟨fun h => (acceptsDocumented_iff req).mp h.1,
    fun h => ⟨(acceptsDocumented_iff req).mpr h, fun crates st env w =>
      serve_emitsTrace crates st env req w⟩⟩

/-- A request with `zz-0af7651916cd43dd8448eb211c80319c-x-y`. -/
def oddRequest : Request where
  method := "GET"
  path := "/health"
  query := none
  version := "HTTP/1.1"
  headers := [("traceparent", ⟨bytes "zz-0af7651916cd43dd8448eb211c80319c-x-y", by decide⟩)]
  body := ⟨[], .complete⟩

/-- **A trace in another shape** is taken over. -/
theorem odd_trace_taken : ¬ AcceptsDocumented oddRequest := by
  rw [acceptsDocumented_iff]
  intro h
  obtain ⟨hversion, -⟩ := h "zz-0af7651916cd43dd8448eb211c80319c-x-y" "zz"
    "0af7651916cd43dd8448eb211c80319c" "x" "y" (by decide +kernel) (by decide +kernel)
    ⟨by decide, fun c hc => List.all_eq_true.mp (by decide) c hc⟩
  exact absurd hversion (by decide)

end FileFerry
