import FileFerry.Results.Envelope
import FileFerry.Results.Gate
import FileFerry.Results.Sources
import FileFerry.Results.Tracing

/-!
# Results — Clipping

Which text of a request goes out at its full length.

* `Bounded e`: a log line keeps the text of the request in its fields within the cap.
* `FsBackend.openRead_bounded`, `FsBackend.writeAll_bounded`: the calls of the file-system backend
  do, exactly when they refuse no longer path.
* `message_bounded`: the message of a response always keeps to the cap.
* `clipped_iff`: what is logged of a request does exactly when no longer path of it is refused, and
  its URI is no longer, if a cursor is in it.
* `clip_append_clip`: a text clipped before something is put in front of it is clipped as it would
  be whole.
-/

namespace FileFerry
open Text Posix AsyncIo Steps

/-- The fields of a log line that hold text of the request are within the cap. -/
def Bounded (e : Event) : Prop :=
  ∀ r, e = .log r → ∀ f ∈ r.fields, f.user = true → f.value.toList.length ≤ MAX_USER_MESSAGE_LEN

theorem bounded_other {e : Event} (h : ∀ r, e ≠ .log r) : Bounded e := fun r hr => absurd hr (h r)

theorem bounded_log {r : Record} : Bounded (.log r) ↔
    ∀ f ∈ r.fields, f.user = true → f.value.toList.length ≤ MAX_USER_MESSAGE_LEN :=
  ⟨fun h => h r rfl, fun h r' hr => by cases hr; exact h⟩

/-- The line of an error holds its code, and a clipped text. -/
theorem fields_of_error (e : FerryError) : ∃ name text, e.record.fields
    = [⟨"error.code", e.code, false⟩, ⟨name, clipUserMessage text, true⟩] := by
  have hother : ∀ e : FerryError, (∀ path, e ≠ .notFound path) → e.record.fields
      = [⟨"error.code", e.code, false⟩, ⟨"error.message", clipUserMessage e.display, true⟩] := by
    intro e he
    cases e with
    | notFound path => exact absurd rfl (he path)
    | _ => simp only [FerryError.record]; split <;> rfl
  by_cases he : ∃ path, e = .notFound path
  · obtain ⟨path, rfl⟩ := he
    exact ⟨_, _, rfl⟩
  · exact ⟨_, _, hother e fun path h => he ⟨path, h⟩⟩

theorem bounded_error (e : FerryError) : Bounded (.log e.record) := by
  obtain ⟨name, text, h⟩ := fields_of_error e
  rw [bounded_log, h]
  intro f hf hu
  simp only [List.mem_cons, List.not_mem_nil, or_false] at hf
  rcases hf with rfl | rfl
  · cases hu
  · exact length_clipUserMessage text

/-- The line of a transfer holds digests of the paths. -/
theorem bounded_transfer (crates : Crates) (env : Env) (src dst : BackendRef)
    (srcPath dstPath : String)
    (total : Nat) :
    Bounded (.log (transferCompleted crates env src dst srcPath dstPath total)) := by
  have hhash : ∀ path, (pathHash crates path).toList.length ≤ MAX_USER_MESSAGE_LEN := fun path => by
    have h : pathHash crates path = hexText ((crates.sha256 (bytes path)).take 6) := rfl
    rw [h, length_hexText, List.length_take, MAX_USER_MESSAGE_LEN]
    omega
  rw [bounded_log]
  intro f hf hu
  simp only [transferCompleted, List.mem_cons, List.not_mem_nil, or_false] at hf
  rcases hf with rfl | rfl | rfl | rfl | rfl | rfl | rfl
  · cases hu
  · cases hu
  · exact hhash srcPath
  · exact hhash dstPath
  · cases hu
  · cases hu
  · cases hu

/-- The line of a refusal holds the path as it came. -/
theorem bounded_refusal {path message : String} {more : List Field}
    (hmore : ∀ f ∈ more, f.user = false) :
    Bounded (.log (FsBackend.refusal path message more)) ↔
      path.toList.length ≤ MAX_USER_MESSAGE_LEN := by
  rw [bounded_log]
  constructor
  · intro h
    exact h ⟨"requested_path", path, true⟩ List.mem_cons_self rfl
  · intro h f hf hu
    rcases List.mem_cons.mp hf with rfl | hf
    · exact h
    · rw [hmore f hf] at hu; cases hu

/-! ### The file-system backend -/

namespace FsBackend

variable {fs : FsBackend} {path : String} {w : World}

/-- The path leaves the root, or is a link. -/
def Refused (fs : FsBackend) (h : Host) (path : String) : Prop :=
  fs.okPrefix h path = false ∨ ∃ target, h.lstat (fs.joined path) = .ok (.symlink target)

/-- The path is refused, or leads to a link once its parent is made. -/
def RefusedWrite (fs : FsBackend) (h : Host) (path : String) : Prop :=
  fs.Refused h path ∨ fs.admits h path = true ∧ (makeParent h (fs.joined path)).2.2 = .ok () ∧
    (makeParent h (fs.joined path)).2.1.openWrite (fs.joined path) = .error .eloop

theorem refusals_cases (fs : FsBackend) (h : Host) (path : String) :
    (fs.Refused h path ∧ fs.admits h path = false ∧ ∃ message more, (∀ f ∈ more, f.user = false) ∧
        fs.refusals h path = [refusal path message more]) ∨
      ¬ fs.Refused h path ∧ fs.refusals h path = [] := by
  rw [Refused, admits, refusals]
  cases ho : fs.okPrefix h path with
  | false => exact .inl ⟨.inl rfl, rfl, _, _, by simp, rfl⟩
  | true =>
      rcases hl : h.lstat (fs.joined path) with e | n
      · exact .inr ⟨by simp, rfl⟩
      · cases n with
        | symlink target => exact .inl ⟨.inr ⟨target, rfl⟩, rfl, _, _, by simp, rfl⟩
        | file f => exact .inr ⟨by simp, rfl⟩
        | dir => exact .inr ⟨by simp, rfl⟩

theorem mem_logging {v : World} {rs : List Record} {e : Event} :
    e ∈ trace (logging v rs) ↔ ∃ r ∈ rs, e = .log r := by
  induction rs with
  | nil => simp [logging]
  | cons r rs ih =>
      have : trace (logging v (r :: rs)) = .log r :: trace (logging v rs) := rfl
      rw [this, List.mem_cons, ih]
      simp

/-- The lines of a refusal keep to the cap exactly when the path does. -/
theorem logging_bounded {v : World} {message : String} {more : List Field}
    (hmore : ∀ f ∈ more, f.user = false) :
    (∀ e ∈ trace (logging v [refusal path message more]), Bounded e) ↔
      path.toList.length ≤ MAX_USER_MESSAGE_LEN := by
  rw [← bounded_refusal hmore]
  constructor
  · intro h
    exact h _ (mem_logging.mpr ⟨_, List.mem_cons_self, rfl⟩)
  · intro h e he
    obtain ⟨r, hr, rfl⟩ := mem_logging.mp he
    rw [List.mem_singleton.mp hr]
    exact h

/-- **An open for reading** keeps to the cap exactly when it refuses no longer path. -/
theorem openRead_bounded (fs : FsBackend) (env : Env) (path : String) (w : World) :
    (∀ e ∈ trace (fs.openRead env path w).1, Bounded e) ↔
      (fs.Refused w.host path → path.toList.length ≤ MAX_USER_MESSAGE_LEN) := by
  rcases refusals_cases fs w.host path with ⟨hr, hna, message, more, hmore, hlog⟩ | ⟨hr, hlog⟩
  · rcases openRead_cases fs env path w with ⟨-, x, e⟩ | ⟨ha, -⟩
    · rw [e, hlog, logging_bounded hmore]
      exact ⟨fun h _ => h, fun h => h hr⟩
    · rw [hna] at ha; cases ha
  · refine ⟨fun _ h => absurd h hr, fun _ e he => bounded_other fun r => ?_⟩
    rintro rfl
    rcases openRead_cases fs env path w with ⟨-, x, hrun⟩ | ⟨-, ⟨l, -, hrun⟩ | ⟨x, y, -, hrun⟩⟩
    · rw [hrun, hlog] at he; cases he
    · rw [hrun] at he; simp at he
    · rw [hrun] at he; cases he

theorem parentSteps_quiet {p : Path} {e : Event} (he : e ∈ trace (parentSteps w p)) :
    ∃ t, e = .touch t := by
  rw [parentSteps] at he
  split at he
  · cases he
  · simp only [trace_cons, trace_nil, List.append_nil, List.mem_map] at he
    obtain ⟨l, -, rfl⟩ := he
    exact ⟨_, rfl⟩

/-- What `write_all` does before its copy keeps to the cap exactly when it refuses no longer
path. -/
theorem opening_bounded (fs : FsBackend) (path : String) (w : World) :
    (∀ e ∈ trace (fs.opening path w).1, Bounded e) ↔
      (fs.RefusedWrite w.host path → path.toList.length ≤ MAX_USER_MESSAGE_LEN) := by
  have hparent : ∀ e ∈ trace (parentSteps w (fs.joined path)), Bounded e := fun e he => by
    obtain ⟨t, rfl⟩ := parentSteps_quiet he
    exact bounded_other (by simp)
  have hop := opening_opens fs path w
  rw [RefusedWrite]
  rcases refusals_cases fs w.host path with ⟨hr, hna, message, more, hmore, hlog⟩ | ⟨hr, hlog⟩
  · generalize fs.opening path w = q at hop
    cases hop with
    | refused ha =>
        rw [hlog, logging_bounded hmore]
        exact ⟨fun h _ => h, fun h => h (.inl hr)⟩
    | unmade ha => rw [hna] at ha; cases ha
    | unopened ha => rw [hna] at ha; cases ha
    | opened ha => rw [hna] at ha; cases ha
  · generalize fs.opening path w = q at hop
    cases hop with
    | refused ha =>
        rw [hlog]
        refine ⟨fun _ h => ?_, fun _ e he => by cases he⟩
        rcases h with h | ⟨h, -⟩
        · exact absurd h hr
        · rw [ha] at h; cases h
    | unmade ha hm =>
        refine ⟨fun _ h => ?_, fun _ => hparent⟩
        rcases h with h | ⟨-, h, -⟩
        · exact absurd h hr
        · rw [hm] at h; cases h
    | @unopened x e ha hm hopen _ =>
        simp only [trace_append, List.mem_append]
        by_cases hx : x = .eloop
        · subst hx
          have hlate : fs.Refused w.host path ∨ fs.admits w.host path = true ∧
              (makeParent w.host (fs.joined path)).2.2 = .ok () ∧
              (makeParent w.host (fs.joined path)).2.1.openWrite (fs.joined path) = .error .eloop :=
            .inr ⟨ha, hm, hopen⟩
          have hlines :=
            @logging_bounded path { w with host := (makeParent w.host (fs.joined path)).2.1 }
            "write refused: destination is or became a symlink" [] (by simp)
          refine ⟨fun h _ => hlines.mp fun e he => h e (.inr he), fun h e he => ?_⟩
          rcases he with he | he
          · exact hparent e he
          · exact hlines.mpr (h hlate) e he
        · rw [openRefusals, if_neg hx]
          refine ⟨fun _ h => ?_, fun _ e he => ?_⟩
          · rcases h with h | ⟨-, -, h⟩
            · exact absurd h hr
            · rw [hopen] at h
              exact absurd (Except.error.inj h) hx
          · rcases he with he | he
            · exact hparent e he
            · cases he
    | opened ha hm hopen =>
        refine ⟨fun _ h => ?_, fun _ e he => ?_⟩
        · rcases h with h | ⟨-, -, h⟩
          · exact absurd h hr
          · rw [hopen] at h; cases h
        · rw [trace_append, List.mem_append] at he
          rcases he with he | he
          · exact hparent e he
          · rw [trace_cons, trace_nil, List.append_nil, List.mem_singleton] at he
            rw [he]
            exact bounded_other (by simp)

/-- **An open for writing** keeps to the cap exactly when it refuses no longer path. -/
theorem writeAll_bounded {R : Type} [AsyncRead R] (fs : FsBackend) (env : Env) (path : String)
    (reader : R) (w : World) : (∀ e ∈ trace (fs.writeAll env path reader w).1, Bounded e) ↔
      (fs.RefusedWrite w.host path → path.toList.length ≤ MAX_USER_MESSAGE_LEN) := by
  rw [← opening_bounded, writeAll_eq]
  rcases ho : fs.opening path w with ⟨l, x | m⟩
  · rw [Act.bind_error ho]
  · rw [Act.bind_ok ho]
    have hcopy : Emits Bounded (copyInto (writeChunk m) env reader) :=
      Does.copyInto fun _ _ _ h => h
    simp only [trace_append, List.mem_append]
    exact ⟨fun h e he => h e (.inl he), fun h e he => he.elim (h e) hcopy.event⟩

end FsBackend

/-! ### Either backend -/

/-- The object can be opened, as far as the stores say. -/
def BackendRef.Readable (b : BackendRef) (w : World) (path : String) : Prop :=
  match b with
  | .fs b => b.admits w.host path = true ∧ ∃ l, w.host.openRead (b.joined path) = .ok l
  | .s3 b => w.bucket.lookup (b.key path) ≠ none
  | .offline _ => False

namespace BackendRef

theorem readable_of_openRead {b : BackendRef} {env : Env} {path : String} {w : World} {r : Script}
    (h : (b.openRead env path w).2 = .ok r) : b.Readable w path := by
  rw [openRead_value] at h
  cases b with
  | fs b =>
      rw [reading] at h
      rcases FsBackend.openRead_cases b env path w with ⟨-, e, he⟩ |
        ⟨ha, ⟨l, ho, -⟩ | ⟨x, e, -, he⟩⟩
      · rw [he] at h; cases h
      · exact ⟨ha, l, ho⟩
      · rw [he] at h; cases h
  | s3 b =>
      intro hnone
      rw [reading, S3Backend.openRead, await, Act.step_bind, Act.get_bind] at h
      rcases hg : env.getFault with _ | x
      · simp only [hg, id, hnone] at h; cases h
      · simp only [hg] at h; cases h
  | offline b => cases h

theorem openRead_of_readable {b : BackendRef} {path : String} {w : World} (h : b.Readable w path) :
    ∃ r, (b.openRead .calm path w).2 = .ok r := by
  rw [openRead_value]
  cases b with
  | fs b =>
      obtain ⟨ha, l, ho⟩ := h
      rw [reading]
      rcases FsBackend.openRead_cases b .calm path w with ⟨hn, -⟩ | ⟨-, ⟨l', -, he⟩ | ⟨x, e, hx, -⟩⟩
      · rw [ha] at hn; cases hn
      · exact ⟨_, by rw [he]⟩
      · rw [ho] at hx; cases hx
  | s3 b =>
      obtain ⟨c, hc⟩ := Option.ne_none_iff_exists'.mp h
      rw [reading, S3Backend.openRead, await, Act.step_bind, Act.get_bind]
      simp only [Env.calm, id, hc]
      exact ⟨_, rfl⟩
  | offline b => exact h.elim

theorem openRead_bounded (b : BackendRef) (env : Env) (path : String) (w : World) :
    (∀ e ∈ trace (b.openRead env path w).1, Bounded e) ↔ ∀ fs, b = .fs fs → fs.Refused w.host path →
      path.toList.length ≤ MAX_USER_MESSAGE_LEN := by
  have hreading : (∀ e ∈ trace (b.openRead env path w).1, Bounded e) ↔
      ∀ e ∈ trace (b.reading env path w).1, Bounded e := by
    have hcall := @bounded_other (.call b (.openRead path)) (by simp)
    have hopened := @bounded_other (.opened b path) (by simp)
    rw [openRead_eq, Act.emit_bind]
    rcases hr : b.reading env path w with ⟨l, x | r⟩
    · rw [Act.bind_error hr]
      simp only [trace_cons, List.singleton_append, List.forall_mem_cons, hcall, true_and]
    · rw [Act.bind_ok hr, Act.emit_bind, Act.pure_run]
      simp only [trace_cons, trace_append, trace_nil, List.singleton_append, List.append_nil,
        List.forall_mem_cons, List.forall_mem_append, hcall, hopened, true_and]
      simp
  rw [hreading]
  cases b with
  | fs b =>
      rw [reading, FsBackend.openRead_bounded]
      exact ⟨fun h fs e => by cases e; exact h, fun h => h b rfl⟩
  | s3 b =>
      have h : Emits Bounded (b.openRead env path) := S3Backend.openRead_does
      exact ⟨fun _ fs e => (by cases e), fun _ e he => h.event he⟩
  | offline b => exact ⟨fun _ fs e => (by cases e), fun _ e he => (by cases he)⟩

theorem writeAll_bounded {R : Type} [AsyncRead R] (b : BackendRef) (env : Env) (path : String)
    (reader : R) (w : World) : (∀ e ∈ trace (b.writeAll env path reader w).1, Bounded e) ↔
      ∀ fs, b = .fs fs → fs.RefusedWrite w.host path →
      path.toList.length ≤ MAX_USER_MESSAGE_LEN := by
  have hcall := @bounded_other (.call b (.writeAll path)) (by simp)
  rw [writeAll_run]
  simp only [trace_cons, List.singleton_append, List.forall_mem_cons, hcall, true_and]
  cases b with
  | fs b =>
      rw [writing, FsBackend.writeAll_bounded]
      exact ⟨fun h fs e => by cases e; exact h, fun h => h b rfl⟩
  | s3 b =>
      have h : Emits Bounded (b.writeAll env path reader) :=
        S3Backend.writeAll_does (fun _ _ h => h) fun _ => bounded_other (by simp)
      exact ⟨fun _ fs e => (by cases e), fun _ e he => h.event he⟩
  | offline b => exact ⟨fun _ fs e => (by cases e), fun _ e he => (by cases he)⟩

end BackendRef

section Stream

variable {crates : Crates} {env : Env} {src dst : BackendRef} {srcPath dstPath : String}
  {maxBytes inactivity : Nat} {w : World} {e : Event}

theorem mem_streamCopy_of_openRead (he : e ∈ trace (src.openRead env srcPath w).1) :
    e ∈ trace (streamCopy crates env src srcPath dst dstPath maxBytes inactivity w).1 := by
  rcases ho : src.openRead env srcPath w with ⟨l, x | r⟩
  · rw [ho] at he
    rw [streamCopy, Act.bind_error ho]
    exact he
  · rw [ho] at he
    rw [streamCopy, Act.bind_ok ho, trace_append]
    exact List.mem_append_left _ he

theorem mem_streamCopy_of_writeAll {r : Script} (hr : (src.openRead env srcPath w).2 = .ok r)
    (he : e ∈ trace (dst.writeAll env dstPath (guarded r maxBytes inactivity) w).1) :
    e ∈ trace (streamCopy crates env src srcPath dst dstPath maxBytes inactivity w).1 := by
  rcases ho : src.openRead env srcPath w with ⟨l, x⟩
  rw [ho] at hr
  obtain rfl : x = .ok r := hr
  rcases @streamCopy_opened crates env src dst srcPath dstPath maxBytes inactivity w l r ho with
    ⟨y, -, hrun⟩ | ⟨r', -, hrun⟩
  · rw [hrun, trace_append]
    exact List.mem_append_right _ he
  · rw [hrun, trace_append, trace_append]
    exact List.mem_append_right _ (List.mem_append_left _ he)

/-- **A stream** keeps to the cap where no longer path is refused. -/
theorem streamCopy_bounded
    (hsrc : ∀ fs, src = .fs fs → fs.Refused w.host srcPath →
      srcPath.toList.length ≤ MAX_USER_MESSAGE_LEN)
    (hdst : ∀ fs, dst = .fs fs → src.Readable w srcPath → fs.RefusedWrite w.host dstPath →
      dstPath.toList.length ≤ MAX_USER_MESSAGE_LEN) :
    ∀ e ∈ trace (streamCopy crates env src srcPath dst dstPath maxBytes inactivity w).1,
    Bounded e := by
  intro e he
  have hread := (src.openRead_bounded env srcPath w).mpr hsrc
  rcases ho : src.openRead env srcPath w with ⟨l, x | r⟩
  · rw [ho] at hread
    rw [streamCopy, Act.bind_error ho] at he
    exact hread e he
  · rw [ho] at hread
    have hwrite := (dst.writeAll_bounded env dstPath (guarded r maxBytes inactivity) w).mpr
      fun fs hfs => hdst fs hfs (@BackendRef.readable_of_openRead src env srcPath w r (by rw [ho]))
    rcases @streamCopy_opened crates env src dst srcPath dstPath maxBytes inactivity w l r ho with
      ⟨y, -, hrun⟩ | ⟨r', -, hrun⟩
    · rw [hrun, trace_append, List.mem_append] at he
      exact he.elim (hread e) (hwrite e)
    · rw [hrun, trace_append, trace_append, List.mem_append, List.mem_append] at he
      rcases he with he | he | he
      · exact hread e he
      · exact hwrite e he
      · rw [trace_cons, trace_nil, List.append_nil, List.mem_singleton] at he
        rw [he]
        exact bounded_transfer _ _ _ _ _ _ _

end Stream

/-! ### Requests -/

/-- The message of a response is within the cap. -/
def MessageBounded (r : Response) : Prop :=
  ∀ body m, r.body = some body → body.text "message" = some m →
    m.toList.length ≤ MAX_USER_MESSAGE_LEN

theorem message_json {status : Nat} {body : Json} (h : body.text "message" = none) :
    MessageBounded (.json status body) := fun b m hb hm => by
  cases hb
  rw [h] at hm; cases hm

theorem message_empty (status : Nat) : MessageBounded (.empty status) := fun b m hb _ => by cases hb

theorem message_error (e : FerryError) : MessageBounded e.response := fun b m hb hm => by
  cases hb
  have h : Json.text "message" (.obj [("error", .str e.code),
    ("message", .str (clipUserMessage e.display))])
      = some (clipUserMessage e.display) := rfl
  rw [h] at hm
  cases hm
  exact length_clipUserMessage _

theorem message_respond {α : Type} (p : Act α) {ok : α → Response}
    (hok : ∀ a, MessageBounded (ok a))
    (w : World) : MessageBounded (respond p ok w).2 := by
  rcases respond_run p ok w with ⟨a, -, h⟩ | ⟨e, -, h⟩
  · rw [h]; exact hok a
  · rw [h]; exact message_error e

theorem message_gate (st : AppState) (req : Request) {next : Service} {w : World}
    (h : MessageBounded (next w).2) : MessageBounded (requireBearer st req next w).2 := by
  have hshut : ∀ m : String, m.toList.length ≤ MAX_USER_MESSAGE_LEN →
      MessageBounded (unauthorized m) := fun m hm b m' hb hm' => by
    cases hb
    have h : Json.text "message" (.obj [("error", .str "unauthorized"), ("message", .str m)])
        = some m := rfl
    rw [h] at hm'
    cases hm'
    exact hm
  rw [requireBearer]
  rcases st.config.security.interServiceToken with _ | token
  · exact h
  · dsimp only
    split
    · exact hshut _ (by decide)
    · split
      · exact hshut _ (by decide)
      · exact h

theorem message_get {req : Request} {s : Service} {w : World} (h : MessageBounded (s w).2) :
    MessageBounded (getRoute req s w).2 := by
  rw [getRoute]
  split
  · exact h
  · exact message_empty 405

/-- **The message of a response** is within the cap. -/
theorem message_bounded (crates : Crates) (st : AppState) (env : Env) (req : Request) (w : World) :
    MessageBounded (serve crates st env req w).2 := by
  have hroutes : ∀ v, MessageBounded (routes crates st env req v).2 := fun v => by
    rw [routes]
    split
    · exact message_gate st req (message_get (message_respond _ (fun r => message_json rfl) v))
    · split
      · refine message_gate st req ?_
        rw [postRoute]
        split
        · exact message_respond _ (fun _ => message_empty 204) v
        · exact message_empty 405
      · split
        · exact message_get (message_json rfl)
        · split
          · exact message_get (message_json rfl)
          · split
            · refine message_get ?_
              show MessageBounded (openapi st)
              rw [openapi]
              split
              · exact message_empty 404
              · split
                · exact message_json rfl
                · exact message_json rfl
            · split
              · exact message_gate st req (message_empty 404)
              · exact message_empty 404
  obtain ⟨-, hbody⟩ := serve_answer crates st env req w
  intro body m hb hm
  rw [hbody] at hb
  split at hb
  · cases hb
  · rw [timeoutLayer] at hb
    rcases timeout_cases env.expire (.empty 408) (routes crates st env req) (entered env req w) with
      e | ⟨k, -, -, e⟩
    · rw [e] at hb
      exact hroutes _ body m hb hm
    · rw [e] at hb
      exact message_empty 408 body m hb hm

/-- The text of a request that is logged as it came is within the cap. -/
structure Fits (crates : Crates) (st : AppState) (req : Request) (w : World) : Prop where
  uri : req.path = "/v1/files" → carriesCursor (req.query.getD "") = true →
    req.uri.toList.length ≤ MAX_USER_MESSAGE_LEN
  source : ∀ c fs dst, Streams crates st req c (.fs fs) dst → fs.Refused w.host c.sourceFilePath →
    c.sourceFilePath.toList.length ≤ MAX_USER_MESSAGE_LEN
  destination : ∀ c src fs, Streams crates st req c src (.fs fs) → src.Readable w c.sourceFilePath →
    fs.RefusedWrite w.host c.destinationFilePath →
    c.destinationFilePath.toList.length ≤ MAX_USER_MESSAGE_LEN

/-- The message of the response, and the text of the request in the log, are within the cap. -/
def Clipped (crates : Crates) (st : AppState) (env : Env) (req : Request) (w : World) : Prop :=
  MessageBounded (serve crates st env req w).2 ∧ ∀ e ∈ trace (serve crates st env req w).1,
    Bounded e

/-- The line that tells of the URI is within the cap, if there is no cursor in it or it is. -/
theorem bounded_traceRecord (req : Request) : Bounded (.log (traceRecord req)) ↔
    (req.path = "/v1/files" → carriesCursor (req.query.getD "") = true →
      req.uri.toList.length ≤ MAX_USER_MESSAGE_LEN) := by
  rw [bounded_log]
  constructor
  · intro h hp hc
    exact h ⟨"uri", req.uri, _⟩ (.tail _ (.head _)) (by simp [hp, hc])
  · intro h f hf hu
    simp only [traceRecord, List.mem_cons, List.not_mem_nil, or_false] at hf
    rcases hf with rfl | rfl | rfl
    · cases hu
    · rw [Bool.and_eq_true, decide_eq_true_eq] at hu
      exact h hu.1 hu.2
    · cases hu

theorem traceRecord_mem (crates : Crates) (st : AppState) (env : Env) (req : Request) (w : World) :
    .log (traceRecord req) ∈ trace (serve crates st env req w).1 := by
  simp only [serve, stripBody, accessLog, traceLayer, Proc.bind_run, Proc.emit_run, trace_append,
    trace_cons, trace_nil, List.mem_append]
  simp

theorem Streams.trace_routes {crates : Crates} {st : AppState} {req : Request} {c : CopyFileRequest}
    {src dst : BackendRef} (h : Streams crates st req c src dst) (env : Env) (w : World) :
    ∃ tail, (tail = [] ∨ ∃ e : FerryError, tail = [.log e.record]) ∧
      trace (FileFerry.routes crates st env req w).1
        = .handler .copyFile :: (trace (streaming crates st env c src dst w).1 ++ tail) := by
  rcases h.routes env w with ⟨n, -, hrun⟩ | ⟨x, -, hrun⟩
  · exact ⟨[], .inl rfl, by rw [hrun, List.append_nil]; rfl⟩
  · refine ⟨[.log x.record], .inr ⟨x, rfl⟩, ?_⟩
    rw [hrun, trace_cons, trace_cons, trace_append]
    rfl

theorem Streams.mem_routes {crates : Crates} {st : AppState} {req : Request} {c : CopyFileRequest}
    {src dst : BackendRef} (h : Streams crates st req c src dst) (env : Env) (w : World) {e : Event}
    (he : e ∈ trace (streaming crates st env c src dst w).1) :
    e ∈ trace (FileFerry.routes crates st env req w).1 := by
  obtain ⟨tail, -, htrace⟩ := h.trace_routes env w
  rw [htrace]
  exact List.mem_cons_of_mem _ (List.mem_append_left _ he)

/-- The events of the routes keep to the cap where those of a stream do. -/
theorem routes_bounded {crates : Crates} {st : AppState} {env : Env} {req : Request} {w : World}
    (h : ∀ c src dst, Streams crates st req c src dst →
      ∀ e ∈ trace (streaming crates st env c src dst w).1, Bounded e) :
    ∀ e ∈ trace (routes crates st env req w).1, Bounded e := by
  intro e he
  rcases routes_cases crates st env req w with ⟨hnil, -⟩ | ⟨-, -, hrun⟩ | ⟨hr, ha, -⟩
  · rw [hnil] at he; cases he
  · rw [hrun] at he
    exact listService_emits (fun _ => bounded_other) bounded_error he
  · rcases streams_or_refused hr ha env w with ⟨c, src, dst, hs⟩ | ⟨x, hrun⟩
    · obtain ⟨tail, htail, htrace⟩ := hs.trace_routes env w
      rw [htrace, List.mem_cons, List.mem_append] at he
      rcases he with rfl | he | he
      · exact bounded_other (by simp)
      · exact h c src dst hs e he
      · rcases htail with rfl | ⟨x, rfl⟩
        · cases he
        · rw [List.mem_singleton.mp he]
          exact bounded_error x
    · rw [hrun] at he
      rcases List.mem_cons.mp he with rfl | he
      · exact bounded_other (by simp)
      · rw [List.mem_singleton.mp he]
        exact bounded_error x

theorem BackendRef.Readable.of_same {b : BackendRef} {w w' : World} {path : String}
    (hs : SameStores w w') (h : b.Readable w path) : b.Readable w' path := by
  cases b with
  | fs b => rw [Readable, hs.1]; exact h
  | s3 b => rw [Readable, hs.2]; exact h
  | offline b => exact h

/-- A request to which nothing happens comes to every refusal there is. -/
theorem fits_of_clipped {crates : Crates} {st : AppState} {req : Request} {w : World}
    (h : Clipped crates st .calm req w) : Fits crates st req w := by
  obtain ⟨w', pre, post, hs, -, htrace⟩ := serve_trace crates st .calm req w
  have hroutes : ∀ e ∈ trace (routes crates st .calm req w').1, Bounded e := fun e he =>
    h.2 e (by
      rw [htrace]
      exact List.mem_append_left _ (List.mem_append_right _ he))
  refine ⟨(bounded_traceRecord req).mp (h.2 _ (traceRecord_mem crates st .calm req w)),
    fun c fs dst hc hrefused => ?_, fun c src fs hc hread hrefused => ?_⟩
  · rw [← hs.1] at hrefused
    refine ((BackendRef.fs fs).openRead_bounded .calm c.sourceFilePath w').mp
      (fun e he => ?_) fs rfl
      hrefused
    exact hroutes e (hc.mem_routes .calm w' (mem_streamCopy_of_openRead he))
  · rw [← hs.1] at hrefused
    obtain ⟨r, hr⟩ := BackendRef.openRead_of_readable (hread.of_same hs)
    refine ((BackendRef.fs fs).writeAll_bounded .calm c.destinationFilePath (guarded r
      st.config.limits.maxResponseBytes st.config.limits.copyInactivitySecs) w').mp (fun e he => ?_)
      fs rfl hrefused
    exact hroutes e (hc.mem_routes .calm w' (mem_streamCopy_of_writeAll hr he))

/-- **What goes out of a request** is within the cap, whatever happens to the request, exactly when
what is logged of it as it came is. -/
theorem clipped_iff (crates : Crates) (st : AppState) (req : Request) (w : World) :
    (∀ env, Clipped crates st env req w) ↔ Fits crates st req w := by
  constructor
  · exact fun h => fits_of_clipped (h .calm)
  · intro h env
    refine ⟨message_bounded crates st env req w, ?_⟩
    obtain ⟨pre, post, hpre, hpost, e, -⟩ := serve_wraps crates st env req
      (L := fun r => Bounded (.log r)) (fun r hr => bounded_log.mpr fun f hf hu => by
        rw [hr f hf] at hu; cases hu) ((bounded_traceRecord req).mpr h.uri) w
    have hidle : ∀ {v : World} {l : List (Step World Event)}, Idle (fun r => Bounded (.log r)) v l →
        ∀ e ∈ trace l, Bounded e := by
      intro v l hl e he
      obtain ⟨s, hs, he⟩ := mem_trace.mp he
      obtain ⟨r, rfl, hr⟩ := (hl s hs).2 e he
      exact hr
    have hsame := hpre.after
    rw [e, trace_append, trace_append]
    refine List.forall_mem_append.mpr ⟨List.forall_mem_append.mpr ⟨hidle hpre, fun e he => ?_⟩,
      hidle hpost⟩
    rw [timeoutLayer] at he
    refine routes_bounded (fun c src dst hc => ?_) e
      ((trace_isPrefix (timeout_isPrefix env.expire (.empty 408) _ _)).subset he)
    refine streamCopy_bounded (fun fs hfs => ?_) fun fs hfs hread => ?_
    · subst hfs
      rw [hsame.1]
      exact h.source c fs dst hc
    · subst hfs
      rw [hsame.1]
      exact h.destination c src fs hc (hread.of_same ⟨hsame.1.symm, hsame.2.symm⟩)

/-- A path that leads out of `/data`. -/
def longPath : String := "/" ++ String.ofList (List.replicate 256 'a')

/-- **A long path that leaves the root** is logged as it came. -/
theorem long_refusal_logged :
    ¬ Clipped (uploadCrates longPath) uploadState .calm uploadRequest
      { World.empty with host := dataHost } := by
  intro h
  have hlen := (fits_of_clipped h).source (upload longPath) dataFs _
    (streams_upload (by decide +kernel)) (.inl (by decide +kernel))
  exact absurd hlen (by decide +kernel)

/-! ### Clipping twice -/

theorem clipUserMessage_of_lt {s : String} (h : MAX_USER_MESSAGE_LEN < s.toList.length) :
    clipUserMessage s = String.ofList (s.toList.take (MAX_USER_MESSAGE_LEN - 3)) ++ "..." :=
  if_neg (Nat.not_le.mpr h)

/-- **A text clipped before** something is put in front of it is clipped as it would be whole. -/
theorem clip_append_clip (p s : String) :
    clipUserMessage (p ++ clipUserMessage s) = clipUserMessage (p ++ s) := by
  by_cases hs : s.toList.length ≤ MAX_USER_MESSAGE_LEN
  · rw [clipUserMessage_of_le hs]
  have hlt : MAX_USER_MESSAGE_LEN < s.toList.length := Nat.not_le.mp hs
  by_cases hp : p = ""
  · rw [hp, String.empty_append, String.empty_append,
      clipUserMessage_of_le (length_clipUserMessage s)]
  -- both are longer than the cap, and the marker of the inner clip is cut off
  have hp' : 0 < p.toList.length := List.length_pos_iff.mpr fun e => hp (by
    rw [← String.ofList_toList (s := p), e])
  have hclip : (clipUserMessage s).toList
      = s.toList.take (MAX_USER_MESSAGE_LEN - 3) ++ "...".toList := by
    rw [clipUserMessage_of_lt hlt, String.toList_append, String.toList_ofList]
  have hlen : (s.toList.take (MAX_USER_MESSAGE_LEN - 3)).length = MAX_USER_MESSAGE_LEN - 3 := by
    rw [List.length_take]
    omega
  have hin : MAX_USER_MESSAGE_LEN < (p ++ clipUserMessage s).toList.length := by
    rw [String.toList_append, hclip, List.length_append, List.length_append, hlen]
    have hdots : "...".toList.length = 3 := rfl
    have hcap : MAX_USER_MESSAGE_LEN = 256 := rfl
    omega
  have hout : MAX_USER_MESSAGE_LEN < (p ++ s).toList.length := by
    rw [String.toList_append, List.length_append]
    omega
  have htake : (p ++ clipUserMessage s).toList.take (MAX_USER_MESSAGE_LEN - 3)
      = (p ++ s).toList.take (MAX_USER_MESSAGE_LEN - 3) := by
    have hle : MAX_USER_MESSAGE_LEN - 3 - p.toList.length
        ≤ (s.toList.take (MAX_USER_MESSAGE_LEN - 3)).length := by
      rw [hlen]
      exact Nat.sub_le _ _
    rw [String.toList_append, String.toList_append, hclip, List.take_append,
      List.take_append_of_le_length hle, List.take_take, Nat.min_eq_left (Nat.sub_le _ _),
      ← List.take_append]
  rw [clipUserMessage_of_lt hin, clipUserMessage_of_lt hout, htake]

/-- The response to a rejected query or body shows of its text what the response to the whole text
would. -/
theorem FerryError.intoResponse_clipped (text : String) :
    (badQuery (clipUserMessage text)).intoResponse = (badQuery text).intoResponse ∧
      (badBody (clipUserMessage text)).intoResponse = (badBody text).intoResponse := by
  have hquery : clipUserMessage (badQuery (clipUserMessage text)).display
      = clipUserMessage (badQuery text).display := clip_append_clip _ text
  have hbody : clipUserMessage (badBody (clipUserMessage text)).display
      = clipUserMessage (badBody text).display := clip_append_clip _ text
  constructor
  · simp only [intoResponse, record, hquery]
    rfl
  · simp only [intoResponse, record, hbody]
    rfl

/-- **Clipping twice is clipping once**, whatever is put in front in between; so what the extractors
reject is answered as if its text were clipped in the response only. -/
theorem clip_once :
    (∀ p s : String, clipUserMessage (p ++ clipUserMessage s) = clipUserMessage (p ++ s) ∧
      (clipUserMessage (p ++ s)).toList.length ≤ MAX_USER_MESSAGE_LEN ∧
      ((p ++ s).toList.length ≤ MAX_USER_MESSAGE_LEN → clipUserMessage (p ++ s) = p ++ s)) ∧
    (∀ (crates : Crates) (req : Request) (w : World) (text : String),
      crates.parseQuery (req.query.getD "") = .error text →
      ∃ e, typedQuery crates req w = ([], .error e) ∧
        e.intoResponse = (FerryError.badQuery text).intoResponse) ∧
    ∀ (crates : Crates) (maxBody : Nat) (req : Request) (w : World) (status : Nat) (text : String),
      bodyStalls crates maxBody req = false →
      jsonFromRequest crates maxBody req = .error (status, text) → status ≠ 413 →
      ∃ e, typedJson crates maxBody req w = ([⟨w, []⟩], .error e) ∧
        e.intoResponse = (FerryError.badBody text).intoResponse := by
  refine ⟨fun p s => ⟨clip_append_clip p s, length_clipUserMessage _, clipUserMessage_of_le⟩,
    fun crates req w text h => ?_, fun crates maxBody req w status text hstall h hs => ?_⟩
  · refine ⟨.badQuery (clipUserMessage text), ?_, (FerryError.intoResponse_clipped text).1⟩
    rw [typedQuery, h]
    rfl
  · refine ⟨.badBody (clipUserMessage text), ?_, (FerryError.intoResponse_clipped text).2⟩
    have hrun : typedJson crates maxBody req
        = (await >>= fun _ => Act.fail (.badBody (clipUserMessage text))) := by
      simp only [typedJson, hstall, h, if_neg hs]
      rfl
    rw [hrun]
    rfl

/-- A text of so many characters. -/
def longText (n : Nat) : String := String.ofList (List.replicate n 'a')

theorem length_longText (n : Nat) : (longText n).toList.length = n := by simp [longText]

/-- What decodes nothing, and tells why at length. -/
def wordyCrates : Crates :=
  { Crates.strict with
    parseQuery := fun _ => .error (longText 300)
    parseJson := fun _ => .error (longText 300)
    jsonContentType := fun _ => true }

/-- A query that does not decode, and a body that is not JSON. -/
theorem clip_once_rejected : MAX_USER_MESSAGE_LEN < (longText 300).toList.length ∧
    (∃ e, typedQuery wordyCrates uploadRequest World.empty = ([], .error e) ∧
      e.intoResponse = (FerryError.badQuery (longText 300)).intoResponse) ∧
    ∃ e, typedJson wordyCrates 1000 uploadRequest World.empty = ([⟨World.empty, []⟩], .error e) ∧
      e.intoResponse = (FerryError.badBody (longText 300)).intoResponse := by
  refine ⟨?_, clip_once.2.1 wordyCrates uploadRequest World.empty (longText 300) rfl,
    clip_once.2.2 wordyCrates 1000 uploadRequest World.empty 422 (longText 300) rfl rfl (by decide)⟩
  rw [length_longText]
  decide

end FileFerry
