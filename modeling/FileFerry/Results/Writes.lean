import FileFerry.Results.Gate

/-!
# Results — Writes

What can make a backend write.

* `calls`: the calls of the backends among the events, and the opens that succeeded.
* `copyFile_calls`: a copy opens its source, and only then writes its destination.
* `writes_authorised`: in every run, each write is that of an admitted copy of valid paths between
  stores of two kinds, after its source was opened, and it is the only one of its request.
* `serve_offline`: without an online bucket no request changes the files, and no copy succeeds.
-/

namespace FileFerry
open Text Posix AsyncIo Steps

variable {crates : Crates} {st : AppState} {env : Env} {req : Request} {w : World}

def Event.isCall : Event → Bool
  | .call _ _ | .opened _ _ => true
  | _ => false

def calls (l : List Event) : List Event := l.filter Event.isCall

/-- An event that is not a call. -/
def Quiet (e : Event) : Prop := e.isCall = false

@[simp] theorem calls_append (l m : List Event) : calls (l ++ m) = calls l ++ calls m :=
  List.filter_append ..

theorem calls_isPrefix {l m : List Event} (h : l <+: m) : calls l <+: calls m := by
  obtain ⟨k, rfl⟩ := h
  rw [calls_append]
  exact List.prefix_append _ _

theorem calls_of_quiet {α : Type} {p : Act α} {Q : World → Prop} {R : Except FerryError α → Prop}
    (h : Does Q Quiet p R) (hw : Q w) : calls (trace (p w).1) = [] := by
  refine List.filter_eq_nil_iff.mpr fun e he => ?_
  obtain ⟨s, hs, he⟩ := mem_trace.mp he
  rw [((h w hw).1 s hs).2 e he]
  simp

/-! ### The calls of a copy -/

/-- What an open does: the call, and on success the event that tells of it. -/
theorem openRead_calls (b : BackendRef) (env : Env) (path : String) (w : World) :
    (∃ l r, b.openRead env path w = (l, .ok r) ∧
      calls (trace l) = [.call b (.openRead path), .opened b path]) ∨
    ∃ l e, b.openRead env path w = (l, .error e) ∧
      calls (trace l) = [.call b (.openRead path)] := by
  have key : ∀ p : Act Script, Does (fun _ => True) Quiet p (fun _ => True) →
      (∃ l r, (do
          Act.emit (.call b (.openRead path)); let r ← p; Act.emit (.opened b path); pure r :
          Act Script) w = (l, .ok r) ∧
        calls (trace l) = [.call b (.openRead path), .opened b path]) ∨
      ∃ l e, (do Act.emit (.call b (.openRead path)); let r ← p; Act.emit (.opened b path); pure r :
          Act Script) w = (l, .error e) ∧ calls (trace l) = [.call b (.openRead path)] := by
    intro p hp
    have hq := calls_of_quiet (w := w) hp trivial
    rcases e : p w with ⟨l, x | r⟩
    · rw [e] at hq
      refine .inr ⟨_, x, by rw [Act.emit_bind, Act.bind_error e], ?_⟩
      rw [trace_cons, calls_append, hq]; rfl
    · rw [e] at hq
      refine .inl ⟨_, r, by rw [Act.emit_bind, Act.bind_ok e, Act.emit_bind, Act.pure_run], ?_⟩
      rw [trace_cons, trace_append, calls_append, calls_append, hq]; rfl
  cases b with
  | fs b => exact key _ (FsBackend.openRead_does (fun _ _ _ => rfl) fun _ => rfl)
  | s3 b => exact key _ S3Backend.openRead_does
  | offline b => exact key _ (.fail trivial)

/-- The rest of a write is no call. -/
theorem writeAll_calls {R : Type} [AsyncRead R] (b : BackendRef) (env : Env) (path : String)
    (reader : R) (w : World) :
    calls (trace (b.writeAll env path reader w).1) = [.call b (.writeAll path)] := by
  have key : ∀ p : Act R, Does (fun _ => True) Quiet p (fun _ => True) →
      calls (trace ((do Act.emit (.call b (.writeAll path)); p : Act R) w).1)
        = [.call b (.writeAll path)] := by
    intro p hp
    rw [Act.emit_bind, trace_cons, calls_append, calls_of_quiet hp trivial]; rfl
  cases b with
  | fs b => exact key _ (FsBackend.writeAll_does (fun _ _ h => h) (fun _ _ _ => rfl) fun _ => rfl)
  | s3 b => exact key _ (S3Backend.writeAll_does (fun _ _ h => h) fun _ => rfl)
  | offline b => exact key _ (.fail trivial)

theorem list_calls (b : BackendRef) (env : Env) (opts : ListOptions) (w : World) :
    calls (trace (b.list env opts w).1) = [.call b .list] := by
  have key : ∀ p : Act (List FileEntry), Does (fun _ => True) Quiet p (fun _ => True) →
      calls (trace ((do Act.emit (.call b .list); p : Act (List FileEntry)) w).1)
        = [.call b .list] := by
    intro p hp
    rw [Act.emit_bind, trace_cons, calls_append, calls_of_quiet hp trivial]; rfl
  cases b with
  | fs b => exact key _ (FsBackend.list_does opts)
  | s3 b => exact key _ (S3Backend.listPages_does _ _ _ _ _)
  | offline b => exact key _ (.fail trivial)

/-- The calls of a whole copy. -/
def copyCalls (src : BackendRef) (srcPath : String) (dst : BackendRef) (dstPath : String) :
    List Event :=
  [.call src (.openRead srcPath), .opened src srcPath, .call dst (.writeAll dstPath)]

theorem streamCopy_calls (crates : Crates) (env : Env) (src : BackendRef) (srcPath : String)
    (dst : BackendRef) (dstPath : String)
    (maxBytes inactivity : Nat) (w : World) :
    calls (trace (streamCopy crates env src srcPath dst dstPath maxBytes inactivity w).1)
      <+: copyCalls src srcPath dst dstPath := by
  rw [streamCopy]
  rcases openRead_calls src env srcPath w with ⟨l, r, e, hl⟩ | ⟨l, x, e, hl⟩
  · rw [Act.bind_ok e, trace_append, calls_append, hl]
    have hw := writeAll_calls dst env dstPath (guarded r maxBytes inactivity) (after w l)
    rcases ew : dst.writeAll env dstPath (guarded r maxBytes inactivity) (after w l) with
      ⟨m, y | r'⟩
    · rw [ew] at hw
      rw [Act.bind_error ew, hw]
      exact List.prefix_refl _
    · rw [ew] at hw
      rw [Act.bind_ok ew, trace_append, calls_append, hw, log, Act.emit_bind]
      exact List.prefix_refl _
  · rw [Act.bind_error e, hl]
    exact ⟨[.opened src srcPath, .call dst (.writeAll dstPath)], rfl⟩

/-- What a copy's calls are. -/
theorem copyFile_calls (crates : Crates) (st : AppState) (env : Env) (c : CopyFileRequest)
    (w : World) :
    calls (trace (copyFile crates st env c w).1) = [] ∨
      ∃ src dst, Copyable st c src dst ∧ calls (trace (copyFile crates st env c w).1)
        <+: copyCalls src c.sourceFilePath dst c.destinationFilePath := by
  rcases copyFile_cases crates st env c w with ⟨e, h⟩ | ⟨src, dst, hc, h⟩
  · rw [h]; exact .inl rfl
  · refine .inr ⟨src, dst, hc, ?_⟩
    have hs := streamCopy_calls crates env src c.sourceFilePath dst
      c.destinationFilePath st.config.limits.maxResponseBytes st.config.limits.copyInactivitySecs w
    rw [h]
    rcases e : streamCopy crates env src c.sourceFilePath dst c.destinationFilePath
      st.config.limits.maxResponseBytes st.config.limits.copyInactivitySecs w with ⟨l, x | n⟩
    · rw [e] at hs; rw [Act.bind_error e]; exact hs
    · rw [e] at hs; rw [Act.bind_ok e]; simpa using hs

/-! ### The calls of a request -/

theorem respond_calls {α : Type} (p : Act α) (ok : α → Response) (w : World) :
    calls (trace (respond p ok w).1) = calls (trace (p w).1) := by
  rcases respond_run p ok w with ⟨a, -, e⟩ | ⟨x, -, e⟩
  · rw [e]
  · rw [e, trace_append, calls_append]; simp [calls, Event.isCall]

/-- What a copy request that met its handler did: it was rejected by the extractor, or copied. -/
theorem copyService_calls (crates : Crates) (st : AppState) (env : Env)
    (req : Request) (w : World) :
    calls (trace (copyService crates st env req w).1) = [] ∨
      ∃ c src dst, jsonFromRequest crates st.config.limits.maxRequestBytes req = .ok c ∧
        Copyable st c src dst ∧ calls (trace (copyService crates st env req w).1)
          <+: copyCalls src c.sourceFilePath dst c.destinationFilePath := by
  have hrun : calls (trace (copyService crates st env req w).1)
      = calls (trace (respond (copyAction crates st env req) (fun _ => .empty 204) w).1) := rfl
  rw [hrun, respond_calls, copyAction]
  rcases typedJson_run crates st.config.limits.maxRequestBytes req w with ⟨c, hc, e⟩ | ⟨x, e, -⟩
  · rw [Act.bind_ok e]
    rcases copyFile_calls crates st env c w with h | ⟨src, dst, h₁, h₂⟩
    · exact .inl h
    · exact .inr ⟨c, src, dst, hc, h₁, h₂⟩
  · rw [Act.bind_error e]; exact .inl rfl

/-- A listing lists, and calls nothing else. -/
theorem listService_calls (crates : Crates) (st : AppState) (env : Env)
    (req : Request) (w : World) :
    ∃ b, calls (trace (listService crates st env req w).1) <+: [.call b .list] := by
  have hrun : calls (trace (listService crates st env req w).1)
      = calls (trace (respond (listAction crates st env req) (fun r => .json 200 r.json) w).1) :=
        rfl
  rw [hrun, respond_calls, listAction]
  rcases typedQuery_run crates req w with ⟨q, e⟩ | ⟨x, e, -⟩
  · rw [Act.bind_ok e]
    rcases listFiles_cases st env q w with ⟨x, h⟩ | ⟨b, limit, -, -, -, h⟩
    · refine ⟨.offline ⟨.fs⟩, ?_⟩
      show calls (trace (listFiles st env q w).1) <+: _
      rw [h]
      exact List.nil_prefix
    · refine ⟨b, ?_⟩
      show calls (trace (listFiles st env q w).1) <+: _
      have hl := list_calls b env ⟨some limit, q.startAfter⟩ w
      rw [h]
      rcases e : b.list env ⟨some limit, q.startAfter⟩ w with ⟨l, x | files⟩
      · rw [e] at hl; rw [Act.bind_error e, hl]
      · rw [e] at hl; rw [Act.bind_ok e, trace_append, calls_append, hl]; exact List.prefix_refl _
  · rw [Act.bind_error e]; exact ⟨.offline ⟨.fs⟩, List.nil_prefix⟩

/-- What the calls of a request are. -/
theorem serve_calls (crates : Crates) (st : AppState) (env : Env) (req : Request) (w : World) :
    calls (trace (serve crates st env req w).1) = [] ∨
      (Admitted st req ∧ ∃ b, calls (trace (serve crates st env req w).1) <+: [.call b .list]) ∨
      (Admitted st req ∧ Routed req .copyFile ∧ ∃ c src dst,
        jsonFromRequest crates st.config.limits.maxRequestBytes req = .ok c ∧
        Copyable st c src dst ∧ calls (trace (serve crates st env req w).1)
          <+: copyCalls src c.sourceFilePath dst c.destinationFilePath) := by
  obtain ⟨w', pre, post, -, hlogs, e⟩ := serve_trace crates st env req w
  have hnone : ∀ l : List Event, (∀ x ∈ l, ∃ r, x = .log r) → calls l = [] := fun l hl => by
    refine List.filter_eq_nil_iff.mpr fun x hx => ?_
    obtain ⟨r, rfl⟩ := hl x hx
    simp [Event.isCall]
  have hcalls : calls (trace (serve crates st env req w).1)
      <+: calls (trace (routes crates st env req w').1) := by
    rw [e, calls_append, calls_append, hnone pre fun x hx => hlogs x (List.mem_append_left _ hx),
      hnone post fun x hx => hlogs x (List.mem_append_right _ hx), List.nil_append, List.append_nil]
    exact calls_isPrefix (trace_isPrefix (timeout_isPrefix _ _ _ _))
  rcases routes_cases crates st env req w' with ⟨h, -⟩ | ⟨-, ha, h⟩ | ⟨hr, ha, h⟩
  · rw [h] at hcalls
    exact .inl (List.prefix_nil.mp hcalls)
  · obtain ⟨b, hb⟩ := listService_calls crates st env req w'
    rw [h] at hcalls
    exact .inr (.inl ⟨ha, b, hcalls.trans hb⟩)
  · rw [h] at hcalls
    rcases copyService_calls crates st env req w' with h₀ | ⟨c, src, dst, hc, hcp, hp⟩
    · rw [h₀] at hcalls
      exact .inl (List.prefix_nil.mp hcalls)
    · exact .inr (.inr ⟨ha, hr, c, src, dst, hc, hcp, hcalls.trans hp⟩)

/-- Where the write stands among the calls of a copy. -/
theorem write_of_copyCalls {src dst b : BackendRef} {srcPath dstPath path : String}
    {pre post : List Event}
    (h : calls pre ++ .call b (.writeAll path) :: calls post
      <+: copyCalls src srcPath dst dstPath) :
    b = dst ∧ path = dstPath ∧ .opened src srcPath ∈ pre ∧
      ∀ b' path', .call b' (.writeAll path') ∉ pre ++ post := by
  obtain ⟨rest, e⟩ := h
  rw [copyCalls] at e
  match hp : calls pre, e with
  | [], e => simp at e
  | [_], e => simp at e
  | [x, y], e =>
      simp only [List.cons_append, List.nil_append, List.cons.injEq, Event.call.injEq,
        Call.writeAll.injEq, List.append_eq_nil_iff] at e
      obtain ⟨rfl, rfl, ⟨rfl, rfl⟩, hpost, -⟩ := e
      refine ⟨rfl, rfl, ?_, fun b' path' hm => ?_⟩
      · have : Event.opened src srcPath ∈ calls pre := by rw [hp]; simp
        exact (List.mem_filter.mp this).1
      · have : Event.call b' (.writeAll path') ∈ calls (pre ++ post) :=
          List.mem_filter.mpr ⟨hm, rfl⟩
        rw [calls_append, hp, hpost] at this
        simp at this
  | _ :: _ :: _ :: l, e => simp at e

/-! ### Without an online bucket -/

section Offline

variable {Q : World → Prop}

/-- The bucket is not configured, or its backend is the offline one. -/
def NoBucket (st : AppState) : Prop := ∀ b, st.backends.s3 = some b → ∃ o, b = .offline o

/-- Without an online bucket, one of two different kinds is offline. -/
theorem NoBucket.offline (hst : NoBucket st) {c : CopyFileRequest} {src dst : BackendRef}
    (hc : Copyable st c src dst) : ∃ o, src = .offline o ∨ dst = .offline o := by
  have hs3 : ∀ b, st.backends.pick .s3 = .ok b → ∃ o, b = .offline o := fun b hb => by
    rw [Backends.pick] at hb
    split at hb
    · rename_i r hr; cases hb; exact hst _ hr
    · cases hb
  rcases hk : c.sourceStorageType with _ | _
  · rcases hk' : c.destinationStorageType with _ | _
    · exact absurd (hk.trans hk'.symm) hc.differ
    · obtain ⟨o, ho⟩ := hs3 dst (hk' ▸ hc.dst); exact ⟨o, .inr ho⟩
  · obtain ⟨o, ho⟩ := hs3 src (hk ▸ hc.src); exact ⟨o, .inl ho⟩

/-- A copy between an offline backend and another fails, and keeps what opening for reading
keeps. -/
theorem streamCopy_offline {src dst : BackendRef} {o : OfflineBackend}
    (h : src = .offline o ∨ dst = .offline o) (srcPath dstPath : String)
      (maxBytes inactivity : Nat) :
    Does Q (fun _ => True) (streamCopy crates env src srcPath dst dstPath maxBytes inactivity)
      fun r => ∃ e, r = .error e := by
  rcases h with rfl | rfl
  · have hopen : Does Q (fun _ => True) ((BackendRef.offline o).openRead env srcPath)
        fun r => ∃ e, r = .error e :=
      Does.seq_error (.emit trivial trivial) (fun _ => Does.bind_error (.fail ⟨_, rfl⟩))
        fun e => ⟨e, rfl⟩
    exact hopen.bind_error
  · refine (BackendRef.openRead_does src env srcPath trivial trivial (fun _ _ _ => trivial)
      fun _ => trivial).seq_error (fun r => ?_) fun e => ⟨e, rfl⟩
    have hwrite : Does Q (fun _ => True)
        ((BackendRef.offline o).writeAll env dstPath (guarded r maxBytes inactivity))
        fun r => ∃ e, r = .error e :=
      Does.seq_error (.emit trivial trivial) (fun _ => .fail ⟨_, rfl⟩) fun e => ⟨e, rfl⟩
    exact hwrite.bind_error

/-- Without an online bucket a copy fails, and keeps every world. -/
theorem copyFile_offline (hst : NoBucket st) (c : CopyFileRequest) :
    Does Q (fun _ => True) (copyFile crates st env c) fun r => ∃ e, r = .error e := by
  intro w hw
  rcases copyFile_cases crates st env c w with ⟨e, h⟩ | ⟨src, dst, hc, h⟩
  · rw [h]; exact ⟨by simp, e, rfl⟩
  · obtain ⟨o, ho⟩ := hst.offline hc
    rw [h]
    exact (streamCopy_offline ho _ _ _ _).bind_error w hw

theorem copyAction_offline (crates : Crates) (env : Env) (hst : NoBucket st) (req : Request) :
    Does Q (fun _ => True) (copyAction crates st env req) fun r => ∃ e, r = .error e := by
  exact Does.seq_error (typedJson_does _) (fun c => copyFile_offline hst c) fun e => ⟨e, rfl⟩

theorem FerryError.response_status (e : FerryError) : e.response.status ≠ 204 := by
  have := e.status_error
  show e.status ≠ 204
  omega

/-- Without an online bucket the routes keep every world, and answer no copy with a success. -/
theorem routes_offline (crates : Crates) (env : Env) (req : Request)
    (hst : NoBucket st) (hw : Q w) :
    (∀ s ∈ (routes crates st env req w).1, Q s.world) ∧
    (routes crates st env req w).2.status ≠ 204 := by
  rcases routes_cases crates st env req w with ⟨h, hs⟩ | ⟨-, -, h⟩ | ⟨-, -, h⟩
  · refine ⟨by rw [h]; simp, fun e => ?_⟩
    rw [e] at hs
    simp at hs
  · have hlist : Does Q (fun _ => True) (listAction crates st env req) fun _ => True :=
      listAction_does fun _ => trivial
    rw [h, listService_run]
    refine ⟨List.forall_mem_cons.mpr ⟨hw,
      fun s hs => (respond_does (fun _ => trivial) hlist hw s hs).1⟩, ?_⟩
    rcases respond_run (listAction crates st env req) (fun r => .json 200 r.json) w with
      ⟨a, -, e⟩ | ⟨x, -, e⟩
    · rw [e]; simp [Response.json]
    · rw [e]; exact x.response_status
  · have hcopy : Does Q (fun _ => True) (copyAction crates st env req) fun r => ∃ e, r = .error e :=
      copyAction_offline crates env hst req
    rw [h, copyService_run]
    refine ⟨List.forall_mem_cons.mpr ⟨hw,
      fun s hs => (respond_does (fun _ => trivial) hcopy hw s hs).1⟩, ?_⟩
    obtain ⟨x, hx⟩ := (hcopy w hw).2
    rcases respond_run (copyAction crates st env req) (fun _ => .empty 204) w with
      ⟨a, ha, -⟩ | ⟨x, -, e⟩
    · rw [hx] at ha; cases ha
    · rw [e]; exact x.response_status

/-- …and so does the router. -/
theorem serve_offline (hst : NoBucket st) {h : Host} (hw : w.host = h) :
    (∀ s ∈ (serve crates st env req w).1, s.world.host = h) ∧
      (serve crates st env req w).2.status ≠ 204 := by
  obtain ⟨pre, post, hpre, hpost, e, hstatus⟩ :=
    serve_wraps crates st env req (L := fun _ => True) (fun _ _ => trivial) trivial w
  have hw' : (after w pre).host = h := hpre.after.1.trans hw
  obtain ⟨hroutes, hne⟩ := routes_offline (Q := fun v => v.host = h) crates env req hst hw'
  have hmid : ∀ s ∈ (timeoutLayer env (routes crates st env req) (after w pre)).1,
      s.world.host = h := fun s hs => hroutes s ((timeout_isPrefix _ _ _ _).subset hs)
  refine ⟨fun s hs => ?_, ?_⟩
  · rw [e] at hs
    rcases List.mem_append.mp hs with hs | hs
    · rcases List.mem_append.mp hs with hs | hs
      · exact (hpre s hs).1.1.trans hw
      · exact hmid s hs
    · exact (hpost s hs).1.1.trans (after_of_forall (Q := fun v : World => v.host = h) hw' hmid)
  · rw [hstatus]
    rcases timeout_cases env.expire (.empty 408) (routes crates st env req) (after w pre) with
      e | ⟨k, -, -, e⟩
    · rw [timeoutLayer, e]; exact hne
    · rw [timeoutLayer, e]; simp [Response.empty]

end Offline

/-! ### Runs -/

/-- The write of `path` to `b` between the events `pre` and `post` of a request is that of an
admitted copy of valid paths between stores of two kinds; its source was opened before, and it is
the only write. -/
structure Authorised (crates : Crates) (st : AppState) (req : Request) (pre post : List Event)
    (b : BackendRef) (path : String) : Prop where
  routed : Routed req .copyFile
  admitted : Admitted st req
  copies : ∃ c src, jsonFromRequest crates st.config.limits.maxRequestBytes req = .ok c ∧
    Copyable st c src b ∧ path = c.destinationFilePath ∧ .opened src c.sourceFilePath ∈ pre
  once : ∀ b' path', .call b' (.writeAll path') ∉ pre ++ post

/-- Every write of a request is authorised. -/
theorem serve_authorised {pre post : List Event} {b : BackendRef} {path : String}
    (h : trace (serve crates st env req w).1 = pre ++ .call b (.writeAll path) :: post) :
    Authorised crates st req pre post b path := by
  have hc : calls (trace (serve crates st env req w).1)
      = calls pre ++ .call b (.writeAll path) :: calls post := by
    rw [h, calls_append]; rfl
  rcases serve_calls crates st env req w with e | ⟨-, b', e⟩ | ⟨ha, hr, c, src, dst, hj, hcp, e⟩
  · rw [hc] at e; simp at e
  · rw [hc] at e
    have hm : Event.call b (.writeAll path) ∈ [Event.call b' .list] := e.subset (by simp)
    simp at hm
  · rw [hc] at e
    obtain ⟨rfl, rfl, hopen, honce⟩ := write_of_copyCalls e
    exact ⟨hr, ha, ⟨c, src, hj, hcp, rfl, hopen⟩, honce⟩

/-- The run that serves the requests one after another, each as its `Env` lets it. -/
def serveAll (crates : Crates) (st : AppState) (w : World) (reqs : List (Env × Request)) :
    List (Served (Env × Request) World Event Response) :=
  served (fun r => serve crates st r.1 r.2) w reqs

/-- **In every run** each write is authorised, a request that is not admitted calls no backend,
and without an online bucket nothing is written and no copy succeeds. -/
theorem writes_authorised (crates : Crates) (st : AppState) (w : World)
    (reqs : List (Env × Request)) :
    (∀ s ∈ serveAll crates st w reqs,
      (∀ pre b path post, trace s.steps = pre ++ .call b (.writeAll path) :: post →
        Authorised crates st s.request.2 pre post b path) ∧
      (¬ Admitted st s.request.2 → ∀ b c, .call b c ∉ trace s.steps)) ∧
    (NoBucket st → (final w (serveAll crates st w reqs)).host = w.host ∧
      ∀ s ∈ serveAll crates st w reqs, s.reply.status ≠ 204) := by
  refine ⟨fun s hs => ?_, fun hst => ⟨?_, fun s hs => ?_⟩⟩
  · obtain ⟨-, hrun⟩ := mem_served hs
    have hsteps : s.steps = (serve crates st s.request.1 s.request.2 s.before).1 := by rw [hrun]
    refine ⟨fun pre b path post h => serve_authorised (hsteps ▸ h), fun hna b c hm => ?_⟩
    obtain ⟨w', -, e⟩ := mem_serve_trace crates st s.request.1 s.request.2 s.before
      (e := .call b c) (by simp)
    obtain ⟨_, -, ha⟩ := routed_of_mem (e.mp (hsteps ▸ hm))
    exact hna ha
  · exact (served_inv (Q := fun v : World => v.host = w.host)
      (fun r v hv => (serve_offline hst hv).1) rfl).2
  · obtain ⟨-, hrun⟩ := mem_served hs
    have hreply : s.reply = (serve crates st s.request.1 s.request.2 s.before).2 := by rw [hrun]
    rw [hreply]
    exact (serve_offline hst rfl).2

end FileFerry
