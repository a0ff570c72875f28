import FileFerry.Results.Calls

/-!
# Results — Handlers

The handlers and their extractors, by the ways they can go.

* `copyFile_cases`: a copy is refused before any step, or streams between the backends it names.
* `Streams.routes`: how a copy that streams is answered.
* `listFiles_cases`: a listing is refused before any step, or is a page of the backend's list.
* `Logged`, `routes_logged`: what holds of the records of the backends, of a transfer and of an
  error holds of every event of the routes.
-/

namespace FileFerry
open Text AsyncIo Steps

/-! ### The extractors -/

/-- What the extractor of a copy gives: the decoded body after one step, or its rejection. -/
theorem typedJson_run (crates : Crates) (maxBody : Nat) (req : Request) (w : World) :
    (∃ c, jsonFromRequest crates maxBody req = .ok c ∧
        typedJson crates maxBody req w = ([⟨w, []⟩], .ok c)) ∨
      ∃ e, typedJson crates maxBody req w = ([⟨w, []⟩], .error e) ∧
        (e = .bodyReadTimeout ∨ e = .bodyTooLarge 0 ∨
          ∃ text, e = .badBody (clipUserMessage text)) := by
  have hrun : ∀ p : Act CopyFileRequest, (await >>= fun _ => p) w = (⟨w, []⟩ :: (p w).1, (p w).2) :=
    fun p => Act.step_bind _ _ _ _
  rw [typedJson, hrun]
  split
  · exact .inr ⟨_, rfl, .inl rfl⟩
  · rcases jsonFromRequest crates maxBody req with ⟨status, text⟩ | c
    · right
      by_cases hs : status = 413
      · exact ⟨.bodyTooLarge 0, by simp only [if_pos hs]; rfl, .inr (.inl rfl)⟩
      · exact ⟨.badBody (clipUserMessage text), by simp only [if_neg hs]; rfl,
          .inr (.inr ⟨text, rfl⟩)⟩
    · exact .inl ⟨c, rfl, rfl⟩

/-- What the extractor of a listing gives: the decoded query, or its rejection. -/
theorem typedQuery_run (crates : Crates) (req : Request) (w : World) :
    (∃ q, typedQuery crates req w = ([], .ok q)) ∨
      ∃ e, typedQuery crates req w = ([], .error e) ∧
      ∃ text, e = .badQuery (clipUserMessage text) := by
  rw [typedQuery]
  rcases crates.parseQuery (req.query.getD "") with text | q
  · exact .inr ⟨_, rfl, text, rfl⟩
  · exact .inl ⟨q, rfl⟩

/-! ### The handlers -/

/-- What a copy needs before it calls a backend. -/
structure Copyable (st : AppState) (c : CopyFileRequest) (src dst : BackendRef) : Prop where
  differ : c.sourceStorageType ≠ c.destinationStorageType
  source : validatePath c.sourceFilePath = .ok ()
  destination : validatePath c.destinationFilePath = .ok ()
  src : st.backends.pick c.sourceStorageType = .ok src
  dst : st.backends.pick c.destinationStorageType = .ok dst

/-- **A copy** is refused before any call, or streams between the backends it names. -/
theorem copyFile_cases (crates : Crates) (st : AppState) (env : Env)
    (c : CopyFileRequest) (w : World) :
    (∃ e, copyFile crates st env c w = ([], .error e)) ∨
      ∃ src dst, Copyable st c src dst ∧
        copyFile crates st env c w = (streamCopy crates env src c.sourceFilePath dst
          c.destinationFilePath st.config.limits.maxResponseBytes
          st.config.limits.copyInactivitySecs >>= fun _ => pure ()) w := by
  rw [copyFile]
  split
  · exact .inl ⟨_, rfl⟩
  · rename_i hd
    rcases Act.ofExcept_bind (validatePath c.sourceFilePath) _ w with ⟨x, -, h⟩ | ⟨⟨⟩, h₁, e₁⟩
    · exact .inl ⟨x, h⟩
    rw [e₁]
    rcases Act.ofExcept_bind (validatePath c.destinationFilePath) _ w with ⟨x, -, h⟩ | ⟨⟨⟩, h₂, e₂⟩
    · exact .inl ⟨x, h⟩
    rw [e₂]
    rcases Act.ofExcept_bind (st.backends.pick c.sourceStorageType) _ w with
      ⟨x, -, h⟩ | ⟨src, h₃, e₃⟩
    · exact .inl ⟨x, h⟩
    rw [e₃]
    rcases Act.ofExcept_bind (st.backends.pick c.destinationStorageType) _ w with
      ⟨x, -, h⟩ | ⟨dst, h₄, e₄⟩
    · exact .inl ⟨x, h⟩
    exact .inr ⟨src, dst, ⟨hd, h₁, h₂, h₃, h₄⟩, e₄⟩

/-- A request whose copy streams from `src` to `dst`. -/
structure Streams (crates : Crates) (st : AppState) (req : Request) (c : CopyFileRequest)
    (src dst : BackendRef) : Prop where
  routed : Routed req .copyFile
  admitted : Admitted st req
  read : bodyStalls crates st.config.limits.maxRequestBytes req = false
  decoded : jsonFromRequest crates st.config.limits.maxRequestBytes req = .ok c
  copyable : Copyable st c src dst

/-- The stream of a copy. -/
def streaming (crates : Crates) (st : AppState) (env : Env) (c : CopyFileRequest)
    (src dst : BackendRef) : Act Nat :=
  streamCopy crates env src c.sourceFilePath dst c.destinationFilePath
    st.config.limits.maxResponseBytes st.config.limits.copyInactivitySecs

theorem copyFile_of_copyable {crates : Crates} {st : AppState} {env : Env} {c : CopyFileRequest}
    {src dst : BackendRef} (hc : Copyable st c src dst) (w : World) :
    copyFile crates st env c w = (streaming crates st env c src dst >>= fun _ => pure ()) w := by
  rw [copyFile, if_neg hc.differ, hc.source, hc.destination, hc.src, hc.dst]
  rfl

/-- **A copy that streams** is answered 204, or with the error of its stream, which is logged. -/
theorem Streams.routes {crates : Crates} {st : AppState} {req : Request} {c : CopyFileRequest}
    {src dst : BackendRef} (h : Streams crates st req c src dst) (env : Env) (w : World) :
    (∃ n, (streaming crates st env c src dst w).2 = .ok n ∧ routes crates st env req w
      = (⟨w, [.handler .copyFile]⟩ :: ⟨w, []⟩ :: (streaming crates st env c src dst w).1,
        .empty 204)) ∨
    ∃ e, (streaming crates st env c src dst w).2 = .error e ∧ routes crates st env req w
      = (⟨w, [.handler .copyFile]⟩ :: ⟨w, []⟩ :: ((streaming crates st env c src dst w).1 ++
          [⟨after w (streaming crates st env c src dst w).1, [.log e.record]⟩]), e.response) := by
  have hserve : FileFerry.routes crates st env req w = copyService crates st env req w := by
    rw [FileFerry.routes, if_neg (by rw [h.routed.1]; decide), if_pos h.routed.1,
      requireBearer_open h.admitted, postRoute, if_pos h.routed.2]
  have hdecode : typedJson crates st.config.limits.maxRequestBytes req w = ([⟨w, []⟩], .ok c) := by
    rw [typedJson, h.read, h.decoded]
    rfl
  have haction : copyAction crates st env req w = (⟨w, []⟩ ::
      ((streaming crates st env c src dst >>= fun _ => pure () : Act Unit) w).1,
      ((streaming crates st env c src dst >>= fun _ => pure () : Act Unit) w).2) := by
    rw [copyAction, Act.bind_ok hdecode, after_cons, after_nil, copyFile_of_copyable h.copyable]
    rfl
  rw [hserve, copyService, Proc.bind_run, Proc.emit_run]
  rcases hs : streaming crates st env c src dst w with ⟨l, e | n⟩
  · rw [Act.bind_error hs] at haction
    refine .inr ⟨e, rfl, ?_⟩
    rcases respond_run (copyAction crates st env req) (fun _ => .empty 204) w with
      ⟨a, ha, -⟩ | ⟨x, hx, hr⟩
    · rw [haction] at ha; cases ha
    · rw [haction] at hx hr
      obtain rfl := Except.error.inj hx
      simp only [after_cons, after_nil, hr]
      rfl
  · rw [Act.bind_ok hs] at haction
    refine .inl ⟨n, rfl, ?_⟩
    rcases respond_run (copyAction crates st env req) (fun _ => .empty 204) w with
      ⟨a, -, hr⟩ | ⟨x, hx, -⟩
    · rw [haction] at hr
      simp only [after_cons, after_nil, hr, Act.pure_run, List.append_nil]
      rfl
    · rw [haction] at hx; cases hx

/-- A copy request streams, or is answered with an error after one step. -/
theorem streams_or_refused {crates : Crates} {st : AppState} {req : Request}
    (hr : Routed req .copyFile)
    (ha : Admitted st req) (env : Env) (w : World) :
    (∃ c src dst, Streams crates st req c src dst) ∨
      ∃ e : FerryError, routes crates st env req w
        = ([⟨w, [.handler .copyFile]⟩, ⟨w, []⟩, ⟨w, [.log e.record]⟩], e.response) := by
  have hserve : routes crates st env req w = copyService crates st env req w := by
    rw [routes, if_neg (by rw [hr.1]; decide), if_pos hr.1, requireBearer_open ha,
      postRoute, if_pos hr.2]
  have hfail : ∀ e, copyAction crates st env req w = ([⟨w, []⟩], .error e) →
    routes crates st env req w
      = ([⟨w, [.handler .copyFile]⟩, ⟨w, []⟩, ⟨w, [.log e.record]⟩], e.response) := fun e h => by
    rw [hserve, copyService, Proc.bind_run, Proc.emit_run]
    rcases respond_run (copyAction crates st env req) (fun _ => .empty 204) w with
      ⟨a, h', -⟩ | ⟨x, h', e'⟩
    · rw [h] at h'; cases h'
    · rw [h] at h' e'
      obtain rfl := Except.error.inj h'
      simp only [after_cons, after_nil, e']
      rfl
  cases hb : bodyStalls crates st.config.limits.maxRequestBytes req with
  | true =>
      refine .inr ⟨.bodyReadTimeout, hfail _ ?_⟩
      have h : typedJson crates st.config.limits.maxRequestBytes req w
          = ([⟨w, []⟩], .error .bodyReadTimeout) := by rw [typedJson, hb]; rfl
      rw [copyAction, Act.bind_error h]
  | false =>
      rcases typedJson_run crates st.config.limits.maxRequestBytes req w with ⟨c, hc, e⟩ | ⟨x, e, -⟩
      · rcases copyFile_cases crates st env c w with ⟨x, h⟩ | ⟨src, dst, hcp, -⟩
        · exact .inr ⟨x, hfail x (by rw [copyAction, Act.bind_ok e, after_cons, after_nil, h]; rfl)⟩
        · exact .inl ⟨c, src, dst, hr, ha, hb, hc, hcp⟩
      · exact .inr ⟨x, hfail x (by rw [copyAction, Act.bind_error e])⟩

/-- What a listing answers of the files it was given. -/
def listResponse (limit : Nat) (files : List FileEntry) : ListFilesResponse :=
  ⟨files, ⟨files.length,
    if files.length = limit then files.getLast?.map FileEntry.name else none⟩⟩

/-- **A listing** is refused before any call, or is a page of the backend's list. -/
theorem listFiles_cases (st : AppState) (env : Env) (q : ListFilesQuery) (w : World) :
    (∃ e, listFiles st env q w = ([], .error e)) ∨
      ∃ b limit, st.backends.pick q.storageType = .ok b ∧ effectiveLimit q.limit = .ok limit ∧
        (∀ cursor, q.startAfter = some cursor → validatePath cursor = .ok ()) ∧
        listFiles st env q w = (b.list env ⟨some limit, q.startAfter⟩ >>=
          fun files => pure (listResponse limit files)) w := by
  rw [listFiles]
  rcases Act.ofExcept_bind (st.backends.pick q.storageType) _ w with ⟨x, -, h⟩ | ⟨b, h₁, e₁⟩
  · exact .inl ⟨x, h⟩
  rw [e₁]
  rcases Act.ofExcept_bind (effectiveLimit q.limit) _ w with ⟨x, -, h⟩ | ⟨limit, h₂, e₂⟩
  · exact .inl ⟨x, h⟩
  rw [e₂]
  rcases hs : q.startAfter with _ | cursor
  · refine .inr ⟨b, limit, h₁, h₂, by simp, ?_⟩
    rfl
  · rcases Act.ofExcept_bind (validatePath cursor) _ w with ⟨x, -, h⟩ | ⟨⟨⟩, h₃, e₃⟩
    · exact .inl ⟨x, h⟩
    · refine .inr ⟨b, limit, h₁, h₂, fun c hc => by cases hc; exact h₃, ?_⟩
      exact e₃

/-! ### What the handlers do -/

section Does

variable {crates : Crates} {st : AppState} {env : Env} {req : Request} {w : World}
    {Q : World → Prop}
  {P : Event → Prop}

theorem listService_run : listService crates st env req w = (⟨w, [.handler .listFiles]⟩ ::
    (respond (listAction crates st env req) (fun r => .json 200 r.json) w).1,
    (respond (listAction crates st env req) (fun r => .json 200 r.json) w).2) := rfl

theorem copyService_run : copyService crates st env req w = (⟨w, [.handler .copyFile]⟩ ::
    (respond (copyAction crates st env req) (fun _ => .empty 204) w).1,
    (respond (copyAction crates st env req) (fun _ => .empty 204) w).2) := rfl

theorem typedQuery_does : Does Q P (typedQuery crates req) fun _ => True := by
  intro w hw
  rcases typedQuery_run crates req w with ⟨q, e⟩ | ⟨x, e, -⟩
  · rw [e]; simp
  · rw [e]; simp

theorem typedJson_does (maxBody : Nat) : Does Q P (typedJson crates maxBody req) fun _ => True := by
  intro w hw
  rcases typedJson_run crates maxBody req w with ⟨c, -, e⟩ | ⟨x, e, -⟩
  · rw [e]; simpa using hw
  · rw [e]; simpa using hw

theorem listAction_does (hcall : ∀ b, P (.call b .list)) :
    Does Q P (listAction crates st env req) fun _ => True := by
  refine Does.seq typedQuery_does fun q w hw => ?_
  rcases listFiles_cases st env q w with ⟨x, h⟩ | ⟨b, limit, -, -, -, h⟩
  · rw [h]; simp
  · rw [h]
    exact Does.seq (b.list_does env _ (hcall b)) (fun _ => .pure trivial) w hw

/-- A response does what its action does, and logs its error. -/
theorem respond_does {α : Type} {p : Act α} {ok : α → Response} {R : Except FerryError α → Prop}
    (herror : ∀ e : FerryError, P (.log e.record)) (hp : Does Q P p R) (hw : Q w) :
    ∀ s ∈ (respond p ok w).1, Q s.world ∧ ∀ e ∈ s.events, P e := by
  have hdoes : ∀ s ∈ (p w).1, Q s.world ∧ ∀ e ∈ s.events, P e := (hp w hw).1
  rcases respond_run p ok w with ⟨a, -, e⟩ | ⟨x, -, e⟩
  · rw [e]; exact hdoes
  · rw [e]
    intro s hs
    rcases List.mem_append.mp hs with hs | hs
    · exact hdoes s hs
    · rw [List.mem_singleton.mp hs]
      exact ⟨after_of_forall hw fun s hs => (hdoes s hs).1, by simpa using herror x⟩

end Does

/-! ### What is logged -/

/-- What holds of every event of the routes, told by the records there are. -/
structure Logged (P : Event → Prop) (crates : Crates) (env : Env) : Prop where
  other : ∀ e, (∀ r, e ≠ .log r) → P e
  refusal : ∀ path, FsBackend.Logs P path
  transfer : ∀ src dst srcPath dstPath total,
    P (.log (transferCompleted crates env src dst srcPath dstPath total))
  error : ∀ e : FerryError, P (.log e.record)

variable {P : Event → Prop} {crates : Crates} {st : AppState} {env : Env} {req : Request}

/-- Nothing is asked of the worlds. -/
abbrev Emits {α : Type} (P : Event → Prop) (p : Act α) : Prop :=
  Does (fun _ => True) P p fun _ => True

theorem Emits.event {α : Type} {p : Act α} (h : Emits P p) {w : World} {e : Event}
    (he : e ∈ trace (p w).1) : P e := by
  obtain ⟨s, hs, he⟩ := mem_trace.mp he
  exact ((h w trivial).1 s hs).2 e he

theorem streamCopy_logged (h : Logged P crates env) (src : BackendRef) (srcPath : String)
    (dst : BackendRef) (dstPath : String) (maxBytes inactivity : Nat) :
    Emits P (streamCopy crates env src srcPath dst dstPath maxBytes inactivity) :=
  Does.seq (src.openRead_does env srcPath (h.other _ (by simp)) (h.other _ (by simp)) (h.refusal _)
    fun _ => h.other _ (by simp)) fun _ =>
  Does.seq (dst.writeAll_does env dstPath _ (fun _ _ _ _ => trivial)
    (h.other _ (by simp)) (h.refusal _)
    (fun _ => h.other _ (by simp)) fun _ => h.other _ (by simp)) fun _ =>
  Does.seq (Does.log (h.transfer _ _ _ _ _)) fun _ => .pure trivial

theorem copyAction_logged (h : Logged P crates env) : Emits P (copyAction crates st env req) := by
  refine Does.seq (typedJson_does _) fun c w hw => ?_
  rcases copyFile_cases crates st env c w with ⟨x, e⟩ | ⟨src, dst, -, e⟩
  · rw [e]; simp
  · rw [e]
    exact Does.seq (streamCopy_logged h _ _ _ _ _ _) (fun _ => .pure trivial) w hw

/-- A listing emits no record but that of an error. -/
theorem listService_emits (hother : ∀ e, (∀ r, e ≠ .log r) → P e)
    (herror : ∀ e : FerryError, P (.log e.record)) {w : World} {e : Event}
    (he : e ∈ trace (listService crates st env req w).1) : P e := by
  rw [listService_run, trace_cons, List.mem_append, List.mem_singleton] at he
  rcases he with rfl | he
  · exact hother _ (by simp)
  · obtain ⟨s, hs, he⟩ := mem_trace.mp he
    have hlist : Emits P (listAction crates st env req) := listAction_does fun _ =>
      hother _ (by simp)
    exact (respond_does herror hlist trivial s hs).2 e he

/-- **Every event of the routes** is as the records are. -/
theorem routes_logged (h : Logged P crates env) (st : AppState) (req : Request)
    (w : World) {e : Event}
    (he : e ∈ trace (routes crates st env req w).1) : P e := by
  rcases routes_cases crates st env req w with ⟨hnil, -⟩ | ⟨-, -, hrun⟩ | ⟨-, -, hrun⟩
  · rw [hnil] at he; cases he
  · rw [hrun] at he
    exact listService_emits h.other h.error he
  · rw [hrun, copyService_run, trace_cons, List.mem_append, List.mem_singleton] at he
    rcases he with rfl | he
    · exact h.other _ (by simp)
    · obtain ⟨s, hs, he⟩ := mem_trace.mp he
      exact (respond_does h.error (copyAction_logged h) trivial s hs).2 e he

end FileFerry
