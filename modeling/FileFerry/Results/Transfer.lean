import FileFerry.Results.Files
import FileFerry.Results.Calls

/-!
# Results — Transfer

A copy under its cap.

* `copy_limited`: what the copy of a capped stream writes, however the stream is chunked.
* `streamCopy_cases`: what a copy between two stores does.
* `transfer_exact`: a copy succeeds exactly when its source comes in time, without an error, and
  fits the cap; then the destination is the source, byte for byte.
-/

namespace FileFerry
open Text Posix AsyncIo Steps

/-! ### The cap -/

/-- The capped reader has given `d` of what its stream yields, within the cap. -/
structure Within {R : Type} [ByteStream R] (c : List UInt8) (err : Option IoError) (max : Nat)
    (d : List UInt8) (r : LimitedReader R) : Prop where
  cap : r.max = max
  counted : r.counter = d.length
  fits : d.length ≤ max
  given : Given c err d r.inner

/-- **A poll of a capped reader** passes on what its stream gives, or fails over the cap. -/
theorem within_polls {R : Type} [ByteStream R] {c : List UInt8} {err : Option IoError} {max : Nat}
    (hc : c.length < 2 ^ 64) {d : List UInt8} {r : LimitedReader R} {b : ReadBuf} (hb : 0 < b.room)
    (h : Within c err max d r) :
    Keeps (Within c err max)
      (fun d r => d = c ∧ err = none ∧ d.length ≤ max ∧ r.counter = d.length)
      (fun d e => d <+: c ∧ d.length ≤ max ∧ (max < c.length ∨ err = some e)) d r b
      (AsyncRead.pollRead r b) := by
  obtain ⟨inner, rmax, counter⟩ := r
  obtain ⟨rfl, hcount, hfits, hgiven⟩ := h
  simp only at hcount hgiven hfits
  subst hcount
  have hpoll := given_polls (R := R) hb hgiven
  have hrank : ∀ r' : R, rank r' < rank inner →
      ∀ n, rank (⟨r', rmax, n⟩ : LimitedReader R) < rank (⟨inner, rmax,
        d.length⟩ : LimitedReader R) :=
    fun _ h _ => h
  have hrun : AsyncRead.pollRead (⟨inner, rmax, d.length⟩ : LimitedReader R) b
      = LimitedReader.pollRead ⟨inner, rmax, d.length⟩ b := rfl
  rw [hrun, LimitedReader.pollRead, if_neg (by simpa using hfits)]
  dsimp only
  generalize AsyncRead.pollRead inner b = p at hpoll
  cases hpoll with
  | @pending r' hlt hi => exact .pending (hrank _ hlt _) ⟨rfl, rfl, hfits, hi⟩
  | @bytes r' b' a hlt ha hb' hi =>
      have hsum : b'.filled.length - b.filled.length = a.length := by
        rw [hb', List.length_append]; omega
      have hle : d.length + a.length ≤ c.length := by
        rw [← hi.1, List.length_append, List.length_append]; omega
      have hmod : (d.length + a.length) % 2 ^ 64 = d.length + a.length :=
        Nat.mod_eq_of_lt (by omega)
      simp only [hsum, hmod]
      by_cases hover : rmax < d.length + a.length
      · rw [if_pos hover]
        exact .error ⟨⟨_, hgiven.1⟩, hfits, .inl (by omega)⟩
      · rw [if_neg hover]
        exact .bytes (hrank _ hlt _) ha hb'
          ⟨rfl, by rw [List.length_append], by rw [List.length_append]; omega, hi⟩
  | @eof r' b' hb' he =>
      have hmod : d.length % 2 ^ 64 = d.length := by
        rw [Nat.mod_eq_of_lt]
        rw [he.1]; exact hc
      simp only [hb', Nat.sub_self, Nat.add_zero, hmod]
      rw [if_neg (by simpa using hfits)]
      exact .eof hb' ⟨he.1, he.2, hfits, rfl⟩
  | @error r' b' e hf => exact .error ⟨by rw [hf.1], hfits, .inr hf.2⟩

/-- **The copy of a capped stream** writes all of it at its end, and a prefix within the cap when it
fails. -/
theorem copy_limited {R : Type} [ByteStream R] (plan : CopyPlan) (r : R) (max : Nat)
    (hc : (stream r).1.length < 2 ^ 64) :
    (∀ r', (copy plan (LimitedReader.new r max)).2 = .ok r' →
      (copy plan (LimitedReader.new r max)).1.flatten = (stream r).1 ∧ (stream r).2 = none ∧
        (stream r).1.length ≤ max ∧ r'.counter = (stream r).1.length) ∧
    ∀ e, (copy plan (LimitedReader.new r max)).2 = .error e →
      (copy plan (LimitedReader.new r max)).1.flatten <+: (stream r).1 ∧
        (copy plan (LimitedReader.new r max)).1.flatten.length ≤ max ∧
        (max < (stream r).1.length ∨ (stream r).2 = some e) := by
  have h := copy_spec plan (r := LimitedReader.new r max)
    (fun d r' b hb hi => within_polls hc hb hi)
    (show Within _ (stream r).2 max [] _ from ⟨rfl, rfl, Nat.zero_le _, rfl, rfl⟩)
  refine ⟨fun r' hr => ?_, fun e he => ?_⟩
  · rw [hr] at h
    obtain ⟨h₁, h₂, h₃, h₄⟩ := h
    exact ⟨h₁, h₂, by rw [← h₁]; exact h₃, by rw [← h₁]; exact h₄⟩
  · rw [he] at h
    obtain ⟨d, ⟨h₁, h₂, h₃⟩, hd⟩ := h
    exact ⟨hd.trans h₁, hd.length_le.trans h₂, h₃⟩

/-- The copy of a source that comes as scripted: it ends well exactly when every delay is within the
limit, nothing fails, and it fits the cap. -/
theorem copy_guarded (plan : CopyPlan) (reader : Script) (max inactivity : Nat)
    (hc : (bytesOf reader.events).length < 2 ^ 64) :
    ((∃ r, (copy plan (guarded reader max inactivity)).2 = .ok r) ↔
      Timely inactivity none reader.clock reader.events ∧ Faultless reader.events ∧
        (bytesOf reader.events).length ≤ max) ∧
    (∀ r, (copy plan (guarded reader max inactivity)).2 = .ok r →
      (copy plan (guarded reader max inactivity)).1.flatten = bytesOf reader.events ∧
        r.counter = (bytesOf reader.events).length) ∧
    ∀ e, (copy plan (guarded reader max inactivity)).2 = .error e →
      (copy plan (guarded reader max inactivity)).1.flatten <+: bytesOf reader.events ∧
        (copy plan (guarded reader max inactivity)).1.flatten.length ≤ max := by
  set t := (TimeoutReader.new reader).setTimeout (some inactivity) with ht
  have hstream : stream t = play (some inactivity) none reader.clock reader.events := rfl
  have hpre : (stream t).1 <+: bytesOf reader.events := by
    rw [hstream]; exact play_isPrefix _ _ _ _
  obtain ⟨hok, herr⟩ := copy_limited plan t max (hpre.length_le.trans_lt hc)
  have hwhole : (stream t).2 = none → (stream t).1 = bytesOf reader.events := fun h => by
    rw [hstream] at h ⊢
    obtain ⟨h₁, h₂⟩ := timely_of_play h
    rw [play_of_timely h₁ h₂]
  refine ⟨⟨fun ⟨r, hr⟩ => ?_, fun ⟨h₁, h₂, h₃⟩ => ?_⟩, fun r hr => ?_, fun e he => ?_⟩
  · obtain ⟨-, hn, hle, -⟩ := hok r hr
    obtain ⟨h₁, h₂⟩ := timely_of_play (hstream ▸ hn)
    exact ⟨h₁, h₂, by rw [← hwhole hn]; exact hle⟩
  · rcases hres : (copy plan (guarded reader max inactivity)).2 with e | r
    · -- neither the stream nor the cap can have failed
      exfalso
      have hplay : stream t = (bytesOf reader.events, none) := by
        rw [hstream, play_of_timely h₁ h₂]
      obtain ⟨-, -, h⟩ := herr e hres
      rw [hplay] at h
      rcases h with h | h
      · exact absurd h₃ (not_le.mpr h)
      · cases h
    · exact ⟨r, rfl⟩
  · obtain ⟨hw, hn, -, hcount⟩ := hok r hr
    rw [hwhole hn] at hw hcount
    exact ⟨hw, hcount⟩
  · obtain ⟨h₁, h₂, -⟩ := herr e he
    exact ⟨h₁.trans hpre, h₂⟩

/-! ### A copy between two stores -/

/-- What opening for reading does between the call and the event that tells of its success. -/
def BackendRef.reading (b : BackendRef) (env : Env) (path : String) : Act Script :=
  match b with
  | .fs b => b.openRead env path
  | .s3 b => b.openRead env path
  | .offline b => b.openRead path

theorem BackendRef.openRead_eq (b : BackendRef) (env : Env) (path : String) :
    b.openRead env path = Act.emit (.call b (.openRead path)) >>= fun _ =>
      b.reading env path >>= fun r => Act.emit (.opened b path) >>= fun _ => pure r := by
  cases b <;> rfl

theorem BackendRef.openRead_value (b : BackendRef) (env : Env) (path : String) (w : World) :
    (b.openRead env path w).2 = (b.reading env path w).2 := by
  rw [BackendRef.openRead_eq, Act.emit_bind]
  rcases hr : b.reading env path w with ⟨l, x | r⟩
  · rw [Act.bind_error hr]
  · rw [Act.bind_ok hr, Act.emit_bind, Act.pure_run]

/-- …and for writing, after the call. -/
def BackendRef.writing {R : Type} [AsyncRead R] (b : BackendRef) (env : Env) (path : String)
    (reader : R) : Act R :=
  match b with
  | .fs b => b.writeAll env path reader
  | .s3 b => b.writeAll env path reader
  | .offline b => b.writeAll path reader

theorem BackendRef.writeAll_run {R : Type} [AsyncRead R] (b : BackendRef) (env : Env)
    (path : String) (reader : R) (w : World) :
    b.writeAll env path reader w = (⟨w, [.call b (.writeAll path)]⟩ ::
      (b.writing env path reader w).1, (b.writing env path reader w).2) := by
  cases b <;> exact Act.emit_bind ..

/-- Opening for reading keeps the world. -/
theorem BackendRef.openRead_keeps (b : BackendRef) (env : Env) (path : String) (w : World) :
    ∀ s ∈ (b.openRead env path w).1, s.world = w := fun s hs =>
  ((BackendRef.openRead_does (Q := fun v => v = w) (P := fun _ => True) b env path trivial trivial
    (fun _ _ _ => trivial) (fun _ => trivial) w rfl).1 s hs).1

theorem BackendRef.after_openRead (b : BackendRef) (env : Env) (path : String) (w : World) :
    after w (b.openRead env path w).1 = w :=
  after_of_forall (Q := fun v => v = w) rfl (b.openRead_keeps env path w)

/-- What is read of an object are its bytes, as they come. -/
theorem BackendRef.reader_of_object {b : BackendRef} {env : Env} {path : String} {w : World}
    {c : List UInt8} {steps : List (Step World Event)} {r : Script}
    (hobj : b.object w path = some c)
    (h : b.openRead env path w = (steps, .ok r)) : r = ⟨deliver env.feed c, 0⟩ := by
  rw [BackendRef.openRead_eq, Act.emit_bind, Prod.mk.injEq] at h
  obtain ⟨-, h⟩ := h
  rcases hr : b.reading env path w with ⟨l, x | r'⟩
  · rw [Act.bind_error hr] at h; cases h
  · rw [Act.bind_ok hr, Act.emit_bind] at h
    obtain rfl := Except.ok.inj h
    cases b with
    | fs b =>
        rcases FsBackend.openRead_cases b env path w with ⟨-, e, h₁⟩ |
          ⟨-, ⟨m, ho, h₁⟩ | ⟨-, e, -, h₁⟩⟩
        · rw [show BackendRef.reading (.fs b) env path w = _ from h₁] at hr; cases hr
        · rw [show BackendRef.reading (.fs b) env path w = _ from h₁, Prod.mk.injEq] at hr
          obtain ⟨m', f, hl, hf, rfl⟩ := Host.fileAt_eq_some.mp hobj
          rw [Host.openRead, hl] at ho
          simp only [hf, Except.ok.injEq] at ho
          subst ho
          obtain rfl := Except.ok.inj hr.2
          rw [hf]; rfl
        · rw [show BackendRef.reading (.fs b) env path w = _ from h₁] at hr; cases hr
    | s3 b =>
        have hrun : BackendRef.reading (.s3 b) env path w = b.openRead env path w := rfl
        have hlook : w.bucket.lookup (b.key path) = some c := hobj
        rw [hrun, S3Backend.openRead, await, Act.step_bind, Prod.mk.injEq] at hr
        obtain ⟨-, hr⟩ := hr
        rw [Act.get_bind] at hr
        rcases hg : env.getFault with _ | e
        · simp only [id, hg, hlook] at hr
          exact (Except.ok.inj hr).symm
        · simp only [hg] at hr
          cases hr
    | offline b => cases hr

/-- **A copy whose source opens** is what its write does, and the audit line if that succeeds. -/
theorem streamCopy_opened {crates : Crates} {env : Env} {src : BackendRef} (dst : BackendRef)
    {srcPath : String} (dstPath : String) (maxBytes inactivity : Nat) {w : World}
    {l : List (Step World Event)} {r : Script} (ho : src.openRead env srcPath w = (l, .ok r)) :
    (∃ e, (dst.writeAll env dstPath (guarded r maxBytes inactivity) w).2 = .error e ∧
      streamCopy crates env src srcPath dst dstPath maxBytes inactivity w
        = (l ++ (dst.writeAll env dstPath (guarded r maxBytes inactivity) w).1, .error e)) ∨
    ∃ r', (dst.writeAll env dstPath (guarded r maxBytes inactivity) w).2 = .ok r' ∧
      streamCopy crates env src srcPath dst dstPath maxBytes inactivity w
        = (l ++ ((dst.writeAll env dstPath (guarded r maxBytes inactivity) w).1 ++
          [⟨after w (dst.writeAll env dstPath (guarded r maxBytes inactivity) w).1,
            [.log (transferCompleted crates env src dst srcPath dstPath r'.counter)]⟩]),
          .ok r'.counter) := by
  have hw := BackendRef.after_openRead src env srcPath w
  rw [ho] at hw
  rw [streamCopy, Act.bind_ok ho, hw]
  rcases hq : dst.writeAll env dstPath (guarded r maxBytes inactivity) w with ⟨m, e | r'⟩
  · exact .inl ⟨e, rfl, by rw [Act.bind_error hq]⟩
  · exact .inr ⟨r', rfl, by rw [Act.bind_ok hq, log, Act.emit_bind]; rfl⟩

/-- Writes to the destination do not fail: it is online, it opens, and no write to it fails. -/
structure Writable (dst : BackendRef) (env : Env) (dstPath : String) (w : World) : Prop where
  writes : env.Writes
  online : ∀ b, dst ≠ .offline b
  opens : ∀ b, dst = .fs b → ∃ l, (b.opening dstPath w).2 = .ok l

/-- What a write that ended so leaves: the object, or the beginning of one in the file system and
nothing in the bucket. -/
theorem writeAll_capped {dst : BackendRef} {env : Env} {dstPath : String} {w : World}
    (reader : Script) (maxBytes inactivity : Nat)
    (hlen : (bytesOf reader.events).length < 2 ^ 64) (hdst : Writable dst env dstPath w) :
    let q := dst.writeAll env dstPath (guarded reader maxBytes inactivity) w
    ((∃ r, q.2 = .ok r) ↔ Timely inactivity none reader.clock reader.events ∧
      Faultless reader.events ∧ (bytesOf reader.events).length ≤ maxBytes) ∧
    (∀ r, q.2 = .ok r → r.counter = (bytesOf reader.events).length ∧
      dst.object (after w q.1) dstPath = some (bytesOf reader.events)) ∧
    ∀ e, q.2 = .error e →
      (∀ b, dst = .fs b → ∃ d, dst.object (after w q.1) dstPath = some d ∧
        d <+: bytesOf reader.events ∧ d.length ≤ maxBytes) ∧
      ∀ b, dst = .s3 b → (after w q.1).bucket = w.bucket ∧ ∀ key, .putObject key ∉ trace q.1 := by
  intro q
  obtain ⟨hiff, hok, herr⟩ := copy_guarded env.copy reader maxBytes inactivity hlen
  have hq : q = (⟨w, [.call dst (.writeAll dstPath)]⟩ ::
      (dst.writing env dstPath (guarded reader maxBytes inactivity) w).1,
      (dst.writing env dstPath (guarded reader maxBytes inactivity) w).2) :=
    BackendRef.writeAll_run ..
  rw [hq]
  cases dst with
  | offline b => exact absurd rfl (hdst.online b)
  | fs b =>
      obtain ⟨l, hl⟩ := hdst.opens b rfl
      obtain ⟨hobj, hres⟩ :=
        FsBackend.writeAll_opened (guarded reader maxBytes inactivity) hl hdst.writes
      have hresult : ∀ r, (b.writeAll env dstPath (guarded reader maxBytes inactivity) w).2
        = .ok r ↔
          (copy env.copy (guarded reader maxBytes inactivity)).2 = .ok r := fun r => by
        rcases hres with ⟨e, h₁, h₂⟩ | ⟨r', h₁, h₂⟩
        · rw [h₁, h₂]; simp
        · rw [h₁, h₂]; simp
      refine ⟨Iff.trans ⟨fun ⟨r, h⟩ => ⟨r, (hresult r).mp h⟩, fun ⟨r, h⟩ => ⟨r, (hresult r).mpr h⟩⟩
        hiff, fun r hr => ?_, fun e he => ⟨fun b' hb => ?_, fun b' hb => by cases hb⟩⟩
      · obtain ⟨hw, hcount⟩ := hok r ((hresult r).mp hr)
        exact ⟨hcount, hobj.trans (by rw [hw])⟩
      · rcases hres with ⟨x, -, h₂⟩ | ⟨r', h₁, -⟩
        · exact ⟨_, hobj, herr x h₂⟩
        · rw [show (b.writeAll env dstPath (guarded reader maxBytes inactivity) w).2 = _
            from he] at h₁
          cases h₁
  | s3 b =>
      have hputs := S3Backend.writeAll_puts b env dstPath (guarded reader maxBytes inactivity) w
      generalize hwr : b.writeAll env dstPath (guarded reader maxBytes inactivity) w = p at hputs
      have hwr' : BackendRef.writing (.s3 b) env dstPath (guarded reader maxBytes inactivity) w
        = p := hwr
      rw [hwr']
      cases hputs with
      | @failed steps e hs hf =>
          obtain ⟨x, hx⟩ := hf hdst.writes
          refine ⟨⟨fun ⟨r, h⟩ => (by cases h), fun h => ?_⟩, fun r h => (by cases h),
            fun e' _ => ⟨fun b' hb => (by cases hb), fun b' _ => ⟨?_, fun key hk => ?_⟩⟩⟩
          · obtain ⟨r, hr⟩ := hiff.mpr h
            rw [hx] at hr; cases hr
          · rw [after_cons, hs.after]
          · rw [trace_cons, hs.trace] at hk; simp at hk
      | refused _ hn => exact absurd hdst.writes hn
      | @stored steps r v hs hr hv =>
          obtain ⟨hw, hcount⟩ := hok r hr
          refine ⟨⟨fun _ => hiff.mp ⟨r, hr⟩, fun _ => ⟨r, rfl⟩⟩, fun r' h => ?_,
            fun e h => (by cases h)⟩
          obtain rfl := Except.ok.inj h
          refine ⟨hcount, ?_⟩
          simp only [after_cons, after_append, after_nil, BackendRef.object, hv,
            AList.lookup_insert, hw]

/-- **A copy under its cap**, between stores that can be read and written: it succeeds exactly when
the source comes in time, without an error, and fits the cap; then the destination is the source,
byte for byte.  Otherwise a file holds a beginning of the source within the cap, and the bucket is
as it was. -/
theorem transfer_exact {crates : Crates} {env : Env} {src dst : BackendRef}
    {srcPath dstPath : String}
    {maxBytes inactivity : Nat} {w : World} {c : List UInt8} (hsrc : src.object w srcPath = some c)
    (hopen : ∃ r, (src.openRead env srcPath w).2 = .ok r) (hlen : c.length < 2 ^ 64)
    (hdst : Writable dst env dstPath w) :
    let run := streamCopy crates env src srcPath dst dstPath maxBytes inactivity w
    ((∃ n, run.2 = .ok n) ↔ Timely inactivity none 0 (deliver env.feed c) ∧
      Faultless (deliver env.feed c) ∧ c.length ≤ maxBytes) ∧
    (∀ n, run.2 = .ok n → n = c.length ∧ dst.object (after w run.1) dstPath = some c) ∧
    ∀ e, run.2 = .error e →
      (∀ b, dst = .fs b → ∃ d, dst.object (after w run.1) dstPath = some d ∧ d <+: c ∧
        d.length ≤ maxBytes) ∧
      ∀ b, dst = .s3 b → (after w run.1).bucket = w.bucket ∧
        ∀ key, .putObject key ∉ trace run.1 := by
  intro run
  obtain ⟨r, hr⟩ := hopen
  rcases ho : src.openRead env srcPath w with ⟨l, x | r'⟩
  · rw [ho] at hr; cases hr
  obtain rfl := BackendRef.reader_of_object hsrc ho
  have hw := BackendRef.after_openRead src env srcPath w
  rw [ho] at hw
  have hbytes : bytesOf (deliver env.feed c) = c := bytesOf_deliver _ _
  obtain ⟨hiff, hok, herr⟩ := writeAll_capped ⟨deliver env.feed c, 0⟩ maxBytes inactivity
    (by rw [hbytes]; exact hlen) hdst
  rw [hbytes] at hiff hok herr
  have hread : ∀ key, Event.putObject key ∉ trace l := fun key hk => by
    obtain ⟨s, hs, he⟩ := mem_trace.mp hk
    have := BackendRef.openRead_does (Q := fun _ => True) (P := fun e => e ≠ .putObject key) src env
      srcPath (by simp) (by simp) (fun _ _ _ => by simp) (fun _ => by simp) w trivial
    rw [ho] at this
    exact (this.1 s hs).2 _ he rfl
  rcases streamCopy_opened dst dstPath maxBytes inactivity ho with ⟨e, he, hrun⟩ | ⟨r', he, hrun⟩
  · have hr : run = _ := hrun
    rw [hr]
    refine ⟨⟨fun ⟨n, h⟩ => (by cases h), fun h => ?_⟩, fun n h => (by cases h), fun e' _ => ?_⟩
    · obtain ⟨r', h'⟩ := hiff.mpr h
      rw [he] at h'; cases h'
    · rw [after_append, hw]
      obtain ⟨h₁, h₂⟩ := herr e he
      refine ⟨h₁, fun b hb => ⟨(h₂ b hb).1, fun key hk => ?_⟩⟩
      rw [trace_append] at hk
      exact (List.mem_append.mp hk).elim (hread key) ((h₂ b hb).2 key)
  · have hr : run = _ := hrun
    obtain ⟨hcount, hobj⟩ := hok r' he
    rw [hr]
    refine ⟨⟨fun _ => hiff.mp ⟨r', he⟩, fun _ => ⟨_, rfl⟩⟩, fun n h => ?_, fun e h => (by cases h)⟩
    obtain rfl := Except.ok.inj h
    refine ⟨hcount, ?_⟩
    rw [after_append, hw, after_append]
    exact hobj

/-- Three bytes in the bucket, and an empty directory. -/
def transferWorld : World :=
    { World.empty with host := dataHost, bucket := .singleton "a" [1, 2, 3] }

/-- The bytes come one, and after a while two. -/
def transferEnv : Env := { Env.calm with feed := [.chunk 0, .pending 3, .chunk 1] }

theorem transfer_exact_at_cap : ∃ n, (streamCopy .strict transferEnv (.s3 ⟨"objects", ""⟩) "a"
    (.fs dataFs) "b" 3 30 transferWorld).2 = .ok n :=
  (transfer_exact (c := [1, 2, 3]) (by decide) ⟨_, rfl⟩ (by decide)
    ⟨⟨rfl, rfl, rfl, rfl, rfl⟩, by simp, fun b hb => by
      cases hb; exact ⟨[bytes "b", bytes "data"], rfl⟩⟩).1.mpr
    ⟨by simp [transferEnv, deliver, ReadEvent.push, Timely],
      by simp [transferEnv, deliver, ReadEvent.push, Faultless], by decide⟩

end FileFerry
