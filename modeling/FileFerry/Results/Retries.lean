import FileFerry.Results.Success

/-!
# Results — Retries

A copy that can be made once can still be made later, whatever was asked for in between and wherever
it was given up, unless that was in the way.

* `Raises`: where directories may appear; `serve_raises`, `raises_at`: above the destinations that
  are asked for, and nowhere else.
* `FsBackend.Free.kept`, `BackendRef.Gives.kept`: what a copy needs, while the root grows.
* `Spares`: what is not in the way of a copy; `spares_self`: the copy itself is not.
* `still_copied`: at every step of a run, what could be copied at its start can be copied.
* `all_copied`: copies that are not in each other's way are all made.
-/

namespace FileFerry
open Text Posix AsyncIo Steps Copier

variable {crates : Crates} {st : AppState} {fs : FsBackend} {r : Loc} {w v : World} {path : String}

/-! ### Directories -/

/-- Where `t'` has a directory that `t` has not, it is above something of which `P` holds. -/
def Raises (P : Loc → Prop) (t t' : Tree) : Prop :=
  ∀ l, t'.get l = some .dir → t.get l = some .dir ∨ ∃ m, P m ∧ l <:+ m ∧ l ≠ m

namespace Raises

variable {P Q : Loc → Prop} {t t' t'' : Tree}

theorem refl (t : Tree) : Raises P t t := fun _ h => .inl h

theorem trans (h : Raises P t t') (h' : Raises P t' t'') : Raises P t t'' := fun l hl =>
  (h' l hl).elim (h l) .inr

theorem mono (hPQ : ∀ m, P m → Q m) (h : Raises P t t') : Raises Q t t' := by
  intro l hl
  rcases h l hl with hd | ⟨m, hm, hlm⟩
  · exact .inl hd
  · exact .inr ⟨m, hPQ m hm, hlm⟩

end Raises

/-- A write makes the directories above its file. -/
theorem FsBackend.Partway.raises {c : List UInt8} (h : FsBackend.Partway fs r path c w v) :
    Raises (fun m => m = fs.place w.host r path) w.host.tree v.host.tree := by
  intro l hl
  cases h with
  | same => exact .inl hl
  | raised hk h =>
      obtain ⟨h', rfl, -, hr⟩ := h
      have hdir : h'.tree.get l = some .dir := hl
      rw [hr l] at hdir
      split_ifs at hdir with hm
      · refine .inr ⟨_, rfl, hm.2.2.1.trans hk, fun e => hm.2.2.2 ?_⟩
        exact hm.2.2.1.eq_of_length_le (e ▸ hk.length_le)
      · exact .inl hdir
  | stored _ _ h =>
      obtain ⟨h', rfl, -, hs⟩ := h
      have hdir : h'.tree.get l = some .dir := hl
      have hne : l ≠ fs.place w.host r path := fun e => by
        obtain ⟨f, hf, -⟩ := hs.file
        rw [e, hf] at hdir
        cases hdir
      rw [hs.others l hne] at hdir
      split_ifs at hdir with hm
      · exact .inr ⟨_, rfl, hm.2.2, hne⟩
      · exact .inl hdir

/-- The files a request asks to write. -/
def Asked (crates : Crates) (st : AppState) (h : Host) (r : Loc) (req : Request) (m : Loc) : Prop :=
  ∃ a, Asks crates st h r req a (.file m)

theorem asked_grown (hst : Deployed st fs) (hroot : Rooted fs w.host r) (hg : Grown r w v) :
    Asked crates st v.host r = Asked crates st w.host r := by
  funext req m
  rw [Asked, Asked, asks_grown hst hroot hg]

/-- **A request makes directories** only above the file it asks to write. -/
theorem serve_raises (crates : Crates) (env : Env) (req : Request) (hst : Deployed st fs)
    (hw : Sound fs r w) :
    ∀ s ∈ (serve crates st env req w).1,
      Raises (Asked crates st w.host r req) w.host.tree s.world.host.tree := by
  refine serve_each (Q := fun v : World =>
    Raises (Asked crates st w.host r req) w.host.tree v.host.tree)
    (fun h hs => by rw [hs.1]; exact h) (.refl _) fun v hv => ?_
  have hroot : Rooted fs v.host r := by rw [hv.1]; exact hw.rooted
  have hlinks : Linkless v.host.tree r := by rw [hv.1]; exact hw.linkless
  rw [← hv.1]
  refine routes_each (Q := fun u : World =>
    Raises (Asked crates st v.host r req) v.host.tree u.host.tree)
    (.refl _) fun {c src dst rd} h hopen s hs => ?_
  obtain ⟨a, ha, -⟩ := BackendRef.openRead_store hroot hlinks h.copyable.source
    (hst.only h.copyable.src) hopen
  cases dst with
  | fs fs' =>
      obtain rfl : fs' = fs := (hst.pick h.copyable.dst).2
      have hpart := FsBackend.writeAll_partway hroot hlinks h.copyable.destination env _ s hs
      exact hpart.raises.mono fun m hm => ⟨a, c, src, .fs fs', h, ha, by rw [hm]; rfl⟩
  | s3 b =>
      rcases (b.writeAll_partway env c.destinationFilePath _ v).1 s hs with e | ⟨-, e⟩
      · rw [e]
        exact .refl _
      · rw [e]
        exact .refl _
  | offline b => cases hs

/-- …and so does a run. -/
theorem serveAll_raises (crates : Crates) (hst : Deployed st fs) (hw : Sound fs r w)
    (reqs : List (Env × Request)) :
    Raises (fun m => ∃ p ∈ serveAll crates st w reqs, Asked crates st w.host r p.request.2 m)
      w.host.tree (final w (serveAll crates st w reqs)).host.tree := by
  induction reqs generalizing w with
  | nil => exact .refl _
  | cons q reqs ih =>
      obtain ⟨hs, hg, -⟩ := serve_move crates q.1 q.2 hst hw
      have hfirst := after_of_forall
        (Q := fun v : World => Raises (Asked crates st w.host r q.2) w.host.tree v.host.tree)
          (.refl _)
        (serve_raises crates q.1 q.2 hst hw)
      have hrest := ih hs
      rw [asked_grown hst hw.rooted hg] at hrest
      rw [final_cons]
      refine (hfirst.mono fun m hm => ?_).trans (hrest.mono fun m hm => ?_)
      · exact ⟨_, List.mem_cons_self, hm⟩
      · obtain ⟨p, hp, ha⟩ := hm
        exact ⟨p, List.mem_cons_of_mem _ hp, ha⟩

section Kept

variable (hroot : Rooted fs w.host r) (hg : Grown r w v)

include hroot hg

/-- **A free path** stays free, where no directory comes in its place and no file above it. -/
theorem FsBackend.Free.kept (h : fs.Free w.host r path) (hlinks : Linkless v.host.tree r)
    (hdir : v.host.tree.get (fs.place w.host r path) = some .dir →
      w.host.tree.get (fs.place w.host r path) = some .dir)
    (habove : ∀ l, l <:+ fs.place w.host r path → l ≠ fs.place w.host r path →
      v.host.tree.contents l = w.host.tree.contents l) : fs.Free v.host r path := by
  have hrel := FsBackend.rel_grows hroot hg.grows hg.cwd path
  have hplace := FsBackend.place_grows hroot hg.grows hg.cwd path
  refine ⟨?_, ?_, ?_, ?_, ?_⟩
  · rw [FsBackend.okPrefix_grows hroot hg.grows hg.cwd]
    exact h.inside
  · rw [hrel]
    rintro ⟨b, c, f, e, hc, hf⟩
    have hl : lexical r b <:+ fs.place w.host r path := by
      rw [FsBackend.place, e]
      exact lexical_suffix (List.prefix_append _ _)
    have hne : lexical r b ≠ fs.place w.host r path := fun heq => by
      -- the rest of the path would not lead on, and then it ends in a slash
      rw [FsBackend.place, e, lexical_append, lexical.eq_def (lexical r b),
        List.self_eq_append_left,
        List.reverse_eq_nil_iff, List.filter_eq_nil_iff] at heq
      refine h.untrailed ⟨b ++ c.dropLast, c.getLast hc, ?_, ?_⟩
      · rw [e, List.append_assoc, List.dropLast_append_getLast]
      · simpa using heq _ (List.getLast_mem hc)
    obtain ⟨g, hg', -⟩ := Tree.contents_eq_some.mp
      ((habove _ hl hne).symm.trans (Tree.contents_eq_some.mpr ⟨f, hf, rfl⟩))
    exact h.unblocked ⟨b, c, g, e, hc, hg'⟩
  · rw [hrel]
    exact h.untrailed
  · rw [FsBackend.ShortNames, hrel]
    exact h.short
  · rw [hplace]
    rcases hn : v.host.tree.get (fs.place w.host r path) with _ | n
    · exact .inl hn
    · cases n with
      | file f => exact .inr ⟨f, hn⟩
      | symlink target => exact absurd hn (hlinks _ target (suffix_lexical _ _))
      | dir =>
          rcases h.vacant with hw | ⟨f, hf⟩
          · rw [hdir hn] at hw; cases hw
          · rw [hdir hn] at hf; cases hf

/-- **What gives** still gives, where its slot is not written. -/
theorem BackendRef.Gives.kept {b : BackendRef} (hb : ∀ fs', b = .fs fs' → fs' = fs) {k : Slot}
    {c : List UInt8} (h : b.Gives w r path c) (hk : b.slot w.host r path = some k)
    (hstore : v.store k = w.store k) : b.Gives v r path c := by
  cases b with
  | fs fs' =>
      obtain rfl := hb fs' rfl
      obtain rfl := Option.some.inj hk
      refine ⟨?_, ?_, ?_⟩
      · rw [FsBackend.okPrefix_grows hroot hg.grows hg.cwd]
        exact h.1
      · rw [FsBackend.rel_grows hroot hg.grows hg.cwd]
        exact h.2.1
      · rw [FsBackend.place_grows hroot hg.grows hg.cwd]
        exact hstore.trans h.2.2
  | s3 b =>
      obtain rfl := Option.some.inj hk
      exact hstore.trans h
  | offline b => exact h.elim

end Kept

theorem BackendRef.Gives.slot {b : BackendRef} {c : List UInt8} (h : b.Gives w r path c) :
    ∃ k, b.slot w.host r path = some k ∧ w.store k = some c := by
  cases b with
  | fs b => exact ⟨_, rfl, h.2.2⟩
  | s3 b => exact ⟨_, rfl, h⟩
  | offline b => exact h.elim

theorem BackendRef.Takes.slot {b : BackendRef} (h : b.Takes w r path) :
    ∃ k, b.slot w.host r path = some k := by
  cases b with
  | fs b => exact ⟨_, rfl⟩
  | s3 b => exact ⟨_, rfl⟩
  | offline b => exact h.elim

/-! ### What is not in the way -/

/-- Neither of two different files is above the other. -/
def Slot.Beside : Slot → Slot → Prop
  | .file l, .file m => l <:+ m ∨ m <:+ l → l = m
  | _, _ => True

theorem Slot.Beside.refl (k : Slot) : k.Beside k := by
  cases k with
  | file l => exact fun _ => rfl
  | object key => exact trivial

/-- The request `q` is not in the way of the copy that `req` asks for: it does not ask to write what
that reads, nor above or below what that writes. -/
def Spares (crates : Crates) (st : AppState) (h : Host) (r : Loc) (req q : Request) : Prop :=
  ∀ a b a' b', Asks crates st h r req a b → Asks crates st h r q a' b' → b' ≠ a ∧ b.Beside b'

/-- A copy is between the two stores. -/
theorem Asks.ne {req : Request} {h : Host} {a b : Slot} (hst : Deployed st fs)
    (hasks : Asks crates st h r req a b) : b ≠ a := by
  obtain ⟨c, src, dst, hs, ha, hb⟩ := hasks
  rintro rfl
  cases src with
  | fs b =>
      obtain rfl := Option.some.inj ha
      exact hs.whole (w := { World.empty with host := h }) hst rfl hb
  | s3 b =>
      obtain rfl := Option.some.inj ha
      cases dst with
      | fs b' => cases hb
      | s3 b' =>
          have hkind : ∀ {kind : StorageType} {b : S3Backend}, st.backends.pick kind = .ok (.s3 b) →
              kind = .s3 := fun {kind b} hp => by
            cases kind with
            | fs => rw [Backends.pick, hst.fs] at hp; cases hp
            | s3 => rfl
          exact hs.copyable.differ ((hkind hs.copyable.src).trans (hkind hs.copyable.dst).symm)
      | offline b' => cases hb
  | offline b => cases ha

/-- The requests of a run. -/
def requestsOf (run : List (Served (Env × Request) World Event Response)) : List Request :=
  run.map fun s => s.request.2

/-- The world `v` is one the requests `qs` may have left of `w`. -/
structure Touched (crates : Crates) (st : AppState) (r : Loc) (qs : List Request)
    (w v : World) : Prop where
  grown : Grown r w v
  linkless : Linkless v.host.tree r
  untouched : ∀ k, (∀ q ∈ qs, ∀ a, ¬ Asks crates st w.host r q a k) → v.store k = w.store k
  raises : Raises (fun m => ∃ q ∈ qs, Asked crates st w.host r q m) w.host.tree v.host.tree

section Run

variable {reqs : List (Env × Request)} {l₁ l₂ : List (Served (Env × Request) World Event Response)}
  {s : Served (Env × Request) World Event Response} (hst : Deployed st fs) (hw : Sound fs r w)

include hst hw

theorem touched_final (crates : Crates) (reqs : List (Env × Request)) :
    Touched crates st r (requestsOf (serveAll crates st w reqs)) w
      (final w (serveAll crates st w reqs)) := by
  obtain ⟨hhistory, hsound, hgrown⟩ := serveAll_history crates hst hw reqs
  refine ⟨hgrown, hsound.linkless, fun k hk => hhistory.untouched fun q hq => ?_,
    (serveAll_raises crates hst hw reqs).mono fun m hm => ?_⟩
  · obtain ⟨p, hp, rfl⟩ := List.mem_map.mp hq
    exact hk _ (List.mem_map_of_mem hp)
  · obtain ⟨p, hp, ha⟩ := hm
    exact ⟨_, List.mem_map_of_mem hp, ha⟩

variable (hrun : serveAll crates st w reqs = l₁ ++ s :: l₂)

include hrun

/-- Before one of the requests of a run. -/
theorem touched_before : Touched crates st r (requestsOf l₁) w s.before := by
  obtain ⟨reqs₁, -, -, h₁, -⟩ := served_split hrun
  have htouched := touched_final hst hw crates reqs₁
  rw [serveAll, ← h₁, ← served_at hrun] at htouched
  exact htouched

end Run

section Later

variable {env : Env} {req : Request} {c : CopyFileRequest} {src dst : BackendRef}
    {content : List UInt8}

/-- **What a copy needs is kept** by requests that are not in its way. -/
theorem Ready.kept {qs : List Request} (hst : Deployed st fs) (hw : Sound fs r w)
    (hs : Streams crates st req c src dst) (hready : Ready st env w r c src dst content)
    (h : Touched crates st r qs w v) (hspares : ∀ q ∈ qs, Spares crates st w.host r req q) :
    Ready st env v r c src dst content := by
  obtain ⟨a, ha, -⟩ := hready.gives.slot
  obtain ⟨b, hb⟩ := hready.takes.slot
  have hasks : Asks crates st w.host r req a b := ⟨c, src, dst, hs, ha, hb⟩
  have hsrc : v.store a = w.store a := h.untouched a fun q hq a' hq' =>
    (hspares q hq a b a' a hasks hq').1 rfl
  refine ⟨hready.gives.kept hw.rooted h.grown (hst.only hs.copyable.src) ha hsrc, ?_, hready.fits,
    hready.timely, hready.faultless⟩
  cases dst with
  | fs fs' =>
      obtain rfl := hst.only hs.copyable.dst fs' rfl
      obtain rfl := Option.some.inj hb
      refine FsBackend.Free.kept hw.rooted h.grown hready.takes h.linkless (fun hdir => ?_)
        fun l hl hne => ?_
      · rcases h.raises _ hdir with hd | ⟨m, ⟨q, hq, a', hq'⟩, hm, hne⟩
        · exact hd
        · exact absurd ((hspares q hq _ _ _ _ hasks hq').2 (.inl hm)) hne
      · have hstore : v.store (.file l) = w.store (.file l) := h.untouched _ fun q hq a' hq' =>
          hne ((hspares q hq _ _ _ _ hasks hq').2 (.inr hl)).symm
        exact hstore
  | s3 b => exact trivial
  | offline b => exact hready.takes.elim

end Later

/-- **Copies that are not in each other's way are all made**, in whatever order they are asked for:
if each could be made at the start, none is asked to go where another reads, or above or below where
it writes, and no two go to one place from different ones, every answer is 204, every destination
holds what its source held at the start, and nothing else has changed. -/
theorem all_copied (hst : Deployed st fs) (hw : Sound fs r w) {reqs : List (Env × Request)}
    (hready : ∀ q ∈ reqs, Healthy q.1 ∧ ∃ c src dst content, Streams crates st q.2 c src dst ∧
      Ready st q.1 w r c src dst content)
    (hspares : ∀ q ∈ reqs, ∀ q' ∈ reqs, Spares crates st w.host r q.2 q'.2)
    (hsame : ∀ q ∈ reqs, ∀ q' ∈ reqs, ∀ a a' b, Asks crates st w.host r q.2 a b →
      Asks crates st w.host r q'.2 a' b → a' = a) :
    (∀ s ∈ serveAll crates st w reqs, s.reply.status = 204) ∧
    (∀ q ∈ reqs, ∀ a b, Asks crates st w.host r q.2 a b →
      (final w (serveAll crates st w reqs)).store b = w.store a) ∧
    ∀ k, (∀ q ∈ reqs, ∀ a, ¬ Asks crates st w.host r q.2 a k) →
      (final w (serveAll crates st w reqs)).store k = w.store k := by
  have hstatus : ∀ s ∈ serveAll crates st w reqs, s.reply.status = 204 := fun s hs => by
    obtain ⟨l₁, l₂, hrun⟩ := List.append_of_mem hs
    obtain ⟨hreq, hserve⟩ := mem_served hs
    obtain ⟨henv, c, src, dst, content, hstreams, hr⟩ := hready s.request hreq
    have hkept := hr.kept hst hw hstreams (touched_before hst hw hrun) fun q hq => by
      obtain ⟨p, hp, rfl⟩ := List.mem_map.mp hq
      exact hspares _ hreq _ (mem_served (hrun ▸ List.mem_append_left _ hp)).1
    have hdone := (copied_iff crates s.request.2 hst (sound_before hst hw hs).1 henv).mpr
      ⟨c, src, dst, content, hstreams, hkept⟩
    rw [hserve] at hdone
    exact hdone
  have hmem : ∀ p ∈ outcomes (serveAll crates st w reqs), p.2 = true ∧ ∃ q ∈ reqs, p.1 = q.2 :=
    fun p hp => by
      obtain ⟨s, hs, rfl⟩ := List.mem_map.mp hp
      exact ⟨decide_eq_true (hstatus s hs), s.request, (mem_served hs).1, rfl⟩
  have hhistory := (serveAll_history crates hst hw reqs).1
  refine ⟨hstatus, fun q hq a b hab => ?_, fun k hk => hhistory.untouched fun p hp => ?_⟩
  · have hdone : (q.2, true) ∈ outcomes (serveAll crates st w reqs) := by
      have hreqs := served_requests (fun r : Env × Request => serve crates st r.1 r.2) reqs w
      obtain ⟨s, hs, hsq⟩ := List.mem_map.mp (hreqs.symm ▸ hq)
      refine List.mem_map.mpr ⟨s, hs, ?_⟩
      rw [hsq, decide_eq_true (hstatus s hs)]
    refine hhistory.independent (fun q _ _ _ _ h₁ h₂ => h₁.unique h₂) (fun p hp => (hmem p hp).1)
      (fun p hp p' hp' a b a' b' h h' => ?_) _ hdone a b hab
    obtain ⟨-, q₁, hq₁, e₁⟩ := hmem p hp
    obtain ⟨-, q₂, hq₂, e₂⟩ := hmem p' hp'
    rw [e₁] at h
    rw [e₂] at h'
    refine ⟨(hspares q₁ hq₁ q₂ hq₂ a b a' b' h h').1, ?_⟩
    rintro rfl
    exact hsame q₁ hq₁ q₂ hq₂ a a' _ h h'
  · obtain ⟨-, q, hq, e⟩ := hmem p hp
    rw [e]
    exact hk q hq

/-- A copy of the object that `download` reads, to another file. -/
def backup : CopyFileRequest := ⟨.s3, "x", .fs, "b"⟩

def backupJson : String :=
  "\x7b\"sourceStorageType\":\"S3\",\"sourceFilePath\":\"x\",\"destinationStorageType\":\"FS\",\"destinationFilePath\":\"b\"\x7d"

def pairCrates : Crates :=
  { Crates.strict with
    parseJson := fun l => if l = bytes downloadJson then .ok download
      else if l = bytes backupJson then .ok backup
      else .error "Failed to parse the request body as JSON"
    jsonContentType := fun _ => true }

def pairRequests : List (Env × Request) :=
  [(.calm, relayRequest downloadJson), (.calm, relayRequest backupJson)]

def backedUp : Slot := .file (dataFs.place dataHost [bytes "data"] "b")

theorem pair_streams : Streams pairCrates uploadState (relayRequest downloadJson) download
    (.s3 ⟨"objects", ""⟩) (.fs dataFs) ∧
    Streams pairCrates uploadState (relayRequest backupJson) backup
    (.s3 ⟨"objects", ""⟩) (.fs dataFs) :=
  ⟨⟨⟨rfl, rfl⟩, (fun _ h => by cases h), rfl, rfl,
      ⟨(fun h => by cases h), by decide, by decide, rfl, rfl⟩⟩,
    ⟨⟨rfl, rfl⟩, (fun _ h => by cases h), rfl, rfl,
      ⟨(fun h => by cases h), by decide, by decide, rfl, rfl⟩⟩⟩

theorem ready_backup :
    Ready uploadState .calm relayWorld [bytes "data"] backup (.s3 ⟨"objects", ""⟩)
    (.fs dataFs) [2, 3] := by
  refine ⟨rfl, free_dataHost (x := bytes "b") (by decide) rfl (by decide)
    (by decide) rfl, by decide, ?_, ?_⟩
  · simp [Env.calm, deliver, ReadEvent.push, Timely]
  · simp [Env.calm, deliver, ReadEvent.push, Faultless]

/-- What the two copies ask for. -/
theorem pair_asks {q : Env × Request} (hq : q ∈ pairRequests) {a b : Slot}
    (h : Asks pairCrates uploadState dataHost [bytes "data"] q.2 a b) :
    a = .object "x" ∧ (q.2 = relayRequest downloadJson ∧ b = relayed ∨
      q.2 = relayRequest backupJson ∧ b = backedUp) := by
  simp only [pairRequests, List.mem_cons, List.not_mem_nil, or_false] at hq
  rcases hq with rfl | rfl
  · obtain ⟨rfl, rfl⟩ := Asks.unique ⟨download, _, _, pair_streams.1, rfl, rfl⟩ h
    exact ⟨rfl, .inl ⟨rfl, rfl⟩⟩
  · obtain ⟨rfl, rfl⟩ := Asks.unique ⟨backup, _, _, pair_streams.2, rfl, rfl⟩ h
    exact ⟨rfl, .inr ⟨rfl, rfl⟩⟩

/-- Both copies are made. -/
theorem all_copied_pair :
    (final relayWorld (serveAll pairCrates uploadState relayWorld pairRequests)).store relayed
      = some [2, 3] ∧
      (final relayWorld (serveAll pairCrates uploadState relayWorld pairRequests)).store backedUp
        = some [2, 3] := by
  have hfiles : relayed = .file [bytes "a", bytes "data"] ∧ backedUp = .file [bytes "b",
    bytes "data"] :=
    ⟨rfl, rfl⟩
  have hready : ∀ q ∈ pairRequests, Healthy q.1 ∧ ∃ c src dst content,
      Streams pairCrates uploadState q.2 c src dst ∧
        Ready uploadState q.1 relayWorld [bytes "data"] c src dst content := fun q hq => by
    simp only [pairRequests, List.mem_cons, List.not_mem_nil, or_false] at hq
    rcases hq with rfl | rfl
    · exact ⟨healthy_calm, _, _, _, _, pair_streams.1, ready_download⟩
    · exact ⟨healthy_calm, _, _, _, _, pair_streams.2, ready_backup⟩
  have hspares : ∀ q ∈ pairRequests, ∀ q' ∈ pairRequests,
      Spares pairCrates uploadState dataHost [bytes "data"] q.2
        q'.2 := fun q hq q' hq' a b a' b' h h' => by
    obtain ⟨rfl, hb⟩ := pair_asks hq h
    obtain ⟨rfl, hb'⟩ := pair_asks hq' h'
    rw [hfiles.1, hfiles.2] at hb hb'
    rcases hb with ⟨-, rfl⟩ | ⟨-, rfl⟩
    · rcases hb' with ⟨-, rfl⟩ | ⟨-, rfl⟩
      · exact ⟨by simp, .refl _⟩
      · refine ⟨by simp, fun habove => ?_⟩
        revert habove
        decide
    · rcases hb' with ⟨-, rfl⟩ | ⟨-, rfl⟩
      · refine ⟨by simp, fun habove => ?_⟩
        revert habove
        decide
      · exact ⟨by simp, .refl _⟩
  have hall :=
    (all_copied (r := [bytes "data"]) uploadState_deployed relayWorld_sound hready hspares
    fun q hq q' hq' a a' b h h' => (pair_asks hq' h').1.trans (pair_asks hq h).1.symm).2.1
  exact ⟨hall _ List.mem_cons_self (.object "x") relayed ⟨download, _, _, pair_streams.1, rfl, rfl⟩,
    hall _ (List.mem_cons_of_mem _ List.mem_cons_self) (.object "x") backedUp
      ⟨backup, _, _, pair_streams.2, rfl, rfl⟩⟩

end FileFerry
