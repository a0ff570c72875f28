import FileFerry.Results.Handlers
import FileFerry.Results.Listing

/-!
# Results — Paging

A client that lists a store page by page, while the store changes.

* `StoreWalk`: the answers to a client that passes each cursor on; `ListWalk`, over the data root.
* `Lists`: a visit at which a listing is a page of given files.  `StoreWalk.toWalk`,
  `StoreWalk.ofWalk`: the client's walks are the walks over these files.
* `list_walk_exact`: of the data root, nothing is reported twice, and nothing that stays is missed.
* `cursors_accepted_iff`: a cursor comes back exactly when the validator takes the names there are.
-/

namespace FileFerry
open Text Posix AsyncIo Steps Window

/-- A request of the client, and what it meets. -/
structure Visit where
  limit : Option Nat
  env : Env
  world : World

/-- The limit of a page. -/
def pageLimit (limit : Option Nat) : Nat :=
  match limit with
  | none => DEFAULT_LIST_LIMIT
  | some 0 => DEFAULT_LIST_LIMIT
  | some n => n

theorem pageLimit_pos (limit : Option Nat) : 0 < pageLimit limit := by
  rcases limit with _ | _ | n
  · simp [pageLimit, DEFAULT_LIST_LIMIT]
  · simp [pageLimit, DEFAULT_LIST_LIMIT]
  · simp [pageLimit]

theorem effectiveLimit_ok {limit : Option Nat} (h : ∀ n, limit = some n → n ≤ MAX_LIST_LIMIT) :
    effectiveLimit limit = .ok (pageLimit limit) := by
  rcases limit with _ | _ | n
  · rfl
  · rfl
  · exact if_neg (by have := h _ rfl; omega)

variable {st : AppState} {kind : StorageType} {b : BackendRef} {fs : FsBackend} {v : Visit}

/-- A listing that is not refused. -/
theorem listFiles_run {env : Env} {q : ListFilesQuery} {w : World} {b : BackendRef}
    (hb : st.backends.pick q.storageType = .ok b)
    (hlim : ∀ n, q.limit = some n → n ≤ MAX_LIST_LIMIT)
    (hc : ∀ c, q.startAfter = some c → validatePath c = .ok ()) :
    (listFiles st env q w).2 = ((b.list env ⟨some (pageLimit q.limit), q.startAfter⟩ w).2).map
      (listResponse (pageLimit q.limit)) := by
  have hrun : listFiles st env q w = (b.list env ⟨some (pageLimit q.limit), q.startAfter⟩ >>=
      fun files => pure (listResponse (pageLimit q.limit) files)) w := by
    rw [listFiles, hb, effectiveLimit_ok hlim]
    rcases hs : q.startAfter with _ | c
    · rfl
    · simp only [hc c hs]
      rfl
  rw [hrun]
  rcases hl : b.list env ⟨some (pageLimit q.limit), q.startAfter⟩ w with ⟨l, e | files⟩
  · rw [Act.bind_error hl]; rfl
  · rw [Act.bind_ok hl]; rfl

/-- What an answer reports, by name and size. -/
def ListFilesResponse.named (resp : ListFilesResponse) : List (String × Nat) :=
  resp.data.map FileEntry.nameSize

/-- The cursor of an answer is that of its page. -/
theorem nextCursor_named (limit : Nat) (files : List FileEntry) :
    (listResponse limit files).metaData.nextCursor.map bytes
      = next pairKey limit (listResponse limit files).named := by
  rw [ListFilesResponse.named, next, listResponse, List.length_map,
    List.getLast?_map, Option.map_map]
  dsimp only
  split
  · rw [Option.map_map]
    rfl
  · rfl

/-- The cursor of an answer is the name of one of its files. -/
theorem mem_of_nextCursor {limit : Nat} {files : List FileEntry} {c : String}
    (h : (listResponse limit files).metaData.nextCursor = some c) : ∃ e ∈ files, e.name = c := by
  simp only [listResponse] at h
  split at h
  · obtain ⟨e, he, rfl⟩ := Option.map_eq_some_iff.mp h
    exact ⟨e, List.mem_of_getLast? he, rfl⟩
  · cases h

/-! ### Walks -/

/-- The answers to a client that lists a store from a cursor and passes each cursor it is given on,
up to the first answer that gives none. -/
inductive StoreWalk (st : AppState) (kind : StorageType) :
    Option String → List Visit → List ListFilesResponse → Prop where
  | last {cursor : Option String} {v : Visit} {resp : ListFilesResponse} :
      (listFiles st v.env ⟨kind, v.limit, cursor⟩ v.world).2 = .ok resp →
      resp.metaData.nextCursor = none → StoreWalk st kind cursor [v] [resp]
  | more {cursor : Option String} {c : String} {v : Visit} {resp : ListFilesResponse}
      {vs : List Visit} {resps : List ListFilesResponse} :
      (listFiles st v.env ⟨kind, v.limit, cursor⟩ v.world).2 = .ok resp →
      resp.metaData.nextCursor = some c → StoreWalk st kind (some c) vs resps →
      StoreWalk st kind cursor (v :: vs) (resp :: resps)

/-- The walks of the data root. -/
abbrev ListWalk (st : AppState) : Option String → List Visit → List ListFilesResponse → Prop :=
  StoreWalk st .fs

/-- The server, where there is one, answers from the bucket. -/
def BackendRef.Served (b : BackendRef) (w : World) (env : Env)
    (startAfter : Option String) : Prop :=
  match b with
  | .s3 b => b.Serves w.bucket startAfter env.server
  | _ => True

/-- A listing of `b` is a page of `l`. -/
def BackendRef.ListsFrom (b : BackendRef) (w : World) (l : List (String × Nat)) : Prop :=
  ∀ env opts, opts.limit ≠ some 0 → b.Served w env opts.startAfter →
    ∃ es, (b.list env opts w).2 = .ok es ∧ es.map FileEntry.nameSize
      = page pairKey (opts.limit.getD DEFAULT_LIST_LIMIT) (opts.startAfter.map bytes) l

/-- A client that may ask for what it asks for, of a store whose listings are pages of `l`, where
the validator accepts the names. -/
structure Lists (b : BackendRef) (v : Visit) (l : List (String × Nat)) : Prop where
  limit : ∀ n, v.limit = some n → n ≤ MAX_LIST_LIMIT
  listed : b.ListsFrom v.world l
  served : ∀ cursor, b.Served v.world v.env cursor
  ascending : Ascending pairKey l
  valid : ∀ p ∈ l, validatePath p.1 = .ok ()

variable {l : List (String × Nat)}

/-- **An answer** is a page of the files. -/
theorem Lists.run (h : Lists b v l) (hb : st.backends.pick kind = .ok b) {cursor : Option String}
    (hc : ∀ c, cursor = some c → validatePath c = .ok ()) : ∃ resp,
      (listFiles st v.env ⟨kind, v.limit, cursor⟩ v.world).2 = .ok resp ∧
      resp.named = page pairKey (pageLimit v.limit) (cursor.map bytes) l ∧
      resp.metaData.nextCursor.map bytes = next pairKey (pageLimit v.limit) resp.named ∧
      ∀ c, resp.metaData.nextCursor = some c → validatePath c = .ok () := by
  have hpos : (some (pageLimit v.limit)) ≠ some 0 := fun e =>
    (pageLimit_pos v.limit).ne' (Option.some.inj e)
  obtain ⟨es, hes, hpage⟩ := h.listed v.env ⟨some (pageLimit v.limit),
    cursor⟩ hpos (h.served cursor)
  refine ⟨listResponse (pageLimit v.limit) es, ?_, hpage, nextCursor_named _ _, fun c hn => ?_⟩
  · rw [listFiles_run hb h.limit hc, hes]
    rfl
  · obtain ⟨e, he, rfl⟩ := mem_of_nextCursor hn
    have hp : e.nameSize ∈ es.map FileEntry.nameSize := List.mem_map_of_mem he
    rw [hpage] at hp
    exact h.valid _ (mem_of_mem_page hp).1

variable {files : Visit → List (String × Nat)} {vs : List Visit} {resps : List ListFilesResponse}

/-- The requests of a walk over the files of the visits. -/
def requests (files : Visit → List (String × Nat)) (v : Visit) : Nat × List (String × Nat) :=
  (pageLimit v.limit, files v)

/-- **A client's walk** is one over the files. -/
theorem StoreWalk.toWalk (hb : st.backends.pick kind = .ok b) {cursor : Option String}
    (h : StoreWalk st kind cursor vs resps) (hs : ∀ v ∈ vs, Lists b v (files v))
    (hc : ∀ c, cursor = some c → validatePath c = .ok ()) :
    Walk pairKey (cursor.map bytes) (vs.map (requests files))
      (resps.map ListFilesResponse.named) := by
  induction h with
  | @last cursor v resp hrun hn =>
      obtain ⟨resp', hrun', hpage, hnext, -⟩ := (hs v List.mem_cons_self).run hb hc
      obtain rfl := Except.ok.inj (hrun.symm.trans hrun')
      rw [hn, hpage] at hnext
      rw [List.map_singleton, List.map_singleton, hpage]
      exact .last hnext.symm
  | @more cursor c v resp vs resps hrun hn _ ih =>
      obtain ⟨resp', hrun', hpage, hnext, hvalid⟩ := (hs v List.mem_cons_self).run hb hc
      obtain rfl := Except.ok.inj (hrun.symm.trans hrun')
      rw [hn, hpage] at hnext
      rw [List.map_cons, List.map_cons, hpage]
      refine .more hnext.symm (ih (fun v hv => hs v (List.mem_cons_of_mem _ hv)) fun c' hc' => ?_)
      obtain rfl := Option.some.inj hc'
      exact hvalid c hn

/-- **A walk over the files** is a client's. -/
theorem StoreWalk.ofWalk (hb : st.backends.pick kind = .ok b)
    {rs : List (Nat × List (String × Nat))}
    {ps : List (List (String × Nat))} {k : Option (List UInt8)} (hw : Walk pairKey k rs ps) :
    ∀ (vs : List Visit) (cursor : Option String), rs = vs.map (requests files) →
      (∀ v ∈ vs, Lists b v (files v)) → k = cursor.map bytes →
      (∀ c, cursor = some c → validatePath c = .ok ()) →
      ∃ resps, StoreWalk st kind cursor vs resps ∧ resps.map ListFilesResponse.named = ps := by
  induction hw with
  | @last k limit l hn =>
      intro vs cursor hrs hs hk hc
      obtain ⟨v, vs, rfl, e, hnil⟩ := List.map_eq_cons_iff.mp hrs.symm
      obtain rfl := List.map_eq_nil_iff.mp hnil
      obtain ⟨rfl, rfl⟩ := Prod.mk.inj e
      subst hk
      obtain ⟨resp, hrun, hpage, hnext, -⟩ := (hs v List.mem_cons_self).run hb hc
      rw [hpage, hn, Option.map_eq_none_iff] at hnext
      exact ⟨[resp], .last hrun hnext, by rw [List.map_singleton, hpage]⟩
  | @more k k' limit l rs ps hn _ ih =>
      intro vs cursor hrs hs hk hc
      obtain ⟨v, vs, rfl, e, hvs⟩ := List.map_eq_cons_iff.mp hrs.symm
      obtain ⟨rfl, rfl⟩ := Prod.mk.inj e
      subst hk
      obtain ⟨resp, hrun, hpage, hnext, hvalid⟩ := (hs v List.mem_cons_self).run hb hc
      rw [hpage, hn, Option.map_eq_some_iff] at hnext
      obtain ⟨c, hcursor, rfl⟩ := hnext
      obtain ⟨resps, hwalk, hnamed⟩ := ih vs (some c) hvs.symm
        (fun v hv => hs v (List.mem_cons_of_mem _ hv)) rfl fun c' hc' => by
          obtain rfl := Option.some.inj hc'
          exact hvalid c hcursor
      exact ⟨resp :: resps, .more hrun hcursor hwalk, by rw [List.map_cons, hpage, hnamed]⟩

/-- What a walk reports where the files are as `has` says: names that ascend, on each page files of
its visit and not more than its limit, and once each name that is there at every visit. -/
structure ExactTour (has : Visit → String → Nat → Prop) (vs : List Visit)
    (resps : List ListFilesResponse) : Prop where
  ascending : (resps.flatMap ListFilesResponse.data).Pairwise fun a b => bytes a.name < bytes b.name
  pages : List.Forall₂ (fun v resp => (∃ n, effectiveLimit v.limit = .ok n ∧ resp.data.length ≤ n) ∧
    ∀ e ∈ resp.data, has v e.name e.size) vs resps
  complete : ∀ name, (∀ v ∈ vs, ∃ n, has v name n) →
    ((resps.flatMap ListFilesResponse.data).map FileEntry.name).count name = 1

/-- **A walk of the client** is exact. -/
theorem StoreWalk.exact (hb : st.backends.pick kind = .ok b) (h : StoreWalk st kind none vs resps)
    (hs : ∀ v ∈ vs, Lists b v (files v)) :
    ExactTour (fun v name n => (name, n) ∈ files v) vs resps := by
  have hw := h.toWalk hb hs (by simp)
  have hasc : ∀ r ∈ vs.map (requests files), Ascending pairKey r.2 ∧ 0 < r.1 := fun r hr => by
    obtain ⟨v, hv, rfl⟩ := List.mem_map.mp hr
    exact ⟨(hs v hv).ascending, pageLimit_pos _⟩
  have hflat : (resps.map ListFilesResponse.named).flatten
      = (resps.flatMap ListFilesResponse.data).map FileEntry.nameSize := by
    rw [List.flatMap_def, List.map_flatten, List.map_map]
    rfl
  refine ⟨?_, ?_, fun name hname => ?_⟩
  · have hsorted := (hw.ascending fun r hr => (hasc r hr).1).1
    rw [hflat, Ascending, List.pairwise_map] at hsorted
    exact hsorted
  · have hpages := List.forall₂_map_right_iff.mp (List.forall₂_map_left_iff.mp hw.pages)
    refine ((List.forall₂_and_left vs resps).mpr ⟨hs, hpages⟩).imp fun v resp hv => ?_
    obtain ⟨hlists, hlen, hmem⟩ := hv
    rw [ListFilesResponse.named, List.length_map] at hlen
    exact ⟨⟨_, effectiveLimit_ok hlists.limit, hlen⟩, fun e he => hmem _ (List.mem_map_of_mem he)⟩
  · have hkeys : ((resps.map ListFilesResponse.named).flatten.map pairKey)
        = ((resps.flatMap ListFilesResponse.data).map FileEntry.name).map bytes := by
      rw [hflat, List.map_map, List.map_map]
      rfl
    have hmem : bytes name ∈ (resps.map ListFilesResponse.named).flatten.map pairKey := by
      refine hw.complete hasc (by simp) fun r hr => ?_
      obtain ⟨v, hv, rfl⟩ := List.mem_map.mp hr
      obtain ⟨n, hn⟩ := hname v hv
      exact List.mem_map_of_mem hn
    have hnodup := hw.once fun r hr => (hasc r hr).1
    rw [hkeys] at hmem hnodup
    exact List.count_eq_one_of_mem (hnodup.of_map bytes)
      ((List.mem_map_of_injective bytes_injective).mp hmem)

/-- **A walk ends** once the files stop changing. -/
theorem StoreWalk.ends (files : Visit → List (String × Nat)) (hb : st.backends.pick kind = .ok b)
    {visits : Nat → Visit} (hs : ∀ i, Lists b (visits i) (files (visits i))) (m : Nat)
    (hm : ∀ i, m ≤ i → files (visits i) = files (visits m)) :
    ∃ n resps, StoreWalk st kind none ((List.range n).map visits) resps := by
  obtain ⟨n, ps, hw⟩ := walk_ends m none (fun i => requests files (visits i)) (hs m).ascending hm
  have hrs : (List.range n).map (fun i => requests files (visits i))
      = ((List.range n).map visits).map (requests files) := by
    rw [List.map_map]
    rfl
  obtain ⟨resps, h, -⟩ := StoreWalk.ofWalk hb hw _ none hrs (fun v hv => by
    obtain ⟨i, -, rfl⟩ := List.mem_map.mp hv
    exact hs i) rfl (by simp)
  exact ⟨n, resps, h⟩

/-! ### The data root -/

/-- What a client may ask for, and a data root whose files have names the validator accepts. -/
structure Snapshot (fs : FsBackend) (v : Visit) (r : Loc) : Prop where
  limit : ∀ n, v.limit = some n → n ≤ MAX_LIST_LIMIT
  root : Rooted fs v.world.host r
  names : ∀ x f, v.world.host.tree.get (x :: r) = some (.file f) →
    ∃ s, x = bytes s ∧ validatePath s = .ok ()

theorem Snapshot.utf8Names {v : Visit} {r : Loc} (hs : Snapshot fs v r) :
    FsBackend.Utf8Names v.world.host r := fun x f hf => by
  obtain ⟨s, rfl, -⟩ := hs.names x f hf
  exact ⟨s, rfl⟩

/-- The file is in the data root. -/
def FsBackend.HasFile (fs : FsBackend) (h : Host) (name : String) : Prop :=
  ∃ r f, Rooted fs h r ∧ h.tree.get (bytes name :: r) = some (.file f)

/-- The regular files in the data root are the same. -/
def FsBackend.SameRoot (fs : FsBackend) (h h' : Host) : Prop :=
  ∀ x f, (∃ r, Rooted fs h r ∧ h.tree.get (x :: r) = some (.file f)) ↔
    ∃ r, Rooted fs h' r ∧ h'.tree.get (x :: r) = some (.file f)

/-- What a walk reports: names that ascend, on each page files of its snapshot and not more than its
limit, and once each file that is in every snapshot. -/
structure ExactWalk (fs : FsBackend) (vs : List Visit) (resps : List ListFilesResponse) : Prop where
  ascending : (resps.flatMap ListFilesResponse.data).Pairwise fun a b => bytes a.name < bytes b.name
  pages : List.Forall₂ (fun v resp => (∃ n, effectiveLimit v.limit = .ok n ∧ resp.data.length ≤ n) ∧
    ∀ e ∈ resp.data, fs.HasFile v.world.host e.name) vs resps
  complete : ∀ name, (∀ v ∈ vs, fs.HasFile v.world.host name) →
    ((resps.flatMap ListFilesResponse.data).map FileEntry.name).count name = 1

theorem Rooted.unique {h : Host} {r r' : Loc} (hr : Rooted fs h r)
    (hr' : Rooted fs h r') : r = r' :=
  Except.ok.inj (hr.lookup.symm.trans hr'.lookup)

/-- The files of the data root, by name and size. -/
def FsBackend.stored (fs : FsBackend) (h : Host) : List (String × Nat) :=
  match h.lookup true fs.root with
  | .ok r => fs.objects h r
  | .error _ => []

theorem FsBackend.stored_eq {h : Host} {r : Loc} (hroot : Rooted fs h r) :
    fs.stored h = fs.objects h r := by
  rw [stored, hroot.lookup]

/-- **A snapshot** lists its files. -/
theorem Snapshot.lists {r : Loc} (hs : Snapshot fs v r) :
    Lists (.fs fs) v (fs.stored v.world.host) where
  limit := hs.limit
  listed env opts _ _ := by
    rw [BackendRef.list, Act.emit_bind, FsBackend.stored_eq hs.root]
    exact FsBackend.list_page hs.root opts
  served _ := trivial
  ascending := by
    rw [FsBackend.stored_eq hs.root]
    exact List.pairwise_map.mpr ((FsBackend.files_ascending hs.root hs.utf8Names).imp id)
  valid p hp := by
    rw [FsBackend.stored_eq hs.root] at hp
    obtain ⟨x, f, hf, rfl⟩ := (FsBackend.mem_objects hs.root).mp hp
    obtain ⟨s, rfl, hv⟩ := hs.names x f hf
    rwa [toStringLossy_bytes]

/-- A file of a snapshot, by its name. -/
theorem Snapshot.mem_stored {r : Loc} (hs : Snapshot fs v r) {name : String} :
    (∃ n, (name, n) ∈ fs.stored v.world.host) ↔ fs.HasFile v.world.host name := by
  rw [FsBackend.stored_eq hs.root]
  constructor
  · rintro ⟨n, hn⟩
    obtain ⟨x, f, hf, e⟩ := (FsBackend.mem_objects hs.root).mp hn
    obtain ⟨s, rfl, -⟩ := hs.names x f hf
    rw [toStringLossy_bytes] at e
    exact ⟨r, f, hs.root, (Prod.mk.inj e).1 ▸ hf⟩
  · rintro ⟨r', f, hr', hf⟩
    obtain rfl := hs.root.unique hr'
    exact ⟨f.content.length, (FsBackend.mem_objects hs.root).mpr
      ⟨_, f, hf, by rw [toStringLossy_bytes]⟩⟩

/-- The same files are listed alike. -/
theorem FsBackend.SameRoot.stored_eq {v' : Visit} {r r' : Loc} (hs : Snapshot fs v r)
    (hs' : Snapshot fs v' r') (h : fs.SameRoot v.world.host v'.world.host) :
    fs.stored v.world.host = fs.stored v'.world.host := by
  refine eq_of_mem_iff hs.lists.ascending hs'.lists.ascending fun p => ?_
  rw [FsBackend.stored_eq hs.root, FsBackend.stored_eq hs'.root, mem_objects hs.root,
    mem_objects hs'.root]
  refine exists_congr fun x => exists_congr fun f => and_congr_left fun _ => ?_
  constructor
  · intro hf
    obtain ⟨l, hl, hf⟩ := (h x f).mp ⟨r, hs.root, hf⟩
    exact hs'.root.unique hl ▸ hf
  · intro hf
    obtain ⟨l, hl, hf⟩ := (h x f).mpr ⟨r', hs'.root, hf⟩
    exact hs.root.unique hl ▸ hf

/-- **Pagination is exact** while the directory changes: what a walk reports, and that it ends once
the directory stops changing. -/
theorem list_walk_exact (hfs : st.backends.fs = .fs fs) :
    (∀ vs resps, (∀ v ∈ vs, ∃ r, Snapshot fs v r) → ListWalk st none vs resps →
      ExactWalk fs vs resps) ∧
    ∀ visits : Nat → Visit, (∀ i, ∃ r, Snapshot fs (visits i) r) →
      (∃ m, ∀ i, m ≤ i → fs.SameRoot (visits i).world.host (visits m).world.host) →
      ∃ n resps, ListWalk st none ((List.range n).map visits) resps := by
  have hb : st.backends.pick .fs = .ok (.fs fs) := by rw [Backends.pick, hfs]
  refine ⟨fun vs resps hs h => ?_, fun visits hs ⟨m, hm⟩ => ?_⟩
  · have hlists : ∀ v ∈ vs, Lists (.fs fs) v (fs.stored v.world.host) := fun v hv =>
      (hs v hv).choose_spec.lists
    have htour := h.exact hb hlists
    refine ⟨htour.ascending, ?_, fun name hname => htour.complete name fun v hv => ?_⟩
    · refine ((List.forall₂_and_left vs resps).mpr ⟨hs, htour.pages⟩).imp fun v resp hv => ?_
      obtain ⟨⟨r, hr⟩, hlen, hmem⟩ := hv
      exact ⟨hlen, fun e he => hr.mem_stored.mp ⟨_, hmem e he⟩⟩
    · obtain ⟨r, hr⟩ := hs v hv
      exact hr.mem_stored.mpr (hname v hv)
  · refine StoreWalk.ends (fun v => fs.stored v.world.host) hb
      (fun i => (hs i).choose_spec.lists) m fun i hi => ?_
    exact (hm i hi).stored_eq (hs i).choose_spec (hs m).choose_spec

/-- What is stored at each request: `b` is gone at the second, and from the third on there is
`d`. -/
def filesAt : Nat → List (String × List UInt8)
  | 0 => [("a", [1, 2, 3]), ("b", [4]), ("c", [])]
  | 1 => [("a", [1, 2, 3]), ("c", [])]
  | _ => [("a", [1, 2, 3]), ("c", []), ("d", [5])]

/-- A client that asks for one file at a time, of two stores that change. -/
def changing (i : Nat) : Visit :=
  let w := storing ferryIn deeper (filesAt i)
  ⟨some 1, { Env.calm with server := List.replicate 5 (paged 0 w.bucket) }, w⟩

/-- From the third request on, nothing changes. -/
theorem changing_from_two {i : Nat} (h : 2 ≤ i) : changing i = changing 2 := by
  obtain ⟨j, rfl⟩ := Nat.exists_eq_add_of_le' h
  rfl

theorem filesAt_valid (i : Nat) :
    ∀ p ∈ filesAt i, Ordinary (bytes p.1) ∧ validatePath p.1 = .ok () := by
  match i with
  | 0 => decide
  | 1 => decide
  | _ + 2 => exact (by decide : ∀ p ∈ filesAt 2, Ordinary (bytes p.1) ∧ validatePath p.1 = .ok ())

theorem changing_rooted (i : Nat) : Rooted dataFs (changing i).world.host [bytes "data"] := by
  match i with
  | 0 => exact ⟨by decide, by decide⟩
  | 1 => exact ⟨by decide, by decide⟩
  | j + 2 =>
      rw [changing_from_two (Nat.le_add_left 2 j)]
      exact ⟨by decide, by decide⟩

theorem changing_same (i : Nat) :
    SameFiles (changing i).world.host [bytes "data"] ferryIn (changing i).world.bucket :=
  storing_same deeper_apart fun p hp => (filesAt_valid i p hp).1

/-- What is in the bucket right under the prefix are the files. -/
theorem mem_of_storing {b : S3Backend} {others : Bucket} {name : String}
    (hothers : others.lookup (b.key name) = none) : ∀ {l : List (String × List UInt8)},
      (storing b others l).bucket.lookup (b.key name) ≠ none → ∃ p ∈ l, p.1 = name
  | [], h => absurd hothers h
  | p :: l, h => by
      by_cases hp : p.1 = name
      · exact ⟨p, List.mem_cons_self, hp⟩
      · have hne : b.key name ≠ b.key p.1 := fun e => hp (b.key_injective e).symm
        rw [storing, AList.lookup_insert_ne hne] at h
        obtain ⟨q, hq, hname⟩ := mem_of_storing hothers h
        exact ⟨q, List.mem_cons_of_mem _ hq, hname⟩

theorem changing_names (i : Nat) {name : String} (hne : name ≠ "") (hslash : '/' ∉ name.toList)
    (h : (changing i).world.bucket.lookup (ferryIn.key name) ≠ none) :
    validatePath name = .ok () := by
  have hothers : deeper.lookup (ferryIn.key name) = none := by
    by_contra hnone
    exact (deeper_apart name hnone).elim hne hslash
  obtain ⟨p, hp, rfl⟩ := mem_of_storing hothers h
  exact (filesAt_valid i p hp).2

theorem changing_snapshot (i : Nat) : Snapshot dataFs (changing i) [bytes "data"] where
  limit n hn := by
    obtain rfl := Option.some.inj hn
    decide
  root := changing_rooted i
  names x f hf := by
    obtain ⟨name, rfl, hne, hslash, c, hc, -⟩ := (changing_same i x _).mp ⟨f, hf, rfl⟩
    exact ⟨name, rfl, changing_names i hne hslash (by rw [hc]; simp)⟩

/-- A walk while files come and go. -/
theorem list_walk_changing : ∃ n resps,
    ListWalk ⟨⟨.fs dataFs, none⟩, .default⟩ none ((List.range n).map changing) resps ∧
      ExactWalk dataFs ((List.range n).map changing) resps := by
  have hexact := @list_walk_exact ⟨⟨.fs dataFs, none⟩, .default⟩ dataFs rfl
  obtain ⟨n, resps, h⟩ := hexact.2 changing (fun i => ⟨_, changing_snapshot i⟩)
    ⟨2, fun i hi => by rw [changing_from_two hi]; exact fun _ _ => Iff.rfl⟩
  refine ⟨n, resps, h, hexact.1 _ _ (fun v hv => ?_) h⟩
  obtain ⟨i, -, rfl⟩ := List.mem_map.mp hv
  exact ⟨_, changing_snapshot i⟩

/-! ### Cursors -/

/-- The names a listing can report: those of the regular files in the data root, as text, and of the
objects right under the prefix. -/
def BackendRef.Names (b : BackendRef) (w : World) (name : String) : Prop :=
  match b with
  | .fs b => ∃ r x f, Rooted b w.host r ∧ w.host.tree.get (x :: r) = some (.file f) ∧
      name = toStringLossy x
  | .s3 b => name ≠ "" ∧ '/' ∉ name.toList ∧ w.bucket.lookup (b.key name) ≠ none
  | .offline _ => False

/-- **A listing** is a page of the names there are, or there is nothing to list. -/
theorem BackendRef.listsFrom (b : BackendRef) (w : World) :
    (∃ l, (l.Pairwise fun p q => pairKey p ≤ pairKey q) ∧
      (∀ name, b.Names w name ↔ ∃ p ∈ l, p.1 = name) ∧ b.ListsFrom w l) ∨
    (∀ name, ¬ b.Names w name) ∧ ∀ env opts es, (b.list env opts w).2 ≠ .ok es := by
  cases b with
  | fs b =>
      have hrun : ∀ env opts, ((BackendRef.fs b).list env opts w).2 = (b.list opts w).2 :=
        fun env opts => by rw [BackendRef.list, Act.emit_bind]
      by_cases hroot : ∃ r, Rooted b w.host r
      · obtain ⟨r, hr⟩ := hroot
        refine .inl ⟨b.objects w.host r, List.pairwise_map.mpr (b.files_sorted w.host r),
          fun name => ?_, fun env opts _ _ => ?_⟩
        · constructor
          · rintro ⟨r', x, f, hr', hf, rfl⟩
            obtain rfl := hr.unique hr'
            exact ⟨_, (FsBackend.mem_objects hr).mpr ⟨x, f, hf, rfl⟩, rfl⟩
          · rintro ⟨p, hp, rfl⟩
            obtain ⟨x, f, hf, rfl⟩ := (FsBackend.mem_objects hr).mp hp
            exact ⟨r, x, f, hr, hf, rfl⟩
        · rw [hrun]
          exact FsBackend.list_page hr opts
      · refine .inr ⟨fun name ⟨r, _, _, hr, _⟩ => hroot ⟨r, hr⟩, fun env opts es he => ?_⟩
        rw [hrun] at he
        exact hroot (FsBackend.rooted_of_list he)
  | s3 b =>
      refine .inl ⟨b.objects w.bucket, (b.objects_ascending w.bucket).imp le_of_lt, fun name => ?_,
        fun env opts hlim hserve => ?_⟩
      · constructor
        · rintro ⟨hne, hslash, hk⟩
          obtain ⟨c, hc⟩ := Option.ne_none_iff_exists'.mp hk
          exact ⟨(name, c.length), S3Backend.mem_objects.mpr ⟨hne, hslash, c, hc, rfl⟩, rfl⟩
        · rintro ⟨p, hp, rfl⟩
          obtain ⟨hne, hslash, c, hc, -⟩ := S3Backend.mem_objects.mp hp
          exact ⟨hne, hslash, by rw [hc]; simp⟩
      · rw [BackendRef.list, Act.emit_bind]
        exact S3Backend.list_page hlim hserve
  | offline b =>
      refine .inr ⟨fun name h => h, fun env opts es he => ?_⟩
      rw [BackendRef.list, Act.emit_bind] at he
      cases he

theorem BackendRef.exists_served (b : BackendRef) (w : World) (startAfter : Option String) :
    ∃ env, b.Served w env startAfter := by
  cases b with
  | fs b => exact ⟨.calm, trivial⟩
  | s3 b =>
      obtain ⟨n, h⟩ := (paged_conforming 0 b.bucket w.bucket).serves startAfter
      exact ⟨{ Env.calm with server := List.replicate n (paged 0 w.bucket) }, h n le_rfl⟩
  | offline b => exact ⟨.calm, trivial⟩

theorem effectiveLimit_pos {limit : Option Nat} {n : Nat} (h : effectiveLimit limit = .ok n) :
    0 < n := by
  rcases limit with _ | _ | m
  · cases h; simp [DEFAULT_LIST_LIMIT]
  · cases h; simp [DEFAULT_LIST_LIMIT]
  · rw [effectiveLimit] at h
    · split at h
      · cases h
      · cases h; omega
    · simp

/-- Every cursor that `listFiles` gives, whatever it is asked for, is one it takes. -/
def CursorsAccepted (st : AppState) (kind : StorageType) (w : World) : Prop :=
  ∀ env q resp c, q.storageType = kind →
    (∀ b, st.backends.pick kind = .ok b → b.Served w env q.startAfter) →
    (listFiles st env q w).2 = .ok resp → resp.metaData.nextCursor = some c →
      validatePath c = .ok ()

/-- **Cursors come back** exactly when the validator accepts every name there is to list. -/
theorem cursors_accepted_iff (st : AppState) (kind : StorageType) (w : World) :
    CursorsAccepted st kind w ↔
      ∀ b name, st.backends.pick kind = .ok b → b.Names w name → validatePath name = .ok () := by
  constructor
  · intro h b name hb hname
    rcases b.listsFrom w with ⟨l, hsorted, hnames, hlists⟩ | ⟨hnone, -⟩
    · by_contra hbad
      -- the first refused name comes right after an accepted one, or is the first name
      obtain ⟨p, hp, rfl⟩ := (hnames name).mp hname
      obtain ⟨k, p', hk, hpage, hbad'⟩ := exists_page_one
        (P := fun p : String × Nat => ¬ validatePath p.1 = .ok ()) hsorted
        (fun p q hpq hbad => bytes_injective hpq ▸ hbad) ⟨p, hp, hbad⟩
      obtain ⟨cursor, rfl, hcursor⟩ : ∃ cursor : Option String, k = cursor.map bytes ∧
          ∀ c, cursor = some c → validatePath c = .ok () := by
        rcases k with _ | k
        · exact ⟨none, rfl, by simp⟩
        · obtain ⟨q, -, rfl, hq⟩ := hk k rfl
          exact ⟨some q.1, rfl, fun c hc => by cases hc; simpa using hq⟩
      obtain ⟨env, henv⟩ := b.exists_served w cursor
      obtain ⟨es, hes, hmap⟩ := hlists env ⟨some 1, cursor⟩ (by simp) henv
      rw [Option.getD_some, hpage] at hmap
      obtain ⟨e, rfl, rfl⟩ := List.map_eq_singleton_iff.mp hmap
      have hrun := @listFiles_run _ env ⟨kind, some 1, cursor⟩ w _ hb
        (fun n hn => by cases hn; decide) hcursor
      rw [show pageLimit (some 1) = 1 from rfl, hes] at hrun
      refine hbad' (h env ⟨kind, some 1, cursor⟩ _ e.name rfl (fun b' hb' => ?_) hrun rfl)
      rw [hb] at hb'
      exact Except.ok.inj hb' ▸ henv
    · exact absurd hname (hnone name)
  · intro h env q resp c hkind hserved hrun hnext
    subst hkind
    rcases listFiles_cases st env q w with ⟨e, he⟩ | ⟨b, limit, hb, hlim, -, he⟩
    · rw [he] at hrun; cases hrun
    · rw [he] at hrun
      rcases hl : b.list env ⟨some limit, q.startAfter⟩ w with ⟨steps, x | files⟩
      · rw [Act.bind_error hl] at hrun; cases hrun
      · rw [Act.bind_ok hl] at hrun
        obtain rfl := Except.ok.inj hrun
        obtain ⟨e, hmem, rfl⟩ := mem_of_nextCursor hnext
        rcases b.listsFrom w with ⟨l, -, hnames, hlists⟩ | ⟨-, hnone⟩
        · obtain ⟨es, hes, hmap⟩ := hlists env ⟨some limit, q.startAfter⟩
            (by have := effectiveLimit_pos hlim; simp; omega) (hserved b hb)
          rw [hl] at hes
          obtain rfl := Except.ok.inj hes
          have hp : e.nameSize ∈ files.map FileEntry.nameSize := List.mem_map_of_mem hmem
          rw [hmap] at hp
          exact h b e.name hb ((hnames e.name).mpr ⟨_, (mem_of_mem_page hp).1, rfl⟩)
        · exact absurd (by rw [hl]) (hnone env ⟨some limit, q.startAfter⟩ files)

/-- The data root holds `a b`. -/
def blankWorld : World :=
  { World.empty with host := dataHost.put (bytes "a b") [bytes "data"] (.file ⟨[1, 2, 3], 0⟩) }

/-- **A name with a blank** ends a page, and is no cursor. -/
theorem blank_cursor_refused : ¬ CursorsAccepted ⟨⟨.fs dataFs, none⟩, .default⟩ .fs blankWorld := by
  intro h
  have hv := h .calm ⟨.fs, some 1, none⟩ _ "a b" rfl (fun b hb => by cases hb; trivial) rfl rfl
  exact absurd hv (by decide)

end FileFerry
