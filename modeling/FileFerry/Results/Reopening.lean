import FileFerry.Results.Listing

/-!
# Results — Reopening

Whether what a listing of the data root reports can be opened.

* `reopens_iff`: every entry opens as the file it was made of, and no two files have one name,
  exactly when the names of the files are UTF-8.
-/

namespace FileFerry
open Text Posix AsyncIo Steps Window

/-- What is reported can be opened: each entry of a listing is made of a regular file in the root,
`openRead` opens that file by the name of the entry, and the reader gives its bytes, as many as the
entry says; and two files whose entries are listed have two names. -/
structure Reopens (fs : FsBackend) (w : World) : Prop where
  opens : ∀ env opts es, (fs.list opts w).2 = .ok es → ∀ e ∈ es, ∃ r x f s, Rooted fs w.host r ∧
    w.host.tree.get (x :: r) = some (.file f) ∧ e = FsBackend.fileEntry x f ∧
    fs.openRead env e.name w = ([⟨w, [.touch (.read (x :: r))]⟩], .ok s) ∧
    bytesOf s.events = f.content ∧ (bytesOf s.events).length = e.size
  distinct : ∀ opts es, (fs.list opts w).2 = .ok es → ∀ r x x' f f', Rooted fs w.host r →
    w.host.tree.get (x :: r) = some (.file f) → w.host.tree.get (x' :: r) = some (.file f') →
    FsBackend.fileEntry x f ∈ es → FsBackend.fileEntry x' f' ∈ es →
    (FsBackend.fileEntry x f).name = (FsBackend.fileEntry x' f').name → x = x'

namespace FsBackend

variable {fs : FsBackend} {h : Host} {r : Loc} {x : Name}

theorem ofBytes_singleton (hx : slash ∉ x) : Path.ofBytes x = [x] := List.splitOn_eq_singleton hx

/-- **A name in the root** is joined to where the entry is, unless it is too long. -/
theorem lookup_joined (hroot : Rooted fs h r) {name : String} (hx : Named (bytes name))
    (hs : slash ∉ bytes name) : h.lookup false (fs.joined name) = reach (bytes name :: r) := by
  rw [joined, ofBytes_singleton hs]
  exact lookup_child hroot hx hs

/-- **A file in the root** opens by its name. -/
theorem openRead_child {w : World} (hroot : Rooted fs w.host r) (env : Env)
    {name : String} {f : File}
    (hf : w.host.tree.get (bytes name :: r) = some (.file f)) :
    fs.openRead env name w
      = ([⟨w, [.touch (.read (bytes name :: r))]⟩], .ok ⟨deliver env.feed f.content, 0⟩) := by
  have hheld : w.host.tree.get (bytes name :: r) ≠ none := by rw [hf]; simp
  obtain ⟨h₁, h₂, h₃, h₄, -⟩ := Tree.ordinary_of_get hheld
  have hl := lookup_joined hroot ⟨fun e => e.elim h₁ h₂, h₃⟩ h₄
  rw [reach_short (Tree.short_of_get hheld)] at hl
  have hrel : isAbsolute (Path.ofBytes (bytes name)) = false := by
    rw [ofBytes_singleton h₄]; exact isAbsolute_singleton _
  have hok : fs.okPrefix w.host name = true :=
    okPrefix_relative (Host.ne_of_lookup hroot.lookup) hrel
  have hadm : fs.admits w.host name = true := by
    rw [admits, hok, Host.lstat, hl]
    simp [bind, Except.bind, Host.nodeAt, hf, Node.isSymlink]
  have hopen : w.host.openRead (fs.joined name) = .ok (bytes name :: r) := by
    rw [Host.openRead, hl]
    simp only [hf]
  rcases openRead_cases fs env name w with ⟨ha, -⟩ | ⟨-, ⟨l, hl', e⟩ | ⟨y, e', hy, -⟩⟩
  · rw [hadm] at ha; cases ha
  · rw [hopen] at hl'
    obtain rfl := Except.ok.inj hl'
    rw [e, hf]
    rfl
  · rw [hopen] at hy; cases hy

/-- What is opened by the name of a file in the root, as it is reported. -/
theorem name_of_openRead {w : World} (hroot : Rooted fs w.host r) {env : Env}
    {f : File} {s : Script}
    (hf : w.host.tree.get (x :: r) = some (.file f)) (ho : fs.openRead env (toStringLossy x) w
      = ([⟨w, [.touch (.read (x :: r))]⟩], .ok s)) : bytes (toStringLossy x) = x := by
  obtain ⟨h₁, h₂, h₃, h₄, -⟩ := @Tree.ordinary_of_get _ x r (by rw [hf]; simp)
  by_cases hbad : '\uFFFD' ∈ (toStringLossy x).toList
  · -- the name that is reported is another one, and leads elsewhere
    have hne : ∀ t : String, '\uFFFD' ∉ t.toList →
      bytes (toStringLossy x) ≠ bytes t := fun t ht e => by
      rw [bytes_injective e] at hbad
      exact ht hbad
    have hnamed : Named (bytes (toStringLossy x)) :=
      ⟨fun e => e.elim (hne "" (by decide)) (hne "." (by decide)), hne ".." (by decide)⟩
    have hl := lookup_joined hroot hnamed (notMem_bytes_toStringLossy (by decide) h₄)
    rcases openRead_cases fs env (toStringLossy x) w with ⟨-, e, he⟩ |
      ⟨-, ⟨l, hl', e⟩ | ⟨y, e', -, he⟩⟩
    · rw [he] at ho; cases (Prod.mk.inj ho).2
    · rw [e] at ho
      have hlx : l = x :: r := by simpa using (Prod.mk.inj ho).1
      rw [Host.openRead, hl, hlx, reach] at hl'
      split at hl'
      · cases hl'
      · rename_i k hk
        split at hk
        · obtain rfl := Except.ok.inj hk
          split at hl'
          · cases hl'
          · cases hl'
          · exact (List.cons.inj (Except.ok.inj hl')).1
        · cases hk
    · rw [he] at ho; cases (Prod.mk.inj ho).2
  · exact bytes_toStringLossy hbad

/-- A listing without a cursor, whose limit is the number of the files, reports them all. -/
theorem list_all {w : World} (hroot : Rooted fs w.host r) :
    (fs.list ⟨some (fs.files w.host r).length, none⟩ w).2 = .ok (fs.files w.host r) := by
  rw [list_run hroot]
  simp [page]

end FsBackend

/-- **What is reported can be opened** exactly when the names of the files in the root are UTF-8. -/
theorem reopens_iff (fs : FsBackend) (w : World) :
    Reopens fs w ↔ ∀ r x f, Rooted fs w.host r → w.host.tree.get (x :: r) = some (.file f) →
      ∃ s, x = bytes s := by
  constructor
  · intro h r x f hroot hf
    have hmem : FsBackend.fileEntry x f ∈ fs.files w.host r :=
      (FsBackend.mem_files hroot).mpr ⟨x, f, hf, rfl⟩
    obtain ⟨r', x', f', s, hroot', hf', he, ho, -⟩ :=
      h.opens .calm _ _ (FsBackend.list_all hroot) _ hmem
    obtain rfl : r = r' := Except.ok.inj (hroot.lookup.symm.trans hroot'.lookup)
    have hname := congrArg FileEntry.name he
    obtain rfl : x = x' := h.distinct _ _ (FsBackend.list_all hroot) r x x' f f' hroot hf hf' hmem
      (he ▸ hmem) hname
    exact ⟨_, (FsBackend.name_of_openRead hroot hf ho).symm⟩
  · intro hutf
    refine ⟨fun env opts es hl e he => ?_, fun opts es _ r x x' f f' hroot hf hf' _ _ hname => ?_⟩
    · obtain ⟨r, hroot⟩ := FsBackend.rooted_of_list hl
      rw [FsBackend.list_run hroot] at hl
      obtain rfl := Except.ok.inj hl
      obtain ⟨x, f, hf, rfl⟩ := (FsBackend.mem_files hroot).mp (mem_of_mem_page he).1
      obtain ⟨name, rfl⟩ := hutf r x f hroot hf
      have hname : (FsBackend.fileEntry (bytes name) f).name = name := toStringLossy_bytes name
      refine ⟨r, _, f, ⟨deliver env.feed f.content, 0⟩, hroot, hf, rfl, ?_, bytesOf_deliver _ _, ?_⟩
      · rw [hname]
        exact FsBackend.openRead_child hroot env hf
      · rw [bytesOf_deliver]; rfl
    · obtain ⟨s, rfl⟩ := hutf r x f hroot hf
      obtain ⟨s', rfl⟩ := hutf r x' f' hroot hf'
      simp only [FsBackend.fileEntry, toStringLossy_bytes] at hname
      rw [hname]

/-- The data root holds a file whose name is one byte that no text has. -/
def byteWorld : World :=
    { World.empty with host := dataHost.put [0xFF] [bytes "data"] (.file ⟨[1], 0⟩) }

/-- **A name that is not UTF-8** is reported, and cannot be opened. -/
theorem byte_name_lost : ¬ Reopens dataFs byteWorld := by
  intro h
  obtain ⟨r, x, f, s, -, -, -, ho, -⟩ := h.opens .calm ⟨none, none⟩
    [⟨"\uFFFD", 1, some (formatRfc3339 0)⟩] (by rfl) _ List.mem_cons_self
  have hopen : (dataFs.openRead .calm "\uFFFD" byteWorld).2 = .error (.notFound "\uFFFD") := by rfl
  rw [ho] at hopen
  cases hopen

end FileFerry
