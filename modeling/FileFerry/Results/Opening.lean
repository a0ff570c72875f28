import FileFerry.Posix.Plain
import FileFerry.Results.Sources

/-!
# Results — Opening

A data root without links: how an open ends there, and what a write leaves.

* `FsBackend.opening_blocked`, `FsBackend.opening_dir`, `FsBackend.opening_trailing`,
  `FsBackend.opening_stored`: how an open for writing ends, and what it leaves.
* `FsBackend.okPrefix_grows`, `FsBackend.place_grows`: where paths lead does not change while the
  tree grows.
* `FsBackend.yields_iff`: what a path yields, from the map of the files.
* `FsBackend.writeAll_ok`: a write that succeeds stores what was copied, where its path leads.
-/

namespace FileFerry
open Text Posix AsyncIo Steps

/-- The world `v` is `w`, but for the host's files, which are as `P` says. -/
def Leaves (w v : World) (P : Tree → Tree → Prop) : Prop :=
  ∃ h, v = { w with host := h } ∧ h.cwd = w.host.cwd ∧ P w.host.tree h.tree

namespace FsBackend

variable {fs : FsBackend} {path : String} {w : World} {r : Loc}

/-- No name of the path is too long for a directory. -/
def ShortNames (fs : FsBackend) (h : Host) (path : String) : Prop :=
  ∀ s ∈ fs.rel h path, s.length ≤ nameMax

/-- Where the names of the path spell. -/
def place (fs : FsBackend) (h : Host) (r : Loc) (path : String) : Loc := lexical r (fs.rel h path)

/-- An open that fails otherwise than at a link logs nothing. -/
theorem openWrite_error {p : Path} {x : Errno} (ho : w.host.openWrite p = .error x)
    (hx : x ≠ .eloop) :
    openWrite path p w = ([], .error (.io (.os x))) := by
  rcases openWrite_run path p w with ⟨l, h, ho', -⟩ | ⟨y, e, ho', hrun, he⟩
  · rw [ho] at ho'; cases ho'
  · rw [ho] at ho'
    obtain rfl := Except.error.inj ho'
    rw [hrun, openRefusals, if_neg hx, he hx]
    rfl

/-- The error of an open that a name too long stops: where that is the last name, the slash after it
is met first. -/
def longError (a : List Name) : Errno :=
  if ParentShort a ∧ a.getLast? = some [] then .eisdir else .enametoolong

theorem mem_of_mem_dropNames {s : Name} : ∀ {k : Nat} {l : List Name}, s ∈ dropNames k l → s ∈ l :=
  fun {k l} h => by
    rw [← takeNames_append_dropNames k l]
    exact List.mem_append_right _ h

theorem mem_path_of_mem_rel {h : Host} {s : Name} (hs : s ∈ fs.rel h path) :
    s ∈ Path.ofBytes (bytes path) := by
  rw [rel] at hs
  simp only at hs
  split at hs
  · exact List.mem_of_mem_tail (mem_of_mem_dropNames hs)
  · exact hs

/-- A segment of an accepted path that stays where it is is empty. -/
theorem stay_of_rel (hv : validatePath path = .ok ()) {h : Host} {s : Name} (hs : s ∈ fs.rel h path)
    (hst : Stay s) : s = [] := by
  obtain ⟨-, -, -, ht⟩ := validatePath_ok.mp hv
  rw [isTraversal, List.any_eq_false] at ht
  refine hst.resolve_right fun hd => ht s (mem_path_of_mem_rel hs) ?_
  simp [hd]

section Linkless

variable (hroot : Rooted fs w.host r) (hlinks : Linkless w.host.tree r)
  (hv : validatePath path = .ok ()) (ho : fs.okPrefix w.host path = true)

include hroot hlinks hv ho

/-- **A path below a file** is refused by the system, before anything is made. -/
theorem opening_blocked (hblock : Blocked w.host.tree r (fs.rel w.host path)) :
    fs.opening path w = ([], .error (.io (.os .enotdir))) := by
  have hb := below hroot hv ho
  have hlook : w.host.lookup false (fs.joined path) = .error .enotdir :=
    hb.lookup_blocked hlinks hblock
  have hstat : w.host.lstat (fs.joined path) = .error .enotdir := by rw [Host.lstat, hlook]; rfl
  have hfail : fs.resolve path w = ([], .error (.io (.os .enotdir))) := by
    simp only [resolve, Act.get_bind, ho, hstat]
    rfl
  rw [opening, Act.bind_error hfail]

/-- **A path with a name that is too long**, looked up in a directory, is refused as well. -/
theorem opening_tooLong (hlong : TooLong w.host.tree r (fs.rel w.host path)) :
    fs.opening path w = ([], .error (.io (.os .enametoolong))) := by
  have hlook : w.host.lookup false (fs.joined path) = .error .enametoolong :=
    (below hroot hv ho).lookup_tooLong hlinks hlong
  have hstat : w.host.lstat (fs.joined path) = .error .enametoolong := by
    rw [Host.lstat, hlook]; rfl
  have hfail : fs.resolve path w = ([], .error (.io (.os .enametoolong))) := by
    simp only [resolve, Act.get_bind, ho, hstat]
    rfl
  rw [opening, Act.bind_error hfail]

/-- Making the parent of any other path stops at the first name that is too long, if any. -/
theorem makeParent_raised (hfree : ¬ Blocked w.host.tree r (fs.rel w.host path)) :
    ∃ h, makeParent w.host (fs.joined path) = ((makeParent w.host (fs.joined path)).1, h,
        if ParentShort (fs.rel w.host path) then .ok () else .error .enametoolong) ∧
      h.cwd = w.host.cwd ∧ Grows w.host.tree h.tree ∧
      Raised r (ceiling r (fs.rel w.host path)) w.host.tree h.tree := by
  have hb := below hroot hv ho
  rw [makeParent]
  rcases hp : parent (fs.joined path) with _ | cs
  · have hnil := hb.parent_none hp
    refine ⟨w.host, ?_, rfl, .refl _, .refl fun m hrm hmk hmne => ?_⟩
    · rw [if_pos (by simp [ParentShort, hnil])]
    · rw [ceiling, hnil] at hmk hmne
      exact absurd (hrm.eq_of_length_le hmk.length_le).symm hmne
  · obtain ⟨made, h, hrun, hmade, hraised⟩ := hb.parent_raised hlinks hfree hp
    simp only [hrun]
    exact ⟨h, rfl, hmade.cwd, hmade.grows, hraised⟩

/-- The root itself is no file to write. -/
theorem opening_self (hrel : fs.rel w.host path = []) {l : Loc} :
    (fs.opening path w).2 ≠ .ok l := by
  intro hl
  have hb := below hroot hv ho
  obtain ⟨h, hh, hcwd, hgrows, -⟩ :=
    makeParent_raised hroot hlinks hv ho (by rw [hrel]; exact not_blocked_nil)
  have hop := opening_opens fs path w
  rcases hq : fs.opening path w with ⟨steps, x⟩
  rw [hq] at hop hl
  obtain rfl : x = .ok l := hl
  cases hop with
  | opened ha hp hopen =>
      rw [hh] at hopen
      obtain ⟨hlook, hfile, -⟩ := openWrite_rewrote (joined_ne_nil fs path)
        (slashFree_joined fs path) hopen
      have hb' := hb.grows hgrows hcwd
      rw [hrel] at hb'
      have hdir : h.tree.get r = some .dir := hb'.dir
      rcases hfile with hn | ⟨g, hg⟩
      · rw [hb'.lookup_self hlook (by rw [hn]; simp), hdir] at hn
        cases hn
      · rw [hb'.lookup_self hlook (by rw [hg]; simp), hdir] at hg
        cases hg

/-- Any other path is admitted, and its parent is made, up to a name that is too long. -/
theorem opening_parent (hne : fs.rel w.host path ≠ [])
    (hfree : ¬ Blocked w.host.tree r (fs.rel w.host path))
    (hlong : ¬ TooLong w.host.tree r (fs.rel w.host path)) :
    ∃ steps h, Below h (fs.joined path) r (fs.rel w.host path) ∧ h.cwd = w.host.cwd ∧
      Raised r (ceiling r (fs.rel w.host path)) w.host.tree h.tree ∧
      after w steps = { w with host := h } ∧
      fs.opening path w = if ParentShort (fs.rel w.host path) then
          (steps ++ (openWrite path (fs.joined path) { w with host := h }).1,
            (openWrite path (fs.joined path) { w with host := h }).2)
        else (steps, .error (.io (.os .enametoolong))) := by
  have hb := below hroot hv ho
  have hpass : fs.admits w.host path = true := by
    rw [admits, ho, Host.lstat]
    obtain ⟨m, hm⟩ := hb.lookup hne
    rw [hm]
    rcases walk_linkless (f := false) (n := m) hb.clean hlinks hb.short with
      ⟨h, -⟩ | ⟨h, -⟩ | ⟨-, -, h | ⟨h, -⟩⟩
    · exact absurd h hfree
    · exact absurd h hlong
    · rw [h]
      rcases hg : w.host.tree.get (lexical r (fs.rel w.host path)) with _ | n
      · simp [bind, Except.bind, Host.nodeAt, hg]
      · cases n with
        | symlink target => exact absurd hg (hlinks _ target (suffix_lexical _ _))
        | file g => simp [bind, Except.bind, Host.nodeAt, hg, Node.isSymlink]
        | dir => simp [bind, Except.bind, Host.nodeAt, hg, Node.isSymlink]
    · rw [h]
      simp [bind, Except.bind]
  have hresolve : fs.resolve path w = ([], .ok (fs.joined path)) := by
    rcases resolve_run fs path w with ⟨-, e⟩ | ⟨ha, -⟩
    · exact e
    · rw [hpass] at ha; cases ha
  obtain ⟨h, hh, hcwd, hgrows, hraised⟩ := makeParent_raised hroot hlinks hv ho hfree
  have hafter : after w (parentSteps w (fs.joined path)) = { w with host := h } := by
    rw [after_parentSteps, hh]
  refine ⟨parentSteps w (fs.joined path), h, hb.grows hgrows hcwd, hcwd, hraised, hafter, ?_⟩
  have hparent := createParent_run (fs.joined path) w
  rw [opening, Act.bind_ok hresolve, after_nil]
  split
  · rename_i hshort
    rw [hh, if_pos hshort] at hparent
    rw [Act.bind_ok hparent, hafter]
    rfl
  · rename_i hshort
    rw [hh, if_neg hshort] at hparent
    rw [Act.bind_error hparent]
    rfl

/-- …where no name of the path is too long. -/
theorem opening_free (hne : fs.rel w.host path ≠ [])
    (hfree : ¬ Blocked w.host.tree r (fs.rel w.host path)) (hshort : fs.ShortNames w.host path) :
    ∃ steps h, Below h (fs.joined path) r (fs.rel w.host path) ∧ h.cwd = w.host.cwd ∧
      Raised r (fs.place w.host r path) w.host.tree h.tree ∧ after w steps = { w with host := h } ∧
      fs.opening path w = (steps ++ (openWrite path (fs.joined path) { w with host := h }).1,
        (openWrite path (fs.joined path) { w with host := h }).2) := by
  obtain ⟨steps, h, hb, hcwd, hraised, hafter, hrun⟩ :=
    opening_parent hroot hlinks hv ho hne hfree (not_tooLong hshort)
  rw [ceiling_short hshort] at hraised
  rw [if_pos (parentShort_of hshort)] at hrun
  exact ⟨steps, h, hb, hcwd, hraised, hafter, hrun⟩

/-- **A path to a directory** is no file to write. -/
theorem opening_dir (hne : fs.rel w.host path ≠ [])
    (hd : w.host.tree.get (fs.place w.host r path) = some .dir) :
    (fs.opening path w).2 = .error (.io (.os .eisdir)) ∧
      Leaves w (after w (fs.opening path w).1) (Raised r (fs.place w.host r path)) := by
  have hfree : ¬ Blocked w.host.tree r (fs.rel w.host path) := by
    have := not_blocked_of_dir (c := []) (by simp) hd
    rwa [List.append_nil] at this
  have hheld : w.host.tree.get (fs.place w.host r path) ≠ none := by rw [hd]; simp
  obtain ⟨steps, h, hb, hcwd, hraised, hafter, hrun⟩ :=
    opening_free hroot hlinks hv ho hne hfree (short_of_held hheld)
  have hd' : h.tree.get (lexical r (fs.rel w.host path)) = some .dir := by
    rw [← hd]; exact hraised.at_end
  have hl : h.lookup false (fs.joined path) = .ok (lexical r (fs.rel w.host path)) :=
    hb.lookup_held (hraised.linkless hlinks) hne (fun h => hfree (hraised.blocked_iff.mp h))
      (by rw [hd']; simp)
  have hopen : h.openWrite (fs.joined path) = .error .eisdir := by
    rw [Host.openWrite_eq hl]
    simp only [Host.create, hd']
  rw [hrun, openWrite_error (w := { w with host := h }) hopen (by simp), List.append_nil]
  exact ⟨rfl, h, hafter, hcwd, hraised⟩

omit hroot hv ho in
/-- The directory that holds the last name is there once the parent was made. -/
theorem raised_dir {h : Host} {b c : List Name} {x : Name}
    (hfree : ¬ Blocked w.host.tree r (fs.rel w.host path))
    (e : fs.rel w.host path = b ++ x :: c) (hx : Named x) (hc : ∀ s ∈ c, Stay s)
    (hraised : Raised r (fs.place w.host r path) w.host.tree h.tree) :
    h.tree.get (lexical r b) = some .dir := by
  have hend : fs.place w.host r path = x :: lexical r b := by rw [place, e, lexical_last hx hc]
  rw [hend] at hraised
  exact hraised.above (fun g hg => hfree ⟨b, x :: c, g, e, by simp, hg⟩)
    (fun target => hlinks _ target (suffix_lexical _ _)) (suffix_lexical _ _) (List.suffix_cons x _)
    (Tree.ne_cons_self x _)

/-- **A path that ends in a slash**, to nothing: the directories above it are made, and it is not
opened. -/
theorem opening_trailing (hfree : ¬ Blocked w.host.tree r (fs.rel w.host path))
    (hshort : fs.ShortNames w.host path) (ht : Trailing (fs.rel w.host path))
    (hn : w.host.tree.get (fs.place w.host r path) = none) :
    (fs.opening path w).2 = .error (.io (.os .eisdir)) ∧
      Leaves w (after w (fs.opening path w).1) (Raised r (fs.place w.host r path)) := by
  have hne : fs.rel w.host path ≠ [] := by
    obtain ⟨b, s, e, -⟩ := ht
    simp [e]
  obtain ⟨steps, h, hb, hcwd, hraised, hafter, hrun⟩ :=
    opening_free hroot hlinks hv ho hne hfree hshort
  obtain ⟨b, x, c, e, hx, hc⟩ := last_name hb.clean fun hnil => by
    rw [place, lexical_eq, hnil, List.reverse_nil, List.nil_append, hroot.dir] at hn
    cases hn
  have hdir := raised_dir hlinks hfree e hx hc hraised
  have hcne : c ≠ [] := by
    rintro rfl
    rw [e] at ht
    exact ht.not_name hx
  rw [e] at hb
  have hopen :=
    hb.openWrite_slash (hraised.linkless hlinks) hx (fun s hs => stay_of_rel hv (h := w.host)
    (by rw [e]; exact List.mem_append_right _ (List.mem_cons_of_mem _ hs)) (hc s hs)) hcne hdir
  rw [hrun, openWrite_error (w := { w with host := h }) hopen (by simp), List.append_nil]
  exact ⟨rfl, h, hafter, hcwd, hraised⟩

/-- **A path to a file**, or to a name that is not used: there is an empty file. -/
theorem opening_stored (hne : fs.rel w.host path ≠ [])
    (hfree : ¬ Blocked w.host.tree r (fs.rel w.host path)) (hshort : fs.ShortNames w.host path)
    (ht : ¬ Trailing (fs.rel w.host path)) (hopen : w.host.tree.Open (fs.place w.host r path)) :
    (fs.opening path w).2 = .ok (fs.place w.host r path) ∧
      Leaves w (after w (fs.opening path w).1) (Stored r (fs.place w.host r path) []) := by
  obtain ⟨steps, h, hb, hcwd, hraised, hafter, hrun⟩ :=
    opening_free hroot hlinks hv ho hne hfree hshort
  obtain ⟨b, x, e, hx⟩ := (trailing_or_name hb.clean hne).resolve_left ht
  have hend : lexical r (fs.rel w.host path) = x :: lexical r b := by
    rw [e, lexical_append, lexical_name hx.1, lexical_nil]
  -- the directory that holds the name is there now
  have hdir := raised_dir hlinks hfree e hx (by simp) hraised
  have hl : h.lookup false (fs.joined path) = .ok (x :: lexical r b) := by
    rw [e] at hb
    exact hb.lookup_name (hraised.linkless hlinks) hx (hshort x (by rw [e]; simp)) hdir
  have hput : h.openWrite (fs.joined path)
      = .ok (x :: lexical r b, h.put x (lexical r b) (.file ⟨[], h.now⟩)) := by
    have hend' := hraised.at_end
    rw [place, hend] at hend' hopen
    rw [Host.openWrite_eq hl]
    rcases hopen with hn | ⟨g, hg⟩
    · simp only [Host.create, hend'.trans hn]
    · simp only [Host.create, hend'.trans hg]
  obtain ⟨-, -, hrw⟩ := openWrite_rewrote (joined_ne_nil fs path) (slashFree_joined fs path) hput
  have hrun' : openWrite path (fs.joined path) { w with host := h }
      = ([⟨{ w with host := h.put x (lexical r b) (.file ⟨[], h.now⟩) },
        [.touch (.write (x :: lexical r b))]⟩],
        .ok (x :: lexical r b)) := by
    rw [openWrite, Act.get_bind, hput]
    rfl
  rw [hrun, hrun', after_append, after_cons, after_nil, place, hend]
  refine ⟨rfl, _, rfl, hrw.cwd.trans hcwd, ?_⟩
  rw [place, hend] at hraised
  exact hraised.stored hrw

/-- **A path with a name that is too long**, below a directory that is missing: the directories up
to that name are made, and it is not opened. -/
theorem opening_long (hfree : ¬ Blocked w.host.tree r (fs.rel w.host path))
    (hlong : ¬ TooLong w.host.tree r (fs.rel w.host path)) (hshort : ¬ fs.ShortNames w.host path) :
    (fs.opening path w).2 = .error (.io (.os (longError (fs.rel w.host path)))) ∧
      Leaves w (after w (fs.opening path w).1) (Raised r (ceiling r (fs.rel w.host path))) := by
  have hne : fs.rel w.host path ≠ [] := fun e => hshort fun s hs => by rw [e] at hs; cases hs
  obtain ⟨steps, h, hb, hcwd, hraised, hafter, hrun⟩ :=
    opening_parent hroot hlinks hv ho hne hfree hlong
  by_cases hparent : ParentShort (fs.rel w.host path)
  · -- the last name is the one that is too long
    rw [if_pos hparent] at hrun
    have hraised' : Raised r (fs.place w.host r path) w.host.tree h.tree := by
      rw [place, ← ceiling_parent hparent]; exact hraised
    obtain ⟨b, x, c, e, hx, hc⟩ := last_name hb.clean fun hnil => hshort fun s hs => by
      by_contra hs'
      have hmem : s ∈ namesOf (fs.rel w.host path) :=
        List.mem_filter.mpr ⟨hs, by simpa using fun hst : Stay s => hs' hst.length_le⟩
      rw [hnil] at hmem
      cases hmem
    have hdir := raised_dir hlinks hfree e hx hc hraised'
    have hopen : h.openWrite (fs.joined path) = .error (longError (fs.rel w.host path)) := by
      rcases List.eq_nil_or_concat c with rfl | ⟨d, s, rfl⟩
      · have hlast : (fs.rel w.host path).getLast? ≠ some [] := by
          rw [e, List.getLast?_concat]
          exact fun h => hx.1 (.inl (Option.some.inj h))
        rw [longError, if_neg fun h => hlast h.2]
        have hxlong := last_long hx hc (e ▸ hparent) (e ▸ hshort)
        have hlook := hb.lookup_tooLong (f := false) (hraised.linkless hlinks) ⟨b, x, [],
          e, hxlong, hdir⟩
        rw [e] at hb
        exact hb.openWrite_name hx hlook
      · have hempty : ∀ y ∈ d.concat s, y = [] := fun y hy => stay_of_rel hv (h := w.host)
          (by rw [e]; exact List.mem_append_right _ (List.mem_cons_of_mem _ hy)) (hc y hy)
        have hlast : (fs.rel w.host path).getLast? = some [] := by
          rw [e, hempty s (by simp), List.concat_eq_append, ← List.cons_append, ← List.append_assoc,
            List.getLast?_concat]
        rw [longError, if_pos ⟨hparent, hlast⟩]
        rw [e] at hb
        exact hb.openWrite_slash (hraised.linkless hlinks) hx hempty (by simp) hdir
    rw [hrun, openWrite_error (w := { w with host := h }) hopen (by rw [longError]; split <;> simp),
      List.append_nil]
    exact ⟨rfl, h, hafter, hcwd, hraised⟩
  · rw [if_neg hparent] at hrun
    rw [hrun, longError, if_neg fun h => hparent h.1]
    exact ⟨rfl, h, hafter, hcwd, hraised⟩

/-- A path that opens for writing has no name that is too long. -/
theorem short_of_opening (hfree : ¬ Blocked w.host.tree r (fs.rel w.host path)) {l : Loc}
    (hl : (fs.opening path w).2 = .ok l) : fs.ShortNames w.host path := by
  by_contra hshort
  by_cases hlong : TooLong w.host.tree r (fs.rel w.host path)
  · rw [opening_tooLong hroot hlinks hv ho hlong] at hl; cases hl
  · rw [(opening_long hroot hlinks hv ho hfree hlong hshort).1] at hl; cases hl

end Linkless

/-! ### A root that grew -/

section Grown

variable {h h' : Host} (hroot : Rooted fs h r) (hg : Grows h.tree h'.tree) (hc : h'.cwd = h.cwd)

include hroot hg hc

theorem rooted_grows : Rooted fs h' r :=
  ⟨Host.lookup_grows hg hc hroot.lookup (.inl (by rw [hroot.dir]; simp)), hg.dir hroot.dir⟩

theorem canonicalRoot_grows : fs.canonicalRoot h' = fs.canonicalRoot h := by
  have hroot' := rooted_grows hroot hg hc
  have hcanon : ∀ {g : Host}, Rooted fs g r →
      g.canonicalize fs.root
        = .ok (ofComponents (.rootDir :: r.reverse.map .normal)) := fun hg => by
    simp [Host.canonicalize, hg.lookup, Host.nodeAt, hg.dir, bind, Except.bind, pure, Except.pure]
  rw [canonicalRoot, canonicalRoot, hcanon hroot, hcanon hroot']

theorem okPrefix_grows (path : String) : fs.okPrefix h' path = fs.okPrefix h path := by
  rw [okPrefix, okPrefix, canonicalRoot_grows hroot hg hc]

theorem rel_grows (path : String) : fs.rel h' path = fs.rel h path := by
  rw [rel, rel, canonicalRoot_grows hroot hg hc]

theorem place_grows (path : String) : fs.place h' r path = fs.place h r path := by
  rw [place, place, rel_grows hroot hg hc]

end Grown

/-! ### Reading -/

/-- **A path below a file** is not opened. -/
theorem openRead_blocked (hroot : Rooted fs w.host r) (hlinks : Linkless w.host.tree r)
    (hv : validatePath path = .ok ()) (ho : fs.okPrefix w.host path = true)
    (hblock : Blocked w.host.tree r (fs.rel w.host path)) (env : Env) :
    (fs.openRead env path w).2 = .error (.io (.os .enotdir)) := by
  rw [openRead_outcome ho, (below hroot hv ho).lookup_blocked hlinks hblock]
  rfl

/-- **A path with a name that is too long**, looked up in a directory, is not either. -/
theorem openRead_tooLong (hroot : Rooted fs w.host r) (hlinks : Linkless w.host.tree r)
    (hv : validatePath path = .ok ()) (ho : fs.okPrefix w.host path = true)
    (hlong : TooLong w.host.tree r (fs.rel w.host path)) (env : Env) :
    (fs.openRead env path w).2 = .error (.io (.os .enametoolong)) := by
  rw [openRead_outcome ho, (below hroot hv ho).lookup_tooLong hlinks hlong]
  rfl

/-- **Any other path** opens what is there. -/
theorem openRead_free (hroot : Rooted fs w.host r) (hlinks : Linkless w.host.tree r)
    (hv : validatePath path = .ok ()) (ho : fs.okPrefix w.host path = true)
    (hne : fs.rel w.host path ≠ []) (hfree : ¬ Blocked w.host.tree r (fs.rel w.host path))
    (hlong : ¬ TooLong w.host.tree r (fs.rel w.host path)) (env : Env) :
    (fs.openRead env path w).2 = match w.host.tree.get (fs.place w.host r path) with
      | none => .error (.notFound path)
      | some n => .ok (readerOf (some n) env.feed) := by
  have hb := below hroot hv ho
  obtain ⟨m, hm⟩ := hb.lookup hne
  rw [openRead_outcome ho, hm, place]
  rcases walk_linkless (f := false) (n := m) hb.clean hlinks hb.short with
    ⟨h, -⟩ | ⟨h, -⟩ | ⟨-, -, h | ⟨h, hn⟩⟩
  · exact absurd h hfree
  · exact absurd h hlong
  · rw [h, outcome]
    rcases hg : w.host.tree.get (lexical r (fs.rel w.host path)) with _ | n
    · rfl
    · cases n with
      | symlink target => exact absurd hg (hlinks _ target (suffix_lexical _ _))
      | file f => rfl
      | dir => rfl
  · rw [h, hn]
    rfl

/-- Opened for reading, the path yields the bytes `c`, however they come. -/
def Yields (fs : FsBackend) (w : World) (path : String) (c : List UInt8) : Prop :=
  ∀ env, (fs.openRead env path w).2 = .ok ⟨deliver env.feed c, 0⟩

/-- Where a path leads to a file, it is blocked only by that file. -/
theorem blocked_iff_trailing {t : Tree} {a : List Name} {g : File}
    (hg : t.get (lexical r a) = some (.file g)) : Blocked t r a ↔ Trailing a := by
  refine ⟨?_, fun ht => ht.blocked hg⟩
  rintro ⟨b, c, f, rfl, hc, hf⟩
  obtain ⟨c, s, e⟩ := (List.eq_nil_or_concat c).resolve_left hc
  rw [List.concat_eq_append] at e
  subst e
  refine ⟨b ++ c, s, by simp, ?_⟩
  by_contra hs
  -- else the location of the first file is above that of the other
  rw [← List.append_assoc, lexical_append, lexical_name hs, lexical_nil] at hg
  have habove : lexical r b <:+ lexical r (b ++ c) := lexical_suffix (List.prefix_append b c)
  rw [Tree.get_above (by rw [hg]; simp) habove] at hf
  cases hf

/-- **What a path yields**: the bytes of the file where it leads. -/
theorem yields_iff (hroot : Rooted fs w.host r) (hlinks : Linkless w.host.tree r)
    (hv : validatePath path = .ok ()) {c : List UInt8} :
    fs.Yields w path c ↔ fs.okPrefix w.host path = true ∧ ¬ Trailing (fs.rel w.host path) ∧
      w.host.tree.contents (fs.place w.host r path) = some c := by
  cases ho : fs.okPrefix w.host path with
  | false =>
      refine ⟨fun h => ?_, fun h => (by cases h.1)⟩
      have hy := h .calm
      rw [openRead_escaped ho] at hy
      cases hy
  | true =>
      constructor
      · intro h
        refine ⟨rfl, ?_⟩
        have hy := h .calm
        rw [openRead_outcome ho] at hy
        rcases lookup_linkless hroot hlinks hv ho with
          ⟨l, target, hl, ht⟩ | ⟨-, hl⟩ | ⟨-, hl⟩ | ⟨hfree, -, hl | ⟨hl, -⟩⟩
        · rw [hl] at hy
          simp only [outcome, ht] at hy
          cases hy
        · rw [hl] at hy; cases hy
        · rw [hl] at hy; cases hy
        · rw [hl] at hy
          rcases hg : w.host.tree.get (lexical r (fs.rel w.host path)) with _ | n
          · simp only [outcome, hg] at hy
            cases hy
          · cases n with
            | symlink target => exact absurd hg (hlinks _ target (suffix_lexical _ _))
            | dir =>
                simp only [outcome, hg, readerOf] at hy
                have hbytes := congrArg Script.events (Except.ok.inj hy)
                cases c <;> cases hbytes
            | file f =>
                simp only [outcome, hg, readerOf] at hy
                have hbytes := congrArg (fun s => bytesOf s.events) (Except.ok.inj hy)
                simp only [bytesOf_deliver] at hbytes
                exact ⟨fun ht => hfree ((blocked_iff_trailing hg).mpr ht),
                  Tree.contents_eq_some.mpr ⟨f, hg, hbytes⟩⟩
        · rw [hl] at hy; cases hy
      · rintro ⟨-, ht, hcont⟩ env
        obtain ⟨f, hf, rfl⟩ := Tree.contents_eq_some.mp hcont
        rw [openRead_outcome ho]
        have hb := below hroot hv ho
        have hne : fs.rel w.host path ≠ [] := by
          intro e
          rw [place, e, lexical_nil, hroot.dir] at hf
          cases hf
        have hfree : ¬ Blocked w.host.tree r (fs.rel w.host path) := fun h =>
          ht ((blocked_iff_trailing hf).mp h)
        rw [hb.lookup_held hlinks hne hfree (by rw [← place, hf]; simp)]
        rw [place] at hf
        simp only [outcome, hf, readerOf]

/-! ### Writing -/

/-- **A write that succeeds** stores what was copied, where the path leads. -/
theorem writeAll_ok {R : Type} [AsyncRead R] (hroot : Rooted fs w.host r)
    (hlinks : Linkless w.host.tree r) (hv : validatePath path = .ok ()) (env : Env)
      (reader : R) {rd : R}
    (hok : (fs.writeAll env path reader w).2 = .ok rd) :
    fs.okPrefix w.host path = true ∧ ¬ Trailing (fs.rel w.host path) ∧
      w.host.tree.Open (fs.place w.host r path) ∧
      (∃ x m, fs.place w.host r path = x :: m ∧ r <:+ m) ∧
      (copy env.copy reader).2 = .ok rd ∧
      Leaves w (after w (fs.writeAll env path reader w).1)
        (Stored r (fs.place w.host r path) (copy env.copy reader).1.flatten) := by
  rw [writeAll_eq] at hok ⊢
  -- the path opens
  obtain ⟨l, hl⟩ : ∃ l, (fs.opening path w).2 = .ok l := by
    rcases ho : fs.opening path w with ⟨steps, x | l⟩
    · rw [Act.bind_error ho] at hok; cases hok
    · exact ⟨l, rfl⟩
  have ho : fs.okPrefix w.host path = true := by
    rcases resolve_run fs path w with ⟨ha, -⟩ | ⟨-, x, e⟩
    · rw [admits, Bool.and_eq_true] at ha
      exact ha.1
    · rw [opening, Act.bind_error e] at hl
      cases hl
  have hne : fs.rel w.host path ≠ [] := fun e => opening_self hroot hlinks hv ho e hl
  have hfree : ¬ Blocked w.host.tree r (fs.rel w.host path) := fun h => by
    rw [opening_blocked hroot hlinks hv ho h] at hl; cases hl
  have hshort := short_of_opening hroot hlinks hv ho hfree hl
  obtain ⟨ht, hopen⟩ : ¬ Trailing (fs.rel w.host path) ∧
    w.host.tree.Open (fs.place w.host r path) := by
    rcases hg : w.host.tree.get (fs.place w.host r path) with _ | n
    · refine ⟨fun ht => ?_, .inl hg⟩
      rw [(opening_trailing hroot hlinks hv ho hfree hshort ht hg).1] at hl
      cases hl
    · cases n with
      | symlink target => exact absurd hg (hlinks _ target (suffix_lexical _ _))
      | dir => rw [(opening_dir hroot hlinks hv ho hne hg).1] at hl; cases hl
      | file f => exact ⟨fun ht => hfree ((blocked_iff_trailing hg).mpr ht), .inr ⟨f, hg⟩⟩
  obtain ⟨hplace, h, hafter, hcwd, hstored⟩ :=
    opening_stored hroot hlinks hv ho hne hfree hshort ht hopen
  obtain rfl : l = fs.place w.host r path := Except.ok.inj (hl.symm.trans hplace)
  obtain ⟨b, x, e, hx⟩ := (trailing_or_name (below hroot hv ho).clean hne).resolve_left ht
  -- and the copy fills the file
  rcases hq : fs.opening path w with ⟨steps, y⟩
  rw [hq] at hl hafter
  obtain rfl : y = .ok (fs.place w.host r path) := hl
  have hrw : Rewrote h h (fs.place w.host r path) [] := ⟨hstored.file, fun _ _ => rfl, rfl⟩
  rw [Act.bind_ok hq] at hok ⊢
  rw [hafter] at hok
  simp only [after_append, hafter]
  have hcopied := copyInto_file env reader { w with host := h } hrw
  rcases hcopied.result with ⟨x, h₁, -⟩ | ⟨rd', h₁, h₂, h₃⟩
  · rw [h₁] at hok; cases hok
  · rw [h₁] at hok
    obtain rfl := Except.ok.inj hok
    obtain ⟨h', hv', hrw'⟩ := h₃
    refine ⟨ho, ht, hopen, ⟨x, lexical r b, ?_, suffix_lexical r b⟩, h₂, h', hv',
      hrw'.cwd.trans hcwd,
      hstored.rewrote hrw'⟩
    rw [place, e, lexical_append, lexical_name hx.1, lexical_nil]


end FsBackend

end FileFerry
