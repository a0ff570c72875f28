import FileFerry.Posix.Parent
import FileFerry.Source.Fs

/-!
# Results — Resolve

Where the file-system backend goes for a path.

* `Rooted fs h r`: the root of the backend is the directory at `r`.
* `FsBackend.below`: a path that passes the validator and the check of its prefix leads below the
  root; `FsBackend.rel` are its segments there.
-/

namespace FileFerry
open Text Posix

/-- The root is the directory at `r`. -/
structure Rooted (fs : FsBackend) (h : Host) (r : Loc) : Prop where
  lookup : h.lookup true fs.root = .ok r
  dir : h.tree.get r = some .dir

/-- The segments of the path below the root: those of a relative path, and those of an absolute one
after the names of the root, as it was configured or as it is canonically. -/
def FsBackend.rel (fs : FsBackend) (h : Host) (path : String) : List Name :=
  let p := Path.ofBytes (bytes path)
  if isAbsolute p then
    let base := if (components fs.root).isPrefixOf (components p) then components fs.root
      else components (fs.canonicalRoot h)
    dropNames (base.length - 1) p.tail
  else p

namespace FsBackend

variable {fs : FsBackend} {h : Host} {r : Loc} {path : String}

theorem root_ne_nil (fs : FsBackend) : fs.root ≠ [] := by
  rw [root, Path.ofBytes]
  exact List.splitOn_ne_nil _ _

theorem path_ne_nil (path : String) : Path.ofBytes (bytes path) ≠ [] := List.splitOn_ne_nil _ _

theorem ofBytes_proper {b : List UInt8} (hb : b ≠ []) : Path.ofBytes b ≠ [[]] := by
  obtain ⟨c, b, rfl⟩ := List.exists_cons_of_ne_nil hb
  have hne := List.splitOn_ne_nil slash b
  rw [Path.ofBytes, List.splitOn_cons_eq_if_modifyHead]
  split
  · simp
  · obtain ⟨s, rest, e⟩ := List.exists_cons_of_ne_nil hne
    rw [e]; simp

theorem path_proper (hv : path ≠ "") : Path.ofBytes (bytes path) ≠ [[]] :=
  ofBytes_proper fun e => hv (bytes_inj.mp e)

theorem slashFree_join (fs : FsBackend) {q : Path} (hq : SlashFree q) :
    SlashFree (join fs.root q) := by
  have hr : SlashFree fs.root := slashFree_ofBytes _
  rw [join]
  split
  · exact hq
  · split
    · exact (show SlashFree fs.root.dropLast from
        fun s hs => hr s (List.dropLast_subset _ hs)).append hq
    · exact hr.append hq

theorem slashFree_joined (fs : FsBackend) (path : String) : SlashFree (fs.joined path) :=
  slashFree_join fs (slashFree_ofBytes _)

theorem joined_ne_nil (fs : FsBackend) (path : String) : fs.joined path ≠ [] := by
  have hp := path_ne_nil path
  rw [joined, join]
  split
  · exact hp
  · split
    · simp [hp]
    · simp [hp]

/-- The segments of a relative path follow those of the root, less an empty one at its end. -/
theorem join_relative (fs : FsBackend) {q : Path} (ha : isAbsolute q = false) :
    ∃ pre, join fs.root q = pre ++ q ∧ (pre = fs.root ∨ fs.root = pre ++ [[]]) := by
  rw [join, if_neg (by simp [ha])]
  split
  · rename_i hr
    refine ⟨fs.root.dropLast, rfl, .inr ?_⟩
    obtain ⟨l, e⟩ := List.getLast?_eq_some_iff.mp hr
    rw [e, List.dropLast_concat]
  · exact ⟨fs.root, rfl, .inl rfl⟩

/-- Where the segments of a relative path begin, the root is before. -/
theorem components_after_root (hr : fs.root ≠ [[]]) {pre a : Path}
    (hpre : pre = fs.root ∨ fs.root = pre ++ [[]]) (hne : pre ++ a ≠ [[]]) :
    components (pre ++ a) = components fs.root ++ a.filterMap Component.ofSeg := by
  have hr₀ := root_ne_nil fs
  rcases hpre with rfl | e
  · exact components_append hr₀ hr a
  · have hpre₀ : pre ≠ [] := by rintro rfl; exact hr e
    by_cases hpre₁ : pre = [[]]
    · subst hpre₁
      have ha₀ : a ≠ [] := by rintro rfl; exact hne rfl
      rw [e]
      exact components_absolute ha₀
    · rw [components_append hpre₀ hpre₁, e, components_append hpre₀ hpre₁]
      simp [ofSeg_stay (s := []) (.inl rfl)]

theorem append_ne_empty {pre q : Path} (hpre : pre ≠ []) (hq : q ≠ []) :
    pre ++ q ≠ [[]] := fun e => by
  have := congrArg List.length e
  simp only [List.length_append, List.length_cons, List.length_nil] at this
  have h₁ := List.length_pos_iff.mpr hpre
  have h₂ := List.length_pos_iff.mpr hq
  omega

theorem pre_ne_nil (hr : fs.root ≠ [[]]) {pre : Path}
    (hpre : pre = fs.root ∨ fs.root = pre ++ [[]]) :
    pre ≠ [] := by
  rintro rfl
  rcases hpre with e | e
  · exact root_ne_nil fs e.symm
  · exact hr e

/-- The components of a relative path follow those of the root. -/
theorem components_join (hr : fs.root ≠ [[]]) {q : Path} (hq : q ≠ []) (ha : isAbsolute q = false) :
    components (join fs.root q) = components fs.root ++ q.filterMap Component.ofSeg := by
  obtain ⟨pre, hj, hpre⟩ := join_relative fs ha
  rw [hj, components_after_root hr hpre (append_ne_empty (pre_ne_nil hr hpre) hq)]

theorem components_root_ne_nil (hr : fs.root ≠ [[]]) : components fs.root ≠ [] := by
  rcases path_cases (root_ne_nil fs) hr with ⟨rest, e, hrest⟩ | ⟨s, rest, e, hs⟩
  · rw [e, components_absolute hrest]; simp
  · obtain ⟨c, hc, -⟩ := components_relative rest hs
    rw [e, hc]; simp

/-- **A relative path** passes the check of its prefix. -/
theorem okPrefix_relative (hr : fs.root ≠ [[]])
    (ha : isAbsolute (Path.ofBytes (bytes path)) = false) : fs.okPrefix h path = true := by
  rw [okPrefix, List.any_eq_true]
  refine ⟨components fs.root, (mem_ancestors (components_root_ne_nil hr)).mpr ?_, by simp⟩
  rw [joined, components_join hr (path_ne_nil path) ha]
  exact List.prefix_append _ _

/-- **A relative path** without segments that lead up leads below the root. -/
theorem below_join (hroot : Rooted fs h r) {q : Path} (hq : q ≠ []) (hclean : Clean q)
    (hslash : SlashFree q) (ha : isAbsolute q = false) : Below h (join fs.root q) r q := by
  have hr := Host.ne_of_lookup hroot.lookup
  have hr₀ := root_ne_nil fs
  have hw := Host.walk_of_lookup hroot.lookup
  have hcs := (lookup_components hr₀ hr hroot.dir).mp hroot.lookup
  obtain ⟨pre, hj, hpre⟩ := join_relative fs ha
  have hpre₀ := pre_ne_nil hr hpre
  refine ⟨hroot.dir, hclean, slashFree_join fs hslash, hj ▸ append_ne_empty hpre₀ hq, pre,
    components fs.root, hj, ?_, hcs, fun a hap hne => ?_⟩
  · rw [hj]
    rcases hpre with rfl | e
    · rw [start_append hr₀ hr]; exact hw
    · obtain ⟨s, pre, rfl⟩ := List.exists_cons_of_ne_nil hpre₀
      have hstart : h.start (s :: pre ++ q) = h.start fs.root := by
        rw [e, Host.start, Host.start, List.cons_append, List.cons_append, isAbsolute_cons,
          isAbsolute_cons]
        simp [hq]
      rw [e] at hw
      obtain ⟨c, hc, hcd⟩ := walk_of_append (by simp) hw
      obtain ⟨m, hm⟩ := walk_append hc
      rw [hm true _ (by simp), walk_stay hcd (.inl rfl), walk_nil] at hw
      rw [hstart, e, ← Except.ok.inj hw]
      exact hc
  · rw [components_after_root hr hpre hne, filterMap_clean fun s hs => hclean s (hap.subset hs)]

/-- What the names of the root are for an absolute path that passes the check of its prefix. -/
theorem base_of_okPrefix (hroot : Rooted fs h r)
    (ha : isAbsolute (Path.ofBytes (bytes path)) = true)
    (ho : fs.okPrefix h path = true) :
    ∃ cs, fs.rel h path = dropNames (cs.length - 1) (Path.ofBytes (bytes path)).tail ∧ cs ≠ [] ∧
      cs <+: components (Path.ofBytes (bytes path)) ∧ h.lookup true (ofComponents cs) = .ok r := by
  obtain ⟨q, hq, hqc, hql⟩ := canonicalize_dir hroot.lookup hroot.dir
  have hcanon : fs.canonicalRoot h = q := by rw [canonicalRoot, hq]
  have hr := Host.ne_of_lookup hroot.lookup
  have hrootc := (lookup_components (root_ne_nil fs) hr hroot.dir).mp hroot.lookup
  have hj : fs.joined path = Path.ofBytes (bytes path) := by rw [joined, join, if_pos ha]
  have hne : components fs.root ≠ [] := fun e => Host.ne_of_lookup hrootc (by rw [e]; rfl)
  simp only [rel, ha, if_true]
  by_cases hpre : (components fs.root).isPrefixOf (components (Path.ofBytes (bytes path))) = true
  · rw [if_pos hpre]
    exact ⟨_, rfl, hne, List.isPrefixOf_iff_prefix.mp hpre, hrootc⟩
  · rw [if_neg hpre, hcanon]
    refine ⟨_, rfl, by rw [hqc]; simp, ?_, hql⟩
    rw [okPrefix, List.any_eq_true] at ho
    obtain ⟨cs, hcs, e⟩ := ho
    rw [Bool.or_eq_true, beq_iff_eq, beq_iff_eq, hcanon] at e
    rw [hj] at hcs
    have hcs₀ : cs ≠ [] := by
      rcases e with e | e
      · rw [e, hqc]; simp
      · rw [e]; exact hne
    rcases e with rfl | rfl
    · exact (mem_ancestors hcs₀).mp hcs
    · exact absurd (List.isPrefixOf_iff_prefix.mpr ((mem_ancestors hcs₀).mp hcs)) hpre

/-- **An absolute path** that passes the check of its prefix leads below the root. -/
theorem below_absolute (hroot : Rooted fs h r) (hv : validatePath path = .ok ())
    (ha : isAbsolute (Path.ofBytes (bytes path)) = true) (ho : fs.okPrefix h path = true) :
    Below h (fs.joined path) r (fs.rel h path) := by
  obtain ⟨cs, hrel, hcs, hprefix, hlook⟩ := base_of_okPrefix hroot ha ho
  have hclean := clean_of_valid hv
  have hslash := slashFree_ofBytes (bytes path)
  have hp := path_proper (validatePath_ok.mp hv).1
  rw [hrel, joined, join, if_pos ha]
  obtain ⟨rest, e, hrest⟩ : ∃ rest, Path.ofBytes (bytes path) = [] :: rest ∧ rest ≠ [] := by
    rcases path_cases (path_ne_nil path) hp with h | ⟨s, rest, e, hs⟩
    · exact h
    · rw [e, isAbsolute_cons] at ha; simp [hs] at ha
  rw [e] at hclean hslash hprefix hp ⊢
  rw [components_absolute hrest] at hprefix
  -- the first component is the root directory, the others are the names taken off
  obtain ⟨cs, rfl⟩ : ∃ cs', cs = .rootDir :: cs' := by
    obtain ⟨c, cs', rfl⟩ := List.exists_cons_of_ne_nil hcs
    exact ⟨cs', by rw [(List.cons_prefix_cons.mp hprefix).1]⟩
  have htake : (takeNames cs.length rest).filterMap Component.ofSeg = cs := by
    rw [filterMap_takeNames]
    exact (List.prefix_iff_eq_take.mp (List.cons_prefix_cons.mp hprefix).2).symm
  have hsplit := takeNames_append_dropNames cs.length rest
  have hcomp : ∀ a, ([] :: takeNames cs.length rest) ++ a ≠ [[]] →
      components (([] :: takeNames cs.length rest) ++ a)
        = .rootDir :: cs ++ a.filterMap Component.ofSeg := by
    intro a hne
    rw [List.cons_append, components_absolute (by simpa using hne), List.filterMap_append, htake]
    rfl
  have hdrop : ∀ s ∈ dropNames cs.length rest, s ∈ rest := fun s hs => by
    rw [← hsplit]; exact List.mem_append_right _ hs
  simp only [List.length_cons, Nat.add_sub_cancel, List.tail_cons]
  refine ⟨hroot.dir, fun s hs => hclean s (List.mem_cons_of_mem _ (hdrop s hs)), hslash, hp,
    [] :: takeNames cs.length rest, .rootDir :: cs, by rw [List.cons_append, hsplit], ?_, hlook,
    fun a hap hne => ?_⟩
  · have hstart : h.start ([] :: rest) = [] := by rw [Host.start, isAbsolute_cons]; simp [hrest]
    rw [hstart]
    by_cases hnil : takeNames cs.length rest = []
    · -- the root is the top
      rw [hnil] at htake ⊢
      rw [← htake] at hlook
      have htop : h.lookup true (ofComponents [.rootDir]) = .ok [] := by
        refine Host.lookup_of_walk (by simp [ofComponents]) (by simp) ?_
        exact walk_stays h.tree.get_top (by simp [ofComponents, Stay])
      rw [← Except.ok.inj (htop.symm.trans hlook)]
      exact walk_stays h.tree.get_top (by simp [Stay])
    · have hpre : [] :: takeNames cs.length rest ≠ [[]] := by simpa using hnil
      have hc := hcomp [] (by simpa using hnil)
      rw [List.append_nil, List.filterMap_nil, List.append_nil] at hc
      rw [← hc, ← lookup_components (by simp) hpre hroot.dir] at hlook
      have hstart' : h.start ([] :: takeNames cs.length rest) = [] := by
        rw [Host.start, isAbsolute_cons]; simp [hnil]
      have hw := Host.walk_of_lookup hlook
      rwa [hstart'] at hw
  · rw [hcomp a hne, filterMap_clean fun s hs =>
      hclean s (List.mem_cons_of_mem _ (hdrop s (hap.subset hs)))]

/-- **A path that passes** the validator and the check of its prefix leads below the root. -/
theorem below (hroot : Rooted fs h r) (hv : validatePath path = .ok ())
    (ho : fs.okPrefix h path = true) : Below h (fs.joined path) r (fs.rel h path) := by
  by_cases ha : isAbsolute (Path.ofBytes (bytes path)) = true
  · exact below_absolute hroot hv ha ho
  · have hrel : fs.rel h path = Path.ofBytes (bytes path) := by simp only [rel, if_neg ha]
    rw [hrel]
    exact below_join hroot (path_ne_nil path) (clean_of_valid hv) (slashFree_ofBytes _)
      (by simpa using ha)

end FsBackend

/-- The backend rooted at `/data`. -/
def dataFs : FsBackend := ⟨bytes "/data"⟩

/-- A host on which `/data` is an empty directory. -/
def dataHost : Host := ⟨Tree.empty.put (bytes "data") [] .dir, [], 0⟩

theorem dataFs_rooted : Rooted dataFs dataHost [bytes "data"] := ⟨by decide, by decide⟩

end FileFerry
