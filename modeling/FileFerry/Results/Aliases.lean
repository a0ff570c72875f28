import FileFerry.Results.Listing

/-!
# Results — Aliases

Which accepted paths name one entry.

* `FsBackend.components_joined`: the components of an accepted path, joined to the root, are the
  names between its slashes.
* `unaliased_iff`: two accepted paths have different keys, and different components unless they
  differ in empty segments alone or one is the absolute form of the other.
-/

namespace FileFerry
open Text Posix AsyncIo Steps

/-- The segments of a path as it comes. -/
def segments (path : String) : Path := Path.ofBytes (bytes path)

/-- `p` is absolute, and its names are those of the root and then those of the relative `q`. -/
def FsBackend.AbsoluteForm (fs : FsBackend) (p q : String) : Prop :=
  isAbsolute (segments p) = true ∧ isAbsolute (segments q) = false ∧
    ∃ ns : List Name, components fs.root = .rootDir :: ns.map .normal ∧
      namesOf (segments p) = ns ++ namesOf (segments q)

/-- Both are relative, or both absolute, and they differ in empty segments alone; or one is the
absolute form of the other. -/
def FsBackend.Aliases (fs : FsBackend) (p q : String) : Prop :=
  isAbsolute (segments p) = isAbsolute (segments q) ∧ namesOf (segments p) = namesOf (segments q) ∨
    fs.AbsoluteForm p q ∨ fs.AbsoluteForm q p

/-- No segment of an accepted path is `.`. -/
theorem dot_notMem_of_valid {path : String} (hv : validatePath path = .ok ()) :
    dot ∉ segments path := fun h => by
  obtain ⟨-, -, -, ht⟩ := validatePath_ok.mp hv
  rw [isTraversal, List.any_eq_false] at ht
  exact ht dot h (by simp)

namespace FsBackend

variable {fs : FsBackend} {path p q : String} {w : World}

theorem components_absolute_path (hv : validatePath path = .ok ())
    (ha : isAbsolute (segments path) = true) :
    components (segments path) = .rootDir :: (namesOf (segments path)).map .normal := by
  have hclean : Clean (segments path) := clean_of_valid hv
  rcases hp : segments path with _ | ⟨s, rest⟩
  · rw [hp] at ha; cases ha
  · rw [hp, isAbsolute_cons, decide_eq_true_eq] at ha
    rw [hp] at hclean
    rw [ha.1, components_absolute ha.2, filterMap_clean hclean.tail, namesOf_stay (.inl rfl)]

theorem components_relative_path (hv : validatePath path = .ok ())
    (ha : isAbsolute (segments path) = false) :
    components (segments path) = (namesOf (segments path)).map .normal := by
  have hclean : Clean (segments path) := clean_of_valid hv
  have hdot := dot_notMem_of_valid hv
  have hproper : segments path ≠ [[]] := path_proper (validatePath_ok.mp hv).1
  rcases hp : segments path with _ | ⟨s, rest⟩
  · exact absurd hp (path_ne_nil path)
  · rw [hp] at hclean hdot hproper
    rw [hp, isAbsolute_cons, decide_eq_false_iff_not] at ha
    have hs : s ≠ dot := fun e => hdot (e ▸ List.mem_cons_self)
    have hnamed : Named s := hclean.head.resolve_left fun hstay => by
      obtain rfl := hstay.resolve_right hs
      exact hproper (by simpa using ha)
    rw [components, if_neg ha, if_neg hs, filterMap_clean hclean.tail, ofSeg_named hnamed,
      namesOf_name hnamed.1]
    rfl

theorem joined_eq (fs : FsBackend) (path : String) :
    fs.joined path = join fs.root (segments path) := rfl

/-- **The components of an accepted path**, joined to the root. -/
theorem components_joined (hv : validatePath path = .ok ()) : components (fs.joined path)
    = (if isAbsolute (segments path) then [.rootDir] else components fs.root)
      ++ (namesOf (segments path)).map .normal := by
  by_cases ha : isAbsolute (segments path) = true
  · rw [if_pos ha, joined_eq, join, if_pos ha]
    exact components_absolute_path hv ha
  · have ha' : isAbsolute (segments path) = false := by simpa using ha
    rw [if_neg ha]
    by_cases hr : fs.root = [[]]
    · have hj : fs.joined path = segments path := by
        rw [joined_eq, join, hr, if_neg ha]; rfl
      rw [hj, hr, components_relative_path hv ha']
      rfl
    · have hclean : Clean (segments path) := clean_of_valid hv
      have hne : segments path ≠ [] := path_ne_nil path
      rw [joined_eq, components_join hr hne ha', filterMap_clean hclean]

theorem map_normal_inj {ns ms : List Name} :
    ns.map Component.normal = ms.map Component.normal ↔ ns = ms :=
  (List.map_injective_iff.mpr fun _ _ h => Component.normal.inj h).eq_iff

/-- An absolute path and a relative one. -/
theorem absoluteForm_iff (hap : isAbsolute (segments p) = true)
    (haq : isAbsolute (segments q) = false) :
    .rootDir :: (namesOf (segments p)).map .normal
        = components fs.root ++ (namesOf (segments q)).map .normal ↔ fs.AbsoluteForm p q := by
  constructor
  · intro e
    refine ⟨hap, haq, ?_⟩
    rcases hr : components fs.root with _ | ⟨c, cs⟩
    · rw [hr, List.nil_append] at e
      cases hq : namesOf (segments q) with
      | nil => rw [hq] at e; cases e
      | cons x l => rw [hq] at e; cases e
    · rw [hr, List.cons_append, List.cons.injEq] at e
      obtain ⟨ns, ms, hns, rfl, hms⟩ := List.map_eq_append_iff.mp e.2
      exact ⟨ns, by rw [e.1], by rw [hns, map_normal_inj.mp hms]⟩
  · rintro ⟨-, -, ns, hr, e⟩
    rw [hr, e, List.map_append, List.cons_append]

/-- **Two accepted paths** have the same components exactly when they are aliases. -/
theorem components_eq_iff (hp : validatePath p = .ok ()) (hq : validatePath q = .ok ()) :
    components (fs.joined p) = components (fs.joined q) ↔ fs.Aliases p q := by
  rw [components_joined hp, components_joined hq]
  rcases hap : isAbsolute (segments p) with _ | _ <;>
    rcases haq : isAbsolute (segments q) with _ | _
  · simp [Aliases, AbsoluteForm, hap, haq, map_normal_inj]
  · have h := @absoluteForm_iff fs q p haq hap
    simp only [Bool.false_eq_true, if_false, if_true, List.singleton_append]
    rw [eq_comm, h]
    simp [Aliases, AbsoluteForm, hap, haq]
  · have h := @absoluteForm_iff fs p q hap haq
    simp only [Bool.false_eq_true, if_false, if_true, List.singleton_append]
    rw [h]
    simp [Aliases, AbsoluteForm, hap, haq]
  · simp [Aliases, AbsoluteForm, hap, haq, map_normal_inj]

end FsBackend

/-- **Two accepted paths** name two entries, and two objects, exactly when the data root refuses one
of them or they are no aliases. -/
theorem unaliased_iff {fs : FsBackend} {p q : String} {w : World} (hp : validatePath p = .ok ())
    (hq : validatePath q = .ok ()) (hne : p ≠ q) :
    ((∀ a a', (fs.resolve p w).2 = .ok a → (fs.resolve q w).2 = .ok a' →
      components a ≠ components a') ∧
      ∀ b : S3Backend, b.key p ≠ b.key q) ↔
    fs.admits w.host p = false ∨ fs.admits w.host q = false ∨ ¬ fs.Aliases p q := by
  have hkeys : ∀ b : S3Backend, b.key p ≠ b.key q := fun b e => hne (b.key_injective e)
  rw [and_iff_left hkeys, ← FsBackend.components_eq_iff hp hq]
  rcases FsBackend.resolve_run fs p w with ⟨ha, e⟩ | ⟨ha, x, e⟩
  · rcases FsBackend.resolve_run fs q w with ⟨ha', e'⟩ | ⟨ha', x', e'⟩
    · simp [e, e', ha, ha']
    · simp [e', ha']
  · simp [e, ha]

/-- `a` and `b` are two entries, and two objects. -/
theorem unaliased_a_b :
    (∀ a a', (dataFs.resolve "a" { World.empty with host := dataHost }).2 = .ok a →
      (dataFs.resolve "b" { World.empty with host := dataHost }).2 = .ok a' →
      components a ≠ components a') ∧ ∀ b : S3Backend, b.key "a" ≠ b.key "b" :=
  (unaliased_iff (by decide) (by decide) (by decide)).mpr (.inr (.inr fun h => by
    rcases h with ⟨-, h⟩ | ⟨h, -⟩ | ⟨h, -⟩
    · exact absurd h (by decide)
    · exact absurd h (by decide)
    · exact absurd h (by decide)))

/-- A doubled slash is accepted, and names what a single one does. -/
theorem doubled_slash_aliases : validatePath "a//b" = .ok () ∧ validatePath "a/b" = .ok () ∧
    ¬ ∀ a a', (dataFs.resolve "a//b" { World.empty with host := dataHost }).2 = .ok a →
      (dataFs.resolve "a/b" { World.empty with host := dataHost }).2 = .ok a' →
      components a ≠ components a' :=
  ⟨by decide, by decide, fun h => h _ _ rfl rfl (by decide)⟩

end FileFerry
