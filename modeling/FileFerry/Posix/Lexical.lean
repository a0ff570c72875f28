import FileFerry.Posix.Below

/-!
# Posix — Lexical

What the components of a path spell when each `..` is cancelled against the component before it,
the file tree not being looked at.

* `Normal`: a path in normal form; `normalise` gives that of a list of components.
* `normalise_append`: the normal form of `a ++ b` is that of `b`, read from that of `a`.
* `Normal.Beneath`: a path is another one, or has more names.  `Normal.beneath_join`: when a path
  read from `n` is beneath `r`.
-/

namespace Posix

/-- A path in normal form: whether it starts at the top, and if not how many levels it leads up
first, and then its names. -/
@[ext] structure Normal where
  absolute : Bool
  ups : Nat
  names : List Name
  top : absolute = true → ups = 0
  deriving DecidableEq

namespace Normal

/-- `/`. -/
def root : Normal := ⟨true, 0, [], fun _ => rfl⟩

/-- The path without components. -/
def here : Normal := ⟨false, 0, [], fun _ => rfl⟩

/-- `n`, and then `..`: there is nothing above the top. -/
def up (n : Normal) : Normal where
  absolute := n.absolute
  ups := if n.names = [] ∧ n.absolute = false then n.ups + 1 else n.ups
  names := n.names.dropLast
  top h := by rw [if_neg (by simp [h])]; exact n.top h

/-- `n`, and then a component. -/
def step (n : Normal) : Component → Normal
  | .rootDir => root
  | .curDir => n
  | .parentDir => n.up
  | .normal x => { n with names := n.names ++ [x] }

/-- `n`, and then `m`: each level `m` leads up takes a name of `n`. -/
def join (n m : Normal) : Normal :=
  if m.absolute then m
  else
    { absolute := n.absolute
      ups := if n.absolute then 0 else n.ups + (m.ups - n.names.length)
      names := n.names.take (n.names.length - m.ups) ++ m.names
      top := fun h => by simp [h] }

/-- `n` is the path `r`, or has more names. -/
def Beneath (r n : Normal) : Prop :=
  n.absolute = r.absolute ∧ n.ups = r.ups ∧ r.names <+: n.names

instance (r n : Normal) : Decidable (Beneath r n) :=
  inferInstanceAs (Decidable (_ ∧ _ ∧ _))

variable {n m r : Normal}

theorem join_here (n : Normal) : n.join here = n := by
  ext1
  · rfl
  · cases h : n.absolute with
    | false => simp [join, here, h]
    | true => simp [join, here, h, n.top h]
  · simp [join, here]

/-- What `..` does to a path read from `n` is what it does to the path. -/
theorem join_up (n m : Normal) : n.join m.up = (n.join m).up := by
  by_cases hm : m.absolute = true
  · have hup : m.up.absolute = true := hm
    rw [join, if_pos hup, join, if_pos hm]
  have hm' : m.absolute = false := by simpa using hm
  have hup : ¬ m.up.absolute = true := hm
  rw [join, if_neg hup, join, if_neg hm]
  by_cases hnames : m.names = []
  · -- the names of `m` are used up, and a name of `n` is next
    have hups : m.up.ups = m.ups + 1 := if_pos ⟨hnames, hm'⟩
    have hnil : m.up.names = [] := by simp [up, hnames]
    ext1
    · rfl
    · simp only [hups]
      simp only [up, hnames, List.append_nil, List.take_eq_nil_iff]
      rcases ha : n.absolute with _ | _
      · by_cases hl : n.names.length ≤ m.ups
        · simp only [Bool.false_eq_true, if_false, and_true, Nat.sub_eq_zero_of_le hl,
            true_or, if_true]
          omega
        · have hne : n.names ≠ [] := fun e => hl (by simp [e])
          have hz : n.names.length - m.ups ≠ 0 := by omega
          simp only [Bool.false_eq_true, if_false, and_true, hne, hz, or_self]
          omega
      · simp
    · simp only [hups, hnil]
      simp only [up, hnames, List.append_nil]
      rw [List.dropLast_eq_take, List.take_take, List.length_take]
      congr 1
      omega
  · have hups : m.up.ups = m.ups := if_neg fun h => hnames h.1
    ext1
    · rfl
    · simp only [up, List.append_eq_nil_iff, hnames, and_false, false_and, if_false]
    · simp only [hups]
      exact (List.dropLast_append_of_ne_nil hnames).symm

theorem join_step (n m : Normal) (c : Component) : n.join (m.step c) = (n.join m).step c := by
  cases c with
  | rootDir => rfl
  | curDir => rfl
  | parentDir => exact join_up n m
  | normal x =>
      rw [step, step, join, join]
      by_cases hm : m.absolute = true
      · simp only [hm, if_true]
      · simp only [if_neg hm, List.append_assoc]

/-- **When a path read from `n` is beneath `r`**: a relative one. -/
theorem beneath_join (hm : m.absolute = false) :
    r.Beneath (n.join m) ↔ n.absolute = r.absolute ∧
      (n.absolute = false → n.ups + (m.ups - n.names.length) = r.ups) ∧
      r.names <+: n.names.take (n.names.length - m.ups) ++ m.names := by
  rw [Beneath, join, if_neg (by simp [hm])]
  refine and_congr_right fun ha => and_congr_left fun _ => ?_
  by_cases h : n.absolute = true
  · have hr : r.absolute = true := ha.symm.trans h
    simp [h, r.top hr]
  · simp [h]

/-- A path that leads up nowhere is beneath the one it is read from. -/
theorem beneath_of_ups (hm : m.absolute = false) (hu : m.ups = 0) : n.Beneath (n.join m) :=
  (beneath_join hm).mpr ⟨rfl, fun _ => by omega, by simp [hu]⟩

end Normal

/-- The path `cs` are the components of, with each `..` cancelled against the component before
it. -/
def normalise (cs : List Component) : Normal := cs.foldl Normal.step .here

/-- **The normal form of `a ++ b`** is that of `b`, read from that of `a`. -/
theorem normalise_append (a b : List Component) :
    normalise (a ++ b) = (normalise a).join (normalise b) := by
  induction b using List.reverseRecOn with
  | nil => rw [List.append_nil]; exact (Normal.join_here _).symm
  | append_singleton b c ih =>
      rw [← List.append_assoc, normalise, List.foldl_append, ← normalise, ih, List.foldl_cons,
        List.foldl_nil, ← Normal.join_step]
      congr 1
      rw [normalise, normalise, List.foldl_append, List.foldl_cons, List.foldl_nil]

/-- Components without a slash before everything spell a relative path. -/
theorem normalise_relative {cs : List Component} (h : .rootDir ∉ cs) :
    (normalise cs).absolute = false := by
  induction cs using List.reverseRecOn with
  | nil => rfl
  | append_singleton cs c ih =>
      rw [List.mem_append, not_or] at h
      rw [normalise, List.foldl_append, List.foldl_cons, List.foldl_nil, ← normalise]
      cases c with
      | rootDir => exact absurd (List.mem_singleton_self _) h.2
      | curDir => exact ih h.1
      | parentDir => exact ih h.1
      | normal x => exact ih h.1

theorem normalise_absolute {cs : List Component} (h : .rootDir ∉ cs) :
    (normalise (.rootDir :: cs)).absolute = true := by
  have hrel := normalise_relative h
  rw [← List.singleton_append, normalise_append, Normal.join, if_neg (by simp [hrel])]
  rfl

example : normalise [.rootDir, .normal dot, .parentDir, .parentDir, .normal dotdot]
    = ⟨true, 0, [dotdot], fun _ => rfl⟩ := by decide

/-! ### Components and ancestors -/

theorem ofSeg_ne_rootDir (s : Name) : Component.ofSeg s ≠ some .rootDir := by
  rw [Component.ofSeg]
  split
  · simp
  · split <;> simp

theorem rootDir_notMem_filterMap (l : List Name) :
    Component.rootDir ∉ l.filterMap Component.ofSeg :=
  fun h => by
    obtain ⟨s, -, e⟩ := List.mem_filterMap.mp h
    exact ofSeg_ne_rootDir s e

/-- Only an absolute path has the root directory among its components, as the first. -/
theorem components_cases (p : Path) :
    (isAbsolute p = true ∧ ∃ cs, components p = .rootDir :: cs ∧ .rootDir ∉ cs) ∨
      (isAbsolute p = false ∧ .rootDir ∉ components p) := by
  rcases p with _ | ⟨s, rest⟩
  · exact .inr ⟨rfl, by simp [components]⟩
  · by_cases h : s = [] ∧ rest ≠ []
    · refine .inl ⟨by rw [isAbsolute_cons]; simpa using h, _, ?_, rootDir_notMem_filterMap rest⟩
      rw [h.1, components_absolute h.2]
    · refine .inr ⟨by rw [isAbsolute_cons]; simpa using h, ?_⟩
      rw [components, if_neg h, List.mem_append, not_or]
      refine ⟨?_, rootDir_notMem_filterMap rest⟩
      split
      · simp
      · intro hm
        exact ofSeg_ne_rootDir s (Option.mem_toList.mp hm)

/-- What follows an ancestor of a path spells a relative path. -/
theorem rest_relative {p : Path} {a rest : List Component} (ha : a ∈ ancestors p)
    (he : components p = a ++ rest) : (normalise rest).absolute = false := by
  refine normalise_relative fun hm => ?_
  rcases components_cases p with ⟨habs, cs, e, hcs⟩ | ⟨-, h⟩
  · have hne : a ≠ [] := fun h => by simp [ancestors, h, habs] at ha
    obtain ⟨c, a, rfl⟩ := List.exists_cons_of_ne_nil hne
    rw [e, List.cons_append] at he
    exact hcs ((List.cons.inj he).2 ▸ List.mem_append_right _ hm)
  · exact h (he ▸ List.mem_append_right _ hm)

theorem prefix_of_mem_ancestors {p : Path} {a : List Component} (ha : a ∈ ancestors p) :
    a <+: components p := List.mem_inits _ _ |>.mp (List.mem_filter.mp ha).1

theorem normalise_components_absolute {p : Path} :
    (normalise (components p)).absolute = isAbsolute p := by
  rcases components_cases p with ⟨habs, cs, e, hcs⟩ | ⟨habs, h⟩
  · rw [e, habs, normalise_absolute hcs]
  · rw [habs, normalise_relative h]

end Posix
