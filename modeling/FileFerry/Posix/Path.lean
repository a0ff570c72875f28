import FileFerry.Posix.Walk

/-!
# Posix — Path

Paths as `std::path` has them on Unix.  A `Path` is the list of its segments (`Path.ofBytes`), so
two paths are the same list exactly when they are the same bytes; two paths are equal for
`std::path` when they have the same `components`.

* `thin_components`: a path and the path of its components differ in segments that stay where
  they are.
* `dropNames`: the segments after the first `k` names.
-/

namespace Posix

/-- A path: its bytes, split at the slashes. -/
abbrev Path := List Name

def Path.ofBytes (b : List UInt8) : Path := b.splitOn slash

/-- No segment holds a slash. -/
def SlashFree (p : List Name) : Prop := ∀ s ∈ p, slash ∉ s

theorem slashFree_splitOn : ∀ b : List UInt8, SlashFree (b.splitOn slash)
  | [] => by simp [SlashFree]
  | c :: b => by
      intro s hs
      rw [List.splitOn_cons_eq_if_modifyHead] at hs
      split at hs
      · rcases List.mem_cons.mp hs with rfl | hs
        · simp
        · exact slashFree_splitOn b s hs
      · rename_i hc
        have ih := slashFree_splitOn b
        cases e : b.splitOn slash with
        | nil => simp at e
        | cons x l =>
            rw [e, List.modifyHead_cons, List.mem_cons] at hs
            rcases hs with rfl | hs
            · have := ih x (by rw [e]; simp)
              simp only [List.mem_cons, not_or]
              exact ⟨fun h => hc (by simp [h]), this⟩
            · exact ih s (by rw [e]; simp [hs])

theorem slashFree_ofBytes (b : List UInt8) : SlashFree (Path.ofBytes b) := slashFree_splitOn b

theorem SlashFree.append {a b : List Name} (ha : SlashFree a) (hb : SlashFree b) :
    SlashFree (a ++ b) := fun s hs => by
  rcases List.mem_append.mp hs with h | h
  · exact ha s h
  · exact hb s h

/-- `std::path::Component`. -/
inductive Component where
  | rootDir | curDir | parentDir
  | normal (x : Name)
  deriving DecidableEq

def Component.ofSeg (s : Name) : Option Component :=
  if Stay s then none else if s = dotdot then some .parentDir else some (.normal s)

def Component.seg : Component → Name
  | .rootDir => []
  | .curDir => dot
  | .parentDir => dotdot
  | .normal x => x

/-- `Path::is_absolute`: a slash before everything. -/
def isAbsolute : Path → Bool
  | [] :: _ :: _ => true
  | _ => false

/-- `Path::components`: `.` counts only at the start of a relative path. -/
def components : Path → List Component
  | [] => []
  | s :: rest =>
    (if s = [] ∧ rest ≠ [] then [.rootDir]
      else if s = dot then [.curDir] else (Component.ofSeg s).toList)
    ++ rest.filterMap Component.ofSeg

/-- The path `components` were read from, up to segments that stay where they are. -/
def ofComponents : List Component → Path
  | [] => [[]]
  | [.rootDir] => [[], []]
  | cs => cs.map Component.seg

/-- `Path::join`. -/
def join (base p : Path) : Path :=
  if isAbsolute p then p
  else if base.getLast? = some [] then base.dropLast ++ p
  else base ++ p

/-- The components of each of `Path::ancestors`: those of the path, without its last one, and so
on, the root of an absolute path being the last ancestor. -/
def ancestors (p : Path) : List (List Component) :=
  (components p).inits.filter fun a => !(a.isEmpty && isAbsolute p)

/-- The components of `Path::parent`. -/
def parent (p : Path) : Option (List Component) :=
  match (components p).getLast? with
  | none => none
  | some .rootDir => none
  | some _ => some (components p).dropLast

theorem mem_ancestors {p : Path} {a : List Component} (ha : a ≠ []) :
    a ∈ ancestors p ↔ a <+: components p := by
  simp [ancestors, ha]

theorem ofSeg_named {s : Name} (h : Named s) : Component.ofSeg s = some (.normal s) := by
  rw [Component.ofSeg, if_neg h.1, if_neg h.2]

theorem ofSeg_stay {s : Name} (h : Stay s) : Component.ofSeg s = none := by
  rw [Component.ofSeg, if_pos h]

/-- The names among the segments. -/
def namesOf (p : List Name) : List Name := p.filter fun s => ¬ Stay s

theorem lexical_eq (cur : Loc) (p : List Name) : lexical cur p = (namesOf p).reverse ++ cur := rfl

theorem filterMap_clean : ∀ {p : List Name}, Clean p →
    p.filterMap Component.ofSeg = (namesOf p).map .normal
  | [], _ => rfl
  | s :: p, h => by
      rcases h.head with hs | hs
      · rw [List.filterMap_cons_none (ofSeg_stay hs), filterMap_clean h.tail, namesOf, namesOf,
          List.filter_cons_of_neg (by simpa using hs)]
      · rw [List.filterMap_cons_some (ofSeg_named hs), filterMap_clean h.tail, namesOf, namesOf,
          List.filter_cons_of_pos (by simpa using hs.1), List.map_cons]

/-- A path and the path of its components differ in segments that stay where they are. -/
theorem thin_components {p : Path} (hp : p ≠ []) (hr : components p ≠ [.rootDir]) :
    Thin p (ofComponents (components p)) := by
  have htail : ∀ l : List Name, Thin l ((l.filterMap Component.ofSeg).map Component.seg) := by
    intro l
    induction l with
    | nil => exact .nil
    | cons s l ih =>
        rcases seg_cases s with hs | rfl | hs
        · rw [List.filterMap_cons_none (ofSeg_stay hs)]; exact .drop hs ih
        · exact .keep _ ih
        · rw [List.filterMap_cons_some (ofSeg_named hs), List.map_cons]; exact .keep _ ih
  obtain ⟨s, rest, rfl⟩ := List.exists_cons_of_ne_nil hp
  have hof : ∀ cs : List Component, cs ≠ [] → cs ≠ [.rootDir] →
      ofComponents cs = cs.map Component.seg := by
    intro cs h₁ h₂
    rw [ofComponents]
    · exact h₁
    · exact h₂
  by_cases h₁ : s = [] ∧ rest ≠ []
  · have e : components (s :: rest) = .rootDir :: rest.filterMap Component.ofSeg := by
      rw [components, if_pos h₁]; rfl
    rw [hof _ (by rw [e]; simp) hr, e, h₁.1]
    exact .keep _ (htail rest)
  · by_cases h₂ : s = dot
    · have e : components (s :: rest) = .curDir :: rest.filterMap Component.ofSeg := by
        rw [components, if_neg h₁, if_pos h₂]; rfl
      rw [hof _ (by rw [e]; simp) hr, e, h₂]
      exact .keep _ (htail rest)
    · rcases seg_cases s with hs | rfl | hs
      · obtain rfl : s = [] := hs.resolve_right h₂
        obtain rfl : rest = [] := by simpa using h₁
        exact .keep _ .nil
      · have e : components (dotdot :: rest) = .parentDir :: rest.filterMap Component.ofSeg := rfl
        rw [hof _ (by rw [e]; simp) hr, e]
        exact .keep _ (htail rest)
      · have e : components (s :: rest) = .normal s :: rest.filterMap Component.ofSeg := by
          rw [components, if_neg h₁, if_neg h₂, ofSeg_named hs]; rfl
        rw [hof _ (by rw [e]; simp) hr, e]
        exact .keep _ (htail rest)

/-- The segments after the first `k` names. -/
def dropNames : Nat → List Name → List Name
  | 0, l => l
  | _ + 1, [] => []
  | k + 1, s :: l => if Stay s then dropNames (k + 1) l else dropNames k l

/-- The segments up to the `k`-th name. -/
def takeNames : Nat → List Name → List Name
  | 0, _ => []
  | _ + 1, [] => []
  | k + 1, s :: l => s :: if Stay s then takeNames (k + 1) l else takeNames k l

theorem takeNames_append_dropNames : ∀ k l, takeNames k l ++ dropNames k l = l
  | 0, l => by simp [takeNames, dropNames]
  | _ + 1, [] => rfl
  | k + 1, s :: l => by
      rw [takeNames, dropNames, List.cons_append]
      split
      · rw [takeNames_append_dropNames (k + 1) l]
      · rw [takeNames_append_dropNames k l]

theorem filterMap_takeNames : ∀ k l,
    (takeNames k l).filterMap Component.ofSeg = (l.filterMap Component.ofSeg).take k
  | 0, l => by simp [takeNames]
  | _ + 1, [] => rfl
  | k + 1, s :: l => by
      rw [takeNames]
      by_cases hs : Stay s
      · rw [if_pos hs, List.filterMap_cons_none (ofSeg_stay hs),
          List.filterMap_cons_none (ofSeg_stay hs), filterMap_takeNames (k + 1) l]
      · obtain ⟨c, hc⟩ : ∃ c, Component.ofSeg s = some c := by
          rw [Component.ofSeg, if_neg hs]; split <;> exact ⟨_, rfl⟩
        rw [if_neg hs, List.filterMap_cons_some hc, List.filterMap_cons_some hc,
          List.take_succ_cons, filterMap_takeNames k l]

end Posix
