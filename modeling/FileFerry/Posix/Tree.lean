import FileFerry.Support.Text

/-!
# Posix — Tree

A file tree.  Every file, directory and symbolic link has a location: the names that lead to it
from the top, innermost first, so that the entry `x` of the directory at `l` is at `x :: l`.
A `Tree` holds a node at finitely many locations; the top is a directory, and so is the parent of
every location that holds a node.  No two locations share a file: the tree has no hard links.

* `Ordinary`, `Short`: the names a directory can hold, and the locations it can give one.

* `Tree.put`: the tree with one more entry, or with another file at an entry.
* `Tree.readDir`: the names of a directory, in the order the tree holds them — any order, as for
  `readdir`.
-/

namespace Posix

/-- A file name: bytes. -/
abbrev Name := List UInt8

/-- A location: the names from the top, innermost first. -/
abbrev Loc := List Name

/-- `/`. -/
def slash : UInt8 := 0x2F

/-- `.`. -/
def dot : Name := [0x2E]

/-- `..`. -/
def dotdot : Name := [0x2E, 0x2E]

/-- `NAME_MAX`: how many bytes a file name has at most. -/
def nameMax : Nat := 255

/-- A name a directory can hold. -/
def Ordinary (x : Name) : Prop :=
  x ≠ [] ∧ x ≠ dot ∧ x ≠ dotdot ∧ slash ∉ x ∧ x.length ≤ nameMax

instance (x : Name) : Decidable (Ordinary x) :=
  inferInstanceAs (Decidable (_ ∧ _ ∧ _ ∧ _ ∧ _))

/-- The last name of the location is not too long for a directory. -/
def Short : Loc → Prop
  | [] => True
  | x :: _ => x.length ≤ nameMax

instance : (l : Loc) → Decidable (Short l)
  | [] => inferInstanceAs (Decidable True)
  | x :: _ => inferInstanceAs (Decidable (x.length ≤ nameMax))

/-- A regular file: its bytes, and its modification time in seconds since 1970. -/
structure File where
  content : List UInt8
  modified : Int
  deriving DecidableEq

/-- What is at a place. -/
inductive Node where
  | file (f : File)
  | dir
  | symlink (target : List UInt8)
  deriving DecidableEq

def Node.isFile : Node → Bool
  | .file _ => true
  | _ => false

def Node.isSymlink : Node → Bool
  | .symlink _ => true
  | _ => false

/-- A file tree: every node has an ordinary name, and is in a directory. -/
structure Tree where
  nodes : AList (fun _ : Loc => Node)
  top : nodes.lookup [] = some .dir
  names : ∀ x l, x :: l ∈ nodes → Ordinary x
  parents : ∀ x l, x :: l ∈ nodes → nodes.lookup l = some .dir

namespace Tree

/-- The node at `l`. -/
def get (t : Tree) (l : Loc) : Option Node := t.nodes.lookup l

/-- The tree that holds the top alone. -/
def empty : Tree where
  nodes := AList.singleton [] .dir
  top := rfl
  names x l h := by rw [AList.mem_keys, AList.keys_singleton] at h; simp at h
  parents x l h := by rw [AList.mem_keys, AList.keys_singleton] at h; simp at h

theorem mem_iff {t : Tree} {l : Loc} : l ∈ t.nodes ↔ t.get l ≠ none := by
  rw [get, ← AList.lookup_isSome, Option.isSome_iff_ne_none]

@[simp] theorem get_top (t : Tree) : t.get [] = some .dir := t.top

/-- What is there is in a directory… -/
theorem get_parent {t : Tree} {x : Name} {l : Loc} (h : t.get (x :: l) ≠ none) :
    t.get l = some .dir :=
  t.parents x l (mem_iff.mpr h)

/-- …under an ordinary name. -/
theorem ordinary_of_get {t : Tree} {x : Name} {l : Loc} (h : t.get (x :: l) ≠ none) :
    Ordinary x :=
  t.names x l (mem_iff.mpr h)

theorem short_of_get {t : Tree} : ∀ {l : Loc}, t.get l ≠ none → Short l
  | [], _ => trivial
  | _ :: _, h => (ordinary_of_get h).2.2.2.2

/-- Every location above a node is a directory. -/
theorem get_above {t : Tree} {a l : Loc} {x : Name} (h : t.get (x :: l) ≠ none) (ha : a <:+ l) :
    t.get a = some .dir := by
  obtain ⟨m, rfl⟩ := ha
  induction m generalizing x with
  | nil => exact get_parent h
  | cons y m ih => exact ih (x := y) (by rw [List.cons_append] at h; rw [get_parent h]; simp)

/-- Nothing is below a location that holds nothing. -/
theorem get_below_none {t : Tree} {k m : Loc} (hk : t.get k = none) (hm : k <:+ m) :
    t.get m = none := by
  by_contra hne
  rcases m with _ | ⟨x, m⟩
  · rw [List.suffix_nil.mp hm] at hk
    exact hne hk
  · rcases List.suffix_cons_iff.mp hm with e | hm
    · exact hne (e ▸ hk)
    · rw [get_above hne hm] at hk; cases hk

theorem ne_cons_self (x : Name) (l : Loc) : l ≠ x :: l := fun h => by
  have := congrArg List.length h
  simp at this

/-- The tree with `n` at `x :: l`, when `l` is a directory and `x :: l` is not. -/
def put (t : Tree) (x : Name) (l : Loc) (n : Node) : Tree :=
  if h : Ordinary x ∧ t.get l = some .dir ∧ t.get (x :: l) ≠ some .dir then
    { nodes := t.nodes.insert (x :: l) n
      top := by rw [AList.lookup_insert_ne (by simp)]; exact t.top
      names := fun y m hy => by
        rcases (AList.mem_insert _).mp hy with e | hm
        · obtain ⟨rfl, rfl⟩ := List.cons.inj e; exact h.1
        · exact t.names y m hm
      parents := fun y m hy => by
        have hm : t.get m = some .dir := by
          rcases (AList.mem_insert _).mp hy with e | hm
          · obtain ⟨rfl, rfl⟩ := List.cons.inj e; exact h.2.1
          · exact t.parents y m hm
        have hne : m ≠ x :: l := fun e => h.2.2 (e ▸ hm)
        rw [AList.lookup_insert_ne hne]; exact hm }
  else t

/-- What is put at a place is there, and nothing else has changed. -/
theorem get_put {t : Tree} {x : Name} {l m : Loc} {n : Node} (hx : Ordinary x)
    (hl : t.get l = some .dir) (hd : t.get (x :: l) ≠ some .dir) :
    (t.put x l n).get m = if m = x :: l then some n else t.get m := by
  rw [put, dif_pos ⟨hx, hl, hd⟩]
  by_cases e : m = x :: l
  · subst e; simp [get]
  · simp [get, e, AList.lookup_insert_ne e]

/-- The names in the directory at `l`. -/
def readDir (t : Tree) (l : Loc) : List Name :=
  t.nodes.keys.filterMap fun
    | x :: m => if m = l then some x else none
    | [] => none

/-- A directory lists the names of what is in it… -/
theorem mem_readDir {t : Tree} {l : Loc} {x : Name} :
    x ∈ t.readDir l ↔ t.get (x :: l) ≠ none := by
  rw [readDir, List.mem_filterMap, ← mem_iff, AList.mem_keys]
  constructor
  · rintro ⟨k, hk, hx⟩
    match k, hk, hx with
    | y :: m, hk, hx =>
      by_cases e : m = l
      · subst e; simp at hx; exact hx ▸ hk
      · simp [e] at hx
  · exact fun h => ⟨_, h, by simp⟩

/-- …each once. -/
theorem nodup_readDir (t : Tree) (l : Loc) : (t.readDir l).Nodup := by
  refine List.Nodup.filterMap (fun a b x ha hb => ?_) t.nodes.keys_nodup
  match a, b, ha, hb with
  | y :: m, z :: k, ha, hb =>
    by_cases e₁ : m = l <;> by_cases e₂ : k = l <;> simp_all

end Tree

end Posix
