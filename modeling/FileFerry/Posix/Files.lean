import FileFerry.Posix.Dirs

/-!
# Posix — Files

What opening a file for writing and writing to it leave of the tree.

* `Host.fileAt`: the bytes of the regular file a path names.
* `Rewrote h h' l c`: the host `h'` is `h` with a file of the bytes `c` at `l`.
  `openWrite_rewrote`, `Rewrote.append`: what an open and what the next write do.
* `Rewrote.fileAt`: a path that led to `l` names the file there.
-/

namespace Posix

/-- The bytes of the regular file that `p` names; a link there is not followed. -/
def Host.fileAt (h : Host) (p : Path) : Option (List UInt8) :=
  match h.lookup false p with
  | .ok l =>
    match h.tree.get l with
    | some (.file f) => some f.content
    | _ => none
  | .error _ => none

theorem Host.fileAt_eq_some {h : Host} {p : Path} {c : List UInt8} :
    h.fileAt p = some c ↔ ∃ l f, h.lookup false p = .ok l ∧ h.tree.get l = some (.file f) ∧
      f.content = c := by
  rw [fileAt]
  rcases hl : h.lookup false p with e | l
  · simp
  · rcases hg : h.tree.get l with _ | n
    · simp [hg]
    · cases n <;> simp [hg]

/-- Where a name is unused, or a regular file is. -/
def Tree.Open (t : Tree) (l : Loc) : Prop := t.get l = none ∨ ∃ f, t.get l = some (.file f)

/-- `h'` is `h` with a file of the bytes `c` at `l`. -/
structure Rewrote (h h' : Host) (l : Loc) (c : List UInt8) : Prop where
  file : ∃ f, h'.tree.get l = some (.file f) ∧ f.content = c
  frame : ∀ m, m ≠ l → h'.tree.get m = h.tree.get m
  cwd : h'.cwd = h.cwd

variable {h h' h'' : Host} {l : Loc} {c d : List UInt8} {p : Path}

theorem Rewrote.trans (hr : Rewrote h h' l c) (hr' : Rewrote h' h'' l d) : Rewrote h h'' l d :=
  ⟨hr'.file, fun m hm => (hr'.frame m hm).trans (hr.frame m hm), hr'.cwd.trans hr.cwd⟩

theorem Rewrote.grows (hr : Rewrote h h' l c) (ho : h.tree.Open l) : Grows h.tree h'.tree := by
  intro m n hn
  by_cases e : m = l
  · subst e
    obtain ⟨f, hf, -⟩ := hr.file
    rcases ho with ho | ⟨g, hg⟩
    · rw [ho] at hn; cases hn
    · rw [hg] at hn; cases hn; exact .inr ⟨rfl, f, hf⟩
  · exact .inl (by rw [hr.frame m e, hn])

/-- A lookup that arrived arrives still. -/
theorem Rewrote.lookup (hr : Rewrote h h' l c) (ho : h.tree.Open l) {f : Bool} {m : Loc}
    (hl : h.lookup f p = .ok m) (hm : m = l ∨ h.tree.get m ≠ none) : h'.lookup f p = .ok m := by
  refine Host.lookup_grows (hr.grows ho) hr.cwd hl (hm.symm.imp id fun e target ht => ?_)
  obtain ⟨f, hf, -⟩ := hr.file
  rw [e, hf] at ht
  cases ht

/-- **A path that led there** names the file. -/
theorem Rewrote.fileAt (hr : Rewrote h h' l c) (ho : h.tree.Open l)
    (hl : h.lookup false p = .ok l) : h'.fileAt p = some c := by
  obtain ⟨f, hf, hc⟩ := hr.file
  exact Host.fileAt_eq_some.mpr ⟨l, f, hr.lookup ho hl (.inl rfl), hf, hc⟩

/-- A file put where the name is unused or a file is. -/
theorem rewrote_put {x : Name} {m : Loc} {f : File} (hx : Ordinary x)
    (hd : h.tree.get m = some .dir) (ho : h.tree.Open (x :: m)) :
    Rewrote h (h.put x m (.file f)) (x :: m) f.content := by
  have hput := fun k => Tree.get_put (m := k) (n := .file f) hx hd (by
    rcases ho with ho | ⟨g, hg⟩
    · rw [ho]; simp
    · rw [hg]; simp)
  exact ⟨⟨f, by rw [Host.put_tree, hput, if_pos rfl], rfl⟩,
    fun k hk => by rw [Host.put_tree, hput, if_neg hk], rfl⟩

/-- An unused name, or a file, where a lookup arrives: it is an entry of a directory. -/
theorem entry_of_open {f : Bool} (hne : p ≠ []) (hp : SlashFree p) (hl : h.lookup f p = .ok l)
    (ho : h.tree.Open l) : ∃ x m, l = x :: m ∧ Ordinary x ∧ h.tree.get m = some .dir := by
  have hw := Host.walk_of_lookup hl
  obtain ⟨s, rest, rfl⟩ := List.exists_cons_of_ne_nil hne
  rcases ho with hn | ⟨g, hg⟩
  · exact (arrives hw (Host.short_of_lookup hl) (dir_of_walk hw) hp).resolve_left fun h => h hn
  · match l with
    | [] => rw [Tree.get_top] at hg; cases hg
    | x :: m =>
        have hx : h.tree.get (x :: m) ≠ none := by rw [hg]; simp
        exact ⟨x, m, rfl, Tree.ordinary_of_get hx, Tree.get_parent hx⟩

/-- **What an open for writing leaves**: an empty file where the path leads. -/
theorem openWrite_rewrote (hne : p ≠ []) (hp : SlashFree p) (ho : h.openWrite p = .ok (l, h')) :
    h.lookup false p = .ok l ∧ h.tree.Open l ∧ Rewrote h h' l [] := by
  have hplace : ∀ {x : Name} {m : Loc}, h.lookup false p = .ok (x :: m) →
      h.tree.Open (x :: m) → Rewrote h (h.put x m (.file ⟨[], h.now⟩)) (x :: m) [] := by
    intro x m hl hopen
    obtain ⟨y, k, e, hy, hk⟩ := entry_of_open hne hp hl hopen
    obtain ⟨rfl, rfl⟩ := List.cons.inj e
    exact rewrote_put hy hk hopen
  rcases hl : h.lookup false p with e | k
  · obtain ⟨e', he⟩ := Host.openWrite_error hl
    rw [he] at ho
    cases ho
  rw [Host.openWrite_eq hl] at ho
  unfold Host.create at ho
  rcases k with _ | ⟨x, m⟩
  · simp at ho
  · rcases hg : h.tree.get (x :: m) with _ | n
    · simp only [hg, Except.ok.injEq, Prod.mk.injEq] at ho
      obtain ⟨rfl, rfl⟩ := ho
      exact ⟨rfl, .inl hg, hplace hl (.inl hg)⟩
    · cases n with
      | file f =>
          simp only [hg, Except.ok.injEq, Prod.mk.injEq] at ho
          obtain ⟨rfl, rfl⟩ := ho
          exact ⟨rfl, .inr ⟨f, hg⟩, hplace hl (.inr ⟨f, hg⟩)⟩
      | dir => simp [hg] at ho
      | symlink target => simp [hg] at ho

/-- A write at the end of a file appends. -/
theorem overwrite_length (old new : List UInt8) :
    Host.overwrite old old.length new = old ++ new := by
  simp [Host.overwrite]

/-- **A write at the end** of a file. -/
theorem Rewrote.append (hr : Rewrote h h' l c) (b : List UInt8) :
    Rewrote h (h'.writeAt l c.length b) l (c ++ b) := by
  obtain ⟨f, hf, rfl⟩ := hr.file
  have hne : h'.tree.get l ≠ none := by rw [hf]; simp
  match l with
  | [] => rw [Tree.get_top] at hf; cases hf
  | x :: m =>
      simp only [Host.writeAt, hf, overwrite_length]
      split
      · rename_i hb
        rw [hb, List.append_nil]
        exact hr
      · exact hr.trans (rewrote_put (Tree.ordinary_of_get hne) (Tree.get_parent hne) (.inr ⟨f, hf⟩))

end Posix
