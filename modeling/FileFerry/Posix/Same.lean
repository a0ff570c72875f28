import FileFerry.Posix.Plain

/-!
# Posix — Same

Two directories that hold the same, wherever they are.

* `SameBelow`: what is below the one is below the other, up to the times of the files.
* `SameBelow.raised`, `SameBelow.stored`: making the same directories, and storing the same file,
  keeps it so.
-/

namespace Posix

variable {t t' : Tree} {r l : Loc} {a : List Name}

/-- A node, but for the time of a file. -/
def Node.still : Node → Node
  | .file f => .file ⟨f.content, 0⟩
  | n => n

/-- Below `r` the one tree holds what the other holds below `r'`, up to the times of the files. -/
def SameBelow (t : Tree) (r : Loc) (t' : Tree) (r' : Loc) : Prop :=
  ∀ l, (t.get (l ++ r)).map Node.still = (t'.get (l ++ r')).map Node.still

namespace SameBelow

variable {r' : Loc} {t₁ t₁' : Tree} {ns : List Name}

/-- What is the same below two roots is so either way. -/
theorem symm (h : SameBelow t r t' r') : SameBelow t' r' t r := fun l => (h l).symm

theorem none (h : SameBelow t r t' r') (hl : t.get (l ++ r) = none) : t'.get (l ++ r') = none := by
  have hm := h l
  rw [hl, Option.map_none] at hm
  exact Option.map_eq_none_iff.mp hm.symm

theorem dir (h : SameBelow t r t' r') (hl : t.get (l ++ r) = some .dir) :
    t'.get (l ++ r') = some .dir := by
  have hm := h l
  rw [hl] at hm
  obtain ⟨n, hn, e⟩ := Option.map_eq_some_iff.mp hm.symm
  cases n with
  | dir => exact hn
  | file g => cases e
  | symlink target => cases e

theorem file (h : SameBelow t r t' r') {g : File} (hl : t.get (l ++ r) = some (.file g)) :
    ∃ g', t'.get (l ++ r') = some (.file g') ∧ g'.content = g.content := by
  have hm := h l
  rw [hl] at hm
  obtain ⟨n, hn, e⟩ := Option.map_eq_some_iff.mp hm.symm
  cases n with
  | dir => cases e
  | file g' =>
      refine ⟨g', hn, ?_⟩
      simp only [Node.still, Node.file.injEq, File.mk.injEq, and_true] at e
      exact e
  | symlink target => cases e

/-- No link is below the one root if none is below the other. -/
theorem linkless (h : SameBelow t r t' r') (hl : Linkless t r) : Linkless t' r' := by
  rintro l target ⟨m, rfl⟩ ht
  have hm := h m
  rw [ht] at hm
  obtain ⟨n, hn, e⟩ := Option.map_eq_some_iff.mp hm
  cases n with
  | dir => cases e
  | file g => cases e
  | symlink target' => exact hl _ target' (List.suffix_append m r) hn

/-- What blocks a path below one root blocks it below the other. -/
theorem blocked (h : SameBelow t r t' r') (hb : Blocked t r a) : Blocked t' r' a := by
  obtain ⟨b, c, g, e, hc, hg⟩ := hb
  obtain ⟨g', hg', -⟩ := h.file hg
  exact ⟨b, c, g', e, hc, hg'⟩

/-- …and so with a name that is too long. -/
theorem tooLong (h : SameBelow t r t' r') (hl : TooLong t r a) : TooLong t' r' a := by
  obtain ⟨b, x, c, e, hx, hd⟩ := hl
  exact ⟨b, x, c, e, hx, h.dir hd⟩

theorem opens (h : SameBelow t r t' r') (ho : t.Open (l ++ r)) : t'.Open (l ++ r') := by
  rcases ho with hn | ⟨g, hg⟩
  · exact .inl (h.none hn)
  · obtain ⟨g', hg', -⟩ := h.file hg
    exact .inr ⟨g', hg'⟩

/-- The condition of a directory to be made is the same. -/
theorem missing_iff (h : SameBelow t r t' r') :
    (t.get (l ++ r) = Option.none ∧ r <:+ l ++ r ∧ l ++ r <:+ ns ++ r) ↔
      (t'.get (l ++ r') = Option.none ∧ r' <:+ l ++ r' ∧ l ++ r' <:+ ns ++ r') := by
  rw [List.suffix_append_self_iff, List.suffix_append_self_iff]
  exact and_congr ⟨h.none, h.symm.none⟩ (and_congr_left fun _ => by simp)

/-- **The same directories made** at the same place. -/
theorem raised (h : SameBelow t r t' r') (hr : Raised r (ns ++ r) t t₁)
    (hr' : Raised r' (ns ++ r') t' t₁') :
    SameBelow t₁ r t₁' r' := by
  intro l
  rw [hr, hr']
  have hiff := @missing_iff _ _ _ l r' ns h
  have hne : l ++ r ≠ ns ++ r ↔ l ++ r' ≠ ns ++ r' := by simp
  by_cases hm : t.get (l ++ r) = Option.none ∧ r <:+ l ++ r ∧ l ++ r <:+ ns ++ r ∧ l ++ r ≠ ns ++ r
  · have hm' := hiff.mp ⟨hm.1, hm.2.1, hm.2.2.1⟩
    rw [if_pos hm, if_pos ⟨hm'.1, hm'.2.1, hm'.2.2, hne.mp hm.2.2.2⟩]
  · rw [if_neg hm, if_neg fun h => hm ?_]
    · exact h l
    · have hm' := hiff.mpr ⟨h.1, h.2.1, h.2.2.1⟩
      exact ⟨hm'.1, hm'.2.1, hm'.2.2, hne.mpr h.2.2.2⟩

/-- **The same file stored** at the same place. -/
theorem stored {c : List UInt8} (h : SameBelow t r t' r') (hs : Stored r (ns ++ r) c t t₁)
    (hs' : Stored r' (ns ++ r') c t' t₁') : SameBelow t₁ r t₁' r' := by
  intro l
  by_cases e : l = ns
  · subst e
    obtain ⟨f, hf, hc⟩ := hs.file
    obtain ⟨f', hf', hc'⟩ := hs'.file
    rw [hf, hf', Option.map_some, Option.map_some, Node.still, Node.still, hc, hc']
  · have hiff := @missing_iff _ _ _ l r' ns h
    rw [hs.others _ (by simpa using e), hs'.others _ (by simpa using e)]
    by_cases hm : t.get (l ++ r) = Option.none ∧ r <:+ l ++ r ∧ l ++ r <:+ ns ++ r
    · rw [if_pos hm, if_pos (hiff.mp hm)]
    · rw [if_neg hm, if_neg fun h => hm (hiff.mpr h)]
      exact h l

end SameBelow

end Posix
