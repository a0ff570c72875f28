import FileFerry.Posix.Lexical
import FileFerry.Results.Files

/-!
# Results — Containment

What the check of a path keeps inside the root.

* `FsBackend.Inside`: the normal form of a path is beneath that of the root.
* `resolve_inside_iff`: an admitted path is inside the root exactly when what follows the root in it
  leads up nowhere, or leads back.
-/

namespace FileFerry
open Text Posix AsyncIo Steps

namespace FsBackend

variable {fs : FsBackend} {h : Host} {path : String}

/-! ### The lexical check -/

/-- The components of the root, as it is canonically or as it was configured. -/
def IsRoot (fs : FsBackend) (h : Host) (cs : List Component) : Prop :=
  cs = components (fs.canonicalRoot h) ∨ cs = components fs.root

/-- The normal form of the path is that of the root, or beneath it. -/
def Inside (fs : FsBackend) (h : Host) (p : Path) : Prop :=
  ∃ cs, fs.IsRoot h cs ∧ (normalise cs).Beneath (normalise (components p))

/-- What follows the root in the joined path, read alone, leads up nowhere; or it leads up by some
levels, which the names of the root make up, and the names after it lead back into the root. -/
def LeadsBack (fs : FsBackend) (h : Host) (path : String) : Prop :=
  ∃ base rest, base ∈ ancestors (fs.joined path) ∧ fs.IsRoot h base ∧
    components (fs.joined path) = base ++ rest ∧
    ((normalise rest).ups = 0 ∨
      ((normalise base).absolute = false →
          (normalise rest).ups ≤ (normalise base).names.length) ∧
        ∃ cs, fs.IsRoot h cs ∧ (normalise cs).absolute = (normalise base).absolute ∧
          (normalise cs).names <+:
            (normalise base).names.take ((normalise base).names.length - (normalise rest).ups)
              ++ (normalise rest).names)

/-- The canonical root is absolute, or the configured one. -/
theorem canonicalRoot_cases (fs : FsBackend) (h : Host) :
    fs.canonicalRoot h = fs.root ∨ isAbsolute (fs.canonicalRoot h) = true := by
  rw [canonicalRoot]
  rcases hc : h.canonicalize fs.root with e | q
  · exact .inl rfl
  · refine .inr ?_
    rw [Host.canonicalize] at hc
    rcases hl : h.lookup true fs.root with e | l
    · rw [hl] at hc; cases hc
    · rcases hn : h.nodeAt l with e | n
      · rw [hl] at hc
        simp [bind, Except.bind, hn] at hc
      · rw [hl] at hc
        simp only [bind, Except.bind, hn, pure, Except.pure, Except.ok.injEq] at hc
        rw [← hc]
        cases hr : l.reverse with
        | nil => rfl
        | cons x l => rfl

/-- Roots that do not start at the top are the configured one. -/
theorem IsRoot.relative {cs : List Component} (hcs : fs.IsRoot h cs)
    (hrel : (normalise cs).absolute = false) : cs = components fs.root := by
  rcases hcs with rfl | rfl
  · rcases canonicalRoot_cases fs h with e | e
    · rw [e]
    · rw [normalise_components_absolute, e] at hrel; cases hrel
  · rfl

/-- The two ways to say that a climb stays among the names of a relative root. -/
theorem IsRoot.ups_iff {cs base : List Component} (hcs : fs.IsRoot h cs) (hbase : fs.IsRoot h base)
    (ha : (normalise base).absolute = (normalise cs).absolute) (k : Nat) :
    ((normalise base).absolute = false →
        (normalise base).ups + (k - (normalise base).names.length) = (normalise cs).ups) ↔
      ((normalise base).absolute = false → k ≤ (normalise base).names.length) := by
  refine forall_congr' fun hrel => ?_
  rw [hcs.relative (ha ▸ hrel), hbase.relative hrel]
  omega

/-- **The path is inside** exactly when what follows the root leads back. -/
theorem inside_joined_iff (ho : fs.okPrefix h path = true) :
    fs.Inside h (fs.joined path) ↔ fs.LeadsBack h path := by
  constructor
  · rintro ⟨cs, hcs, hb⟩
    obtain ⟨base, hanc, hbase⟩ := List.any_eq_true.mp ho
    rw [Bool.or_eq_true, beq_iff_eq, beq_iff_eq] at hbase
    obtain ⟨rest, he⟩ := prefix_of_mem_ancestors hanc
    have hrel := rest_relative hanc he.symm
    rw [← he, normalise_append, Normal.beneath_join hrel] at hb
    obtain ⟨habs, hups, hnames⟩ := hb
    exact ⟨base, rest, hanc, hbase, he.symm,
      .inr ⟨(hcs.ups_iff hbase habs _).mp hups, cs, hcs, habs.symm, hnames⟩⟩
  · rintro ⟨base, rest, hanc, hbase, he, hback⟩
    have hrel := rest_relative hanc he
    rcases hback with hz | ⟨hups, cs, hcs, habs, hnames⟩
    · refine ⟨base, hbase, ?_⟩
      rw [he, normalise_append]
      exact Normal.beneath_of_ups hrel hz
    · refine ⟨cs, hcs, ?_⟩
      rw [he, normalise_append, Normal.beneath_join hrel]
      exact ⟨habs.symm, (hcs.ups_iff hbase habs.symm _).mpr hups, hnames⟩

end FsBackend

/-- **An admitted path** is inside the root exactly when what follows the root in it leads up
nowhere, or leads back. -/
theorem resolve_inside_iff (fs : FsBackend) (path : String) (w : World) :
    (∀ p, (fs.resolve path w).2 = .ok p → fs.Inside w.host p) ↔
      fs.admits w.host path = false ∨ fs.LeadsBack w.host path := by
  rcases FsBackend.resolve_run fs path w with ⟨ha, e⟩ | ⟨ha, x, e⟩
  · have ho : fs.okPrefix w.host path = true := by
      rw [FsBackend.admits, Bool.and_eq_true] at ha
      exact ha.1
    rw [← FsBackend.inside_joined_iff ho, e]
    simp [ha]
  · rw [e]
    simp [ha]

/-- `..` right below the root leads out of it, and the check lets it pass. -/
theorem dotdot_leaves_root :
    ¬ ∀ p, (dataFs.resolve "../x" { World.empty with host := dataHost }).2 = .ok p →
      dataFs.Inside dataHost p := by
  intro hall
  obtain ⟨cs, hcs, hb⟩ := hall (dataFs.joined "../x") (by rfl)
  rcases hcs with rfl | rfl
  · exact absurd hb (by decide)
  · exact absurd hb (by decide)

end FileFerry
