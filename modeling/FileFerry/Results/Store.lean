import FileFerry.Results.Aliases
import FileFerry.Results.Opening

/-!
# Results — Store

The data root as a map from paths to bytes.

* `FsBackend.objects_deeper`, `FsBackend.objects_direct`: what a stored file changes of a listing.
* `write_replaces`: after a write that succeeds the path yields what was written, and any other what
  it did before.
-/

namespace FileFerry
open Text Posix AsyncIo Steps Window

namespace FsBackend

variable {fs : FsBackend} {path : String} {w : World} {r : Loc}

/-! ### Listing -/

/-- The files by name and size, as the map has them. -/
theorem mem_objects_contents {h : Host} (hroot : Rooted fs h r) {p : String × Nat} :
    p ∈ fs.objects h r ↔ ∃ x c, h.tree.contents (x :: r) = some c ∧
    p = (toStringLossy x, c.length) := by
  rw [mem_objects hroot]
  constructor
  · rintro ⟨x, f, hf, e⟩
    exact ⟨x, f.content, Tree.contents_eq_some.mpr ⟨f, hf, rfl⟩, e⟩
  · rintro ⟨x, c, hc, e⟩
    obtain ⟨f, hf, rfl⟩ := Tree.contents_eq_some.mp hc
    exact ⟨x, f, hf, e⟩

theorem objects_ascending {h : Host} (hroot : Rooted fs h r) (hutf : Utf8Names h r) :
    Ascending pairKey (fs.objects h r) := List.pairwise_map.mpr (files_ascending hroot hutf)

/-- A listing whose limit is not less than the number of the files reports them all. -/
theorem list_objects (hroot : Rooted fs w.host r) {n : Nat}
    (hn : (fs.objects w.host r).length ≤ n) :
    ∃ es, (fs.list ⟨some n, none⟩ w).2 = .ok es ∧
    es.map FileEntry.nameSize = fs.objects w.host r := by
  refine ⟨_, by rw [list_run hroot], ?_⟩
  rw [objects, List.length_map] at hn
  rw [page, objects]
  simp only [Option.map_none, Option.getD_some, beyond_none, decide_true, List.filter_true]
  rw [List.take_of_length_le hn]

section Stores

variable {h h' : Host} {k : Loc} {c : List UInt8} (hroot : Rooted fs h r) (hroot' : Rooted fs h' r)
  (hutf : Utf8Names h r) (hst : Stored r k c h.tree h'.tree)

include hst

theorem utf8_stored (hutf : Utf8Names h r) (hk : ∀ x, k = x :: r → ∃ s, x = bytes s) :
    Utf8Names h' r := by
  intro x f hf
  by_cases e : x :: r = k
  · exact hk x e.symm
  · rw [hst.others _ e] at hf
    split_ifs at hf
    · cases hf
    · exact hutf x f hf

include hroot hroot' hutf

/-- **A file stored deeper** is not listed. -/
theorem objects_deeper (hk : ∀ x, k ≠ x :: r) : fs.objects h' r = fs.objects h r := by
  have hutf' := utf8_stored hst hutf fun x e => absurd e (hk x)
  refine eq_of_mem_iff (objects_ascending hroot' hutf') (objects_ascending hroot hutf) fun p => ?_
  rw [mem_objects_contents hroot', mem_objects_contents hroot, hst.contents]
  refine exists_congr fun x => exists_congr fun b => ?_
  rw [Function.update_of_ne fun e => hk x e.symm]

/-- **A file stored in the root** is listed once, with its size, and the others as before. -/
theorem objects_direct {s : String} (hk : k = bytes s :: r) :
    (fs.objects h' r).filter (fun p => p.1 = s) = [(s, c.length)] ∧
      (fs.objects h' r).filter (fun p => p.1 ≠ s) = (fs.objects h r).filter fun p => p.1 ≠ s := by
  have hutf' : Utf8Names h' r := utf8_stored hst hutf fun x e => ⟨s, by
    rw [hk] at e
    exact (List.cons.inj e).1.symm⟩
  have hasc := objects_ascending hroot' hutf'
  constructor
  · refine eq_of_mem_iff (hasc.filter _) (List.pairwise_singleton _ _) fun p => ?_
    rw [List.mem_filter, List.mem_singleton, mem_objects_contents hroot', decide_eq_true_eq]
    constructor
    · rintro ⟨⟨x, b, hb, rfl⟩, hs⟩
      obtain ⟨f, hf, rfl⟩ := Tree.contents_eq_some.mp hb
      obtain ⟨s', rfl⟩ := hutf' x f hf
      rw [toStringLossy_bytes] at hs
      subst hs
      rw [hst.contents, hk, Function.update_self] at hb
      rw [toStringLossy_bytes, Option.some.inj hb]
    · rintro rfl
      refine ⟨⟨bytes s, c, ?_, by rw [toStringLossy_bytes]⟩, rfl⟩
      rw [hst.contents, hk, Function.update_self]
  · refine eq_of_mem_iff (hasc.filter _) ((objects_ascending hroot hutf).filter _) fun p => ?_
    rw [List.mem_filter, List.mem_filter, mem_objects_contents hroot', mem_objects_contents hroot,
      hst.contents]
    refine and_congr_left fun hs => exists_congr fun x => exists_congr fun b => and_congr_left ?_
    rintro rfl
    rw [Function.update_of_ne]
    intro e
    rw [hk] at e
    rw [(List.cons.inj e).1, toStringLossy_bytes] at hs
    simp at hs

end Stores

/-! ### The names of a path -/

theorem mem_of_mem_splitOn {x : Name} {c : UInt8} :
    ∀ {b : List UInt8}, x ∈ b.splitOn slash → c ∈ x → c ∈ b
  | [], hx, hc => by
      rw [List.splitOn_nil, List.mem_singleton] at hx
      rw [hx] at hc
      exact hc
  | a :: b, hx, hc => by
      rw [List.splitOn_cons_eq_if_modifyHead] at hx
      split at hx
      · rcases List.mem_cons.mp hx with rfl | hx
        · cases hc
        · exact List.mem_cons_of_mem _ (mem_of_mem_splitOn hx hc)
      · rcases e : b.splitOn slash with _ | ⟨y, l⟩
        · simp at e
        · rw [e, List.modifyHead_cons, List.mem_cons] at hx
          rcases hx with rfl | hx
          · rcases List.mem_cons.mp hc with rfl | hc
            · exact List.mem_cons_self
            · exact List.mem_cons_of_mem _ (mem_of_mem_splitOn (x := y) (by rw [e]; simp) hc)
          · exact List.mem_cons_of_mem _ (mem_of_mem_splitOn (by rw [e]; simp [hx]) hc)

/-- The names of an accepted path are text. -/
theorem text_of_mem_rel (hv : validatePath path = .ok ()) {h : Host} {x : Name}
    (hx : x ∈ fs.rel h path) :
    ∃ s, x = bytes s := by
  have hascii : ∀ b : UInt8, allowedByte b = true → b < 128 := by decide +kernel
  refine ⟨ofAscii x, (bytes_ofAscii fun b hb => hascii b ?_).symm⟩
  obtain ⟨-, -, hall, -⟩ := validatePath_ok.mp hv
  exact List.all_eq_true.mp hall b (mem_of_mem_splitOn (mem_path_of_mem_rel hx) hb)

theorem text_of_place (hv : validatePath path = .ok ()) {h : Host} {x : Name} {m : Loc}
    (hp : fs.place h r path = x :: m) (hm : r <:+ m) : ∃ s, x = bytes s := by
  rw [place, lexical_eq] at hp
  obtain ⟨ns, e⟩ := hm
  subst e
  rw [← List.cons_append] at hp
  have hns := List.append_cancel_right hp
  have hmem : x ∈ namesOf (fs.rel h path) := by
    rw [← List.mem_reverse, hns]
    exact List.mem_cons_self
  exact text_of_mem_rel hv (List.mem_filter.mp hmem).1

/-! ### The map -/

/-- What a write of the bytes `b` to the path leaves: the path yields them, and a path that leads
elsewhere what it did; nothing changed outside the root; and a listing reports the same names and
sizes, but for an entry of the root's own, which it reports once, with its size. -/
structure Replaced (fs : FsBackend) (r : Loc) (path : String) (b : List UInt8)
    (w v : World) : Prop where
  yields : fs.Yields v path b
  others : ∀ q c, validatePath q = .ok () →
    v.host.lookup false (fs.joined q) ≠ v.host.lookup false (fs.joined path) →
    (fs.Yields v q c ↔ fs.Yields w q c)
  outside : v.bucket = w.bucket ∧ ∀ m, ¬ r <:+ m → v.host.tree.get m = w.host.tree.get m
  listed : ∃ limit, ∀ n, limit ≤ n → ∃ es es',
    (fs.list ⟨some n, none⟩ w).2 = .ok es ∧ (fs.list ⟨some n, none⟩ v).2 = .ok es' ∧
    ((∃ s, v.host.lookup false (fs.joined path) = .ok (bytes s :: r) ∧
        (es'.map FileEntry.nameSize).filter (fun p => p.1 = s) = [(s, b.length)] ∧
        (es'.map FileEntry.nameSize).filter (fun p => p.1 ≠ s)
          = (es.map FileEntry.nameSize).filter fun p => p.1 ≠ s) ∨
      (∀ x, v.host.lookup false (fs.joined path) ≠ .ok (x :: r)) ∧
        es'.map FileEntry.nameSize = es.map FileEntry.nameSize)

end FsBackend

/-- **A data root is a map from paths to bytes**: after a write that succeeds the path yields what
was written, and every other what it did before. -/
theorem write_replaces {R : Type} [ByteStream R] {fs : FsBackend} {env : Env} {path : String}
    {reader rd : R} {w : World} {r : Loc} (hroot : Rooted fs w.host r)
    (hlinks : Linkless w.host.tree r)
    (hutf : FsBackend.Utf8Names w.host r) (hv : validatePath path = .ok ())
    (hok : (fs.writeAll env path reader w).2 = .ok rd) :
    fs.Replaced r path (stream reader).1 w (after w (fs.writeAll env path reader w).1) := by
  obtain ⟨ho, ht, hopen, ⟨x, m, hplace, hm⟩, hcopy, h, hafter, hcwd, hst⟩ :=
    FsBackend.writeAll_ok hroot hlinks hv env reader hok
  have hstream := copy_stream env.copy reader
  rw [hcopy] at hstream
  rw [hstream.1] at hst
  rw [hafter]
  have hg := hst.grows hopen
  have hroot' : Rooted fs h r := FsBackend.rooted_grows hroot hg hcwd
  have hlinks' := hst.linkless hlinks
  have hok' : ∀ q, fs.okPrefix h q = fs.okPrefix w.host q := FsBackend.okPrefix_grows hroot hg hcwd
  have hrel : ∀ q, fs.rel h q = fs.rel w.host q := FsBackend.rel_grows hroot hg hcwd
  have hpl : ∀ q, fs.place h r q = fs.place w.host r q := FsBackend.place_grows hroot hg hcwd
  have hk : r <:+ fs.place w.host r path := suffix_lexical _ _
  -- where a path leads to a file that is there now
  have hlook : ∀ q, validatePath q = .ok () → fs.okPrefix w.host q = true →
    ¬ Trailing (fs.rel w.host q) →
      fs.place w.host r q = fs.place w.host r path →
      h.lookup false (fs.joined q) = .ok (fs.place w.host r path) := by
    intro q hvq hoq htq hq
    have hb := FsBackend.below hroot' hvq ((hok' q).trans hoq)
    obtain ⟨f, hf, -⟩ := hst.file
    have hlex : lexical r (fs.rel h q) = fs.place w.host r path := (hpl q).trans hq
    have hne : fs.rel h q ≠ [] := by
      intro e
      rw [e, lexical_nil] at hlex
      rw [← hlex, hroot'.dir] at hf
      cases hf
    rw [← hlex] at hf ⊢
    refine hb.lookup_held hlinks' hne (fun hblock => htq ?_) (by rw [hf]; simp)
    rw [← hrel]
    exact (FsBackend.blocked_iff_trailing hf).mp hblock
  have hself := hlook path hv ho ht rfl
  refine ⟨?_, fun q c hvq hne => ?_, ⟨rfl, fun l hl => hst.outside hk hl⟩, ?_⟩
  · refine (FsBackend.yields_iff (w := { w with host := h }) hroot' hlinks' hv).mpr
      ⟨(hok' path).trans ho, ?_, ?_⟩
    · rw [hrel]; exact ht
    · rw [hpl, hst.contents, Function.update_self]
  · rw [FsBackend.yields_iff (w := { w with host := h }) hroot' hlinks' hvq,
      FsBackend.yields_iff hroot hlinks hvq, hok', hrel, hpl, hst.contents]
    refine and_congr_right fun hoq => and_congr_right fun htq => ?_
    rw [Function.update_of_ne fun e => hne ((hlook q hvq hoq htq e).trans hself.symm)]
  · refine ⟨max (fs.objects w.host r).length (fs.objects h r).length, fun n hn => ?_⟩
    obtain ⟨es, he, hes⟩ := FsBackend.list_objects hroot (le_trans (le_max_left _ _) hn)
    obtain ⟨es', he', hes'⟩ := FsBackend.list_objects (w := { w with host := h }) hroot'
      (le_trans (le_max_right _ _) hn)
    refine ⟨es, es', he, he', ?_⟩
    rw [hes, hes', hself]
    by_cases hdirect : ∃ y, fs.place w.host r path = y :: r
    · obtain ⟨y, hy⟩ := hdirect
      obtain ⟨s, rfl⟩ := FsBackend.text_of_place hv hy (List.suffix_refl r)
      obtain ⟨h₁, h₂⟩ := FsBackend.objects_direct hroot hroot' hutf hst hy
      exact .inl ⟨s, by rw [hy], h₁, h₂⟩
    · refine .inr ⟨fun y e => hdirect ⟨y, Except.ok.inj e⟩, ?_⟩
      exact FsBackend.objects_deeper hroot hroot' hutf hst fun y e => hdirect ⟨y, e⟩

/-- An empty data root. -/
def emptyWorld : World := { World.empty with host := dataHost }

/-- A reader of two bytes. -/
def twoBytes : TimeoutReader Script := TimeoutReader.new ⟨[.data 1 [2]], 0⟩

/-- Two bytes written to a new directory, beside the file `a`. -/
theorem write_replaces_new : dataFs.Replaced [bytes "data"] "d//b" [1, 2] belowWorld
    (after belowWorld (dataFs.writeAll .calm "d//b" twoBytes belowWorld).1) := by
  obtain ⟨rd, hok⟩ : ∃ rd, (dataFs.writeAll .calm "d//b" twoBytes belowWorld).2 = .ok rd := ⟨_, rfl⟩
  have hutf : FsBackend.Utf8Names belowWorld.host [bytes "data"] := by
    intro x f hf
    rw [get_belowWorld] at hf
    split_ifs at hf with hx
    · exact ⟨"a", (List.cons.inj hx).1⟩
    · rw [get_dataHost (List.suffix_cons x _)] at hf
      simp at hf
  exact write_replaces ⟨rfl, rfl⟩ belowWorld_linkless hutf (by decide) hok

end FileFerry
