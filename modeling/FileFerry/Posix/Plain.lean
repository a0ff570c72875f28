import FileFerry.Posix.Parent

/-!
# Posix — Plain

The calls below a directory under which there are no links.

* `walk_unused`, `walk_to_name`: a walk arrives at an unused name exactly where that is the last
  segment, and a directory would hold it.
* `createDirAll_linkless`: where no regular file is in the way, all the directories missing are
  made.
* `Raised`, `Stored`: a tree with the directories above a location that were missing, and one with a
  file there besides.  `Below.parent_raised`, `Raised.stored`: what making the parent of a path and
  writing to it leave.
* `Tree.contents`: the files as a map; `Stored.contents`: a write is an update of it.
* `lookup_names`: where names lead from a directory.  `Below.lookup_held`, `Below.lookup_name`,
  `Below.lookup_blocked`, `Below.lookup_tooLong`: where a path leads.
-/

namespace Posix

variable {t t' : Tree} {f : Bool} {n : Nat} {cur r k l : Loc} {a b : List Name}

/-- What is above a directory are directories. -/
theorem Tree.dir_above (hl : t.get l = some .dir) (hk : k <:+ l) : t.get k = some .dir := by
  rcases l with _ | ⟨x, l⟩
  · rw [List.suffix_nil.mp hk]
    exact hl
  · rcases List.suffix_cons_iff.mp hk with rfl | hk
    · exact hl
    · exact Tree.get_above (x := x) (by rw [hl]; simp) hk

theorem Linkless.linkFree : ∀ {a : List Name} {cur : Loc}, Linkless t cur → linkFree t cur a = true
  | [], _, _ => rfl
  | s :: a, cur, h => by
      have hbelow : Linkless t (s :: cur) := fun l target hl =>
        h l target ((List.suffix_cons s cur).trans hl)
      rw [Posix.linkFree]
      split
      · exact h.linkFree
      · rw [any_isSymlink_of_not fun target => h _ target (List.suffix_cons s cur), hbelow.linkFree]
        simp

theorem Linkless.noLink (h : Linkless t r) (ns : List Name) : NoLink t r ns :=
  noLink_iff.mpr fun _ _ _ target => h _ target (List.suffix_append _ _)

theorem lexical_suffix (h : a <+: b) : lexical cur a <:+ lexical cur b := by
  obtain ⟨c, rfl⟩ := h
  rw [lexical_append]
  exact suffix_lexical _ c

/-- Nothing blocks a path to a directory, nor to a name in it. -/
theorem not_blocked_of_dir {c : List Name} (hc : c.length ≤ 1)
    (hd : t.get (lexical cur a) = some .dir) :
    ¬ Blocked t cur (a ++ c) := by
  rintro ⟨b, d, f, e, hd', hf⟩
  have hb : b <+: a := by
    have hpre : b <+: a ++ c := ⟨d, e.symm⟩
    refine List.prefix_of_prefix_length_le hpre (List.prefix_append a c) ?_
    have hlen := congrArg List.length e
    rw [List.length_append, List.length_append] at hlen
    have := List.length_pos_iff.mpr hd'
    omega
  rw [Tree.dir_above hd (lexical_suffix hb)] at hf
  cases hf

/-- No name on the way to something that is there is too long. -/
theorem short_of_held (hg : t.get (lexical cur a) ≠ none) : ∀ s ∈ a, s.length ≤ nameMax := by
  intro x hx
  by_contra hlong
  obtain ⟨b, c, rfl⟩ := List.append_of_mem hx
  have hs : ¬ Stay x := fun h => hlong h.length_le
  have hnone : t.get (x :: lexical cur b) = none := by
    by_contra h
    exact hlong (Tree.short_of_get h)
  rw [lexical_append, lexical_name hs] at hg
  exact hg (Tree.get_below_none hnone (suffix_lexical _ c))

theorem not_tooLong_of_get (hg : t.get (lexical cur a) ≠ none) : ¬ TooLong t cur a :=
  not_tooLong (short_of_held hg)

/-- Past a regular file no name is looked up in a directory. -/
theorem Blocked.not_tooLong (hblock : Blocked t cur a) : ¬ TooLong t cur a := by
  obtain ⟨b, c, f, rfl, -, hf⟩ := hblock
  rintro ⟨b', x, c', e, hx, hd⟩
  rcases List.prefix_or_prefix_of_prefix (List.prefix_append b c) ⟨x :: c', e.symm⟩ with hb |
    ⟨d, rfl⟩
  · rw [Tree.dir_above hd (lexical_suffix hb)] at hf
    cases hf
  · rcases d with _ | ⟨y, d⟩
    · rw [List.append_nil, hd] at hf
      cases hf
    · rw [List.append_assoc, List.append_cancel_left_eq] at e
      obtain ⟨rfl, -⟩ := List.cons.inj e
      exact not_tooLong_of_get (by rw [hf]; simp) ⟨b', y, d, rfl, hx, hd⟩

/-- **A walk to an unused name**: the name is the last segment, and the others lead to a
directory. -/
theorem walk_unused (hc : Clean a) (hl : Linkless t cur) (hd : t.get cur = some .dir)
    (hw : walk t f n cur a = .ok l) (hn : t.get l = none) :
    ∃ b x, a = b ++ [x] ∧ Named x ∧ t.get (lexical cur b) = some .dir := by
  rcases List.eq_nil_or_concat a with rfl | ⟨b, s, e⟩
  · rw [walk_nil] at hw
    rw [Except.ok.inj hw, hn] at hd
    cases hd
  rw [List.concat_eq_append] at e
  subst e
  obtain ⟨c, hwc, hcd⟩ := walk_of_append (by simp) hw
  have hcb : c = lexical cur b := by
    have hc' := reach_ok.mpr ⟨hwc, Tree.short_of_get (by rw [hcd]; simp)⟩
    rcases walk_linkless (f := true) (n := n) hc.of_append.1 hl
      (Tree.short_of_get (by rw [hd]; simp)) with
      ⟨-, e⟩ | ⟨-, -, e⟩ | ⟨-, -, e | ⟨e, -⟩⟩
    · rw [hc'] at e; cases e
    · rw [hc'] at e; cases e
    · rw [hc'] at e; exact Except.ok.inj e
    · rw [hc'] at e; cases e
  subst hcb
  refine ⟨b, s, rfl, ?_, hcd⟩
  refine (hc s (by simp)).resolve_left fun hs => ?_
  obtain ⟨m, hm⟩ := walk_append hwc
  rw [hm f [s] (by simp), walk_stay hcd hs, walk_nil] at hw
  rw [← Except.ok.inj hw, hcd] at hn
  cases hn

/-- **A walk to a directory** arrives. -/
theorem walk_to_dir (hc : Clean a) (hl : Linkless t cur) (hd : t.get (lexical cur a) = some .dir) :
    walk t f n cur a = .ok (lexical cur a) := by
  have hfree : ¬ Blocked t cur (a ++ []) := not_blocked_of_dir (by simp) hd
  rw [List.append_nil] at hfree
  have hcur : t.get cur = some .dir := Tree.dir_above hd (suffix_lexical cur a)
  rcases walk_linkless (f := f) (n := n) hc hl (Tree.short_of_get (by rw [hcur]; simp)) with
    ⟨h, -⟩ | ⟨h, -⟩ | ⟨-, -, e | ⟨-, e⟩⟩
  · exact absurd h hfree
  · exact absurd h (not_tooLong_of_get (by rw [hd]; simp))
  · exact (reach_ok.mp e).1
  · rw [hd] at e; cases e

/-- **A walk to a name** in a directory arrives. -/
theorem walk_to_name {x : Name} (hc : Clean (a ++ [x])) (hl : Linkless t cur) (hx : Named x)
    (hd : t.get (lexical cur a) = some .dir) :
    walk t f n cur (a ++ [x]) = .ok (x :: lexical cur a) := by
  obtain ⟨m, hm⟩ := walk_append (walk_to_dir (f := true) (n := n) hc.of_append.1 hl hd)
  rw [hm f [x] (by simp), walk_name hd hx fun target =>
    hl _ target ((suffix_lexical cur a).trans (List.suffix_cons x _)), walk_nil]

/-- A walk that arrives where the names spell has met no name that is too long. -/
theorem short_of_arrival (hc : Clean a) (hl : Linkless t cur) (hd : t.get cur = some .dir)
    (hw : (walk t f n cur a >>= reach) = .ok (lexical cur a)) : ∀ s ∈ a, s.length ≤ nameMax := by
  obtain ⟨hw, hshort⟩ := reach_ok.mp hw
  by_cases hg : t.get (lexical cur a) = none
  · obtain ⟨b, x, rfl, hx, hb⟩ := walk_unused hc hl hd hw hg
    rw [lexical_append, lexical_name hx.1, lexical_nil] at hshort
    intro s hs
    rcases List.mem_append.mp hs with hs | hs
    · exact short_of_held (by rw [hb]; simp) s hs
    · rw [List.mem_singleton.mp hs]
      exact hshort
  · exact short_of_held hg

/-! ### Making the directories that are missing -/

/-- A tree that has no other links than before. -/
theorem Linkless.of_made {h h' : Host} {made : List Loc} (hm : Made h made h')
    (hl : Linkless h.tree r) :
    Linkless h'.tree r := fun l target hs => by
  rw [hm.get]
  split
  · simp
  · exact hl l target hs

theorem lexical_names {ns : List Name} (hns : ∀ s ∈ ns, Named s) :
    lexical cur ns = ns.reverse ++ cur := by
  rw [lexical, List.filter_eq_self.mpr fun s hs => by simpa using (hns s hs).1]

/-- What is no regular file blocks nothing. -/
theorem not_blocked_of_free {ns : List Name} (hns : ∀ s ∈ ns, Named s)
    (hfree : ∀ pre, pre <+: ns → ∀ f, t.get (pre.reverse ++ r) ≠ some (.file f)) :
    ¬ Blocked t r ns := by
  rintro ⟨b, c, f, e, -, hf⟩
  have hb : b <+: ns := ⟨c, e.symm⟩
  rw [lexical_names fun s hs => hns s (hb.subset hs)] at hf
  exact hfree b hb f hf

section Names

variable {h : Host} {cs₀ : List Component} {ms : List Name} {x : Name}

variable (hroot : h.lookup true (ofComponents cs₀) = .ok r) (hlinks : Linkless h.tree r)
  (hns : ∀ s ∈ ms ++ [x], Named s)

include hroot hlinks hns

/-- **Where names lead** from a directory with no links below it. -/
theorem lookup_names (hd : h.tree.get r = some .dir) (f : Bool) :
    let p := ofComponents (cs₀ ++ (ms ++ [x]).map Component.normal)
    (Blocked h.tree r (ms ++ [x]) ∧ h.lookup f p = .error .enotdir) ∨
      (TooLong h.tree r (ms ++ [x]) ∧ h.lookup f p = .error .enametoolong) ∨
      (¬ TooLong h.tree r (ms ++ [x]) ∧ (h.lookup f p = .error .enoent ∨
        h.lookup f p = .ok ((ms ++ [x]).reverse ++ r) ∧ ∀ s ∈ ms ++ [x], s.length ≤ nameMax)) := by
  intro p
  have hclean : Clean (ms ++ [x]) := fun s hs => .inr (hns s hs)
  obtain ⟨m, hm⟩ := lookup_below hroot
  have hlook : h.lookup f p = walk h.tree f m r (ms ++ [x]) >>= reach := by
    rw [hm f _ (by simp), map_seg_normal]
  rw [hlook]
  rcases walk_linkless (f := f) (n := m) hclean hlinks (Tree.short_of_get (by rw [hd]; simp)) with
    hblock | ⟨hlong, -, e⟩ | ⟨-, hlong, e | ⟨e, -⟩⟩
  · exact .inl hblock
  · exact .inr (.inl ⟨hlong, e⟩)
  · have hshort := short_of_arrival hclean hlinks hd e
    rw [lexical_names hns] at e
    exact .inr (.inr ⟨hlong, .inr ⟨e, hshort⟩⟩)
  · exact .inr (.inr ⟨hlong, .inl e⟩)

/-- The last name is looked up in the directory of the others, if that is there. -/
theorem lookup_last (hdir : h.tree.get (ms.reverse ++ r) = some .dir) (hx : x.length ≤ nameMax)
    (f : Bool) : h.lookup f (ofComponents (cs₀ ++ (ms ++ [x]).map Component.normal))
      = .ok ((ms ++ [x]).reverse ++ r) := by
  obtain ⟨m, hm⟩ := lookup_below hroot
  rw [hm f _ (by simp), map_seg_normal, walk_names_dir x hns (hlinks.noLink _) hdir,
    List.reverse_append, List.reverse_singleton]
  exact reach_short hx

/-- A directory is one by its names, too. -/
theorem isDir_names (hx : x.length ≤ nameMax)
    (hdir : h.tree.get ((ms ++ [x]).reverse ++ r) = some .dir) :
    h.isDir (ofComponents (cs₀ ++ (ms ++ [x]).map Component.normal)) = true := by
  have habove : h.tree.get (ms.reverse ++ r) = some .dir := by
    rw [List.reverse_append, List.reverse_singleton, List.singleton_append,
      List.cons_append] at hdir
    exact Tree.get_parent (x := x) (by rw [hdir]; simp)
  exact Host.isDir_iff.mpr ⟨_, lookup_last hroot hlinks hns habove hx true, hdir⟩

/-- Where a name that is too long comes to be looked up, no directory is made. -/
theorem mkdir_tooLong (hd : h.tree.get r = some .dir) (hlong : TooLong h.tree r (ms ++ [x])) :
    let p := ofComponents (cs₀ ++ (ms ++ [x]).map Component.normal)
    h.mkdir p = .error .enametoolong ∧ h.isDir p = false := by
  intro p
  have hlook : ∀ f, h.lookup f p = .error .enametoolong := by
    intro f
    rcases lookup_names hroot hlinks hns hd f with ⟨hb, -⟩ | ⟨-, e⟩ | ⟨hn, -⟩
    · exact absurd hlong hb.not_tooLong
    · exact e
    · exact absurd hlong hn
  refine ⟨Host.mkdir_of_error (hlook false), Bool.eq_false_iff.mpr fun hdir => ?_⟩
  obtain ⟨l, hl, -⟩ := Host.isDir_iff.mp hdir
  rw [hlook] at hl
  cases hl

end Names

/-- **`create_dir_all` below a directory** without links succeeds, where no regular file is on the
way and no name is too long. -/
theorem createDirAll_linkless {cs₀ : List Component} (hcs₀ : ∀ c ∈ cs₀, slash ∉ c.seg)
    {ns : List Name} :
    ∀ {h : Host}, h.lookup true (ofComponents cs₀) = .ok r → h.tree.get r = some .dir →
      Linkless h.tree r → (∀ s ∈ ns, Named s ∧ slash ∉ s) → (∀ s ∈ ns, s.length ≤ nameMax) →
      (∀ pre, pre <+: ns → ∀ f, h.tree.get (pre.reverse ++ r) ≠ some (.file f)) →
      (h.createDirAll (cs₀ ++ ns.map Component.normal).reverse).2.2 = .ok () := by
  induction ns using List.reverseRecOn with
  | nil =>
      intro h hroot hd _ _ _ _
      rw [List.map_nil, List.append_nil]
      rw [createDirAll_ready (Host.isDir_iff.mpr ⟨r, hroot, hd⟩)]
  | append_singleton ms x ih =>
      intro h hroot hd hlinks hns hshort hfree
      have hms : ∀ s ∈ ms, Named s ∧ slash ∉ s := fun s hs => hns s (by simp [hs])
      have hnamed : ∀ s ∈ ms ++ [x], Named s := fun s hs => (hns s hs).1
      have hx : x.length ≤ nameMax := hshort x (by simp)
      rw [reverse_names, Host.createDirAll]
      simp only [← reverse_names, List.reverse_reverse]
      rcases lookup_names hroot hlinks hnamed hd false with
        ⟨hblock, -⟩ | ⟨hlong, -⟩ | ⟨-, hlook | ⟨hlook, -⟩⟩
      · exact absurd hblock (not_blocked_of_free hnamed hfree)
      · exact absurd hlong (not_tooLong hshort)
      · -- the directory that would hold it is made first
        rw [Host.mkdir_of_error hlook]
        have hres := ih hroot hd hlinks hms (fun s hs => hshort s (List.mem_append_left _ hs))
          fun pre hp => hfree pre (hp.trans (List.prefix_append _ _))
        rcases hup : h.createDirAll (cs₀ ++ ms.map Component.normal).reverse with ⟨made, h₁, res⟩
        rw [hup] at hres
        obtain rfl : res = .ok () := hres
        have hmade := createDirAll_made (slash_notMem_names hcs₀ hms) hup
        obtain ⟨-, hdir⟩ := createDirAll_spec hcs₀ hroot hd hms (hlinks.noLink ms) hup
        have hroot₁ : h₁.lookup true (ofComponents cs₀) = .ok r :=
          hmade.lookup hroot (.inl (by rw [hd]; simp))
        have hlinks₁ := hlinks.of_made hmade
        have hlook₁ := lookup_last hroot₁ hlinks₁ hnamed (hdir rfl) hx false
        simp only
        rcases hg : h₁.tree.get ((ms ++ [x]).reverse ++ r) with _ | node
        · obtain ⟨g, hmk⟩ := Host.mkdir_of_none hlook₁ hg
          rw [hmk]
        · have hdir' : h₁.tree.get ((ms ++ [x]).reverse ++ r) = some .dir := by
            rw [hmade.get] at hg ⊢
            split at hg
            · rename_i hmem
              rw [if_pos hmem]
            · rename_i hmem
              rw [if_neg hmem, hg]
              cases node with
              | dir => rfl
              | file g => exact absurd hg (hfree _ (List.prefix_refl _) g)
              | symlink target => exact absurd hg (hlinks _ target (List.suffix_append _ _))
          rw [Host.mkdir_of_some hlook₁ (by rw [hg]; simp)]
          simp only [isDir_names hroot₁ hlinks₁ hnamed hx hdir', if_true]
      · rcases hg : h.tree.get ((ms ++ [x]).reverse ++ r) with _ | node
        · obtain ⟨g, hmk⟩ := Host.mkdir_of_none hlook hg
          rw [hmk]
        · have hdir : h.tree.get ((ms ++ [x]).reverse ++ r) = some .dir := by
            cases node with
            | dir => exact hg
            | file g => exact absurd hg (hfree _ (List.prefix_refl _) g)
            | symlink target => exact absurd hg (hlinks _ target (List.suffix_append _ _))
          rw [Host.mkdir_of_some hlook (by rw [hg]; simp)]
          simp only [isDir_names hroot hlinks hnamed hx hdir, if_true]

/-- The names up to the first that is too long. -/
def fitting (ns : List Name) : List Name := ns.takeWhile fun s => s.length ≤ nameMax

theorem fitting_self {ns : List Name} (h : ∀ s ∈ ns, s.length ≤ nameMax) : fitting ns = ns :=
  List.takeWhile_eq_self_iff.mpr fun s hs => by simpa using h s hs

theorem fitting_append {ns ms : List Name} {x : Name} (h : ∀ s ∈ ns, s.length ≤ nameMax)
    (hx : nameMax < x.length) : fitting (ns ++ x :: ms) = ns := by
  rw [fitting, List.takeWhile_append_of_pos fun s hs => by simpa using h s hs,
    List.takeWhile_cons_of_neg (by simpa using hx), List.append_nil]

theorem fitting_concat {ns : List Name} (h : ¬ ∀ s ∈ ns, s.length ≤ nameMax) (x : Name) :
    fitting (ns ++ [x]) = fitting ns := by
  rw [fitting, List.takeWhile_append, if_neg fun e => h fun s hs => ?_, fitting]
  have := List.takeWhile_eq_self_iff.mp (List.IsPrefix.eq_of_length
    (List.takeWhile_prefix _) e) s hs
  simpa using this

theorem prefix_fitting {pre ns : List Name} (hp : pre <+: ns) (h : ∀ s ∈ pre, s.length ≤ nameMax) :
    pre <+: fitting ns := by
  obtain ⟨ms, rfl⟩ := hp
  rw [fitting, List.takeWhile_append_of_pos fun s hs => by simpa using h s hs]
  exact List.prefix_append _ _

/-- **Else it fails** at the first name that is too long, and the directories before it are
there. -/
theorem createDirAll_tooLong {cs₀ : List Component} (hcs₀ : ∀ c ∈ cs₀, slash ∉ c.seg) {h : Host}
    (hroot : h.lookup true (ofComponents cs₀) = .ok r) (hd : h.tree.get r = some .dir)
    (hlinks : Linkless h.tree r) {ns : List Name} :
    (∀ s ∈ ns, Named s ∧ slash ∉ s) → (¬ ∀ s ∈ ns, s.length ≤ nameMax) →
      (∀ pre, pre <+: ns → ∀ f, h.tree.get (pre.reverse ++ r) ≠ some (.file f)) →
      ∃ made h', h.createDirAll (cs₀ ++ ns.map Component.normal).reverse
        = (made, h', .error .enametoolong) ∧ h'.tree.get ((fitting ns).reverse ++ r)
          = some .dir := by
  induction ns using List.reverseRecOn with
  | nil => exact fun _ hlong _ => absurd (fun s hs => by cases hs) hlong
  | append_singleton ms x ih =>
      intro hns hlong hfree
      have hms : ∀ s ∈ ms, Named s ∧ slash ∉ s := fun s hs => hns s (by simp [hs])
      have hnamed : ∀ s ∈ ms ++ [x], Named s := fun s hs => (hns s hs).1
      rw [reverse_names, Host.createDirAll]
      simp only [← reverse_names, List.reverse_reverse]
      rcases lookup_names hroot hlinks hnamed hd false with
        ⟨hblock, -⟩ | ⟨ht, -⟩ | ⟨-, hlook | ⟨-, hshort⟩⟩
      · exact absurd hblock (not_blocked_of_free hnamed hfree)
      · obtain ⟨hmk, hdir⟩ := mkdir_tooLong hroot hlinks hnamed hd ht
        refine ⟨[], h, by rw [hmk]; simp only [hdir, Bool.false_eq_true, if_false], ?_⟩
        obtain ⟨b, y, c, e, hy, hb⟩ := ht
        rw [e, fitting_append (short_of_held (by rw [hb]; simp)) hy, ← lexical_names fun s hs =>
          hnamed s (by rw [e]; exact List.mem_append_left _ hs)]
        exact hb
      · rw [Host.mkdir_of_error hlook]
        have hfree' : ∀ pre, pre <+: ms → ∀ f, h.tree.get (pre.reverse ++ r) ≠ some (.file f) :=
          fun pre hp => hfree pre (hp.trans (List.prefix_append _ _))
        by_cases hshort : ∀ s ∈ ms, s.length ≤ nameMax
        · -- the directories before the last name are made, and then that one is refused
          have hx : nameMax < x.length := by
            by_contra hx
            refine hlong fun s hs => ?_
            rcases List.mem_append.mp hs with hs | hs
            · exact hshort s hs
            · rw [List.mem_singleton.mp hs]
              exact Nat.not_lt.mp hx
          have hres := createDirAll_linkless hcs₀ hroot hd hlinks hms hshort hfree'
          rcases hup : h.createDirAll (cs₀ ++ ms.map Component.normal).reverse with ⟨made, h₁, res⟩
          rw [hup] at hres
          obtain rfl : res = .ok () := hres
          have hmade := createDirAll_made (slash_notMem_names hcs₀ hms) hup
          obtain ⟨-, hdir⟩ := createDirAll_spec hcs₀ hroot hd hms (hlinks.noLink ms) hup
          have hlex : lexical r ms = ms.reverse ++ r := lexical_names fun s hs => (hms s hs).1
          obtain ⟨hmk, hnot⟩ := mkdir_tooLong (hmade.lookup hroot (.inl (by rw [hd]; simp)))
            (hlinks.of_made hmade) hnamed (hmade.grows.dir hd)
            ⟨ms, x, [], rfl, hx, by rw [hlex]; exact hdir rfl⟩
          refine ⟨made, h₁, ?_, ?_⟩
          · simp only [hmk, hnot, Bool.false_eq_true, if_false]
          · rw [fitting_append hshort hx]
            exact hdir rfl
        · obtain ⟨made, h₁, hup, hdir⟩ := ih hms hshort hfree'
          refine ⟨made, h₁, by rw [hup], ?_⟩
          rw [fitting_concat hshort]
          exact hdir
      · exact absurd hshort hlong

/-! ### What a write leaves of the tree -/

/-- `t'` is `t` with the directories above `k`, from `r` down, that were missing. -/
def Raised (r k : Loc) (t t' : Tree) : Prop :=
  ∀ m, t'.get m = if t.get m = none ∧ r <:+ m ∧ m <:+ k ∧ m ≠ k then some .dir else t.get m

/-- `t'` is `t` with a file of the bytes `c` at `k`, and the directories above it that were
missing. -/
structure Stored (r k : Loc) (c : List UInt8) (t t' : Tree) : Prop where
  file : ∃ f, t'.get k = some (.file f) ∧ f.content = c
  others : ∀ m, m ≠ k →
    t'.get m = if t.get m = none ∧ r <:+ m ∧ m <:+ k then some .dir else t.get m

/-- Where no directory is missing. -/
theorem Raised.refl (h : ∀ m, r <:+ m → m <:+ k → m ≠ k → t.get m ≠ none) :
    Raised r k t t := fun m => by
  split
  · rename_i hm
    exact absurd hm.1 (h m hm.2.1 hm.2.2.1 hm.2.2.2)
  · rfl

theorem Raised.symlink_iff (hr : Raised r k t t') (target : List UInt8) :
    t'.get l = some (.symlink target) ↔ t.get l = some (.symlink target) := by
  rw [hr l]
  split
  · rename_i hm
    rw [hm.1]; simp
  · rfl

theorem Raised.file_iff (hr : Raised r k t t') (g : File) :
    t'.get l = some (.file g) ↔ t.get l = some (.file g) := by
  rw [hr l]
  split
  · rename_i hm
    rw [hm.1]; simp
  · rfl

theorem Raised.at_end (hr : Raised r k t t') : t'.get k = t.get k := by
  rw [hr k, if_neg fun h => h.2.2.2 rfl]

theorem Raised.linkless (hr : Raised r k t t') (hl : Linkless t r) : Linkless t' r :=
  fun l target hs => fun e => hl l target hs ((hr.symlink_iff target).mp e)

theorem Raised.blocked_iff (hr : Raised r k t t') : Blocked t' cur a ↔ Blocked t cur a := by
  constructor
  · rintro ⟨b, c, g, e, hc, hg⟩
    exact ⟨b, c, g, e, hc, (hr.file_iff g).mp hg⟩
  · rintro ⟨b, c, g, e, hc, hg⟩
    exact ⟨b, c, g, e, hc, (hr.file_iff g).mpr hg⟩

/-- What is above the end of the path is a directory now, if it is not blocked. -/
theorem Raised.above (hr : Raised r k t t') (h : ∀ g, t.get l ≠ some (.file g))
    (hs : ∀ target, t.get l ≠ some (.symlink target)) (hrl : r <:+ l)
    (hlk : l <:+ k) (hne : l ≠ k) :
    t'.get l = some .dir := by
  rw [hr l]
  rcases hg : t.get l with _ | n
  · rw [if_pos ⟨rfl, hrl, hlk, hne⟩]
  · cases n with
    | dir => simp
    | file g => exact absurd hg (h g)
    | symlink target => exact absurd hg (hs target)

/-- No regular file is above the end of a path that is not blocked. -/
theorem not_file_of_free (hfree : ¬ Blocked t r a) {ns : List Name} {x : Name}
    (hns : namesOf a = ns ++ [x])
    {pre : List Name} (hp : pre <+: ns) (g : File) : t.get (pre.reverse ++ r) ≠ some (.file g) := by
  intro hg
  obtain ⟨ms, rfl⟩ := hp
  -- the segments up to the first name after `pre`
  obtain ⟨y, ys, hy⟩ : ∃ y ys, ms ++ [x] = y :: ys := List.exists_cons_of_ne_nil (by simp)
  rw [List.append_assoc, hy] at hns
  obtain ⟨b, c, rfl, hb, -⟩ := split_at_name hns
  refine hfree ⟨b, y :: c, g, rfl, by simp, ?_⟩
  rw [lexical_eq, hb]
  exact hg

/-- The names of the path but the last are not too long. -/
def ParentShort (a : List Name) : Prop := ∀ s ∈ (namesOf a).dropLast, s.length ≤ nameMax

instance (a : List Name) : Decidable (ParentShort a) :=
  inferInstanceAs (Decidable (∀ s ∈ (namesOf a).dropLast, s.length ≤ nameMax))

/-- Where the names of the path spell, or the names up to the first that is too long and that
one. -/
def ceiling (r : Loc) (a : List Name) : Loc :=
  ((namesOf a).take ((fitting (namesOf a)).length + 1)).reverse ++ r

theorem ceiling_concat {ns : List Name} {x : Name} (hns : namesOf a = ns ++ [x]) :
    ∃ z, ceiling r a = z :: ((fitting ns).reverse ++ r) := by
  rw [ceiling, hns]
  by_cases hshort : ∀ s ∈ ns, s.length ≤ nameMax
  · have hlen : (ns ++ [x]).length ≤ (fitting (ns ++ [x])).length + 1 := by
      have := (prefix_fitting (List.prefix_append ns [x]) hshort).length_le
      rw [List.length_append, List.length_singleton]
      omega
    exact ⟨x, by rw [List.take_of_length_le hlen, fitting_self hshort]; simp⟩
  · obtain ⟨ms, hms⟩ : fitting ns <+: ns := List.takeWhile_prefix _
    rcases ms with _ | ⟨z, ms⟩
    · refine absurd (fun s hs => ?_) hshort
      rw [← hms, List.append_nil] at hs
      simpa using List.mem_takeWhile_imp hs
    · have hsplit : ns ++ [x] = (fitting ns ++ [z]) ++ (ms ++ [x]) := by
        conv_lhs => rw [← hms]
        simp
      have hlen : (fitting ns).length + 1 = (fitting ns ++ [z]).length := by simp
      exact ⟨z, by rw [fitting_concat hshort, hlen, hsplit, List.take_left]; simp⟩

theorem ceiling_suffix (r : Loc) (a : List Name) : ceiling r a <:+ lexical r a := by
  obtain ⟨ns, e⟩ := List.take_prefix ((fitting (namesOf a)).length + 1) (namesOf a)
  rw [lexical_eq]
  conv_rhs => rw [← e]
  exact ⟨ns.reverse, by rw [ceiling]; simp⟩

theorem parentShort_of (h : ∀ s ∈ a, s.length ≤ nameMax) : ParentShort a := fun s hs =>
  h s (List.mem_filter.mp (List.mem_of_mem_dropLast hs)).1

/-- A last name that is too long is where the names of the path stop. -/
theorem ceiling_parent (h : ParentShort a) : ceiling r a = lexical r a := by
  have hlen : (namesOf a).length ≤ (fitting (namesOf a)).length + 1 := by
    have := (prefix_fitting (List.dropLast_prefix (namesOf a)) h).length_le
    rw [List.length_dropLast] at this
    omega
  rw [ceiling, List.take_of_length_le hlen, lexical_eq]

theorem ceiling_short (h : ∀ s ∈ a, s.length ≤ nameMax) : ceiling r a = lexical r a := by
  exact ceiling_parent (parentShort_of h)

namespace Below

variable {h h' : Host} {p : Path} {rel : List Name}

/-- A path without a parent names nothing below the directory. -/
theorem parent_none (hb : Below h p r rel) (hp : parent p = none) : namesOf rel = [] := by
  obtain ⟨pre, cs₀, hpre, -, -, hcs⟩ := hb.leads
  have hcomp := hcs rel (List.prefix_refl _) (hpre ▸ hb.nonempty)
  rw [← hpre] at hcomp
  rcases List.eq_nil_or_concat (namesOf rel) with e | ⟨ns, x, e⟩
  · exact e
  · rw [List.concat_eq_append] at e
    rw [e, List.map_append, ← List.append_assoc] at hcomp
    rw [parent_eq_some.mpr ⟨_, hcomp, by simp⟩] at hp
    cases hp

/-- **Making the parent** of a path that no regular file blocks, below a directory without links:
it stops at the first name that is too long. -/
theorem parent_raised (hb : Below h p r rel) (hl : Linkless h.tree r)
    (hfree : ¬ Blocked h.tree r rel)
    {cs : List Component} (hp : parent p = some cs) :
    ∃ made h', h.createDirAll cs.reverse
        = (made, h', if ParentShort rel then .ok () else .error .enametoolong) ∧
      Made h made h' ∧ Raised r (ceiling r rel) h.tree h'.tree := by
  obtain ⟨pre, cs₀, hpre, -, hlook, hslash₀, hseg, -, hcases⟩ := hb.parent_cases hp
  rcases hcases with ⟨hnil, c, rfl⟩ | ⟨ns, x, hns, rfl⟩
  · -- the path is that of the directory itself
    have hrun : h.createDirAll cs.reverse = ([], h, .ok ()) := by
      rcases cs with _ | ⟨d, cs⟩
      · rfl
      · exact createDirAll_ready (isDir_above (by simp) (fun c hc => (hseg c hc).2) (by simp) hlook)
    refine ⟨[], h, ?_, .refl h, .refl fun m hrm hmk hne => ?_⟩
    · rw [if_pos (by simp [ParentShort, hnil])]
      exact hrun
    · rw [ceiling, hnil] at hmk hne
      exact absurd (hrm.eq_of_length_le hmk.length_le).symm hne
  · have hnames : ∀ s ∈ ns, Named s ∧ slash ∉ s := fun s hs => by
      have hm : s ∈ namesOf rel := by rw [hns]; simp [hs]
      exact ⟨hb.clean.named hm, hb.slashFree s (by
        rw [hpre]; exact List.mem_append_right _ (List.mem_filter.mp hm).1)⟩
    have hnofile : ∀ pre, pre <+: ns → ∀ f, h.tree.get (pre.reverse ++ r) ≠ some (.file f) :=
      fun pre hp g => not_file_of_free hfree hns hp g
    have hparent : ParentShort rel ↔ ∀ s ∈ ns, s.length ≤ nameMax := by
      rw [ParentShort, hns, List.dropLast_concat]
    obtain ⟨made, h', hrun, hdir⟩ : ∃ made h',
      h.createDirAll (cs₀ ++ ns.map Component.normal).reverse
        = (made, h', if ParentShort rel then .ok () else .error .enametoolong) ∧
          h'.tree.get ((fitting ns).reverse ++ r) = some .dir := by
      by_cases hshort : ∀ s ∈ ns, s.length ≤ nameMax
      · have hres := createDirAll_linkless hslash₀ hlook hb.dir hl hnames hshort hnofile
        rcases hrun : h.createDirAll (cs₀ ++ ns.map Component.normal).reverse with ⟨made, h', res⟩
        rw [hrun] at hres
        obtain rfl : res = .ok () := hres
        obtain ⟨-, hdir⟩ := createDirAll_spec hslash₀ hlook hb.dir hnames (hl.noLink ns) hrun
        rw [if_pos (hparent.mpr hshort), fitting_self hshort]
        exact ⟨made, h', rfl, hdir rfl⟩
      · rw [if_neg fun h => hshort (hparent.mp h)]
        exact createDirAll_tooLong hslash₀ hlook hb.dir hl hnames hshort hnofile
    have hslash : ∀ c ∈ (cs₀ ++ ns.map Component.normal).reverse, slash ∉ c.seg := fun c hc =>
      (hseg c (List.mem_reverse.mp hc)).1
    have hmade := createDirAll_made hslash hrun
    obtain ⟨hspelled, -⟩ := createDirAll_spec hslash₀ hlook hb.dir hnames (hl.noLink ns) hrun
    refine ⟨made, h', hrun, hmade, fun m => ?_⟩
    obtain ⟨z, hend⟩ : ∃ z, ceiling r rel = z :: ((fitting ns).reverse ++ r) := ceiling_concat hns
    by_cases hm : h.tree.get m = none ∧ r <:+ m ∧ m <:+ ceiling r rel ∧ m ≠ ceiling r rel
    · -- a missing directory above the end is above one that is there now
      rw [if_pos hm]
      refine Tree.dir_above hdir ?_
      rw [hend] at hm
      exact (List.suffix_cons_iff.mp hm.2.2.1).resolve_left hm.2.2.2
    · rw [if_neg hm, hmade.get, if_neg fun hmem => hm ?_]
      obtain ⟨pre, hpre, rfl⟩ := hspelled m hmem
      have hlex : lexical r pre = pre.reverse ++ r :=
        lexical_names fun s hs => (hnames s (hpre.subset hs)).1
      have hheld : h'.tree.get (lexical r pre) ≠ none := by
        rw [hlex, hmade.get, if_pos hmem]
        simp
      have hshort : ∀ s ∈ pre, s.length ≤ nameMax := short_of_held hheld
      have hsuf : pre.reverse ++ r <:+ (fitting ns).reverse ++ r := by
        obtain ⟨ms, e⟩ := prefix_fitting hpre hshort
        exact ⟨ms.reverse, by rw [← e]; simp⟩
      refine ⟨hmade.fresh _ hmem, List.suffix_append _ _, ?_, fun e => ?_⟩
      · rw [hend]; exact hsuf.trans (List.suffix_cons z _)
      · rw [hend] at e
        have hle := hsuf.length_le
        rw [e, List.length_cons] at hle
        omega

end Below

/-! ### Where the path leads -/

/-- The last segment stays where it is: the path ends in a slash. -/
def Trailing (a : List Name) : Prop := ∃ b s, a = b ++ [s] ∧ Stay s

theorem trailing_or_name (hc : Clean a) (hne : a ≠ []) :
    Trailing a ∨ ∃ b x, a = b ++ [x] ∧ Named x := by
  obtain ⟨b, s, e⟩ := (List.eq_nil_or_concat a).resolve_left hne
  rw [List.concat_eq_append] at e
  subst e
  exact (hc s (by simp)).imp (fun hs => ⟨b, s, rfl, hs⟩) fun hx => ⟨b, s, rfl, hx⟩

theorem Trailing.not_name {x : Name} (ht : Trailing (a ++ [x])) : ¬ Named x := by
  obtain ⟨b, s, e, hs⟩ := ht
  obtain ⟨-, e⟩ := List.append_inj' e rfl
  obtain rfl := List.singleton_inj.mp e
  exact fun hx => hx.1 hs

/-- The last name among the segments, and what stays there. -/
theorem last_name (hc : Clean a) (hne : namesOf a ≠ []) :
    ∃ b x c, a = b ++ x :: c ∧ Named x ∧ ∀ s ∈ c, Stay s := by
  obtain ⟨ns, x, e⟩ := (List.eq_nil_or_concat (namesOf a)).resolve_left hne
  rw [List.concat_eq_append] at e
  have hx : Named x := hc.named (by rw [e]; simp)
  obtain ⟨b, c, rfl, -, hnil⟩ := split_at_name e
  refine ⟨b, x, c, rfl, hx, fun s hs => ?_⟩
  by_contra hst
  have hmem : s ∈ namesOf c := List.mem_filter.mpr ⟨hs, by simpa using hst⟩
  rw [hnil] at hmem
  cases hmem

theorem namesOf_last {x : Name} {c : List Name} (hx : Named x) (hc : ∀ s ∈ c, Stay s) :
    namesOf (a ++ x :: c) = namesOf a ++ [x] := by
  have hnil : namesOf c = [] := List.filter_eq_nil_iff.mpr fun s hs => by simpa using hc s hs
  rw [namesOf_append, namesOf_name hx.1, hnil]

theorem lexical_last {x : Name} {c : List Name} (hx : Named x) (hc : ∀ s ∈ c, Stay s) :
    lexical cur (a ++ x :: c) = x :: lexical cur a := by
  rw [lexical_eq, namesOf_last hx hc, List.reverse_append, List.reverse_singleton]
  rfl

/-- Only the last name is too long. -/
theorem last_long {x : Name} {c : List Name} (hx : Named x) (hc : ∀ s ∈ c, Stay s)
    (hp : ParentShort (a ++ x :: c)) (hlong : ¬ ∀ s ∈ a ++ x :: c, s.length ≤ nameMax) :
    nameMax < x.length := by
  rw [ParentShort, namesOf_last hx hc, List.dropLast_concat] at hp
  by_contra hshort
  refine hlong fun s hs => ?_
  by_cases hst : Stay s
  · exact hst.length_le
  · rcases List.mem_append.mp hs with hs | hs
    · exact hp s (List.mem_filter.mpr ⟨hs, by simpa using hst⟩)
    · rcases List.mem_cons.mp hs with rfl | hs
      · exact Nat.not_lt.mp hshort
      · exact absurd (hc s hs) hst

/-- A path that ends in a slash does not name a file. -/
theorem Trailing.blocked (ht : Trailing a) {g : File}
    (hg : t.get (lexical cur a) = some (.file g)) :
    Blocked t cur a := by
  obtain ⟨b, s, rfl, hs⟩ := ht
  refine ⟨b, [s], g, rfl, by simp, ?_⟩
  rwa [lexical_append, lexical_stay hs, lexical_nil] at hg

namespace Below

variable {h : Host} {p : Path} {rel : List Name}

/-- A path to a node that is there. -/
theorem lookup_held (hb : Below h p r rel) (hl : Linkless h.tree r) (hne : rel ≠ [])
    (hfree : ¬ Blocked h.tree r rel) (hg : h.tree.get (lexical r rel) ≠ none) :
    h.lookup f p = .ok (lexical r rel) := by
  obtain ⟨m, hm⟩ := hb.lookup hne
  rw [hm]
  rcases walk_linkless (f := f) (n := m) hb.clean hl hb.short with
    ⟨h₁, -⟩ | ⟨h₁, -⟩ | ⟨-, -, h₁ | ⟨-, h₁⟩⟩
  · exact absurd h₁ hfree
  · exact absurd h₁ (not_tooLong_of_get hg)
  · exact h₁
  · exact absurd h₁ hg

/-- A path to a name in a directory. -/
theorem lookup_name {x : Name} (hb : Below h p r (a ++ [x])) (hl : Linkless h.tree r) (hx : Named x)
    (hs : x.length ≤ nameMax) (hd : h.tree.get (lexical r a) = some .dir) :
    h.lookup f p = .ok (x :: lexical r a) := by
  obtain ⟨m, hm⟩ := hb.lookup (by simp)
  rw [hm]
  exact reach_ok.mpr ⟨walk_to_name hb.clean hl hx hd, hs⟩

/-- A path that ends in a slash is not opened for writing. -/
theorem openWrite_slash {x : Name} {c : List Name} (hb : Below h p r (a ++ x :: c))
    (hl : Linkless h.tree r) (hx : Named x) (hc : ∀ s ∈ c, s = []) (hne : c ≠ [])
    (hd : h.tree.get (lexical r a) = some .dir) : h.openWrite p = .error .eisdir := by
  obtain ⟨pre, cs₀, hp, hw, -⟩ := hb.leads
  have hlast : p.getLast? = some [] := by
    obtain ⟨d, s, rfl⟩ := (List.eq_nil_or_concat c).resolve_left hne
    rw [hp, hc s (by simp), List.concat_eq_append, ← List.cons_append, ← List.append_assoc,
      ← List.append_assoc, List.getLast?_concat]
  have hdirectory : p.directory = pre ++ (a ++ [[]]) := by
    rw [hp, ← List.append_assoc, directory_eq (fun e => hx.1 (.inl e)) hc, List.append_assoc]
  obtain ⟨m, hm⟩ := walk_append hw
  obtain ⟨m', hm'⟩ := walk_append (walk_to_dir (f := true) (n := m) hb.clean.of_append.1 hl hd)
  rw [Host.openWrite, if_pos ⟨hlast, hb.nonempty⟩, hdirectory, hm true _ (by simp),
    hm' true _ (by simp), walk_stay hd (.inl rfl), walk_nil]

/-- A path that ends in a name opens for writing where it leads. -/
theorem openWrite_name {x : Name} {e : Errno} (hb : Below h p r (a ++ [x])) (hx : Named x)
    (hl : h.lookup false p = .error e) : h.openWrite p = .error e := by
  obtain ⟨pre, cs₀, hp, -, -⟩ := hb.leads
  have hlast : p.getLast? ≠ some [] := by
    rw [hp, ← List.append_assoc, List.getLast?_concat]
    exact fun e => hx.1 (.inl (Option.some.inj e))
  rw [Host.openWrite, if_neg fun h => hlast h.1, hl]

/-- A path that is blocked. -/
theorem lookup_blocked (hb : Below h p r rel) (hl : Linkless h.tree r)
    (hblock : Blocked h.tree r rel) :
    h.lookup f p = .error .enotdir := by
  have hne : rel ≠ [] := by
    rintro rfl
    exact not_blocked_nil hblock
  obtain ⟨m, hm⟩ := hb.lookup hne
  rw [hm]
  rcases walk_linkless (f := f) (n := m) hb.clean hl hb.short with
    ⟨-, h₁⟩ | ⟨-, h₁, -⟩ | ⟨h₁, -⟩
  · exact h₁
  · exact absurd hblock h₁
  · exact absurd hblock h₁

/-- A path that has a name too long to be looked up. -/
theorem lookup_tooLong (hb : Below h p r rel) (hl : Linkless h.tree r)
    (hlong : TooLong h.tree r rel) : h.lookup f p = .error .enametoolong := by
  have hne : rel ≠ [] := by
    rintro rfl
    exact not_tooLong_nil hlong
  obtain ⟨m, hm⟩ := hb.lookup hne
  rw [hm]
  rcases walk_linkless (f := f) (n := m) hb.clean hl hb.short with
    ⟨h₁, -⟩ | ⟨-, -, h₁⟩ | ⟨-, h₁, -⟩
  · exact absurd hlong h₁.not_tooLong
  · exact h₁
  · exact absurd hlong h₁

end Below

/-- **A file opened for writing**, or one more chunk written to it, after the parent was made. -/
theorem Raised.stored {h h' : Host} {c : List UInt8} (hr : Raised r k t h.tree)
    (hw : Rewrote h h' k c) :
    Stored r k c t h'.tree := by
  refine ⟨hw.file, fun m hm => ?_⟩
  rw [hw.frame m hm, hr m]
  simp only [hm, ne_eq, not_false_eq_true, and_true]

theorem Stored.rewrote {h h' : Host} {c d : List UInt8} (hs : Stored r k c t h.tree)
    (hw : Rewrote h h' k d) : Stored r k d t h'.tree :=
  ⟨hw.file, fun m hm => (hw.frame m hm).trans (hs.others m hm)⟩

/-! ### The files as a map -/

/-- The bytes of the regular files, by their locations. -/
def Tree.contents (t : Tree) (l : Loc) : Option (List UInt8) :=
  match t.get l with
  | some (.file f) => some f.content
  | _ => none

theorem Tree.contents_eq_some {c : List UInt8} :
    t.contents l = some c ↔ ∃ g, t.get l = some (.file g) ∧ g.content = c := by
  rw [contents]
  rcases hg : t.get l with _ | n
  · simp
  · cases n <;> simp

/-- **Storing a file** changes the map at its location alone. -/
theorem Stored.contents {c : List UInt8} (hs : Stored r k c t t') :
    t'.contents = Function.update t.contents k (some c) := by
  funext m
  by_cases hm : m = k
  · subst hm
    rw [Function.update_self]
    exact Tree.contents_eq_some.mpr hs.file
  · rw [Function.update_of_ne hm, Tree.contents, Tree.contents, hs.others m hm]
    split_ifs with hn
    · rw [hn.1]
    · rfl

theorem Stored.grows {c : List UInt8} (hs : Stored r k c t t') (ho : t.Open k) : Grows t t' := by
  intro m n hn
  by_cases hm : m = k
  · subst hm
    rcases ho with ho | ⟨g, hg⟩
    · rw [ho] at hn; cases hn
    · rw [hg] at hn
      cases hn
      obtain ⟨f, hf, -⟩ := hs.file
      exact .inr ⟨rfl, f, hf⟩
  · rw [hs.others m hm, if_neg fun h => ?_]
    · exact .inl hn
    · rw [h.1] at hn; cases hn

theorem Stored.linkless {c : List UInt8} (hs : Stored r k c t t') (hl : Linkless t r) :
    Linkless t' r := by
  intro l target hrl ht
  by_cases hm : l = k
  · subst hm
    obtain ⟨f, hf, -⟩ := hs.file
    rw [hf] at ht; cases ht
  · rw [hs.others l hm] at ht
    split_ifs at ht
    · cases ht
    · exact hl l target hrl ht

/-- Nothing changes but below the root. -/
theorem Stored.outside {c : List UInt8} (hs : Stored r k c t t') (hk : r <:+ k) {m : Loc}
    (hm : ¬ r <:+ m) :
    t'.get m = t.get m := by
  have hne : m ≠ k := by
    rintro rfl
    exact hm hk
  rw [hs.others m hne, if_neg fun h => hm h.2.1]

theorem Raised.grows (hr : Raised r k t t') : Grows t t' := by
  intro m n hn
  rw [hr m, if_neg fun h => ?_]
  · exact .inl hn
  · rw [h.1] at hn; cases hn

end Posix
