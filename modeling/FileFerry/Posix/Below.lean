import FileFerry.Posix.Files

/-!
# Posix — Below

Paths that lead below a directory: a part that leads there, and then the segments `rel`.

* `Below.at_lexical`, `Below.astray`: where no segment of `rel` but the last is a link, a lookup
  arrives where the names spell; where one is, it arrives somewhere else.
* `lookup_components`: a path leads to a directory when the path of its components does.
-/

namespace Posix

/-- `p` leads below the directory at `r`: a part of it leads there, and `rel` are the other
segments. -/
structure Below (h : Host) (p : Path) (r : Loc) (rel : List Name) : Prop where
  dir : h.tree.get r = some .dir
  clean : Clean rel
  slashFree : SlashFree p
  nonempty : p ≠ [[]]
  leads : ∃ pre cs₀, p = pre ++ rel ∧ walk h.tree true maxSymlinks (h.start p) pre = .ok r ∧
    h.lookup true (ofComponents cs₀) = .ok r ∧ ∀ a, a <+: rel → pre ++ a ≠ [[]] →
      components (pre ++ a) = cs₀ ++ (namesOf a).map .normal

/-! ### Names among segments -/

theorem namesOf_append (a b : List Name) : namesOf (a ++ b) = namesOf a ++ namesOf b :=
  List.filter_append ..

theorem namesOf_stay {s : Name} {a : List Name} (hs : Stay s) : namesOf (s :: a) = namesOf a :=
  List.filter_cons_of_neg (by simpa using hs)

theorem namesOf_name {s : Name} {a : List Name} (hs : ¬ Stay s) :
    namesOf (s :: a) = s :: namesOf a :=
  List.filter_cons_of_pos (by simpa using hs)

/-- The segments up to a name, that name, and the others. -/
theorem split_at_name {x : Name} {ms : List Name} : ∀ {a ns : List Name},
    namesOf a = ns ++ x :: ms → ∃ b c, a = b ++ x :: c ∧ namesOf b = ns ∧ namesOf c = ms
  | [], ns, h => by cases ns <;> simp [namesOf] at h
  | s :: a, ns, h => by
      by_cases hs : Stay s
      · rw [namesOf_stay hs] at h
        obtain ⟨b, c, rfl, hb, hc⟩ := split_at_name h
        exact ⟨s :: b, c, rfl, by rw [namesOf_stay hs, hb], hc⟩
      · rw [namesOf_name hs] at h
        rcases ns with _ | ⟨y, ns⟩
        · obtain ⟨rfl, rfl⟩ := List.cons.inj h
          exact ⟨[], a, rfl, rfl, rfl⟩
        · obtain ⟨rfl, h'⟩ := cons_append_inj h.symm
          obtain ⟨b, c, rfl, hb, hc⟩ := split_at_name h'.symm
          exact ⟨y :: b, c, rfl, by rw [namesOf_name hs, hb], hc⟩

theorem Clean.of_append {a b : List Name} (h : Clean (a ++ b)) : Clean a ∧ Clean b :=
  ⟨fun s hs => h s (List.mem_append_left _ hs), fun s hs => h s (List.mem_append_right _ hs)⟩

theorem Clean.named {a : List Name} (h : Clean a) {s : Name} (hs : s ∈ namesOf a) : Named s := by
  obtain ⟨hm, hn⟩ := List.mem_filter.mp hs
  exact (h s hm).resolve_left (by simpa using hn)

/-- No segment but the last is a link, so none of the names but the last is. -/
theorem noLink_of_linkFree {t : Tree} : ∀ {a : List Name} {cur : Loc},
    linkFree t cur a = true → NoLink t cur (namesOf a).dropLast
  | [], _, _ => trivial
  | s :: a, cur, h => by
      by_cases hs : Stay s
      · rw [linkFree, if_pos hs] at h
        rw [namesOf_stay hs]
        exact noLink_of_linkFree h
      · rw [linkFree, if_neg hs, Bool.and_eq_true, Bool.or_eq_true, List.isEmpty_iff,
          Bool.not_eq_true'] at h
        rw [namesOf_name hs]
        by_cases hn : namesOf a = []
        · rw [hn]; trivial
        · rw [List.dropLast_cons_of_ne_nil hn]
          refine ⟨fun target => not_symlink_of_any (h.1.resolve_left ?_) target,
            noLink_of_linkFree h.2⟩
          rintro rfl
          exact hn rfl

/-- Where a link comes before the last segment, the names spell a link or nothing. -/
theorem held_of_not_linkFree {t : Tree} {a : List Name} {cur : Loc}
    (hf : linkFree t cur a = false) :
    t.get (lexical cur a) = none ∨ ∃ target, t.get (lexical cur a) = some (.symlink target) := by
  obtain ⟨pre, s, rest, target, rfl, hs, -, -, ht⟩ := exists_link hf
  rw [lexical_append, lexical_name hs]
  by_cases e : lexical (s :: lexical cur pre) rest = s :: lexical cur pre
  · exact .inr ⟨target, by rw [e, ht]⟩
  · exact .inl (below_link ht (suffix_lexical _ _) e).1

variable {h h' : Host} {p : Path} {r l : Loc} {rel : List Name}

namespace Below

theorem short (hb : Below h p r rel) : Short r := Tree.short_of_get (by rw [hb.dir]; simp)

/-- A lookup of the path is one from the directory. -/
theorem lookup (hb : Below h p r rel) (hne : rel ≠ []) :
    ∃ m, ∀ f, h.lookup f p = walk h.tree f m r rel >>= reach := by
  obtain ⟨pre, cs₀, hp, hw, -⟩ := hb.leads
  obtain ⟨m, hm⟩ := walk_append hw
  exact ⟨m, fun f => by rw [← hm f rel hne, ← hp, Host.lookup_eq hb.nonempty]⟩

/-- The path of the directory itself leads to it, or is a link. -/
theorem lookup_self (hb : Below h p r []) (hl : h.lookup false p = .ok l)
    (hs : ∀ target, h.tree.get l ≠ some (.symlink target)) : l = r := by
  obtain ⟨pre, cs₀, hp, hw, -⟩ := hb.leads
  rw [List.append_nil] at hp
  rw [← hp, walk_follow_of (Host.walk_of_lookup hl) hs] at hw
  exact Except.ok.inj hw

/-- The tree may grow. -/
theorem grows (hb : Below h p r rel) (hg : Grows h.tree h'.tree) (hc : h'.cwd = h.cwd) :
    Below h' p r rel := by
  obtain ⟨pre, cs₀, hp, hw, hl, hcs⟩ := hb.leads
  have hs : ∀ q, h'.start q = h.start q := fun q => by rw [Host.start, Host.start, hc]
  have hd : h.tree.get r ≠ none := by rw [hb.dir]; simp
  refine ⟨hg.dir hb.dir, hb.clean, hb.slashFree, hb.nonempty, pre, cs₀, hp, ?_,
    Host.lookup_grows hg hc hl (.inl hd), hcs⟩
  rw [hs]; exact walk_grows hg hw (.inl hd)

/-! ### Where the path leads -/

/-- **Without a link** before its last segment, the path leads where its names spell. -/
theorem at_lexical (hb : Below h p r rel) (hf : linkFree h.tree r rel = true)
    (hl : h.lookup false p = .ok l) (hs : ∀ target, h.tree.get l ≠ some (.symlink target)) :
    l = lexical r rel := by
  by_cases hne : rel = []
  · subst hne
    exact hb.lookup_self hl hs
  · obtain ⟨m, hm⟩ := hb.lookup hne
    rw [hm] at hl
    exact walk_plain hb.clean hf (reach_ok.mp hl).1

/-- Where a lookup arrives there is a node, or an unused name in a directory. -/
theorem arrives (hb : Below h p r rel) {f : Bool} (hl : h.lookup f p = .ok l) :
    h.tree.get l ≠ none ∨ h.tree.get l.tail = some .dir := by
  obtain ⟨pre, cs₀, hp, hw, -⟩ := hb.leads
  have hwalk := Host.walk_of_lookup hl
  rcases p with _ | ⟨s, rest⟩
  · obtain ⟨rfl, rfl⟩ := List.append_eq_nil_iff.mp hp.symm
    rw [walk_nil] at hw hwalk
    rw [hw] at hwalk
    obtain rfl := Except.ok.inj hwalk
    exact .inl (by rw [hb.dir]; simp)
  · rcases Posix.arrives hwalk (Host.short_of_lookup hl) (dir_of_walk hwalk) hb.slashFree with
      h₁ | ⟨x, m, rfl, -, hm⟩
    · exact .inl h₁
    · exact .inr hm

/-- A location spelled by some of the names is no unused name in a directory, when a link comes
before the last segment. -/
theorem spelled_astray (hb : Below h p r rel) (hf : linkFree h.tree r rel = false)
    {pre : List Name} (hp : pre <+: namesOf rel) :
    ¬ (h.tree.get (pre.reverse ++ r) = none ∧ h.tree.get (pre.reverse ++ r).tail = some .dir) := by
  obtain ⟨a, s, rest, target, rfl, hs, -, -, ht⟩ := exists_link hf
  rw [namesOf_append, namesOf_name hs] at hp
  have hk : s :: lexical r a = (namesOf a ++ [s]).reverse ++ r := by simp [lexical_eq]
  rintro ⟨hn, hd⟩
  rcases List.prefix_or_prefix_of_prefix hp (⟨namesOf rest, by simp⟩ :
      namesOf a ++ [s] <+: namesOf a ++ s :: namesOf rest) with hpre | hpre
  · -- a prefix of the names up to the link holds a node
    have hsuf : pre.reverse ++ r <:+ s :: lexical r a := by
      obtain ⟨m, e⟩ := hpre
      rw [hk, ← e]
      exact ⟨m.reverse, by simp⟩
    rcases List.suffix_cons_iff.mp hsuf with e | hsuf
    · rw [e, ht] at hn; cases hn
    · rw [Tree.get_above (by rw [ht]; simp) hsuf] at hn; cases hn
  · have hsuf : s :: lexical r a <:+ pre.reverse ++ r := by
      obtain ⟨m, e⟩ := hpre
      rw [hk, ← e]
      exact ⟨m.reverse, by simp⟩
    by_cases e : pre.reverse ++ r = s :: lexical r a
    · rw [e, ht] at hn; cases hn
    · exact (below_link ht hsuf e).2 hd

/-- **With a link** before its last segment, the path does not lead where its names spell. -/
theorem astray (hb : Below h p r rel) (hf : linkFree h.tree r rel = false)
    (hl : h.lookup false p = .ok l) (hs : ∀ target, h.tree.get l ≠ some (.symlink target)) :
    l ≠ lexical r rel := by
  rintro rfl
  rcases held_of_not_linkFree hf with hn | ⟨target, ht⟩
  · exact hb.spelled_astray hf (List.prefix_refl _)
      ⟨hn, (hb.arrives hl).resolve_left fun h => h hn⟩
  · exact hs target ht

end Below

/-! ### A path and its components -/

theorem seg_of_components {p : Path} {c : Component} (hc : c ∈ components p) :
    (c.seg ∈ p ∨ c.seg = []) ∧ (c = .rootDir ∨ c.seg ≠ []) := by
  have hof : ∀ {s : Name} {c : Component}, Component.ofSeg s = some c → c.seg = s ∧ s ≠ [] := by
    intro s c h
    rw [Component.ofSeg] at h
    split at h
    · cases h
    · rename_i hs
      split at h
      · rename_i e
        cases h
        exact ⟨e.symm, fun e => hs (.inl e)⟩
      · cases h; exact ⟨rfl, fun e => hs (.inl e)⟩
  rcases p with _ | ⟨s, rest⟩
  · cases hc
  · rw [components] at hc
    rcases List.mem_append.mp hc with hc | hc
    · split at hc
      · rw [List.mem_singleton.mp hc]; exact ⟨.inr rfl, .inl rfl⟩
      · split at hc
        · rename_i e
          rw [List.mem_singleton.mp hc, e]
          exact ⟨.inl List.mem_cons_self, .inr (by simp [Component.seg, dot])⟩
        · obtain ⟨rfl, hn⟩ := hof (Option.mem_toList.mp hc)
          exact ⟨.inl List.mem_cons_self, .inr hn⟩
    · obtain ⟨x, hx, e⟩ := List.mem_filterMap.mp hc
      obtain ⟨rfl, hn⟩ := hof e
      exact ⟨.inl (List.mem_cons_of_mem _ hx), .inr hn⟩

theorem slashFree_components {p : Path} (hp : SlashFree p) :
    ∀ c ∈ components p, slash ∉ c.seg := fun c hc => by
  rcases (seg_of_components hc).1 with h | h
  · exact hp _ h
  · rw [h]; simp

theorem isAbsolute_cons (s : Name) (rest : Path) :
    isAbsolute (s :: rest) = decide (s = [] ∧ rest ≠ []) := by
  cases s <;> cases rest <;> simp [isAbsolute]

/-- The components of a path that starts with a slash. -/
theorem components_absolute {rest : Path} (hr : rest ≠ []) :
    components ([] :: rest) = .rootDir :: rest.filterMap Component.ofSeg := by
  rw [components, if_pos ⟨rfl, hr⟩]; rfl

/-- …and of one that does not. -/
theorem components_relative {s : Name} (rest : Path) (hs : s ≠ []) :
    ∃ c, components (s :: rest) = c :: rest.filterMap Component.ofSeg ∧ c.seg = s := by
  rw [components, if_neg fun h => hs h.1]
  split
  · rename_i hd; exact ⟨_, rfl, hd.symm⟩
  · rename_i hd
    rw [Component.ofSeg, if_neg fun h => h.elim hs hd]
    split
    · rename_i hdd; exact ⟨_, rfl, hdd.symm⟩
    · exact ⟨_, rfl, rfl⟩

/-- A path starts with a slash, or with a segment that is not empty. -/
theorem path_cases {p : Path} (hn : p ≠ []) (hne : p ≠ [[]]) :
    (∃ rest, p = [] :: rest ∧ rest ≠ []) ∨ ∃ s rest, p = s :: rest ∧ s ≠ [] := by
  obtain ⟨s, rest, rfl⟩ := List.exists_cons_of_ne_nil hn
  by_cases hs : s = []
  · exact .inl ⟨rest, by rw [hs], fun e => hne (by rw [hs, e])⟩
  · exact .inr ⟨s, rest, rfl, hs⟩

theorem components_append {p : Path} (hn : p ≠ []) (hne : p ≠ [[]]) (q : Path) :
    components (p ++ q) = components p ++ q.filterMap Component.ofSeg := by
  obtain ⟨s, rest, rfl⟩ := List.exists_cons_of_ne_nil hn
  have hc : (s = [] ∧ rest ++ q ≠ []) ↔ (s = [] ∧ rest ≠ []) := by
    refine ⟨fun h => ⟨h.1, ?_⟩, fun h => ⟨h.1, by simp [h.2]⟩⟩
    rintro rfl
    exact hne (by rw [h.1])
  rw [List.cons_append, components, components, List.filterMap_append, List.append_assoc]
  simp only [hc]

theorem start_append {q : Path} (hn : p ≠ []) (hne : p ≠ [[]]) : h.start (p ++ q) = h.start p := by
  rw [Host.start, Host.start]
  rcases path_cases hn hne with ⟨rest, rfl, hr⟩ | ⟨s, rest, rfl, hs⟩
  · simp [isAbsolute_cons, hr]
  · simp [isAbsolute_cons, hs]

/-- The path of the components of a path starts where the path does. -/
theorem ofComponents_start {p : Path} (hn : p ≠ []) (hne : p ≠ [[]]) :
    isAbsolute (ofComponents (components p)) = isAbsolute p ∧
    ofComponents (components p) ≠ [[]] := by
  rcases path_cases hn hne with ⟨rest, rfl, hr⟩ | ⟨s, rest, rfl, hs⟩
  · rw [components_absolute hr, isAbsolute_cons [] rest]
    by_cases hc : rest.filterMap Component.ofSeg = []
    · rw [hc]; simp [ofComponents, isAbsolute, hr]
    · rw [ofComponents_eq (by simp) (by simpa using hc), List.map_cons, isAbsolute_cons]
      simp [Component.seg, hc, hr]
  · obtain ⟨c, e, hc⟩ := components_relative rest hs
    have hcr : c :: rest.filterMap Component.ofSeg ≠ [.rootDir] := fun e => by
      obtain ⟨rfl, -⟩ := List.cons.inj e
      exact hs hc.symm
    rw [e, ofComponents_eq (by simp) hcr, List.map_cons, isAbsolute_cons, isAbsolute_cons, hc]
    simp [hs]

/-- Segments that stay where they are. -/
theorem walk_stays {t : Tree} {f : Bool} {n : Nat} {cur : Loc} (hd : t.get cur = some .dir) :
    ∀ {a : List Name}, (∀ s ∈ a, Stay s) → walk t f n cur a = .ok cur
  | [], _ => walk_nil
  | s :: a, h => by
      rw [walk_stay hd (h s List.mem_cons_self)]
      exact walk_stays hd fun x hx => h x (List.mem_cons_of_mem _ hx)

/-- **A path leads to a directory** when the path of its components does. -/
theorem lookup_components {d : Loc} (hn : p ≠ []) (hne : p ≠ [[]]) (hd : h.tree.get d = some .dir) :
    h.lookup true p = .ok d ↔ h.lookup true (ofComponents (components p)) = .ok d := by
  obtain ⟨habs, hne'⟩ := ofComponents_start hn hne
  by_cases hr : components p = [.rootDir]
  · -- the path is slashes alone
    obtain ⟨rest, rfl, hrest⟩ : ∃ rest, p = [] :: rest ∧ rest ≠ [] := by
      rcases path_cases hn hne with h | ⟨s, rest, rfl, hs⟩
      · exact h
      · obtain ⟨c, e, hc⟩ := components_relative rest hs
        obtain ⟨rfl, -⟩ := List.cons.inj (e.symm.trans hr)
        exact absurd hc.symm hs
    have hstay : ∀ x ∈ rest, Stay x := by
      rw [components_absolute hrest, List.cons.injEq] at hr
      intro x hx
      by_contra hx'
      have := List.filterMap_eq_nil_iff.mp hr.2 x hx
      rw [Component.ofSeg, if_neg hx'] at this
      split at this <;> cases this
    have htop : ∀ a : List Name, (∀ x ∈ a, Stay x) → isAbsolute a = true → a ≠ [[]] →
        h.lookup true a = .ok [] := fun a ha hab hne => by
      rw [Host.lookup_eq hne, Host.start, if_pos hab, walk_stays h.tree.get_top ha]
      rfl
    rw [htop _ (List.forall_mem_cons.mpr ⟨.inl rfl, hstay⟩) (by rw [isAbsolute_cons]; simp [hrest])
      hne, hr, htop _ (by simp [ofComponents, Stay]) rfl (by simp [ofComponents])]
  · have hstart : h.start (ofComponents (components p)) = h.start p := by
      rw [Host.start, Host.start, habs]
    rw [Host.lookup_eq_ok hne, Host.lookup_eq_ok hne', hstart]
    exact and_congr_left fun _ => ⟨fun e => walk_thin e (thin_components hn hr),
      fun e => walk_thin_rev e hd (thin_components hn hr)⟩

/-! ### The canonical path -/

/-- The names of a location that holds something. -/
theorem named_of_get {t : Tree} : ∀ {l : Loc}, t.get l ≠ none → ∀ x ∈ l, Named x
  | [], _, x, hx => by cases hx
  | y :: l, h, x, hx => by
      rcases List.mem_cons.mp hx with rfl | hx
      · obtain ⟨h₁, h₂, h₃, -⟩ := Tree.ordinary_of_get h
        exact ⟨fun e => e.elim h₁ h₂, h₃⟩
      · exact named_of_get (by rw [Tree.get_parent h]; simp) x hx

/-- **A directory is where its canonical path leads.** -/
theorem canonicalize_dir (hl : h.lookup true p = .ok r) (hd : h.tree.get r = some .dir) :
    ∃ q, h.canonicalize p = .ok q ∧ components q = .rootDir :: r.reverse.map .normal ∧
      h.lookup true (ofComponents (components q)) = .ok r := by
  have hcs : ∀ ns : List Name, (∀ x ∈ ns, Named x) →
      components (ofComponents (.rootDir :: ns.map .normal)) = .rootDir :: ns.map .normal := by
    intro ns hns
    rcases ns with _ | ⟨x, ns⟩
    · rfl
    · rw [ofComponents_eq (by simp) (by simp), List.map_cons, map_seg_normal]
      show components ([] :: x :: ns) = _
      rw [components_absolute (by simp), filterMap_clean fun s hs => .inr (hns s hs), namesOf,
        List.filter_eq_self.mpr fun s hs => by simpa using (hns s hs).1]
  have hnamed : ∀ x ∈ r.reverse, Named x := fun x hx =>
    named_of_get (by rw [hd]; simp) x (List.mem_reverse.mp hx)
  refine ⟨ofComponents (.rootDir :: r.reverse.map .normal), ?_, hcs _ hnamed, ?_⟩
  · simp [Host.canonicalize, hl, Host.nodeAt, hd, bind, Except.bind, pure, Except.pure]
  · rw [hcs _ hnamed]
    rcases r with _ | ⟨x, m⟩
    · refine Host.lookup_of_walk (by simp [ofComponents]) (by simp) ?_
      exact walk_stays h.tree.get_top (by simp [ofComponents, Stay])
    · have hno : NoLink h.tree [] (m.reverse ++ [x]) := by
        refine noLink_iff.mpr fun pre hp hne target ht => ?_
        have hsuf : pre.reverse ++ [] <:+ x :: m := by
          obtain ⟨k, e⟩ := hp
          refine ⟨k.reverse, ?_⟩
          rw [List.append_nil, ← List.reverse_append, e]; simp
        rcases List.suffix_cons_iff.mp hsuf with e | hsuf
        · rw [e, hd] at ht; cases ht
        · rw [Tree.get_above (by rw [hd]; simp) hsuf] at ht; cases ht
      rw [List.reverse_cons, ofComponents_eq (by simp) (by simp), List.map_cons, map_seg_normal]
      refine Host.lookup_of_walk (by simp [Component.seg]) (by rw [hd]; simp) ?_
      have hstart : h.start (Component.rootDir.seg :: (m.reverse ++ [x])) = [] := by
        rw [Host.start, isAbsolute_cons]; simp [Component.seg]
      rw [hstart, walk_stay (s := Component.rootDir.seg) h.tree.get_top (.inl rfl),
        walk_names_dir x (by simpa using hnamed) hno]
      · simp
      · rw [List.reverse_reverse, List.append_nil]
        exact Tree.get_parent (x := x) (by rw [hd]; simp)

end Posix
