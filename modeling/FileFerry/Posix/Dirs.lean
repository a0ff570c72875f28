import FileFerry.Posix.Calls

/-!
# Posix — Dirs

Lookups while the tree grows, and the directories `createDirAll` makes.

* `Grows t t'`: every node of `t` is in `t'`, a file perhaps with other bytes.  `walk_grows`: a
  walk that arrives in `t` arrives at the same place in `t'`.
* `createDirAll_made`: the directories made are where nothing was, and nothing else changes.
* `createDirAll_spec`: below a directory, along names none of which is a link, they are at the
  locations the names spell, and where it succeeds the last name is a directory.
* `createDirAll_quiet`, `createDirAll_makes`: whatever the links on the way, something is made
  exactly where some prefix of the path leads to a location that holds nothing (`Creatable`).
-/

namespace Posix

/-! ### A tree that grows -/

/-- Every node of `t` is in `t'`, a file perhaps with other bytes. -/
def Grows (t t' : Tree) : Prop :=
  ∀ l n, t.get l = some n → t'.get l = some n ∨ n.isFile = true ∧ ∃ f, t'.get l = some (.file f)

theorem Grows.refl (t : Tree) : Grows t t := fun _ _ h => .inl h

/-- Growth on growth is growth. -/
theorem Grows.trans {t t' t'' : Tree} (h : Grows t t') (h' : Grows t' t'') : Grows t t'' := by
  intro l n hn
  rcases h l n hn with e | ⟨hf, f, e⟩
  · exact h' l n e
  · rcases h' l _ e with e' | ⟨-, f', e'⟩
    · exact .inr ⟨hf, f, e'⟩
    · exact .inr ⟨hf, f', e'⟩

theorem Grows.dir {t t' : Tree} (h : Grows t t') {l : Loc} (hl : t.get l = some .dir) :
    t'.get l = some .dir := by
  rcases h l _ hl with e | ⟨hf, -⟩
  · exact e
  · cases hf

theorem Grows.symlink {t t' : Tree} (h : Grows t t') {l : Loc} {target : List UInt8}
    (hl : t.get l = some (.symlink target)) : t'.get l = some (.symlink target) := by
  rcases h l _ hl with e | ⟨hf, -⟩
  · exact e
  · cases hf

/-- **A walk that arrives** arrives at the same place while the tree grows, as long as no link is
put there. -/
theorem walk_grows {t t' : Tree} {f : Bool} {n : Nat} {cur r : Loc} {a : List Name}
    (hg : Grows t t') (h : walk t f n cur a = .ok r)
    (hr : t.get r ≠ none ∨ ∀ target, t'.get r ≠ some (.symlink target)) :
    walk t' f n cur a = .ok r := by
  replace h := walk_ok_iff.mp h
  induction h with
  | nil => exact walk_nil
  | stay hd hs _ ih => rw [walk_stay (hg.dir hd) hs]; exact ih hr
  | up hd _ ih => rw [walk_up (hg.dir hd)]; exact ih hr
  | @name n cur s rest r hd hs hl hw ih =>
      have hl' : ∀ target, t'.get (s :: cur) ≠ some (.symlink target) := by
        rcases e : t.get (s :: cur) with _ | m
        · cases rest with
          | nil => cases hw; exact hr.resolve_left fun h => h e
          | cons y rest =>
              rw [dir_of_walk (walk_of_walks hw)] at e; cases e
        · intro target ht
          rcases hg _ _ e with e' | ⟨-, k, e'⟩
          · rw [e'] at ht; cases ht; exact hl _ e
          · rw [e'] at ht; cases ht
      rw [walk_name (hg.dir hd) hs hl']; exact ih hr
  | last hd hs hl hf => subst hf; exact walk_link_last (hg.dir hd) hs (hg.symlink hl)
  | link hd hs hl hf _ ih => rw [walk_link (hg.dir hd) hs (hg.symlink hl) hf]; exact ih hr

/-- …and so does a lookup. -/
theorem Host.lookup_grows {h h' : Host} {f : Bool} {p : Path} {l : Loc} (hg : Grows h.tree h'.tree)
    (hc : h'.cwd = h.cwd) (hl : h.lookup f p = .ok l)
    (hr : h.tree.get l ≠ none ∨ ∀ target, h'.tree.get l ≠ some (.symlink target)) :
    h'.lookup f p = .ok l := by
  refine (Host.lookup_eq_ok (Host.ne_of_lookup hl)).mpr ⟨?_, Host.short_of_lookup hl⟩
  rw [Host.start, hc]
  exact walk_grows hg (Host.walk_of_lookup hl) hr

/-! ### Names below a directory -/

/-- None of the names, looked up from `cur` one below the other, is a link. -/
def NoLink (t : Tree) : Loc → List Name → Prop
  | _, [] => True
  | cur, s :: rest => (∀ target, t.get (s :: cur) ≠ some (.symlink target)) ∧
      NoLink t (s :: cur) rest

/-- No link is on the way: none of the places passed is one. -/
theorem noLink_iff {t : Tree} : ∀ {ns : List Name} {cur : Loc},
    NoLink t cur ns ↔
      ∀ pre, pre <+: ns → pre ≠ [] → ∀ target, t.get (pre.reverse ++ cur) ≠ some (.symlink target)
  | [], cur => by
      refine ⟨fun _ pre hp hne => absurd (List.prefix_nil.mp hp) hne, fun _ => trivial⟩
  | s :: ns, cur => by
      rw [NoLink, noLink_iff]
      constructor
      · rintro ⟨h₁, h₂⟩ pre hp hne
        obtain ⟨y, pre, rfl⟩ := List.exists_cons_of_ne_nil hne
        obtain ⟨rfl, hp'⟩ := List.cons_prefix_cons.mp hp
        by_cases e : pre = []
        · subst e; simpa using h₁
        · simpa using h₂ pre hp' e
      · intro h
        refine ⟨by simpa using h [s] (by simp) (by simp), fun pre hp hne => ?_⟩
        simpa using h (s :: pre) (List.cons_prefix_cons.mpr ⟨rfl, hp⟩) (by simp)

theorem NoLink.left {t : Tree} {cur : Loc} {a b : List Name} (h : NoLink t cur (a ++ b)) :
    NoLink t cur a :=
  noLink_iff.mpr fun pre hp => noLink_iff.mp h pre (hp.trans (List.prefix_append a b))

/-- Along names that are no links a walk goes where they spell, followed or not. -/
theorem walk_names {t : Tree} {f : Bool} {n : Nat} {r : Loc} : ∀ {ns : List Name} {cur : Loc},
    (∀ s ∈ ns, Named s) → NoLink t cur ns → walk t f n cur ns = .ok r → r = ns.reverse ++ cur
  | [], cur, _, _, h => by rw [walk_nil] at h; cases h; rfl
  | s :: ns, cur, hn, hl, h => by
      have hd := dir_of_walk h
      rw [walk_name hd (hn s List.mem_cons_self) hl.1] at h
      rw [walk_names (fun x hx => hn x (List.mem_cons_of_mem _ hx)) hl.2 h]
      simp

/-- …and it arrives, where all of them but the last are directories. -/
theorem walk_names_dir {t : Tree} {f : Bool} {n : Nat} (x : Name) :
    ∀ {ns : List Name} {cur : Loc}, (∀ s ∈ ns ++ [x], Named s) → NoLink t cur (ns ++ [x]) →
      t.get (ns.reverse ++ cur) = some .dir →
      walk t f n cur (ns ++ [x]) = .ok (x :: (ns.reverse ++ cur))
  | [], cur, hn, hl, hd => by
      rw [List.nil_append, walk_name (by simpa using hd) (hn x (by simp)) hl.1, walk_nil]
      rfl
  | s :: ns, cur, hn, hl, hd => by
      have hc : t.get cur = some .dir := by
        rw [List.reverse_cons, List.append_assoc] at hd
        cases e : ns.reverse ++ [s] with
        | nil => simp at e
        | cons y m =>
            rw [← List.append_assoc, e] at hd
            exact Tree.get_above (x := y) (by rw [← List.cons_append, hd]; simp)
              (List.suffix_append m cur)
      rw [List.cons_append, walk_name hc (hn s (by simp)) hl.1]
      rw [walk_names_dir x (fun y hy => hn y (List.mem_cons_of_mem _ hy)) hl.2 (by simpa using hd)]
      simp

/-! ### Paths by their components -/

theorem ofComponents_eq {cs : List Component} (h₁ : cs ≠ []) (h₂ : cs ≠ [.rootDir]) :
    ofComponents cs = cs.map Component.seg := by
  rw [ofComponents]
  · exact h₁
  · exact h₂

/-- Looking up a path below another one: from where the other one leads. -/
theorem lookup_below {h : Host} {cs₀ : List Component} {r : Loc}
    (hroot : h.lookup true (ofComponents cs₀) = .ok r) :
    ∃ m, ∀ (f : Bool) (cs : List Component), cs ≠ [] →
      h.lookup f (ofComponents (cs₀ ++ cs))
        = walk h.tree f m r (cs.map Component.seg) >>= reach := by
  have hne := Host.ne_of_lookup hroot
  replace hroot := Host.walk_of_lookup hroot
  by_cases hr : cs₀ = [.rootDir]
  · subst hr
    have h₀ : h.start (ofComponents [.rootDir]) = [] := rfl
    rw [h₀, ofComponents, walk_stay h.tree.get_top (.inl rfl),
      walk_stay h.tree.get_top (.inl rfl), walk_nil] at hroot
    cases hroot
    refine ⟨maxSymlinks, fun f cs hcs => ?_⟩
    obtain ⟨c, cs, rfl⟩ := List.exists_cons_of_ne_nil hcs
    have e : ofComponents ([.rootDir] ++ c :: cs) = [] :: c.seg :: cs.map Component.seg :=
      ofComponents_eq (by simp) (by simp)
    rw [e, Host.lookup_eq (by simp),
      show h.start ([] :: c.seg :: cs.map Component.seg) = [] from rfl,
      walk_stay h.tree.get_top (.inl rfl)]
    rfl
  · have hnil : cs₀ ≠ [] := fun e => hne (by rw [e]; rfl)
    obtain ⟨c, more, rfl⟩ := List.exists_cons_of_ne_nil hnil
    rw [ofComponents_eq hnil hr] at hroot hne
    obtain ⟨m, hm⟩ := walk_append hroot
    refine ⟨m, fun f cs hcs => ?_⟩
    obtain ⟨d, cs, rfl⟩ := List.exists_cons_of_ne_nil hcs
    rw [ofComponents_eq (by simp) (by simp), List.map_append, ← hm f _ (by simp),
      Host.lookup_eq (by simp)]
    congr 2
    -- both paths start with a slash, or neither does
    rcases more with _ | ⟨c', more⟩
    · have hc : c.seg ≠ [] := fun e => hne (by simp [e])
      simp only [Host.start, List.map_cons, List.map_nil, List.cons_append, List.nil_append]
      cases e : c.seg with
      | nil => exact absurd e hc
      | cons _ _ => rfl
    · cases e : c.seg with
      | nil => simp [Host.start, isAbsolute, e]
      | cons _ _ => simp [Host.start, isAbsolute, e]

/-! ### The directories `createDirAll` makes -/

/-- `mkdir` makes a directory where nothing was. -/
theorem Host.mkdir_ok {h h' : Host} {p : Path} {l : Loc} (hm : h.mkdir p = .ok (l, h')) :
    h.lookup false p = .ok l ∧ h.tree.get l = none ∧
      ∃ x m, l = x :: m ∧ h' = h.put x m .dir := by
  rw [mkdir] at hm
  rcases hl : h.lookup false p with e | l' <;> rw [hl] at hm
  · cases hm
  · rcases hg : h.tree.get l' with _ | n <;> rcases l' with _ | ⟨x, m⟩
    · rw [Tree.get_top] at hg; cases hg
    · simp only [hg, Except.ok.injEq, Prod.mk.injEq] at hm
      obtain ⟨rfl, rfl⟩ := hm
      exact ⟨rfl, hg, x, m, rfl, rfl⟩
    · simp only [hg] at hm; cases hm
    · simp only [hg] at hm; cases hm

/-- …and does so wherever nothing is, in a directory that is there. -/
theorem Host.mkdir_of_none {h : Host} {p : Path} {l : Loc} (hl : h.lookup false p = .ok l)
    (hg : h.tree.get l = none) : ∃ h', h.mkdir p = .ok (l, h') := by
  rcases l with _ | ⟨x, m⟩
  · rw [Tree.get_top] at hg; cases hg
  · exact ⟨h.put x m .dir, by simp only [mkdir, hl, hg]⟩

/-- What is there already is not made. -/
theorem Host.mkdir_of_some {h : Host} {p : Path} {l : Loc} (hl : h.lookup false p = .ok l)
    (hg : h.tree.get l ≠ none) : h.mkdir p = .error .eexist := by
  obtain ⟨n, hn⟩ := Option.ne_none_iff_exists'.mp hg
  simp only [mkdir, hl, hn]

theorem Host.mkdir_of_error {h : Host} {p : Path} {e : Errno} (hl : h.lookup false p = .error e) :
    h.mkdir p = .error e := by
  simp only [mkdir, hl]

/-- `is_dir` follows links to a directory. -/
theorem Host.isDir_iff {h : Host} {p : Path} :
    h.isDir p = true ↔ ∃ l, h.lookup true p = .ok l ∧ h.tree.get l = some .dir := by
  rw [isDir, stat]
  rcases hl : h.lookup true p with e | l
  · simp [bind, Except.bind]
  · rcases hg : h.tree.get l with _ | n
    · simp [bind, Except.bind, nodeAt, hg]
    · cases n <;> simp [bind, Except.bind, nodeAt, hg]

/-- Directories made where nothing was, and nothing else. -/
structure Made (h : Host) (made : List Loc) (h' : Host) : Prop where
  fresh : ∀ l ∈ made, h.tree.get l = none
  get : ∀ l, h'.tree.get l = if l ∈ made then some .dir else h.tree.get l
  cwd : h'.cwd = h.cwd
  now : h'.now = h.now

theorem Made.refl (h : Host) : Made h [] h := ⟨by simp, by simp, rfl, rfl⟩

/-- What is made in turn is made in all. -/
theorem Made.append {h h₁ h₂ : Host} {made more : List Loc} (hm : Made h made h₁)
    (hm' : Made h₁ more h₂) : Made h (made ++ more) h₂ := by
  refine ⟨fun l hl => ?_, fun l => ?_, hm'.cwd.trans hm.cwd, hm'.now.trans hm.now⟩
  · rcases List.mem_append.mp hl with hl | hl
    · exact hm.fresh l hl
    · have := hm'.fresh l hl
      rw [hm.get] at this
      split at this
      · cases this
      · exact this
  · rw [hm'.get, hm.get]
    by_cases h₁ : l ∈ made <;> by_cases h₂ : l ∈ more <;> simp [h₁, h₂]

/-- Nothing that was there is lost where directories are made. -/
theorem Made.grows {h h' : Host} {made : List Loc} (hm : Made h made h') :
    Grows h.tree h'.tree := fun l n hn => by
  refine .inl ?_
  rw [hm.get, if_neg fun hl => ?_, hn]
  rw [hm.fresh l hl] at hn; cases hn

/-- Making directories makes no link. -/
theorem Made.noLink {h h' : Host} {cur : Loc} {ms : List Name} {made : List Loc}
    (hm : Made h made h') (hl : NoLink h.tree cur ms) : NoLink h'.tree cur ms := by
  refine noLink_iff.mpr fun pre hp hne target => ?_
  rw [hm.get]
  split
  · simp
  · exact noLink_iff.mp hl pre hp hne target

theorem Made.linkFree {h h' : Host} {made : List Loc} (hm : Made h made h')
    {a : List Name} {cur : Loc} :
    linkFree h'.tree cur a = linkFree h.tree cur a :=
  linkFree_congr fun l => by
    rw [hm.get]
    split
    · rename_i hl
      rw [hm.fresh l hl]
      rfl
    · rfl

/-- A lookup that arrived arrives still. -/
theorem Made.lookup {h h' : Host} {made : List Loc} (hm : Made h made h') {f : Bool} {p : Path}
    {l : Loc} (hl : h.lookup f p = .ok l) (hr : h.tree.get l ≠ none ∨ l ∈ made) :
    h'.lookup f p = .ok l :=
  Host.lookup_grows hm.grows hm.cwd hl (hr.imp id fun hl target => by rw [hm.get, if_pos hl]; simp)

/-- What `mkdir` makes is one directory. -/
theorem mkdir_made {h h' : Host} {p : Path} {l : Loc} (hne : p ≠ []) (hp : SlashFree p)
    (hm : h.mkdir p = .ok (l, h')) : Made h [l] h' := by
  obtain ⟨hl, hn, x, m, rfl, rfl⟩ := Host.mkdir_ok hm
  have hw := Host.walk_of_lookup hl
  obtain ⟨s, rest, rfl⟩ := List.exists_cons_of_ne_nil hne
  rcases arrives hw (Host.short_of_lookup hl) (dir_of_walk hw) hp with h₁ | ⟨y, k, e, hy, hk⟩
  · exact absurd hn h₁
  · obtain ⟨rfl, rfl⟩ := List.cons.inj e
    have hput := fun l => Tree.get_put (m := l) (n := .dir) hy hk (by rw [hn]; simp)
    exact ⟨by simpa using hn, fun l => by rw [Host.put_tree, hput]; simp, rfl, rfl⟩

/-- The path of components whose names hold no slash. -/
theorem slashFree_ofComponents {cs : List Component} (hs : ∀ c ∈ cs, slash ∉ c.seg) :
    SlashFree (ofComponents cs) := by
  by_cases h₁ : cs = []
  · subst h₁; simp [ofComponents, SlashFree]
  · by_cases h₂ : cs = [.rootDir]
    · subst h₂; simp [ofComponents, SlashFree]
    · rw [ofComponents_eq h₁ h₂]
      intro s hm
      obtain ⟨c, hc, rfl⟩ := List.mem_map.mp hm
      exact hs c hc

theorem ofComponents_ne_nil (cs : List Component) : ofComponents cs ≠ [] := by
  by_cases h₁ : cs = []
  · subst h₁; simp [ofComponents]
  · by_cases h₂ : cs = [.rootDir]
    · subst h₂; simp [ofComponents]
    · rw [ofComponents_eq h₁ h₂]; simpa using h₁

/-- **What `create_dir_all` does**, whatever is on the way. -/
theorem createDirAll_made : ∀ {cs : List Component} {h h' : Host} {made : List Loc}
    {res : Except Errno Unit}, (∀ c ∈ cs, slash ∉ c.seg) →
    h.createDirAll cs = (made, h', res) → Made h made h'
  | [], h, h', made, res, _, hrun => by
      rw [Host.createDirAll, Prod.mk.injEq, Prod.mk.injEq] at hrun
      obtain ⟨rfl, rfl, -⟩ := hrun
      exact .refl h
  | c :: up, h, h', made, res, hs, hrun => by
      have hp : SlashFree (ofComponents (c :: up).reverse) :=
        slashFree_ofComponents fun d hd => hs d (List.mem_reverse.mp hd)
      rw [Host.createDirAll] at hrun
      rcases hmk : h.mkdir (ofComponents (c :: up).reverse) with e | ⟨l, g⟩
      · by_cases he : e = .enoent
        · subst he
          rcases hup : h.createDirAll up with ⟨made₁, h₁, res₁⟩
          have hm := createDirAll_made (fun d hd => hs d (List.mem_cons_of_mem _ hd)) hup
          simp only [hmk, hup] at hrun
          rcases res₁ with e₁ | u
          · simp only [Prod.mk.injEq] at hrun
            obtain ⟨rfl, rfl, -⟩ := hrun
            exact hm
          · rcases hmk₁ : h₁.mkdir (ofComponents (c :: up).reverse) with e₁ | ⟨l, g⟩
            · simp only [hmk₁, Prod.mk.injEq] at hrun
              obtain ⟨rfl, rfl, -⟩ := hrun
              exact hm
            · simp only [hmk₁, Prod.mk.injEq] at hrun
              obtain ⟨rfl, rfl, -⟩ := hrun
              exact hm.append (mkdir_made (ofComponents_ne_nil _) hp hmk₁)
        · have hrun' : made = [] ∧ h' = h := by
            simp only [hmk] at hrun
            cases e <;> first | exact absurd rfl he |
              (simp only [Prod.mk.injEq] at hrun; exact ⟨hrun.1.symm, hrun.2.1.symm⟩)
          obtain ⟨rfl, rfl⟩ := hrun'
          exact .refl _
      · simp only [hmk, Prod.mk.injEq] at hrun
        obtain ⟨rfl, rfl, -⟩ := hrun
        exact mkdir_made (ofComponents_ne_nil _) hp hmk

theorem map_seg_normal (ns : List Name) : (ns.map Component.normal).map Component.seg = ns := by
  rw [List.map_map, show Component.seg ∘ Component.normal = id from rfl, List.map_id]

/-- The components of names below a path, innermost first. -/
theorem reverse_names (cs₀ : List Component) (ms : List Name) (x : Name) :
    (cs₀ ++ (ms ++ [x]).map Component.normal).reverse
      = .normal x :: (cs₀ ++ ms.map Component.normal).reverse := by simp

theorem slash_notMem_names {cs₀ : List Component} {ms : List Name}
    (hcs₀ : ∀ c ∈ cs₀, slash ∉ c.seg) (hms : ∀ s ∈ ms, Named s ∧ slash ∉ s) :
    ∀ c ∈ (cs₀ ++ ms.map Component.normal).reverse, slash ∉ c.seg := by
  intro c hc
  rcases List.mem_append.mp (List.mem_reverse.mp hc) with hc | hc
  · exact hcs₀ c hc
  · obtain ⟨s, hs, rfl⟩ := List.mem_map.mp hc
    exact (hms s hs).2

/-- Locations that the beginnings of `ns` spell from `r`. -/
def Spelled (r : Loc) (ns : List Name) (made : List Loc) : Prop :=
  ∀ l ∈ made, ∃ pre, pre <+: ns ∧ l = pre.reverse ++ r

/-- **`create_dir_all` below a directory**, along names none of which is a link. -/
theorem createDirAll_spec {cs₀ : List Component} {r : Loc} (hcs₀ : ∀ c ∈ cs₀, slash ∉ c.seg) :
    ∀ {ns : List Name} {h h' : Host} {made : List Loc} {res : Except Errno Unit},
    h.lookup true (ofComponents cs₀) = .ok r → h.tree.get r = some .dir →
    (∀ s ∈ ns, Named s ∧ slash ∉ s) → NoLink h.tree r ns →
    h.createDirAll (cs₀ ++ ns.map Component.normal).reverse = (made, h', res) →
    Spelled r ns made ∧ (res = .ok () → h'.tree.get (ns.reverse ++ r) = some .dir) := by
  intro ns
  induction ns using List.reverseRecOn with
  | nil =>
      intro h h' made res hroot hd _ _ hrun
      have hne := Host.ne_of_lookup hroot
      have hdir : h.isDir (ofComponents cs₀) = true := Host.isDir_iff.mpr ⟨r, hroot, hd⟩
      obtain ⟨r', hr', hg'⟩ := walk_nofollow_of (Host.walk_of_lookup hroot) (by rw [hd]; simp)
      replace hr' := Host.lookup_of_walk hne hg' hr'
      rw [List.map_nil, List.append_nil] at hrun
      have hcs : cs₀.reverse ≠ [] := fun e => hne (by rw [List.reverse_eq_nil_iff.mp e]; rfl)
      obtain ⟨c, up, hup⟩ := List.exists_cons_of_ne_nil hcs
      have hcs₀ : (c :: up).reverse = cs₀ := by rw [← hup, List.reverse_reverse]
      rw [hup, Host.createDirAll] at hrun
      simp only [hcs₀, Host.mkdir_of_some hr' hg', hdir, if_true, Prod.mk.injEq] at hrun
      obtain ⟨rfl, rfl, rfl⟩ := hrun
      exact ⟨by simp [Spelled], fun _ => hd⟩
  | append_singleton ms x ih =>
      intro h h' made res hroot hd hns hl hrun
      have hms : ∀ s ∈ ms, Named s ∧ slash ∉ s := fun s hs => hns s (by simp [hs])
      have hnamed : ∀ s ∈ ms ++ [x], Named s := fun s hs => (hns s hs).1
      -- the path of the last name, looked up in any tree that has grown from this one
      have hlook : ∀ {g : Host} (f : Bool), g.lookup true (ofComponents cs₀) = .ok r →
          NoLink g.tree r (ms ++ [x]) → ∀ {l : Loc},
          g.lookup f (ofComponents (cs₀ ++ (ms ++ [x]).map Component.normal)) = .ok l →
          l = x :: (ms.reverse ++ r) := by
        intro g f hg hgl l hlk
        obtain ⟨m, hm⟩ := lookup_below hg
        rw [hm f _ (by simp), map_seg_normal] at hlk
        rw [walk_names hnamed hgl (reach_ok.mp hlk).1]; simp
      have hslash := slash_notMem_names hcs₀ hms
      have hnew : Spelled r (ms ++ [x]) [x :: (ms.reverse ++ r)] := fun l hl =>
        ⟨ms ++ [x], List.prefix_refl _, by rw [List.mem_singleton.mp hl]; simp⟩
      rw [reverse_names, Host.createDirAll] at hrun
      simp only [← reverse_names, List.reverse_reverse] at hrun
      have hisDir : ∀ {g : Host}, g.lookup true (ofComponents cs₀) = .ok r →
          NoLink g.tree r (ms ++ [x]) →
          g.isDir (ofComponents (cs₀ ++ (ms ++ [x]).map Component.normal)) = true →
          g.tree.get ((ms ++ [x]).reverse ++ r) = some .dir := by
        intro g hg hgl hdir
        obtain ⟨l, hlk, hld⟩ := Host.isDir_iff.mp hdir
        obtain rfl := hlook true hg hgl hlk
        simpa using hld
      have hmkdir : ∀ {g g' : Host} {l : Loc}, g.lookup true (ofComponents cs₀) = .ok r →
          NoLink g.tree r (ms ++ [x]) → SlashFree (ofComponents (cs₀ ++ (ms ++ [x]).map .normal)) →
          g.mkdir (ofComponents (cs₀ ++ (ms ++ [x]).map Component.normal)) = .ok (l, g') →
          l = x :: (ms.reverse ++ r) ∧ g'.tree.get ((ms ++ [x]).reverse ++ r) = some .dir := by
        intro g g' l hg hgl hp hmk
        obtain ⟨hlk, -, -⟩ := Host.mkdir_ok hmk
        obtain rfl := hlook false hg hgl hlk
        exact ⟨rfl, by rw [(mkdir_made (ofComponents_ne_nil _) hp hmk).get]; simp⟩
      have hp : SlashFree (ofComponents (cs₀ ++ (ms ++ [x]).map Component.normal)) := by
        refine slashFree_ofComponents fun c hc => ?_
        rcases List.mem_append.mp hc with hc | hc
        · exact hcs₀ c hc
        · obtain ⟨s, hs, rfl⟩ := List.mem_map.mp hc
          exact (hns s hs).2
      rcases hmk : h.mkdir (ofComponents (cs₀ ++ (ms ++ [x]).map Component.normal)) with e | ⟨l, g⟩
      · rw [hmk] at hrun
        by_cases he : e = .enoent
        · subst he
          rcases hup : h.createDirAll (cs₀ ++ ms.map Component.normal).reverse with
            ⟨made₁, h₁, res₁⟩
          obtain ⟨hspelled, -⟩ := ih hroot hd hms hl.left hup
          have hmade := createDirAll_made hslash hup
          have hspelled' : Spelled r (ms ++ [x]) made₁ := fun l hl => by
            obtain ⟨pre, hp, e⟩ := hspelled l hl
            exact ⟨pre, hp.trans (List.prefix_append _ _), e⟩
          rw [hup] at hrun
          rcases res₁ with e₁ | u
          · simp only [Prod.mk.injEq] at hrun
            obtain ⟨rfl, rfl, rfl⟩ := hrun
            exact ⟨hspelled', fun e => by cases e⟩
          · have hroot₁ : h₁.lookup true (ofComponents cs₀) = .ok r :=
              hmade.lookup hroot (.inl (by rw [hd]; simp))
            have hl₁ := hmade.noLink hl
            rcases hmk₁ : h₁.mkdir (ofComponents (cs₀ ++ (ms ++ [x]).map Component.normal)) with
              e₁ | ⟨l, g⟩
            · simp only [hmk₁, Prod.mk.injEq] at hrun
              obtain ⟨rfl, rfl, rfl⟩ := hrun
              refine ⟨hspelled', fun e => hisDir hroot₁ hl₁ ?_⟩
              by_contra hn
              rw [if_neg hn] at e; cases e
            · simp only [hmk₁, Prod.mk.injEq] at hrun
              obtain ⟨rfl, rfl, rfl⟩ := hrun
              obtain ⟨rfl, hdir⟩ := hmkdir hroot₁ hl₁ hp hmk₁
              exact ⟨fun l hl => (List.mem_append.mp hl).elim (hspelled' l) (hnew l), fun _ => hdir⟩
        · have hrun' : (([] : List Loc), h,
              (if h.isDir (ofComponents (cs₀ ++ (ms ++ [x]).map Component.normal)) = true then
                (.ok () : Except Errno Unit) else .error e)) = (made, h', res) := by
            cases e <;> first | exact absurd rfl he | exact hrun
          simp only [Prod.mk.injEq] at hrun'
          obtain ⟨rfl, rfl, rfl⟩ := hrun'
          refine ⟨by simp [Spelled], fun e => hisDir hroot hl ?_⟩
          by_contra hn
          rw [if_neg hn] at e; cases e
      · simp only [hmk, Prod.mk.injEq] at hrun
        obtain ⟨rfl, rfl, rfl⟩ := hrun
        obtain ⟨rfl, hdir⟩ := hmkdir hroot hl hp hmk
        exact ⟨hnew, fun _ => hdir⟩

/-- Some prefix of the path leads to a location that holds nothing. -/
def Creatable (h : Host) (cs : List Component) : Prop :=
  ∃ q l, q ≠ [] ∧ q <+: cs ∧ h.lookup false (ofComponents q) = .ok l ∧ h.tree.get l = none

theorem Creatable.mono {h : Host} {ds cs : List Component} (hc : Creatable h ds)
    (hp : ds <+: cs) : Creatable h cs := by
  obtain ⟨q, l, hne, hq, hl, hn⟩ := hc
  exact ⟨q, l, hne, hq.trans hp, hl, hn⟩

/-- Beyond a location that holds nothing a lookup finds nothing. -/
theorem lookup_beyond {h : Host} {q more : List Component} {l : Loc} {f : Bool}
    (hl : h.lookup false (ofComponents q) = .ok l) (hn : h.tree.get l = none)
    (hm : more ≠ []) : h.lookup f (ofComponents (q ++ more)) = .error .enoent := by
  have hl' : h.lookup true (ofComponents q) = .ok l := by
    refine (Host.lookup_eq_ok (Host.ne_of_lookup hl)).mpr ⟨?_, Host.short_of_lookup hl⟩
    exact walk_follow_of (Host.walk_of_lookup hl) (by rw [hn]; simp)
  obtain ⟨m, e⟩ := lookup_below hl'
  obtain ⟨c, cs, rfl⟩ := List.exists_cons_of_ne_nil hm
  rw [e f _ hm, List.map_cons, walk_missing hn, absent_short (Host.short_of_lookup hl)]
  rfl

/-- Where no prefix can be created, nothing is made. -/
theorem createDirAll_quiet {h : Host} {cs : List Component} (hq : ¬ Creatable h cs) :
    ∃ res, h.createDirAll cs.reverse = ([], h, res) := by
  induction cs using List.reverseRecOn with
  | nil => exact ⟨_, rfl⟩
  | append_singleton ds c ih =>
      obtain ⟨res, hres⟩ := ih fun hd => hq (hd.mono (List.prefix_append _ _))
      have hpath : (c :: ds.reverse).reverse = ds ++ [c] := by simp
      have hmk : ∃ e, h.mkdir (ofComponents (ds ++ [c])) = .error e := by
        rcases hmk : h.mkdir (ofComponents (ds ++ [c])) with e | ⟨l, g⟩
        · exact ⟨e, rfl⟩
        · obtain ⟨hl, hn, -⟩ := Host.mkdir_ok hmk
          exact absurd ⟨_, l, by simp, List.prefix_refl _, hl, hn⟩ hq
      obtain ⟨e, hmk⟩ := hmk
      rw [List.reverse_append, List.reverse_singleton, List.singleton_append, Host.createDirAll]
      simp only [hpath, hmk]
      cases e <;> try exact ⟨_, rfl⟩
      rw [hres]
      cases res with
      | error _ => exact ⟨_, rfl⟩
      | ok _ => simp only [hmk]; exact ⟨_, rfl⟩

/-- …and where one can, it is. -/
theorem createDirAll_makes {h : Host} {q cs : List Component} {l : Loc} (hne : q ≠ [])
    (hq : q <+: cs) (hl : h.lookup false (ofComponents q) = .ok l) (hn : h.tree.get l = none) :
    l ∈ (h.createDirAll cs.reverse).1 := by
  induction cs using List.reverseRecOn with
  | nil => exact absurd (List.prefix_nil.mp hq) hne
  | append_singleton ds c ih =>
      have hpath : (c :: ds.reverse).reverse = ds ++ [c] := by simp
      rw [List.reverse_append, List.reverse_singleton, List.singleton_append, Host.createDirAll]
      rcases List.prefix_concat_iff.mp hq with rfl | hq
      · obtain ⟨g, hmk⟩ := Host.mkdir_of_none hl hn
        simp [hpath, hmk]
      · have hmk : h.mkdir (ofComponents (ds ++ [c])) = .error .enoent := by
          obtain ⟨more, rfl⟩ := hq
          rw [List.append_assoc]
          exact Host.mkdir_of_error (lookup_beyond hl hn (by simp))
        have hmem := ih hq
        simp only [hpath, hmk]
        rcases hup : h.createDirAll ds.reverse with ⟨made₁, h₁, res₁⟩
        rw [hup] at hmem
        rcases res₁ with e₁ | u
        · exact hmem
        · rcases hmk₁ : h₁.mkdir (ofComponents (ds ++ [c])) with e₁ | ⟨l', g⟩
          · simp only [hmk₁]; exact hmem
          · simp only [hmk₁]; exact List.mem_append_left _ hmem

end Posix
