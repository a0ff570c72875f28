import FileFerry.Posix.Below

/-!
# Posix — Parent

The parent of a path below a directory, and what `createDirAll` makes for it.

* `Below.parent_spelled`, `Below.parent_astray`: where no segment but the last is a link, the
  directories made are at locations the names spell; where one is, and something is made, one of
  them is somewhere else.
* `Below.parent_ready`: where the path leads somewhere, the parent is there already.
* `Below.fileAt_made`: making the parent does not change which file the path names.
-/

namespace Posix

variable {h h' : Host} {p : Path} {r l : Loc} {rel : List Name}

/-- What lies above a path that leads somewhere is a directory. -/
theorem isDir_above {cs more : List Component} {f : Bool}
    (hcs : cs ≠ []) (hseg : ∀ c ∈ cs, c = .rootDir ∨ c.seg ≠ []) (hm : more ≠ [])
    (hl : h.lookup f (ofComponents (cs ++ more)) = .ok l) : h.isDir (ofComponents cs) = true := by
  by_cases hr : cs = [.rootDir]
  · refine Host.isDir_iff.mpr ⟨[], ?_, h.tree.get_top⟩
    rw [hr]
    refine Host.lookup_of_walk (by simp [ofComponents]) (by simp) ?_
    exact walk_stays h.tree.get_top (by simp [ofComponents, Stay])
  · obtain ⟨c, cs, rfl⟩ := List.exists_cons_of_ne_nil hcs
    have hc : cs = [] → c.seg ≠ [] := by
      rintro rfl
      exact (hseg c List.mem_cons_self).resolve_left fun e => hr (by rw [e])
    rw [ofComponents_eq (by simp) (by simp [hm]), List.map_append] at hl
    obtain ⟨d, hd, hdir⟩ := walk_of_append (by simpa using hm) (Host.walk_of_lookup hl)
    refine Host.isDir_iff.mpr ⟨d, ?_, hdir⟩
    have hne : (c :: cs).map Component.seg ≠ [[]] := by simpa using fun e₁ e₂ => hc e₂ e₁
    rw [ofComponents_eq (by simp) hr]
    refine Host.lookup_of_walk hne (by rw [hdir]; simp) ?_
    rw [← start_append (by simp) hne]
    exact hd

/-- Where the directory is there, `create_dir_all` makes nothing and succeeds. -/
theorem createDirAll_ready {cs : List Component} (hd : h.isDir (ofComponents cs) = true) :
    h.createDirAll cs.reverse = ([], h, .ok ()) := by
  obtain ⟨d, hl, hdir⟩ := Host.isDir_iff.mp hd
  have hne := Host.ne_of_lookup hl
  obtain ⟨d', hl', hg⟩ := walk_nofollow_of (Host.walk_of_lookup hl) (by rw [hdir]; simp)
  replace hl' := Host.lookup_of_walk hne hg hl'
  rcases e : cs.reverse with _ | ⟨c, up⟩
  · rfl
  · have hcs : (c :: up).reverse = cs := by rw [← e, List.reverse_reverse]
    rw [Host.createDirAll]
    simp only [hcs, Host.mkdir_of_some hl' hg, hd, if_true]


theorem parent_eq_some {p : Path} {cs : List Component} :
    parent p = some cs ↔ ∃ c, components p = cs ++ [c] ∧ c ≠ .rootDir := by
  rw [parent]
  rcases List.eq_nil_or_concat (components p) with e | ⟨ds, c, e⟩
  · simp [e]
  · rw [List.concat_eq_append] at e
    rw [e, List.getLast?_concat, List.dropLast_concat]
    cases c <;> simp [eq_comm]

namespace Below

/-- The components of the parent: above the directory, or the directory and all names but the
last. -/
theorem parent_cases (hb : Below h p r rel) {cs : List Component} (hp : parent p = some cs) :
    ∃ pre cs₀, p = pre ++ rel ∧ walk h.tree true maxSymlinks (h.start p) pre = .ok r ∧
      h.lookup true (ofComponents cs₀) = .ok r ∧ (∀ c ∈ cs₀, slash ∉ c.seg) ∧
      (∀ c ∈ cs, slash ∉ c.seg ∧ (c = .rootDir ∨ c.seg ≠ [])) ∧
      (∀ a, a <+: rel → pre ++ a ≠ [[]] → components (pre ++ a) = cs₀ ++ (namesOf a).map .normal) ∧
      ((namesOf rel = [] ∧ ∃ c, cs₀ = cs ++ [c]) ∨
        ∃ ns x, namesOf rel = ns ++ [x] ∧ cs = cs₀ ++ ns.map .normal) := by
  obtain ⟨pre, cs₀, hpre, hw, hl, hcs⟩ := hb.leads
  obtain ⟨c, hc, -⟩ := parent_eq_some.mp hp
  have hcomp : components p = cs₀ ++ (namesOf rel).map .normal := by
    rw [hpre]
    exact hcs rel (List.prefix_refl _) (hpre ▸ hb.nonempty)
  have hslash := slashFree_components hb.slashFree
  refine ⟨pre, cs₀, hpre, hw, hl, fun c hc => hslash c (by rw [hcomp]; simp [hc]),
    fun c' hc' => ?_, hcs, ?_⟩
  · have hm : c' ∈ components p := by rw [hc]; simp [hc']
    exact ⟨hslash c' hm, (seg_of_components hm).2⟩
  · rcases List.eq_nil_or_concat (namesOf rel) with e | ⟨ns, x, e⟩
    · rw [e, List.map_nil, List.append_nil] at hcomp
      exact .inl ⟨e, c, hcomp.symm.trans hc⟩
    · rw [List.concat_eq_append] at e
      rw [e, List.map_append, ← List.append_assoc, hc] at hcomp
      exact .inr ⟨ns, x, e, (List.append_inj' hcomp rfl).1⟩

/-- **Without a link** before the last segment, directories are made where the names spell. -/
theorem parent_spelled (hb : Below h p r rel) (hf : linkFree h.tree r rel = true)
    {cs : List Component} (hp : parent p = some cs) {made : List Loc} {res : Except Errno Unit}
    (hrun : h.createDirAll cs.reverse = (made, h', res)) : Spelled r (namesOf rel) made := by
  obtain ⟨pre, cs₀, hpre, -, hl, hslash₀, -, -, h₁⟩ := hb.parent_cases hp
  rcases h₁ with ⟨-, c, rfl⟩ | ⟨ns, x, hns, rfl⟩
  · -- everything above the directory is there
    have hq : ¬ Creatable h cs := by
      rintro ⟨q, l, -, ⟨more, rfl⟩, hq, hn⟩
      rw [List.append_assoc, lookup_beyond hq hn (by simp)] at hl
      cases hl
    obtain ⟨res', e⟩ := createDirAll_quiet hq
    rw [e, Prod.mk.injEq] at hrun
    rw [← hrun.1]
    simp [Spelled]
  · have hno := noLink_of_linkFree hf
    rw [hns, List.dropLast_concat] at hno
    have hnames : ∀ s ∈ ns, Named s ∧ slash ∉ s := fun s hs => by
      have hm : s ∈ namesOf rel := by rw [hns]; simp [hs]
      exact ⟨hb.clean.named hm, hb.slashFree s (by
        rw [hpre]; exact List.mem_append_right _ (List.mem_filter.mp hm).1)⟩
    obtain ⟨hs, -⟩ := createDirAll_spec hslash₀ hl hb.dir hnames hno hrun
    intro l hl
    obtain ⟨a, ha, e⟩ := hs l hl
    exact ⟨a, ha.trans (hns ▸ List.prefix_append _ _), e⟩

/-- **With a link** before the last segment, a directory made is not where the names spell. -/
theorem parent_astray (hb : Below h p r rel) (hf : linkFree h.tree r rel = false)
    {cs : List Component} (hp : parent p = some cs) (hc : Creatable h cs) :
    ¬ Spelled r (namesOf rel) (h.createDirAll cs.reverse).1 := by
  obtain ⟨pre, cs₀, -, -, -, -, hslash, -, -⟩ := hb.parent_cases hp
  obtain ⟨q, l, hne, hq, hl, hn⟩ := hc
  intro hs
  obtain ⟨a, ha, rfl⟩ := hs l (createDirAll_makes hne hq hl hn)
  refine hb.spelled_astray hf ha ⟨hn, ?_⟩
  have hsl : SlashFree (ofComponents q) :=
    slashFree_ofComponents fun c hc => (hslash c (hq.subset hc)).1
  have hw := Host.walk_of_lookup hl
  rcases e : ofComponents q with _ | ⟨s, rest⟩
  · exact absurd e (ofComponents_ne_nil q)
  · rw [e] at hw hsl
    rcases Posix.arrives hw (Host.short_of_lookup hl) (dir_of_walk hw) hsl with
      h₁ | ⟨x, m, e', -, hm⟩
    · exact absurd hn h₁
    · rw [e']; exact hm

/-- **Where the path leads somewhere**, the parent is there already. -/
theorem parent_ready (hb : Below h p r rel) {cs : List Component}
    (hp : parent p = some cs) {f : Bool}
    (hl : h.lookup f p = .ok l) : h.createDirAll cs.reverse = ([], h, .ok ()) := by
  obtain ⟨pre, cs₀, hpre, hw, hl₀, -, hseg, hcs, h₁⟩ := hb.parent_cases hp
  rcases cs with _ | ⟨c, cs⟩
  · rfl
  refine createDirAll_ready ?_
  rcases h₁ with ⟨-, d, rfl⟩ | ⟨ns, x, hns, e⟩
  · exact isDir_above (by simp) (fun c hc => (hseg c hc).2) (by simp) hl₀
  · obtain ⟨a, b, rfl, ha, -⟩ := split_at_name hns
    by_cases hnil : ns = []
    · rw [hnil, List.map_nil, List.append_nil] at e
      rw [e]
      exact Host.isDir_iff.mpr ⟨r, hl₀, hb.dir⟩
    · have hane : pre ++ a ≠ [[]] := by
        intro h₂
        have : namesOf (pre ++ a) = [] := by rw [h₂]; rfl
        rw [namesOf_append, ha, List.append_eq_nil_iff] at this
        exact hnil this.2
      have hane' : pre ++ a ≠ [] := fun h₂ => hnil (by
        rw [← ha, (List.append_eq_nil_iff.mp h₂).2]; rfl)
      have hcomp := hcs a (List.prefix_append _ _) hane
      rw [hpre, ← List.append_assoc] at hl
      obtain ⟨d, hd, hdir⟩ := walk_of_append (by simp) (Host.walk_of_lookup hl)
      rw [e, ← ha, ← hcomp]
      refine Host.isDir_iff.mpr ⟨d, (lookup_components hane' hane hdir).mp ?_, hdir⟩
      refine Host.lookup_of_walk hane (by rw [hdir]; simp) ?_
      rw [← start_append hane' hane]
      exact hd

/-- Where part of the parent's path leads to a location that holds nothing: there is a name `y`
in `rel`, unused in a directory `d`, and names after it. -/
theorem parent_missing (hb : Below h p r rel) {cs : List Component} (hp : parent p = some cs)
    (hc : Creatable h cs) :
    ∃ q P y b d, q ≠ [] ∧ q <+: cs ∧ h.lookup false (ofComponents q) = .ok (y :: d) ∧
      p = P ++ y :: b ∧ b ≠ [] ∧ Named y ∧ Clean b ∧
      walk h.tree true maxSymlinks (h.start p) P = .ok d ∧ h.tree.get d = some .dir ∧
      h.tree.get (y :: d) = none := by
  obtain ⟨pre, cs₀, hpre, hw, hl₀, -, -, hcs, h₁⟩ := hb.parent_cases hp
  obtain ⟨q, l, hne, hq, hl, hn⟩ := hc
  have habove : ¬ q <+: cs₀ := by
    rintro ⟨more, rfl⟩
    rcases more with _ | ⟨c, more⟩
    · have hw := walk_follow_of (Host.walk_of_lookup hl) (by rw [hn]; simp)
      rw [List.append_nil] at hl₀
      rw [Except.ok.inj (hw.symm.trans (Host.walk_of_lookup hl₀)), hb.dir] at hn
      cases hn
    · rw [lookup_beyond hl hn (by simp)] at hl₀
      cases hl₀
  -- so the path leads below the directory along some of the names
  obtain ⟨ns, x, js, hns, hjs, rfl⟩ : ∃ ns x js, namesOf rel = ns ++ [x] ∧ js <+: ns ∧
      q = cs₀ ++ js.map .normal := by
    rcases h₁ with ⟨-, c, rfl⟩ | ⟨ns, x, hns, rfl⟩
    · exact absurd (hq.trans (List.prefix_append _ _)) habove
    · rcases List.prefix_or_prefix_of_prefix hq (List.prefix_append _ _) with h₂ | ⟨t, rfl⟩
      · exact absurd h₂ habove
      · obtain ⟨js, hj, rfl⟩ := List.prefix_map_iff.mp ((List.prefix_append_right_inj _).mp hq)
        exact ⟨ns, x, js, hns, hj, rfl⟩
  obtain ⟨ks, y, rfl⟩ : ∃ ks y, js = ks ++ [y] := by
    rcases List.eq_nil_or_concat js with rfl | ⟨ks, y, e⟩
    · exact absurd (by simp) habove
    · exact ⟨ks, y, by rw [e, List.concat_eq_append]⟩
  obtain ⟨more, rfl⟩ := hjs
  rw [List.append_assoc, List.append_assoc, List.singleton_append] at hns
  obtain ⟨a, b, rfl, ha, hnb⟩ := split_at_name hns
  have hbne : b ≠ [] := by rintro rfl; simp [namesOf] at hnb
  have hclean := hb.clean.of_append
  have hy : Named y := hb.clean.named (by rw [hns]; simp)
  -- the directory that would hold the unused name
  obtain ⟨m, hm⟩ := lookup_below hl₀
  have hwalk := hl
  rw [hm false _ (by simp), map_seg_normal] at hwalk
  replace hwalk := (reach_ok.mp hwalk).1
  obtain ⟨d, hd, hdir⟩ := walk_of_append (by simp) hwalk
  obtain ⟨m', hm'⟩ := walk_append hd
  rw [hm' false [y] (by simp)] at hwalk
  obtain rfl : l = y :: d := by
    rcases link_or_not h.tree (y :: d) with ⟨target, ht⟩ | hno
    · rw [walk_link_last hdir hy ht] at hwalk
      rw [← Except.ok.inj hwalk, ht] at hn
      cases hn
    · rw [walk_name hdir hy hno, walk_nil] at hwalk
      exact (Except.ok.inj hwalk).symm
  refine ⟨_, pre ++ a, y, b, d, hne, hq, hl, by rw [hpre, List.append_assoc], hbne, hy,
    fun s hs => hclean.2 s (List.mem_cons_of_mem _ hs), ?_, hdir, hn⟩
  by_cases hks : ks = []
  · -- all segments up to the unused name stay at the directory
    subst hks
    rw [walk_nil] at hd
    obtain rfl := Except.ok.inj hd
    obtain ⟨k, hk⟩ := walk_append hw
    have hstay : ∀ s ∈ a, Stay s := fun s hs => by
      by_contra hns
      have : s ∈ namesOf a := List.mem_filter.mpr ⟨hs, by simpa using hns⟩
      rw [ha] at this; cases this
    rcases a with _ | ⟨s, a⟩
    · rw [List.append_nil]; exact hw
    · rw [hk true _ (by simp)]
      exact walk_stays hdir hstay
  · have hane : pre ++ a ≠ [[]] := fun h₂ => hks (by
      have : namesOf (pre ++ a) = [] := by rw [h₂]; rfl
      rw [namesOf_append, ha, List.append_eq_nil_iff] at this
      exact this.2)
    have hane' : pre ++ a ≠ [] := fun h₂ => hks (by
      rw [← ha, (List.append_eq_nil_iff.mp h₂).2]; rfl)
    have hcomp := hcs a (List.prefix_append _ _) hane
    have hlook : h.lookup true (pre ++ a) = .ok d := by
      rw [lookup_components hane' hane hdir, hcomp, ha, hm true _ (by simpa using hks),
        map_seg_normal]
      exact reach_ok.mpr ⟨hd, Tree.short_of_get (by rw [hdir]; simp)⟩
    have hw := Host.walk_of_lookup hlook
    rw [← start_append (q := y :: b) hane' hane, List.append_assoc, ← hpre] at hw
    exact hw

/-- Where part of the parent's path leads to a location that holds nothing, so does the path. -/
theorem lookup_missing (hb : Below h p r rel) {cs : List Component} (hp : parent p = some cs)
    (hc : Creatable h cs) (f : Bool) : h.lookup f p = .error .enoent := by
  obtain ⟨q, P, y, b, d, -, -, hlook, rfl, hbne, hy, -, hP, hdir, hn⟩ := hb.parent_missing hp hc
  obtain ⟨m, e⟩ := walk_append hP
  obtain ⟨s, b, rfl⟩ := List.exists_cons_of_ne_nil hbne
  rw [Host.lookup_eq hb.nonempty, e f _ (by simp), walk_name hdir hy (by rw [hn]; simp),
    walk_missing hn, absent_short (Host.short_of_lookup hlook)]
  rfl

/-- Below a directory that was just made there are only directories, so no walk leaves it. -/
theorem walk_made {t : Tree} {k : Loc} {f : Bool} {n : Nat}
    (hk : ∀ m, k <:+ m → t.get m = none ∨ t.get m = some .dir) : ∀ {b : List Name} {cur : Loc},
    Clean b → k <:+ cur → walk t f n cur b = .ok l → k <:+ l
  | [], cur, _, hcur, hl => by rw [walk_nil] at hl; cases hl; exact hcur
  | s :: b, cur, hb, hcur, hl => by
      have hd := dir_of_walk hl
      rcases hb.head with hs | hs
      · rw [walk_stay hd hs] at hl
        exact walk_made hk hb.tail hcur hl
      · have hsk := hcur.trans (List.suffix_cons s cur)
        have hno : ∀ target, t.get (s :: cur) ≠ some (.symlink target) := fun target e => by
          rcases hk _ hsk with h | h <;> rw [h] at e <;> cases e
        rw [walk_name hd hs hno] at hl
        exact walk_made hk hb.tail hsk hl

/-- **Making the parent** does not change which file the path names. -/
theorem fileAt_made (hb : Below h p r rel) {cs : List Component} (hp : parent p = some cs)
    {made : List Loc} {res : Except Errno Unit}
    (hrun : h.createDirAll cs.reverse = (made, h', res)) : h'.fileAt p = h.fileAt p := by
  by_cases hc : Creatable h cs
  · obtain ⟨q, P, y, b, d, hne, hq, hl, rfl, hbne, hy, hbc, hP, hdir, hn⟩ := hb.parent_missing hp hc
    have hslash : ∀ c ∈ cs.reverse, slash ∉ c.seg := fun c hc => by
      obtain ⟨-, -, -, -, -, -, hseg, -, -⟩ := hb.parent_cases hp
      exact (hseg c (List.mem_reverse.mp hc)).1
    have hm := createDirAll_made hslash hrun
    have hmem : y :: d ∈ made := by
      have := createDirAll_makes hne hq hl hn
      rwa [hrun] at this
    have hdir' := hm.grows.dir hdir
    have hno : ∀ {t : Tree}, t.get (y :: d) = none ∨ t.get (y :: d) = some .dir →
        ∀ target, t.get (y :: d) ≠ some (.symlink target) := fun h target e => by
      rcases h with h | h <;> rw [h] at e <;> cases e
    have hbefore : h.fileAt (P ++ y :: b) = none := by
      rw [Host.fileAt, hb.lookup_missing hp hc]
    have hP' : walk h'.tree true maxSymlinks (h'.start (P ++ y :: b)) P = .ok d := by
      rw [Host.start, hm.cwd]
      exact walk_grows hm.grows hP (.inl (by rw [hdir]; simp))
    have hk : ∀ m, y :: d <:+ m → h'.tree.get m = none ∨ h'.tree.get m = some .dir := by
      intro m hmk
      rw [hm.get]
      split
      · exact .inr rfl
      · exact .inl (Tree.get_below_none hn hmk)
    have hafter : h'.fileAt (P ++ y :: b) = none := by
      obtain ⟨m, e⟩ := walk_append hP'
      rw [Host.fileAt, Host.lookup_eq hb.nonempty, e false _ (by simp),
        walk_name hdir' hy (hno (hk _ (List.suffix_refl _)))]
      rcases hl : walk h'.tree false m (y :: d) b >>= reach with e | l
      · rfl
      · rcases hk _ (walk_made hk hbc (List.suffix_refl _) (reach_ok.mp hl).1) with e | e
        · simp only [e]
        · simp only [e]
    rw [hbefore, hafter]
  · obtain ⟨res', e⟩ := createDirAll_quiet hc
    rw [e, Prod.mk.injEq, Prod.mk.injEq] at hrun
    rw [← hrun.2.1]

end Below

end Posix
