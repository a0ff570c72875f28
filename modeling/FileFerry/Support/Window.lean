import Mathlib

/-!
# Support — Window

Paging through a listing in key order.  A page holds the first entries after a cursor, at most as
many as its limit, and a full page gives the key of its last entry as the next cursor.

* `eq_of_mem_iff`: an ascending list is determined by its members.
* `mem_page`: what a page that gives no cursor, or the cursor `c'`, holds.
* `exists_page_one`: a page of one that holds the first entry of a kind.
* `Walk`: the pages of a client that passes each cursor on, every page of a listing of its own.
  `Walk.ascending`, `Walk.complete`: the keys reported ascend, and every key that is in all the
  listings is reported.
* `walk_ends`: when the listings stop changing, a page without a cursor comes.
-/

namespace Window

variable {α κ : Type} [LinearOrder κ] {key : α → κ}

/-- The entries, by strictly ascending keys. -/
def Ascending (key : α → κ) (l : List α) : Prop := l.Pairwise fun a b => key a < key b

/-- Whether the key comes after the cursor. -/
def Beyond (cursor : Option κ) (k : κ) : Prop := ∀ c, cursor = some c → c < k

instance (cursor : Option κ) (k : κ) : Decidable (Beyond cursor k) :=
  match cursor with
  | none => .isTrue fun _ h => by cases h
  | some c => decidable_of_iff (c < k) (by simp [Beyond])

def page (key : α → κ) (limit : Nat) (cursor : Option κ) (l : List α) : List α :=
  (l.filter fun a => Beyond cursor (key a)).take limit

/-- The cursor a page gives. -/
def next (key : α → κ) (limit : Nat) (p : List α) : Option κ :=
  if p.length = limit then p.getLast?.map key else none

@[simp] theorem beyond_none (k : κ) : Beyond none k := fun _ h => by cases h

@[simp] theorem beyond_some {c k : κ} : Beyond (some c) k ↔ c < k := by simp [Beyond]

/-! ### Ascending lists -/

theorem Ascending.filter {l : List α} (h : Ascending key l) (p : α → Bool) :
    Ascending key (l.filter p) := List.Pairwise.filter p h

theorem Ascending.page {l : List α} (h : Ascending key l) (limit : Nat) (c : Option κ) :
    Ascending key (page key limit c l) :=
  (h.filter _).sublist (List.take_sublist _ _)

theorem Ascending.nodup {l : List α} (h : Ascending key l) : l.Nodup :=
  List.Pairwise.imp (fun hab e => (e ▸ hab).false) h

/-- **An ascending list** is determined by its members. -/
theorem eq_of_mem_iff {l m : List α} (hl : Ascending key l) (hm : Ascending key m)
    (h : ∀ a, a ∈ l ↔ a ∈ m) : l = m :=
  List.Perm.eq_of_pairwise (fun _ _ _ _ hab hba => absurd hba hab.asymm) hl hm
    ((List.perm_ext_iff_of_nodup hl.nodup hm.nodup).mpr h)

/-- The entries up to one of them, and those after it. -/
theorem Ascending.split {l pre post : List α} {a : α} (h : Ascending key l)
    (e : l = pre ++ a :: post) :
    (∀ b ∈ pre, key b < key a) ∧ ∀ b ∈ post, key a < key b := by
  subst e
  obtain ⟨-, h₂, h₃⟩ := List.pairwise_append.mp h
  exact ⟨fun b hb => h₃ b hb a List.mem_cons_self, (List.pairwise_cons.mp h₂).1⟩

/-! ### One page -/

theorem length_page_le (limit : Nat) (c : Option κ) (l : List α) :
    (page key limit c l).length ≤ limit := List.length_take_le _ _

theorem mem_of_mem_page {limit : Nat} {c : Option κ} {l : List α} {a : α}
    (h : a ∈ page key limit c l) : a ∈ l ∧ Beyond c (key a) := by
  simpa using List.mem_filter.mp (List.mem_of_mem_take h)

/-- What is beyond `c` in the listing, as the page and what comes after it. -/
theorem page_append (limit : Nat) (c : Option κ) (l : List α) :
    page key limit c l ++ (l.filter fun a => Beyond c (key a)).drop limit
      = l.filter fun a => Beyond c (key a) := List.take_append_drop _ _

omit [LinearOrder κ] in
theorem next_eq_some {limit : Nat} {p : List α} {c : κ} (h : next key limit p = some c) :
    p.length = limit ∧ ∃ init a, p = init ++ [a] ∧ key a = c := by
  rw [next] at h
  split at h
  · rename_i e
    rcases List.eq_nil_or_concat p with rfl | ⟨init, a, rfl⟩
    · cases h
    · rw [List.concat_eq_append] at h e ⊢
      rw [List.getLast?_append, List.getLast?_singleton, Option.some_or, Option.map_some,
        Option.some.injEq] at h
      exact ⟨e, init, a, rfl, h⟩
  · cases h

/-- **The last page**: without a cursor it holds all that is beyond its own. -/
theorem mem_page_of_next_none {limit : Nat} {c : Option κ} {l : List α} (hlim : 0 < limit)
    (hn : next key limit (page key limit c l) = none) {a : α} (ha : a ∈ l)
    (hc : Beyond c (key a)) : a ∈ page key limit c l := by
  have hmem : a ∈ l.filter fun a => Beyond c (key a) := by simp [ha, hc]
  have hlen : (page key limit c l).length ≠ limit := by
    intro e
    rw [next, if_pos e, Option.map_eq_none_iff, List.getLast?_eq_none_iff] at hn
    rw [hn, List.length_nil] at e
    omega
  rw [page, List.length_take] at hlen
  rwa [page, List.take_of_length_le (by omega)]

/-- **Another page**: what is beyond its cursor is beyond the page's last entry, or in the page. -/
theorem mem_page_of_next_some {limit : Nat} {c : Option κ} {l : List α} {c' : κ}
    (hl : Ascending key l) (hn : next key limit (page key limit c l) = some c') :
    (∀ b ∈ page key limit c l, key b ≤ c') ∧
      ∀ a ∈ l, Beyond c (key a) → a ∈ page key limit c l ∨ c' < key a := by
  obtain ⟨-, init, z, hp, rfl⟩ := next_eq_some hn
  have hsplit : page key limit c l ++ _ = _ := page_append limit c l
  have hz : l.filter (fun a => Beyond c (key a))
      = init ++ z :: (l.filter fun a => Beyond c (key a)).drop limit := by
    rw [hp, List.append_assoc] at hsplit
    exact hsplit.symm
  obtain ⟨h₁, h₂⟩ := (hl.filter fun a => decide (Beyond c (key a))).split hz
  refine ⟨fun b hb => ?_, fun a ha hc => ?_⟩
  · rw [hp] at hb
    rcases List.mem_append.mp hb with hb | hb
    · exact (h₁ b hb).le
    · rw [List.mem_singleton.mp hb]
  · have hmem : a ∈ l.filter fun a => Beyond c (key a) := by simp [ha, hc]
    rw [← hsplit] at hmem
    rcases List.mem_append.mp hmem with h | h
    · exact .inl h
    · exact .inr (h₂ a h)

/-- **The first entry of a kind** is the page of one after an entry of another kind, or the first
page of one. -/
theorem exists_page_one {l : List α} (hl : l.Pairwise fun a b => key a ≤ key b) {P : α → Prop}
    (hP : ∀ a b, key a = key b → P a → P b) (h : ∃ a ∈ l, P a) :
    ∃ c a, (∀ k, c = some k → ∃ b ∈ l, key b = k ∧ ¬ P b) ∧ page key 1 c l = [a] ∧ P a := by
  induction l with
  | nil => obtain ⟨a, ha, -⟩ := h; cases ha
  | cons b t ih =>
      obtain ⟨hb, ht⟩ := List.pairwise_cons.mp hl
      by_cases hPb : P b
      · exact ⟨none, b, by simp, by simp [page], hPb⟩
      · obtain ⟨a, ha, hPa⟩ := h
        have hat : a ∈ t := (List.mem_cons.mp ha).resolve_left fun e => hPb (e ▸ hPa)
        obtain ⟨c, a', hc, hp, hPa'⟩ := ih ht ⟨a, hat, hPa⟩
        rcases c with _ | k
        · -- the entry is the first of `t`, and comes after `b`
          have hhead : t.take 1 = [a'] := by simpa [page] using hp
          obtain ⟨t, rfl⟩ : ∃ t', t = a' :: t' := by
            rcases t with _ | ⟨x, t⟩
            · cases hhead
            · exact ⟨t, by rw [(List.cons.inj hhead).1]⟩
          have hlt : key b < key a' :=
            lt_of_le_of_ne (hb a' List.mem_cons_self) fun e => hPb (hP a' b e.symm hPa')
          refine ⟨some (key b), a', fun k hk => ⟨b, List.mem_cons_self, Option.some.inj hk, hPb⟩,
            ?_,
            hPa'⟩
          rw [page, List.filter_cons_of_neg (by simp), List.filter_cons_of_pos (by simpa using hlt)]
          rfl
        · obtain ⟨d, hd, rfl, hPd⟩ := hc k rfl
          refine ⟨some (key d), a', fun k hk => ⟨d, List.mem_cons_of_mem _ hd,
            Option.some.inj hk, hPd⟩,
            ?_, hPa'⟩
          rw [page, List.filter_cons_of_neg (by simpa using hb d hd)]
          exact hp

/-- Pages of what is read from the entries. -/
theorem page_map {β : Type} (g : α → β) {key' : β → κ} (hk : ∀ a, key' (g a) = key a) (limit : Nat)
    (c : Option κ) (l : List α) : (page key limit c l).map g = page key' limit c (l.map g) := by
  rw [page, page, List.map_take, List.filter_map]
  congr 3
  funext a
  simp [hk]

/-! ### Walks -/

/-- The pages of a walk from a cursor to the first page that gives none; each request has a limit
and meets a listing. -/
inductive Walk (key : α → κ) : Option κ → List (Nat × List α) → List (List α) → Prop where
  | last {c : Option κ} {limit : Nat} {l : List α} :
      next key limit (page key limit c l) = none → Walk key c [(limit, l)] [page key limit c l]
  | more {c : Option κ} {c' : κ} {limit : Nat} {l : List α} {rs : List (Nat × List α)}
      {ps : List (List α)} : next key limit (page key limit c l) = some c' →
      Walk key (some c') rs ps → Walk key c ((limit, l) :: rs) (page key limit c l :: ps)

variable {c : Option κ} {rs : List (Nat × List α)} {ps : List (List α)}

/-- **The keys a walk reports** ascend, from beyond its cursor. -/
theorem Walk.ascending (h : Walk key c rs ps) (hl : ∀ r ∈ rs, Ascending key r.2) :
    Ascending key ps.flatten ∧ ∀ a ∈ ps.flatten, Beyond c (key a) := by
  induction h with
  | last hn =>
      rw [List.flatten_singleton]
      exact ⟨(hl _ List.mem_cons_self).page _ _, fun a ha => (mem_of_mem_page ha).2⟩
  | @more c c' limit l rs ps hn _ ih =>
      obtain ⟨ih₁, ih₂⟩ := ih fun r hr => hl r (List.mem_cons_of_mem _ hr)
      have hasc : Ascending key l := hl _ List.mem_cons_self
      obtain ⟨hle, -⟩ := mem_page_of_next_some hasc hn
      obtain ⟨-, init, z, hp, hz⟩ := next_eq_some hn
      have hcz : Beyond c c' := by
        rw [← hz]; exact (mem_of_mem_page (show _ ∈ page key limit c l by rw [hp]; simp)).2
      have hlt : ∀ a ∈ ps.flatten, c' < key a := fun a ha => beyond_some.mp (ih₂ a ha)
      rw [List.flatten_cons]
      refine ⟨List.pairwise_append.mpr ⟨hasc.page _ _, ih₁, fun a ha b hb => ?_⟩, fun a ha => ?_⟩
      · exact (hle a ha).trans_lt (hlt b hb)
      · rcases List.mem_append.mp ha with h | h
        · exact (mem_of_mem_page h).2
        · exact fun d hd => (hcz d hd).trans (hlt a h)

/-- Each page is of its own listing, and not longer than its limit. -/
theorem Walk.pages (h : Walk key c rs ps) :
    List.Forall₂ (fun r p => p.length ≤ r.1 ∧ ∀ a ∈ p, a ∈ r.2) rs ps := by
  induction h with
  | last _ =>
      exact .cons ⟨length_page_le _ _ _, fun a ha => (mem_of_mem_page ha).1⟩ .nil
  | more _ _ ih =>
      exact .cons ⟨length_page_le _ _ _, fun a ha => (mem_of_mem_page ha).1⟩ ih

/-- **Nothing is missed**: a key beyond the cursor that is in all the listings is reported. -/
theorem Walk.complete (h : Walk key c rs ps) (hl : ∀ r ∈ rs, Ascending key r.2 ∧ 0 < r.1) {k : κ}
    (hc : Beyond c k) (hk : ∀ r ∈ rs, k ∈ r.2.map key) : k ∈ ps.flatten.map key := by
  induction h with
  | @last c limit l hn =>
      obtain ⟨a, ha, rfl⟩ := List.mem_map.mp (hk _ List.mem_cons_self)
      rw [List.flatten_singleton]
      exact List.mem_map_of_mem
        (mem_page_of_next_none (hl _ List.mem_cons_self).2 hn ha hc)
  | @more c c' limit l rs ps hn _ ih =>
      obtain ⟨a, ha, rfl⟩ := List.mem_map.mp (hk _ List.mem_cons_self)
      rw [List.flatten_cons, List.map_append, List.mem_append]
      rcases (mem_page_of_next_some (hl _ List.mem_cons_self).1 hn).2 a ha hc with h | h
      · exact .inl (List.mem_map_of_mem h)
      · exact .inr (ih (fun r hr => hl r (List.mem_cons_of_mem _ hr)) (beyond_some.mpr h)
          fun r hr => hk r (List.mem_cons_of_mem _ hr))

/-- A key is reported once. -/
theorem Walk.once (h : Walk key c rs ps) (hl : ∀ r ∈ rs, Ascending key r.2) :
    (ps.flatten.map key).Nodup :=
  List.Pairwise.map key (fun _ _ hab => hab.ne) (h.ascending hl).1

/-! ### Walks end -/

/-- The requests from the `n`-th on. -/
def later (n : Nat) (requests : Nat → Nat × List α) : Nat → Nat × List α := fun i =>
    requests (n + i)

theorem Walk.cons {c' : κ} {limit n : Nat} {l : List α} {requests : Nat → Nat × List α}
    {ps : List (List α)} (hr : requests 0 = (limit, l))
    (hn : next key limit (page key limit c l) = some c')
    (h : Walk key (some c') ((List.range n).map (later 1 requests)) ps) :
    Walk key c ((List.range (n + 1)).map requests) (page key limit c l :: ps) := by
  rw [List.range_succ_eq_map, List.map_cons, List.map_map, hr]
  have e : requests ∘ Nat.succ = later 1 requests := funext fun i => by
    simp [later, Nat.add_comm]
  rw [e]
  exact .more hn h

/-- A full page leaves fewer entries beyond its cursor. -/
theorem length_beyond_lt {limit : Nat} {l : List α} {c' : κ} (hl : Ascending key l)
    (hn : next key limit (page key limit c l) = some c') :
    (l.filter fun a => Beyond (some c') (key a)).length
      < (l.filter fun a => Beyond c (key a)).length := by
  obtain ⟨-, init, z, hp, rfl⟩ := next_eq_some hn
  have hz : z ∈ l ∧ Beyond c (key z) :=
    mem_of_mem_page (show z ∈ page key limit c l by rw [hp]; simp)
  obtain ⟨s, t, rfl⟩ := List.append_of_mem hz.1
  obtain ⟨h₁, h₂⟩ := hl.split rfl
  have hpre : (s.filter fun a => decide (Beyond (some (key z)) (key a))) = [] := by
    rw [List.filter_eq_nil_iff]
    intro a ha
    simpa using (h₁ a ha).le
  have hself : ([z].filter fun a => decide (Beyond (some (key z)) (key a))) = [] := by simp
  have hself' : ([z].filter fun a => decide (Beyond c (key a))) = [z] := by
    simpa using hz.2
  have hpost : (t.filter fun a => decide (Beyond (some (key z)) (key a))).length
      ≤ (t.filter fun a => decide (Beyond c (key a))).length := by
    refine List.Sublist.length_le (List.monotone_filter_right t fun a ha => ?_)
    have hlt : key z < key a := by simpa using ha
    exact decide_eq_true fun d hd => (hz.2 d hd).trans hlt
  rw [← List.singleton_append]
  simp only [List.filter_append, List.length_append, hpre, hself, hself', List.length_nil,
    List.length_singleton]
  omega

theorem walk_one {requests : Nat → Nat × List α}
    (hn : next key (requests 0).1 (page key (requests 0).1 c (requests 0).2) = none) :
    ∃ n ps, Walk key c ((List.range n).map requests) ps := by
  refine ⟨1, [page key (requests 0).1 c (requests 0).2], ?_⟩
  rw [List.range_one, List.map_singleton]
  exact .last hn

/-- A walk over one listing ends. -/
theorem walk_ends_of_const {l : List α} (hl : Ascending key l) : ∀ (m : Nat) (c : Option κ)
    (requests : Nat → Nat × List α), (∀ i, (requests i).2 = l) →
    (l.filter fun a => Beyond c (key a)).length ≤ m →
    ∃ n ps, Walk key c ((List.range n).map requests) ps := by
  intro m
  induction m with
  | zero =>
      intro c requests hr hm
      refine walk_one ?_
      rw [hr 0]
      rcases hn : next key (requests 0).1 (page key (requests 0).1 c l) with _ | c'
      · rfl
      · have := length_beyond_lt hl hn; omega
  | succ m ih =>
      intro c requests hr hm
      rcases hn : next key (requests 0).1 (page key (requests 0).1 c l) with _ | c'
      · exact walk_one (by rw [hr 0]; exact hn)
      · have := length_beyond_lt hl hn
        obtain ⟨n, ps, h⟩ := ih (some c') (later 1 requests) (fun i => hr (1 + i)) (by omega)
        exact ⟨n + 1, _, h.cons (by rw [← hr 0]) hn⟩

/-- **A walk ends** once the listings stop changing. -/
theorem walk_ends : ∀ (m : Nat) (c : Option κ) (requests : Nat → Nat × List α),
    Ascending key (requests m).2 → (∀ i, m ≤ i → (requests i).2 = (requests m).2) →
    ∃ n ps, Walk key c ((List.range n).map requests) ps
  | 0, c, requests, hl, hr =>
      walk_ends_of_const hl _ c requests (fun i => hr i (Nat.zero_le i)) le_rfl
  | m + 1, c, requests, hl, hr => by
      rcases hn : next key (requests 0).1 (page key (requests 0).1 c (requests 0).2) with _ | c'
      · exact walk_one hn
      · have hm : later 1 requests m = requests (m + 1) := by rw [later, Nat.add_comm]
        obtain ⟨n, ps, h⟩ := walk_ends m (some c') (later 1 requests) (by rw [hm]; exact hl)
          fun i hi => by rw [hm]; exact hr (1 + i) (by omega)
        exact ⟨n + 1, _, h.cons rfl hn⟩

end Window
