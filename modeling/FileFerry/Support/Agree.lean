import FileFerry.Support.Steps

/-!
# Support — Agree

Two programs, each in a world of its own: `Agree R` says that from worlds related by `R` they take
the same number of steps, emit the same events at each and leave related worlds at each, and return
the same.

* `Agree.bind`, `Agree.seq`: the rules for sequences; `Agree.get`: what is read of the world.
* `Agree.timeout`: giving up on both at once.
* `served_agree`: what agrees on one request agrees on a run.
-/

namespace Steps

variable {σ ε χ ρ α β : Type} {R : σ → σ → Prop}

/-- The two steps emit the same and leave related worlds. -/
def SameStep (R : σ → σ → Prop) (s s' : Step σ ε) : Prop :=
    s'.events = s.events ∧ R s.world s'.world

/-- From worlds that `R` relates, the two take the same steps up to `R`, and return the same. -/
def Agree (R : σ → σ → Prop) (p p' : σ → List (Step σ ε) × α) : Prop :=
  ∀ w w', R w w' → List.Forall₂ (SameStep R) (p w).1 (p' w').1 ∧ (p' w').2 = (p w).2

/-- Steps that agree leave worlds that `R` relates… -/
theorem after_agree {l l' : List (Step σ ε)} (h : List.Forall₂ (SameStep R) l l') {w w' : σ}
    (hw : R w w') : R (after w l) (after w' l') := by
  induction h generalizing w w' with
  | nil => exact hw
  | cons hs _ ih => exact ih hs.2

/-- …and emit the same events. -/
theorem trace_agree {l l' : List (Step σ ε)} (h : List.Forall₂ (SameStep R) l l') :
    trace l' = trace l := by
  induction h with
  | nil => rfl
  | cons hs _ ih => rw [trace_cons, trace_cons, hs.1, ih]

theorem append_agree {l l' m m' : List (Step σ ε)} (h : List.Forall₂ (SameStep R) l l')
    (h' : List.Forall₂ (SameStep R) m m') : List.Forall₂ (SameStep R) (l ++ m) (l' ++ m') := by
  induction h with
  | nil => exact h'
  | cons hs _ ih => exact .cons hs ih

namespace Agree

/-! ### Processes -/

/-- What returns agrees with itself. -/
theorem ret (a : α) : Agree R (pure a : Proc σ ε α) (pure a : Proc σ ε α) :=
    fun _ _ _ => ⟨.nil, rfl⟩

/-- **The rule for sequences** of processes. -/
theorem bind {p p' : Proc σ ε α} {f f' : α → Proc σ ε β} (hp : Agree R p p')
    (hf : ∀ a, Agree R (f a) (f' a)) : Agree R (p >>= f : Proc σ ε β) (p' >>= f' : Proc σ ε β) := by
  intro w w' hw
  obtain ⟨hs, hr⟩ := hp w w' hw
  obtain ⟨hs', hr'⟩ := hf (p w).2 _ _ (after_agree hs hw)
  rw [Proc.bind_run, Proc.bind_run, hr]
  exact ⟨append_agree hs hs', hr'⟩

/-- …whose first part reads the world. -/
theorem read {f f' : σ → Proc σ ε β} (h : ∀ w w', R w w' → Agree R (f w) (f' w')) :
    Agree R (Proc.get >>= f : Proc σ ε β) (Proc.get >>= f' : Proc σ ε β) := fun w w' hw => by
  rw [Proc.bind_run, Proc.bind_run]
  exact h w w' hw w w' hw

/-- A step agrees whose worlds `R` relates. -/
theorem move {f f' : σ → σ} (evs : List ε) (h : ∀ w w', R w w' → R (f w) (f' w')) :
    Agree R (Proc.step f evs) (Proc.step f' evs) :=
  fun w w' hw => ⟨.cons ⟨rfl, h w w' hw⟩ .nil, rfl⟩

/-! ### Actions -/

theorem pure (a : α) : Agree R (Pure.pure a : Act σ ε χ α) (Pure.pure a : Act σ ε χ α) :=
  fun _ _ _ => ⟨.nil, rfl⟩

/-- A failure agrees with itself. -/
theorem fail (e : χ) : Agree R (Act.fail e : Act σ ε χ α) (Act.fail e : Act σ ε χ α) :=
  fun _ _ _ => ⟨.nil, rfl⟩

theorem ofExcept (x : Except χ α) : Agree R (Act.ofExcept x : Act σ ε χ α) (Act.ofExcept x) := by
  cases x with
  | ok a => exact .pure a
  | error e => exact .fail e

/-- …whose first part is a value. -/
theorem given {x : Except χ α} {f f' : α → Act σ ε χ β}
    (h : ∀ a, x = .ok a → Agree R (f a) (f' a)) :
    Agree R (Act.ofExcept x >>= f : Act σ ε χ β) (Act.ofExcept x >>= f' : Act σ ε χ β) := by
  cases x with
  | error e =>
      intro w w' hw
      rw [Act.ofExcept, Act.fail_bind, Act.fail_bind]
      exact ⟨.nil, rfl⟩
  | ok a =>
      intro w w' hw
      rw [Act.bind_ok (Act.ofExcept_run _ w), Act.bind_ok (Act.ofExcept_run _ w')]
      exact h a rfl w w' hw

/-- …and a step of an action. -/
theorem step {f f' : σ → σ} (evs : List ε) (h : ∀ w w', R w w' → R (f w) (f' w')) :
    Agree R (Act.step f evs : Act σ ε χ Unit) (Act.step f' evs) :=
  fun w w' hw => ⟨.cons ⟨rfl, h w w' hw⟩ .nil, rfl⟩

theorem emit (e : ε) : Agree R (Act.emit e : Act σ ε χ Unit) (Act.emit e) := step [e] fun _ _ h => h

/-- **The rule for sequences** of actions. -/
theorem seq {p p' : Act σ ε χ α} {f f' : α → Act σ ε χ β} (hp : Agree R p p')
    (hf : ∀ a, Agree R (f a) (f' a)) : Agree R (p >>= f : Act σ ε χ β)
      (p' >>= f' : Act σ ε χ β) := by
  intro w w' hw
  obtain ⟨hs, hr⟩ := hp w w' hw
  rcases e : p w with ⟨l, x | a⟩
  · rcases e' : p' w' with ⟨l', r'⟩
    rw [e, e'] at hs hr
    obtain rfl : r' = .error x := hr
    rw [Act.bind_error e, Act.bind_error e']
    exact ⟨hs, rfl⟩
  · rcases e' : p' w' with ⟨l', r'⟩
    rw [e, e'] at hs hr
    obtain rfl : r' = .ok a := hr
    obtain ⟨hs', hr'⟩ := hf a _ _ (after_agree hs hw)
    rw [Act.bind_ok e, Act.bind_ok e']
    exact ⟨append_agree hs hs', hr'⟩

/-- …whose first part reads the world. -/
theorem get {f f' : σ → Act σ ε χ β} (h : ∀ w w', R w w' → Agree R (f w) (f' w')) :
    Agree R (Act.get >>= f : Act σ ε χ β) (Act.get >>= f' : Act σ ε χ β) := fun w w' hw => by
  rw [Act.get_bind, Act.get_bind]
  exact h w w' hw w w' hw

/-- …that stops at its first part. -/
theorem stop {p p' : Act σ ε χ α} {f f' : α → Act σ ε χ β} (hp : Agree R p p')
    (herror : ∀ w a, (p w).2 ≠ .ok a) :
    Agree R (p >>= f : Act σ ε χ β) (p' >>= f' : Act σ ε χ β) := by
  intro w w' hw
  obtain ⟨hs, hr⟩ := hp w w' hw
  rcases e : p w with ⟨l, x | a⟩
  · rcases e' : p' w' with ⟨l', r'⟩
    rw [e, e'] at hs hr
    obtain rfl : r' = .error x := hr
    rw [Act.bind_error e, Act.bind_error e']
    exact ⟨hs, rfl⟩
  · exact absurd (by rw [e]) (herror w a)

/-! ### Giving up -/

/-- What is given up after the same number of steps agrees. -/
theorem timeout {p p' : Proc σ ε α} (expire : Option Nat) (late : α) (h : Agree R p p') :
    Agree R (Steps.timeout expire late p) (Steps.timeout expire late p') := by
  intro w w' hw
  obtain ⟨hs, hr⟩ := h w w' hw
  cases expire with
  | none => exact ⟨hs, hr⟩
  | some k =>
      simp only [Steps.timeout, hs.length_eq]
      split
      · exact ⟨List.forall₂_take _ hs, rfl⟩
      · exact ⟨hs, hr⟩

end Agree

/-! ### Runs -/

/-- The two answers look the same. -/
def SameServed (s s' : Served ρ σ ε β) : Prop := s'.reply = s.reply ∧ trace s'.steps = trace s.steps

/-- **Runs of requests agree**, one after another, when their answers do. -/
theorem served_agree {answer answer' : ρ → Proc σ ε β} {S : ρ → ρ → Prop}
    (h : ∀ r r', S r r' → Agree R (answer r) (answer' r')) {rs rs' : List ρ}
    (hrs : List.Forall₂ S rs rs')
    {w w' : σ} (hw : R w w') :
    List.Forall₂ SameServed (served answer w rs) (served answer' w' rs') ∧
      R (final w (served answer w rs)) (final w' (served answer' w' rs')) := by
  induction hrs generalizing w w' with
  | nil => exact ⟨.nil, hw⟩
  | @cons r r' rs rs' hr _ ih =>
      obtain ⟨hs, hreply⟩ := h r r' hr w w' hw
      obtain ⟨ih₁, ih₂⟩ := ih (after_agree hs hw)
      refine ⟨.cons ⟨hreply, trace_agree hs⟩ ih₁, ?_⟩
      rw [final, final, served, served, List.flatMap_cons, List.flatMap_cons,
        after_append, after_append]
      exact ih₂

end Steps
