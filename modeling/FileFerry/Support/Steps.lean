import Mathlib

/-!
# Support — Steps

Programs that take steps in a world.  A step leaves a world and emits events; a `Proc` takes
finitely many steps and returns, an `Act` returns a value or an error, and an error ends it.

* `Does`: every world the steps leave satisfies `Q`, every event `P`, and what is returned `R`,
  with a rule for each construct.  `Does.bind` is the rule for sequences.
* `timeout`: a process that is given up after so many steps.  What it did is a prefix of what
  the process would have done (`timeout_isPrefix`).
* `served`: one process for each request of a list, one after another; `served_inv`,
  `mem_served`: an invariant of one is an invariant of all; `served_split`: parts of a run.
* `Runs`: the runs of a step relation; `Runs.inv`, `Runs.simulates`: from one step to a run.
-/

namespace Steps

/-- A step: the world it leaves, and the events it emits. -/
structure Step (σ ε : Type) where
  world : σ
  events : List ε

variable {σ ε χ ρ α β : Type}

/-- The world the steps leave. -/
def after (w : σ) : List (Step σ ε) → σ
  | [] => w
  | s :: l => after s.world l

/-- The events of the steps, in their order. -/
def trace (l : List (Step σ ε)) : List ε := l.flatMap Step.events

@[simp] theorem after_nil (w : σ) : after w ([] : List (Step σ ε)) = w := rfl

@[simp] theorem after_cons (w : σ) (s : Step σ ε) (l : List (Step σ ε)) :
    after w (s :: l) = after s.world l := rfl

@[simp] theorem after_append (w : σ) (l m : List (Step σ ε)) :
    after w (l ++ m) = after (after w l) m := by
  induction l generalizing w with
  | nil => rfl
  | cons s l ih => exact ih s.world

@[simp] theorem trace_nil : trace ([] : List (Step σ ε)) = [] := rfl

@[simp] theorem trace_cons (s : Step σ ε) (l : List (Step σ ε)) :
    trace (s :: l) = s.events ++ trace l := rfl

@[simp] theorem trace_append (l m : List (Step σ ε)) : trace (l ++ m) = trace l ++ trace m :=
  List.flatMap_append

/-- Fewer steps emit fewer events. -/
theorem trace_isPrefix {l m : List (Step σ ε)} (h : l <+: m) : trace l <+: trace m := by
  obtain ⟨k, rfl⟩ := h
  rw [trace_append]
  exact List.prefix_append _ _

/-- An event is one of some step. -/
theorem mem_trace {l : List (Step σ ε)} {e : ε} : e ∈ trace l ↔ ∃ s ∈ l, e ∈ s.events :=
  List.mem_flatMap

/-- The world the steps leave is the one before them, or one a step left. -/
theorem after_of_forall {Q : σ → Prop} {w : σ} {l : List (Step σ ε)} (hw : Q w)
    (h : ∀ s ∈ l, Q s.world) : Q (after w l) := by
  induction l generalizing w with
  | nil => exact hw
  | cons s l ih =>
      exact ih (h s List.mem_cons_self) fun t ht => h t (List.mem_cons_of_mem _ ht)

/-! ### Processes and actions -/

/-- From a world, the steps taken and what is returned. -/
def Proc (σ ε α : Type) : Type := σ → List (Step σ ε) × α

/-- A process that returns a value or an error. -/
def Act (σ ε χ α : Type) : Type := σ → List (Step σ ε) × Except χ α

namespace Proc

/-- Return, without a step. -/
def pure (a : α) : Proc σ ε α := fun _ => ([], a)

/-- One process after another, in the world the first has left. -/
def bind (p : Proc σ ε α) (f : α → Proc σ ε β) : Proc σ ε β := fun w =>
  let q := f (p w).2 (after w (p w).1)
  ((p w).1 ++ q.1, q.2)

instance : Monad (Proc σ ε) where
  pure := Proc.pure
  bind := Proc.bind

/-- Look at the world, without a step. -/
def get : Proc σ ε σ := fun w => ([], w)

/-- One step. -/
def step (f : σ → σ) (evs : List ε) : Proc σ ε Unit := fun w => ([⟨f w, evs⟩], ())

/-- A step that only emits. -/
def emit (e : ε) : Proc σ ε Unit := step id [e]

@[simp] theorem pure_run (a : α) (w : σ) : (Pure.pure a : Proc σ ε α) w = ([], a) := rfl

/-- The steps of a sequence are those of its parts. -/
theorem bind_run (p : Proc σ ε α) (f : α → Proc σ ε β) (w : σ) :
    (p >>= f) w = ((p w).1 ++ (f (p w).2 (after w (p w).1)).1,
      (f (p w).2 (after w (p w).1)).2) := rfl

@[simp] theorem get_run (w : σ) : (get : Proc σ ε σ) w = ([], w) := rfl

@[simp] theorem step_run (f : σ → σ) (evs : List ε) (w : σ) :
    step f evs w = ([⟨f w, evs⟩], ()) := rfl

@[simp] theorem emit_run (e : ε) (w : σ) : emit e w = ([⟨w, [e]⟩], ()) := rfl

end Proc

namespace Act

/-- Return a value, without a step. -/
def pure (a : α) : Act σ ε χ α := fun _ => ([], .ok a)

/-- One action after another, unless the first fails. -/
def bind (p : Act σ ε χ α) (f : α → Act σ ε χ β) : Act σ ε χ β := fun w =>
  match p w with
  | (l, .ok a) =>
    let q := f a (after w l)
    (l ++ q.1, q.2)
  | (l, .error e) => (l, .error e)

instance : Monad (Act σ ε χ) where
  pure := Act.pure
  bind := Act.bind

/-- Fail, without a step. -/
def fail (e : χ) : Act σ ε χ α := fun _ => ([], .error e)

/-- Look at the world, without a step. -/
def get : Act σ ε χ σ := fun w => ([], .ok w)

/-- One step. -/
def step (f : σ → σ) (evs : List ε) : Act σ ε χ Unit := fun w => ([⟨f w, evs⟩], .ok ())

/-- A step that only emits. -/
def emit (e : ε) : Act σ ε χ Unit := step id [e]

/-- A value or an error that is there already. -/
def ofExcept : Except χ α → Act σ ε χ α
  | .ok a => pure a
  | .error e => fail e

/-- The process that returns the value or the error. -/
def run (p : Act σ ε χ α) : Proc σ ε (Except χ α) := p

@[simp] theorem pure_run (a : α) (w : σ) : (Pure.pure a : Act σ ε χ α) w = ([], .ok a) := rfl

@[simp] theorem fail_run (e : χ) (w : σ) : (fail e : Act σ ε χ α) w = ([], .error e) := rfl

@[simp] theorem get_run (w : σ) : (get : Act σ ε χ σ) w = ([], .ok w) := rfl

@[simp] theorem step_run (f : σ → σ) (evs : List ε) (w : σ) :
    (step f evs : Act σ ε χ Unit) w = ([⟨f w, evs⟩], .ok ()) := rfl

@[simp] theorem emit_run (e : ε) (w : σ) :
    (emit e : Act σ ε χ Unit) w = ([⟨w, [e]⟩], .ok ()) := rfl

@[simp] theorem ofExcept_run (x : Except χ α) (w : σ) :
    (ofExcept x : Act σ ε χ α) w = ([], x) := by
  cases x with
  | ok _ => rfl
  | error _ => rfl

/-- A sequence goes on where its first part returns… -/
theorem bind_ok {p : Act σ ε χ α} {f : α → Act σ ε χ β} {w : σ} {l : List (Step σ ε)} {a : α}
    (h : p w = (l, .ok a)) :
    (p >>= f) w = (l ++ (f a (after w l)).1, (f a (after w l)).2) := by
  show Act.bind p f w = _
  rw [Act.bind, h]

/-- …and ends where it fails. -/
theorem bind_error {p : Act σ ε χ α} {f : α → Act σ ε χ β} {w : σ} {l : List (Step σ ε)} {e : χ}
    (h : p w = (l, .error e)) : (p >>= f) w = (l, .error e) := by
  show Act.bind p f w = _
  rw [Act.bind, h]

/-- What looks at the world first depends on it. -/
theorem get_bind (f : σ → Act σ ε χ β) (w : σ) : (get >>= f) w = f w w := by
  rw [bind_ok (get_run w)]; simp

/-- The first step of a sequence comes first. -/
theorem step_bind (g : σ → σ) (evs : List ε) (f : Unit → Act σ ε χ β) (w : σ) :
    (step g evs >>= f) w = (⟨g w, evs⟩ :: (f () (g w)).1, (f () (g w)).2) := by
  rw [bind_ok (step_run g evs w)]; rfl

theorem emit_bind (e : ε) (f : Unit → Act σ ε χ β) (w : σ) :
    (emit e >>= f) w = (⟨w, [e]⟩ :: (f () w).1, (f () w).2) := step_bind id [e] f w

theorem pure_bind (a : α) (f : α → Act σ ε χ β) (w : σ) : (Pure.pure a >>= f) w = f a w := by
  rw [bind_ok (pure_run a w)]; simp

theorem fail_bind (e : χ) (f : α → Act σ ε χ β) (w : σ) :
    (fail e >>= f) w = ([], .error e) := bind_error (fail_run e w)

/-- Sequences can be bracketed either way. -/
theorem bind_assoc {γ : Type} (p : Act σ ε χ α) (f : α → Act σ ε χ β) (g : β → Act σ ε χ γ) :
    (p >>= f) >>= g = p >>= fun a => f a >>= g := by
  funext w
  rcases hp : p w with ⟨l, e | a⟩
  · rw [bind_error (bind_error hp), bind_error hp]
  · rcases hf : f a (after w l) with ⟨m, e | b⟩
    · have h : (p >>= f) w = (l ++ m, .error e) := by rw [bind_ok hp, hf]
      rw [bind_error h, bind_ok hp, bind_error hf]
    · have h : (p >>= f) w = (l ++ m, .ok b) := by rw [bind_ok hp, hf]
      rw [bind_ok h, bind_ok hp, bind_ok hf, after_append, List.append_assoc]

/-- What goes on from a result ends with its error, or goes on with its value. -/
theorem ofExcept_bind (x : Except χ α) (f : α → Act σ ε χ β) (w : σ) :
    (∃ e, x = .error e ∧ (ofExcept x >>= f) w = ([], .error e)) ∨
      ∃ a, x = .ok a ∧ (ofExcept x >>= f) w = f a w := by
  cases x with
  | error e => exact .inl ⟨e, rfl, bind_error (ofExcept_run _ w)⟩
  | ok a => exact .inr ⟨a, rfl, by rw [bind_ok (ofExcept_run _ w)]; simp⟩

end Act

/-! ### What every step does -/

/-- From a world that satisfies `Q`, every world the steps of `p` leave satisfies `Q`, every event
they emit `P`, and what `p` returns `R`. -/
def Does (Q : σ → Prop) (P : ε → Prop) (p : Act σ ε χ α) (R : Except χ α → Prop) : Prop :=
  ∀ w, Q w → (∀ s ∈ (p w).1, Q s.world ∧ ∀ e ∈ s.events, P e) ∧ R (p w).2

namespace Does

variable {Q : σ → Prop} {P : ε → Prop} {p : Act σ ε χ α} {R R' : Except χ α → Prop}

/-- What is returned may be said more weakly. -/
theorem mono (h : Does Q P p R) (hR : ∀ r, R r → R' r) : Does Q P p R' :=
  fun w hw => ⟨(h w hw).1, hR _ (h w hw).2⟩

theorem pure {a : α} (h : R (.ok a)) : Does Q P (Pure.pure a : Act σ ε χ α) R :=
  fun _ _ => ⟨by simp, h⟩

theorem fail {e : χ} (h : R (.error e)) : Does Q P (Act.fail e : Act σ ε χ α) R :=
  fun _ _ => ⟨by simp, h⟩

/-- A result that is there satisfies `R`. -/
theorem ofExcept {x : Except χ α} (h : R x) : Does Q P (Act.ofExcept x) R :=
  fun w _ => ⟨by simp, by rw [Act.ofExcept_run]; exact h⟩

/-- What looks at the world returns one that satisfies `Q`. -/
theorem get {R : Except χ σ → Prop} (h : ∀ w, Q w → R (.ok w)) :
    Does Q P (Act.get : Act σ ε χ σ) R :=
  fun w hw => ⟨by simp, h w hw⟩

/-- A step keeps `Q` and emits what satisfies `P`. -/
theorem step {f : σ → σ} {evs : List ε} {R : Except χ Unit → Prop} (hQ : ∀ w, Q w → Q (f w))
    (hP : ∀ e ∈ evs, P e) (hR : R (.ok ())) : Does Q P (Act.step f evs) R :=
  fun w hw => ⟨by simpa using ⟨hQ w hw, hP⟩, hR⟩

theorem emit {e : ε} {R : Except χ Unit → Prop} (hP : P e) (hR : R (.ok ())) :
    Does Q P (Act.emit e) R :=
  step (fun _ hw => hw) (by simpa using hP) hR

/-- **The rule for sequences.** -/
theorem bind {f : α → Act σ ε χ β} {S : Except χ β → Prop} (hp : Does Q P p R)
    (hf : ∀ a, R (.ok a) → Does Q P (f a) S) (he : ∀ e, R (.error e) → S (.error e)) :
    Does Q P (p >>= f) S := by
  intro w hw
  obtain ⟨hs, hr⟩ := hp w hw
  rcases e : p w with ⟨l, x | a⟩
  · rw [e] at hs hr
    rw [Act.bind_error e]
    exact ⟨hs, he x hr⟩
  · rw [e] at hs hr
    rw [Act.bind_ok e]
    have hw' : Q (after w l) := after_of_forall hw fun s h => (hs s h).1
    obtain ⟨hs', hr'⟩ := hf a hr (after w l) hw'
    refine ⟨fun s h => ?_, hr'⟩
    rcases List.mem_append.mp h with h | h
    · exact hs s h
    · exact hs' s h

/-- A sequence in which nothing is known of what passes from one part to the next. -/
theorem seq {f : α → Act σ ε χ β} (hp : Does Q P p fun _ => True)
    (hf : ∀ a, Does Q P (f a) fun _ => True) : Does Q P (p >>= f) fun _ => True :=
  hp.bind (fun a _ => hf a) fun _ _ => trivial

/-- A sequence that only succeeds where all of it does. -/
theorem seq_error {f : α → Act σ ε χ β} {S : Except χ β → Prop} (hp : Does Q P p fun _ => True)
    (hf : ∀ a, Does Q P (f a) S) (he : ∀ e, S (.error e)) : Does Q P (p >>= f) S :=
  hp.bind (fun a _ => hf a) fun e _ => he e

/-- A sequence whose first part fails. -/
theorem bind_error {f : α → Act σ ε χ β} (hp : Does Q P p fun r => ∃ e, r = .error e) :
    Does Q P (p >>= f) fun r => ∃ e, r = .error e :=
  hp.bind (fun _ h => by obtain ⟨_, h⟩ := h; cases h) fun e _ => ⟨e, rfl⟩

end Does

/-! ### Giving up -/

/-- `p`, given up after so many steps: what it did by then, and `late` for what it returns.  The
first step is always taken, for a process is looked at before its timer is. -/
def timeout (expire : Option Nat) (late : α) (p : Proc σ ε α) : Proc σ ε α := fun w =>
  match expire with
  | some k => if k + 1 < (p w).1.length then ((p w).1.take (k + 1), late) else p w
  | none => p w

/-- A process is done in time, or some of its steps are left out. -/
theorem timeout_cases (expire : Option Nat) (late : α) (p : Proc σ ε α) (w : σ) :
    timeout expire late p w = p w ∨
      ∃ k, expire = some k ∧ k + 1 < (p w).1.length ∧
        timeout expire late p w = ((p w).1.take (k + 1), late) := by
  rcases expire with _ | k
  · exact .inl rfl
  · by_cases h : k + 1 < (p w).1.length
    · exact .inr ⟨k, rfl, h, if_pos h⟩
    · exact .inl (if_neg h)

/-- What is not done in time is answered `late`. -/
theorem timeout_late {expire : Option Nat} (late : α) {p : Proc σ ε α} {w : σ} {k : Nat}
    (hk : expire = some k) (h : k + 1 < (p w).1.length) :
    timeout expire late p w = ((p w).1.take (k + 1), late) := by
  subst hk
  exact if_pos h

/-- **What is given up has done a part** of what it would have. -/
theorem timeout_isPrefix (expire : Option Nat) (late : α) (p : Proc σ ε α) (w : σ) :
    (timeout expire late p w).1 <+: (p w).1 := by
  rcases timeout_cases expire late p w with e | ⟨k, -, -, e⟩
  · rw [e]
  · rw [e]; exact List.take_prefix _ _

/-- The first step is always taken. -/
theorem timeout_head (expire : Option Nat) (late : α) {p : Proc σ ε α} {w : σ} {s : Step σ ε}
    {l : List (Step σ ε)} (h : (p w).1 = s :: l) :
    ∃ l', (timeout expire late p w).1 = s :: l' := by
  rcases timeout_cases expire late p w with e | ⟨k, -, -, e⟩
  · exact ⟨l, by rw [e, h]⟩
  · exact ⟨l.take k, by rw [e, h, List.take_succ_cons]⟩

/-! ### One request after another -/

/-- What one request of a run met and did. -/
structure Served (ρ σ ε β : Type) where
  request : ρ
  before : σ
  steps : List (Step σ ε)
  reply : β

/-- The run that answers the requests one after another. -/
def served (answer : ρ → Proc σ ε β) : σ → List ρ → List (Served ρ σ ε β)
  | _, [] => []
  | w, r :: rs => ⟨r, w, (answer r w).1, (answer r w).2⟩ :: served answer
      (after w (answer r w).1) rs

/-- The world a run leaves. -/
def final (w : σ) (run : List (Served ρ σ ε β)) : σ := after w (run.flatMap Served.steps)

/-- What is served is an answer to one of the requests. -/
theorem mem_served {answer : ρ → Proc σ ε β} {rs : List ρ} {w : σ} {s : Served ρ σ ε β}
    (h : s ∈ served answer w rs) :
    s.request ∈ rs ∧ answer s.request s.before = (s.steps, s.reply) := by
  induction rs generalizing w with
  | nil => cases h
  | cons r rs ih =>
      rcases List.mem_cons.mp h with rfl | h
      · exact ⟨List.mem_cons_self, rfl⟩
      · exact ⟨List.mem_cons_of_mem _ (ih h).1, (ih h).2⟩

/-- Each request is served, once and in its turn. -/
theorem served_requests (answer : ρ → Proc σ ε β) (rs : List ρ) (w : σ) :
    (served answer w rs).map Served.request = rs := by
  induction rs generalizing w with
  | nil => rfl
  | cons r rs ih => rw [served, List.map_cons, ih]

/-- **An invariant of every answer** holds before each request of a run and after the run. -/
theorem served_inv {answer : ρ → Proc σ ε β} {Q : σ → Prop}
    (hQ : ∀ r w, Q w → ∀ s ∈ (answer r w).1, Q s.world) {rs : List ρ} {w : σ} (hw : Q w) :
    (∀ s ∈ served answer w rs, Q s.before) ∧ Q (final w (served answer w rs)) := by
  induction rs generalizing w with
  | nil => exact ⟨by simp [served], hw⟩
  | cons r rs ih =>
      obtain ⟨h₁, h₂⟩ := ih (after_of_forall hw (hQ r w hw))
      refine ⟨fun s hs => ?_, ?_⟩
      · rcases List.mem_cons.mp hs with rfl | hs
        · exact hw
        · exact h₁ s hs
      · rw [final, served, List.flatMap_cons, after_append]
        exact h₂

/-- A part of a run is the run of a part of its requests. -/
theorem served_split {answer : ρ → Proc σ ε β} {rs : List ρ} {w : σ} {l m : List (Served ρ σ ε β)}
    (h : served answer w rs = l ++ m) :
    ∃ rs₁ rs₂, rs = rs₁ ++ rs₂ ∧ l = served answer w rs₁ ∧ m = served answer (final w l) rs₂ := by
  induction l generalizing w rs with
  | nil => exact ⟨[], rs, rfl, rfl, h.symm⟩
  | cons s l ih =>
      cases rs with
      | nil => cases h
      | cons r rs =>
          rw [served, List.cons_append, List.cons.injEq] at h
          obtain ⟨rfl, h⟩ := h
          obtain ⟨rs₁, rs₂, rfl, hl, hm⟩ := ih h
          refine ⟨r :: rs₁, rs₂, rfl, by rw [served, ← hl], ?_⟩
          rw [hm, final, final, List.flatMap_cons, after_append]

/-- The first request of a part of a run is met in the world the part before it left. -/
theorem served_at {answer : ρ → Proc σ ε β} {rs : List ρ} {w : σ} {l m : List (Served ρ σ ε β)}
    {s : Served ρ σ ε β} (h : served answer w rs = l ++ s :: m) : s.before = final w l := by
  obtain ⟨rs₁, rs₂, -, -, hm⟩ := served_split h
  cases rs₂ with
  | nil => cases hm
  | cons r rs₂ =>
      rw [served, List.cons.injEq] at hm
      rw [hm.1]

/-! ### Runs of single moves -/

/-- Runs from `s` by the moves of `step`, each of which is as `P` says. -/
inductive Runs {τ μ : Type} (step : τ → μ → τ → Prop) (P : τ → μ → Prop) (s : τ) : τ → Prop where
  | refl : Runs step P s s
  | tail {t u : τ} {m : μ} : Runs step P s t → P t m → step t m u → Runs step P s u

namespace Runs

variable {τ υ μ : Type} {step : τ → μ → τ → Prop} {step' : υ → μ → υ → Prop} {P : τ → μ → Prop}
  {P' : υ → μ → Prop} {s t : τ}

theorem one {m : μ} (hp : P s m) (hm : step s m t) : Runs step P s t := .tail .refl hp hm

/-- Runs follow one another. -/
theorem trans {u : τ} (h₁ : Runs step P s t) (h₂ : Runs step P t u) : Runs step P s u := by
  induction h₂ with
  | refl => exact h₁
  | tail _ hp hm ih => exact .tail ih hp hm

/-- **An invariant** of the moves holds after a run. -/
theorem inv {Q : τ → Prop} (hQ : ∀ {t m u}, Q t → P t m → step t m u → Q u) (hs : Q s)
    (h : Runs step P s t) : Q t := by
  induction h with
  | refl => exact hs
  | tail _ hp hm ih => exact hQ ih hp hm

/-- **A run is simulated** by another when each of its moves is. -/
theorem simulates {R : τ → υ → Prop} (hR : ∀ {t m u v}, R t v → P t m → step t m u →
    P' v m ∧ ∃ v', step' v m v' ∧ R u v') {v : υ} (hs : R s v) (h : Runs step P s t) :
    ∃ v', Runs step' P' v v' ∧ R t v' := by
  induction h with
  | refl => exact ⟨v, .refl, hs⟩
  | tail _ hp hm ih =>
      obtain ⟨v', hr, hv⟩ := ih
      obtain ⟨hp', v'', hm', hv''⟩ := hR hv hp hm
      exact ⟨v'', .tail hr hp' hm', hv''⟩

end Runs

end Steps
