import FileFerry.Io.Overlaps
import FileFerry.Results.Concurrency

/-!
# Results — Mixing

Copies that write one path of the file system and read it, at once, and may disturb each other.

* `concurrent_placed`: no byte is where no source and no earlier file has it, but for zeros between
  two copies that write.
-/

namespace FileFerry
open Text Posix AsyncIo Steps Sessions

variable {ι : Type} [DecidableEq ι]

/-- **Bytes keep their places.**  In whatever order the steps of the copies come, each byte of the
file, and each byte a copy has read of it, is one that a source or the earlier file has at the same
place, or a zero where two copies write.  When all are done the file is no longer than the longest
source and no shorter than the shortest, and if one copy writes, it is its source. -/
theorem concurrent_placed {fs : FsBackend} {path : String} {jobs : ι → Job}
    {w : World} {s : Copies ι}
    (h : Runs (CopyStep fs path jobs) (fun _ _ => True) (.start w) s) :
    let before := w.host.fileAt (fs.joined path)
    let content := s.world.host.fileAt (fs.joined path)
    (∀ d, content = some d → Everywhere (Placed jobs before) d) ∧
    (∀ i off got, s.phase i = .reading off got ∨ s.phase i = .done got →
      Everywhere (Placed jobs before) got) ∧
    ((∀ i, ∃ d, s.phase i = .done d) →
      ((∃ i cs, jobs i = .write cs) → ∃ d, content = some d ∧ Everywhere (Sourced jobs) d ∧
        ∃ i cs, jobs i = .write cs ∧ cs.flatten.length ≤ d.length) ∧
      ∀ i cs, jobs i = .write cs → (∀ j cs', jobs j = .write cs' → j = i) →
        content = some cs.flatten) := by
  have hstart : Shows fs path (.start w : Copies ι) ⟨w.host.fileAt (fs.joined path),
    fun _ => .idle⟩ :=
    ⟨rfl, rfl, fun _ h => h.elim⟩
  obtain ⟨a, hr, ha⟩ : ∃ a, Runs (Step jobs) (fun _ _ => True) _ a ∧ Shows fs path s a :=
    h.simulates (fun ha _ hm => ⟨trivial, hm.shown ha⟩) hstart
  have hscattered := scattered_of_runs hr
  intro before content
  have hcontent : a.content = content := ha.content
  refine ⟨fun d hd => hscattered.placed (hcontent.trans hd), fun i off got hp => ?_,
    fun hdone => ?_⟩
  · have hi := hscattered.holds i
    rw [ha.phase] at hi
    rcases hp with hp | hp
    · rw [hp] at hi
      exact hi.2.2
    · rw [hp] at hi
      exact hi
  · rw [← ha.phase] at hdone
    rw [← hcontent]
    exact ⟨hscattered.settled hdone, fun i cs hi hone => hscattered.settled_one hdone hi hone⟩

/-- Two copies that write at once mix their bytes, each in its place. -/
theorem concurrent_placed_mixed : ∃ s : Copies Bool,
    s.world.host.fileAt (dataFs.joined "a") = some [3, 2] ∧
    Everywhere (Sourced twoWriters) [3, 2] := by
  obtain ⟨s, hrun, hdone, hfile⟩ := writers_mix
  obtain ⟨d, hd, hsourced, -⟩ := ((concurrent_placed hrun).2.2 hdone).1 ⟨true, _, rfl⟩
  obtain rfl : d = [3, 2] := Option.some.inj (hd.symm.trans hfile)
  exact ⟨s, hfile, hsourced⟩

end FileFerry
