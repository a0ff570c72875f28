import FileFerry.Posix.Files
import FileFerry.Support.Steps

/-!
# Io — Sessions

Several parties that write one file and read it, each through a handle of its own.  An open for
writing empties the file; a write goes to the writer's own offset, and a read comes from the
reader's.

* `Step`: the moves of the parties, in any order.
* `Calm`: no party opens the file for writing while another writes it or has read a part of it, and
  none reads it while another writes it.
* `Inv`, `Step.inv`: what calm moves keep: one party fills the file, or the file is whole.
* `atomic_of_calm`: when all are done, the file and what each reader got are whole.
-/

namespace Sessions
open Steps

/-- What a party has to do: write these chunks, or read. -/
inductive Job where
  | write (chunks : List (List UInt8))
  | read
  deriving DecidableEq

/-- How far a party is: it has an offset, and the chunks it has to write yet, or what it has
read. -/
inductive Phase where
  | idle
  | writing (off : Nat) (rest : List (List UInt8))
  | reading (off : Nat) (got : List UInt8)
  | done (got : List UInt8)
  deriving DecidableEq

/-- The party has the file open. -/
def Phase.Opened : Phase → Prop
  | .writing _ _ => True
  | .reading _ _ => True
  | _ => False

/-- Some bytes are to be written yet. -/
def Phase.Writes : Phase → Prop
  | .writing _ rest => rest.flatten ≠ []
  | _ => False

/-- A part has been read, and the end has not been reached. -/
def Phase.Began : Phase → Prop
  | .reading _ got => got ≠ []
  | _ => False

/-- What has been read is a beginning of `c`. -/
def Phase.Reads (c : List UInt8) : Phase → Prop
  | .reading _ got => got <+: c
  | _ => True

/-- The file, if there is one, and how far the parties are. -/
structure Shared (ι : Type) where
  content : Option (List UInt8)
  phase : ι → Phase

inductive Move (ι : Type) where
  | openWrite (i : ι)
  | write (i : ι)
  | close (i : ι)
  | openRead (i : ι)
  | read (i : ι)

/-- The bytes `old` after a write of `new` at `off`; a write of nothing does nothing. -/
def patch (old : List UInt8) (off : Nat) (new : List UInt8) : List UInt8 :=
  if new = [] then old else Posix.Host.overwrite old off new

variable {ι : Type} [DecidableEq ι]

/-- The moves. -/
inductive Step (jobs : ι → Job) : Shared ι → Move ι → Shared ι → Prop where
  | openWrite {s : Shared ι} {i : ι} {cs : List (List UInt8)} : s.phase i = .idle →
      jobs i = .write cs →
      Step jobs s (.openWrite i) ⟨some [], Function.update s.phase i (.writing 0 cs)⟩
  | write {s : Shared ι} {i : ι} {off : Nat} {c old : List UInt8} {cs : List (List UInt8)} :
      s.phase i = .writing off (c :: cs) → s.content = some old →
      Step jobs s (.write i)
        ⟨some (patch old off c), Function.update s.phase i (.writing (off + c.length) cs)⟩
  | close {s : Shared ι} {i : ι} {off : Nat} : s.phase i = .writing off [] →
      Step jobs s (.close i) ⟨s.content, Function.update s.phase i (.done [])⟩
  | openRead {s : Shared ι} {i : ι} {c : List UInt8} : s.phase i = .idle → jobs i = .read →
      s.content = some c →
      Step jobs s (.openRead i) ⟨s.content, Function.update s.phase i (.reading 0 [])⟩
  | read {s : Shared ι} {i : ι} {off len : Nat} {got c : List UInt8} :
      s.phase i = .reading off got →
      s.content = some c → (c.drop off).take len ≠ [] →
      Step jobs s (.read i) ⟨s.content, Function.update s.phase i
        (.reading (off + ((c.drop off).take len).length) (got ++ (c.drop off).take len))⟩
  | eof {s : Shared ι} {i : ι} {off len : Nat} {got c : List UInt8} : s.phase i = .reading off got →
      s.content = some c → 0 < len → (c.drop off).take len = [] →
      Step jobs s (.read i) ⟨s.content, Function.update s.phase i (.done got)⟩

/-- The move disturbs nobody. -/
def Calm (phase : ι → Phase) : Move ι → Prop
  | .openWrite _ => ∀ j, ¬ (phase j).Writes ∧ ¬ (phase j).Began
  | .read _ => ∀ j, ¬ (phase j).Writes
  | _ => True

/-- `d` is what the file held before, or what one of the parties has to write. -/
def Whole (jobs : ι → Job) (before : Option (List UInt8)) (d : List UInt8) : Prop :=
  before = some d ∨ ∃ i cs, jobs i = .write cs ∧ d = cs.flatten

/-! ### What calm moves keep -/

/-- What a phase says of its party. -/
def Lawful (jobs : ι → Job) (before : Option (List UInt8)) (i : ι) : Phase → Prop
  | .idle => True
  | .writing _ _ => ∃ cs, jobs i = .write cs
  | .reading off got => jobs i = .read ∧ off = got.length
  | .done d => jobs i = .read → Whole jobs before d

/-- The party `i` fills the file, at its end, and nobody else writes it or has read a part of it. -/
structure Busy (jobs : ι → Job) (s : Shared ι) (i : ι) : Prop where
  filling : ∃ off rest cs d, s.phase i = .writing off rest ∧ rest.flatten ≠ [] ∧
    jobs i = .write cs ∧
    s.content = some d ∧ off = d.length ∧ d ++ rest.flatten = cs.flatten
  alone : ∀ j, j ≠ i → ¬ (s.phase j).Writes
  unread : ∀ j, ¬ (s.phase j).Began

/-- Nobody writes the file: it is as before or what one of the parties had to write, and what has
been read is a beginning of it. -/
structure Quiet (jobs : ι → Job) (before : Option (List UInt8)) (s : Shared ι) : Prop where
  still : ∀ j, ¬ (s.phase j).Writes
  whole : (s.content = before ∧ ∀ j cs, jobs j = .write cs → s.phase j = .idle) ∨
    ∃ j cs, jobs j = .write cs ∧ s.content = some cs.flatten
  reads : ∀ c, s.content = some c → ∀ j, (s.phase j).Reads c

structure Inv (jobs : ι → Job) (before : Option (List UInt8)) (s : Shared ι) : Prop where
  lawful : ∀ i, Lawful jobs before i (s.phase i)
  content : (∃ i, Busy jobs s i) ∨ Quiet jobs before s

variable {jobs : ι → Job} {before : Option (List UInt8)} {s s' : Shared ι} {i : ι}

theorem Phase.Reads.of_not_began {p : Phase} (h : ¬ p.Began) (c : List UInt8) : p.Reads c := by
  cases p with
  | reading off got =>
      obtain rfl : got = [] := by simpa [Began] using h
      exact List.nil_prefix
  | idle => trivial
  | writing off rest => trivial
  | done got => trivial

omit [DecidableEq ι] in
theorem Busy.writes (h : Busy jobs s i) : (s.phase i).Writes := by
  obtain ⟨off, rest, cs, d, hp, hne, -⟩ := h.filling
  rw [hp]
  exact hne

omit [DecidableEq ι] in
/-- Where nobody writes, the file is quiet. -/
theorem Inv.quiet (h : Inv jobs before s) (hw : ∀ j, ¬ (s.phase j).Writes) : Quiet jobs before s :=
  h.content.resolve_left fun ⟨i, hi⟩ => hw i hi.writes

omit [DecidableEq ι] in
theorem Quiet.whole_of (h : Quiet jobs before s) {c : List UInt8} (hc : s.content = some c) :
    Whole jobs before c := by
  rcases h.whole with ⟨e, -⟩ | ⟨j, cs, hj, e⟩
  · exact .inl (e.symm.trans hc)
  · rw [hc] at e
    exact .inr ⟨j, cs, hj, Option.some.inj e⟩

omit [DecidableEq ι] in
/-- A party that has opened the file for writing and written `d` of it. -/
theorem Inv.of_writing {off : Nat} {rest cs : List (List UInt8)} {d : List UInt8}
    (hl : ∀ j, Lawful jobs before j (s.phase j)) (hp : s.phase i = .writing off rest)
    (hj : jobs i = .write cs) (hc : s.content = some d) (hoff : off = d.length)
    (hd : d ++ rest.flatten = cs.flatten) (halone : ∀ j, j ≠ i → ¬ (s.phase j).Writes)
    (hunread : ∀ j, ¬ (s.phase j).Began) : Inv jobs before s := by
  refine ⟨hl, ?_⟩
  by_cases hrest : rest.flatten = []
  · refine .inr ⟨fun j => ?_, .inr ⟨i, cs, hj, by rw [hc, ← hd, hrest, List.append_nil]⟩,
      fun c _ j =>
      .of_not_began (hunread j) c⟩
    rcases eq_or_ne j i with rfl | hne
    · rw [hp]
      exact not_not.mpr hrest
    · exact halone j hne
  · exact .inl ⟨i, ⟨off, rest, cs, d, hp, hrest, hj, hc, hoff, hd⟩, halone, hunread⟩

/-- A move of a party that does not write the file and does not begin to read it. -/
theorem Inv.of_idle {p : Phase} (h : Inv jobs before s) (hw : ¬ (s.phase i).Writes)
    (hp : ¬ p.Writes)
    (hb : ¬ p.Began) (hl : Lawful jobs before i p) (hidle : ∀ cs, jobs i = .write cs →
      s.phase i ≠ .idle) :
    Inv jobs before ⟨s.content, Function.update s.phase i p⟩ := by
  refine ⟨(Function.forall_update_iff _ fun j => Lawful jobs before j).mpr ⟨hl,
    fun j _ => h.lawful j⟩, ?_⟩
  rcases h.content with ⟨k, hk⟩ | hq
  · have hne : k ≠ i := by
      rintro rfl
      exact hw hk.writes
    refine .inl ⟨k, ⟨?_, ?_, ?_⟩⟩
    · simp only [Function.update_of_ne hne]
      exact hk.filling
    · intro j hj
      rcases eq_or_ne j i with rfl | hji
      · simpa using hp
      · simpa [Function.update_of_ne hji] using hk.alone j hj
    · exact (Function.forall_update_iff _ fun _ q => ¬ Phase.Began q).mpr ⟨hb,
        fun j _ => hk.unread j⟩
  · refine .inr ⟨?_, hq.whole.imp (And.imp_right fun hj j cs hjc => ?_) id, ?_⟩
    · exact (Function.forall_update_iff _ fun _ q => ¬ Phase.Writes q).mpr ⟨hp,
        fun j _ => hq.still j⟩
    · have hji : j ≠ i := by
        rintro rfl
        exact hidle cs hjc (hj j cs hjc)
      simp only [Function.update_of_ne hji]
      exact hj j cs hjc
    · intro c hc
      exact (Function.forall_update_iff _ fun _ q => Phase.Reads c q).mpr
        ⟨.of_not_began hb c, fun j _ => hq.reads c hc j⟩

theorem patch_length (old new : List UInt8) : patch old old.length new = old ++ new := by
  rw [patch]
  split
  · rename_i h
    rw [h, List.append_nil]
  · exact Posix.overwrite_length old new

/-- Opening the file for writing, when nobody is disturbed. -/
theorem Inv.openWrite {cs : List (List UInt8)} (h : Inv jobs before s) (hj : jobs i = .write cs)
    (hc : ∀ j, ¬ (s.phase j).Writes ∧ ¬ (s.phase j).Began) :
    Inv jobs before ⟨some [], Function.update s.phase i (.writing 0 cs)⟩ := by
  have hl := (Function.forall_update_iff s.phase fun j => Lawful jobs before j).mpr
    ⟨show Lawful jobs before i (.writing 0 cs) from ⟨cs, hj⟩, fun j _ => h.lawful j⟩
  refine Inv.of_writing hl (Function.update_self i _ _) hj rfl rfl rfl (fun j hji => ?_) ?_
  · simp only [Function.update_of_ne hji]
    exact (hc j).1
  · exact (Function.forall_update_iff _ fun _ q => ¬ Phase.Began q).mpr ⟨id, fun j _ => (hc j).2⟩

/-- A write of the party that fills the file, or of nothing. -/
theorem Inv.write {off : Nat} {c old : List UInt8} {cs : List (List UInt8)} (h : Inv jobs before s)
    (hp : s.phase i = .writing off (c :: cs)) (ho : s.content = some old) : Inv jobs before
      ⟨some (patch old off c), Function.update s.phase i (.writing (off + c.length) cs)⟩ := by
  have hlaw : Lawful jobs before i (.writing (off + c.length) cs) := by
    have := h.lawful i
    rwa [hp] at this
  by_cases hnil : (c :: cs).flatten = []
  · -- nothing is left to write
    obtain ⟨rfl, hcs⟩ := List.append_eq_nil_iff.mp hnil
    have hpatch : patch old off [] = old := if_pos rfl
    rw [hpatch, ← ho]
    exact h.of_idle (by rw [hp]; exact not_not.mpr hnil) (not_not.mpr hcs) id hlaw
      fun _ _ => by rw [hp]; simp
  · have hwrites : (s.phase i).Writes := by
      rw [hp]
      exact hnil
    obtain ⟨k, hk⟩ := h.content.resolve_right fun hq => hq.still i hwrites
    obtain rfl : i = k := by
      by_contra hne
      exact hk.alone i hne hwrites
    obtain ⟨off', rest, js, d, hp', -, hj, hd, hoff, hall⟩ := hk.filling
    rw [hp, Phase.writing.injEq] at hp'
    obtain ⟨rfl, rfl⟩ := hp'
    rw [ho, Option.some.injEq] at hd
    subst hd hoff
    rw [patch_length]
    have hl := (Function.forall_update_iff s.phase fun j => Lawful jobs before j).mpr
      ⟨hlaw, fun j _ => h.lawful j⟩
    refine Inv.of_writing hl (Function.update_self i _ _) hj rfl (by rw [List.length_append]) ?_
      (fun j hji => ?_) ?_
    · rw [← hall, List.flatten_cons, List.append_assoc]
    · simp only [Function.update_of_ne hji]
      exact hk.alone j hji
    · exact (Function.forall_update_iff _ fun _ q => ¬ Phase.Began q).mpr ⟨id,
        fun j _ => hk.unread j⟩

/-- What a reader has after it reads on. -/
theorem append_take_isPrefix {got c : List UInt8} (len : Nat) (h : got <+: c) :
    got ++ (c.drop got.length).take len <+: c := by
  obtain ⟨m, rfl⟩ := h
  rw [List.drop_left]
  exact (List.prefix_append_right_inj got).mpr (List.take_prefix len m)

/-- Reading on, while nobody writes. -/
theorem Inv.read {off len : Nat} {got c : List UInt8} (h : Inv jobs before s)
    (hp : s.phase i = .reading off got) (hc : s.content = some c) (hw : ∀ j, ¬ (s.phase j).Writes) :
    Inv jobs before ⟨s.content, Function.update s.phase i
      (.reading (off + ((c.drop off).take len).length) (got ++ (c.drop off).take len))⟩ := by
  have hq := h.quiet hw
  have hlaw := h.lawful i
  have hreads := hq.reads c hc i
  rw [hp] at hlaw hreads
  obtain ⟨hj, rfl⟩ := hlaw
  refine ⟨(Function.forall_update_iff _ fun j => Lawful jobs before j).mpr
    ⟨⟨hj, by rw [List.length_append]⟩, fun j _ => h.lawful j⟩, .inr ⟨?_, ?_, ?_⟩⟩
  · exact (Function.forall_update_iff _ fun _ q => ¬ Phase.Writes q).mpr ⟨id, fun j _ => hw j⟩
  · refine hq.whole.imp (And.imp_right fun hidle j cs hjc => ?_) id
    have hji : j ≠ i := by
      rintro rfl
      rw [hj] at hjc
      cases hjc
    simp only [Function.update_of_ne hji]
    exact hidle j cs hjc
  · intro c' hc'
    obtain rfl : c = c' := Option.some.inj (hc.symm.trans hc')
    exact (Function.forall_update_iff _ fun _ q => Phase.Reads c q).mpr
      ⟨append_take_isPrefix len hreads, fun j _ => hq.reads c hc j⟩

/-- Reaching the end, while nobody writes. -/
theorem Inv.eof {off len : Nat} {got c : List UInt8} (h : Inv jobs before s)
    (hp : s.phase i = .reading off got) (hc : s.content = some c) (hlen : 0 < len)
    (hnil : (c.drop off).take len = []) (hw : ∀ j, ¬ (s.phase j).Writes) :
    Inv jobs before ⟨s.content, Function.update s.phase i (.done got)⟩ := by
  have hq := h.quiet hw
  have hlaw := h.lawful i
  have hreads := hq.reads c hc i
  rw [hp] at hlaw hreads
  obtain ⟨hj, rfl⟩ := hlaw
  have hall : got = c := by
    obtain ⟨m, rfl⟩ := hreads
    rw [List.drop_left, List.take_eq_nil_iff] at hnil
    rw [hnil.resolve_left hlen.ne', List.append_nil]
  refine h.of_idle (hw i) id id (fun _ => hall ▸ hq.whole_of hc) fun cs hjc => ?_
  rw [hj] at hjc
  cases hjc

/-- **A calm move** keeps the invariant. -/
theorem Step.inv {m : Move ι} (hm : Step jobs s m s') (hc : Calm s.phase m)
    (h : Inv jobs before s) :
    Inv jobs before s' := by
  cases hm with
  | openWrite hp hj => exact h.openWrite hj hc
  | write hp ho => exact h.write hp ho
  | @close i off hp =>
      have hlaw := h.lawful i
      rw [hp] at hlaw
      obtain ⟨cs, hj⟩ := hlaw
      exact h.of_idle (by rw [hp]; exact not_not.mpr rfl) id id
        (fun hr => by rw [hj] at hr; cases hr) fun _ _ => by rw [hp]; simp
  | openRead hp hj hc =>
      exact h.of_idle (by rw [hp]; exact id) id (not_not.mpr rfl) ⟨hj, rfl⟩
        fun cs hjc => by rw [hj] at hjc; cases hjc
  | read hp hcont _ => exact h.read hp hcont hc
  | eof hp hcont hlen hnil => exact h.eof hp hcont hlen hnil hc

/-- When all are done, the file is what one of the writers had to write, if there is one, and every
reader got what the file held before or what one of the writers had to write. -/
def Atomic (jobs : ι → Job) (before : Option (List UInt8)) (s : Shared ι) : Prop :=
  (∀ i, ∃ d, s.phase i = .done d) →
    ((∃ i cs, jobs i = .write cs) → ∃ i cs, jobs i = .write cs ∧ s.content = some cs.flatten) ∧
    ∀ i d, jobs i = .read → s.phase i = .done d → Whole jobs before d

omit [DecidableEq ι] in
theorem Inv.atomic (h : Inv jobs before s) : Atomic jobs before s := by
  intro hdone
  have hstill : ∀ j, ¬ (s.phase j).Writes := fun j => by
    obtain ⟨d, hd⟩ := hdone j
    rw [hd]
    exact id
  refine ⟨fun ⟨i, cs, hi⟩ => ?_, fun i d hi hd => ?_⟩
  · rcases (h.quiet hstill).whole with ⟨-, hidle⟩ | hwhole
    · obtain ⟨d, hd⟩ := hdone i
      rw [hidle i cs hi] at hd
      cases hd
    · exact hwhole
  · have hlaw := h.lawful i
    rw [hd] at hlaw
    exact hlaw hi

omit [DecidableEq ι] in
/-- Before any move. -/
theorem Inv.start (jobs : ι → Job) (before : Option (List UInt8)) :
    Inv jobs before ⟨before, fun _ => .idle⟩ :=
  ⟨fun _ => trivial, .inr ⟨fun _ => id, .inl ⟨rfl, fun _ _ _ => rfl⟩, fun _ _ _ => trivial⟩⟩

/-- **Calm runs are atomic.** -/
theorem atomic_of_calm (h : Runs (Step jobs)
    (fun s m => Calm s.phase m) ⟨before, fun _ => .idle⟩ s) :
    Atomic jobs before s :=
  (h.inv (Q := Inv jobs before) (fun h hc hm => hm.inv hc h) (.start jobs before)).atomic

end Sessions
