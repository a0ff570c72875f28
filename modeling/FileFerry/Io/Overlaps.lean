import FileFerry.Io.Sessions

/-!
# Io — Overlaps

Parties that write one file and read it, whether or not they disturb each other.

* `Sourced`: where the bytes of the file come from: what a party has to write there, or, where two
  parties write, a zero.
* `Scattered`, `Step.scattered`: what every move keeps.
* `Scattered.settled`, `Scattered.settled_one`: what the file is when all are done.
-/

namespace Sessions
open Steps

/-- What holds of each byte, at its place. -/
def Everywhere (P : Nat → UInt8 → Prop) (d : List UInt8) : Prop := ∀ n b, d[n]? = some b → P n b

variable {ι : Type}

/-- A party has to write `b` at `n`; or it writes beyond `n`, another party writes too, and `b` is
zero. -/
def Sourced (jobs : ι → Job) (n : Nat) (b : UInt8) : Prop :=
  ∃ i cs, jobs i = .write cs ∧ (cs.flatten[n]? = some b ∨
    b = 0 ∧ n < cs.flatten.length ∧ ∃ j cs', j ≠ i ∧ jobs j = .write cs')

/-- …or the file had `b` at `n` before. -/
def Placed (jobs : ι → Job) (before : Option (List UInt8)) (n : Nat) (b : UInt8) : Prop :=
  (∃ d, before = some d ∧ d[n]? = some b) ∨ Sourced jobs n b

/-- What a phase says of its party. -/
def Holds (jobs : ι → Job) (before : Option (List UInt8)) (i : ι) : Phase → Prop
  | .idle => True
  | .writing off rest => ∃ past, jobs i = .write (past ++ rest) ∧ off = past.flatten.length
  | .reading off got => jobs i = .read ∧ off = got.length ∧ Everywhere (Placed jobs before) got
  | .done got => Everywhere (Placed jobs before) got

/-- The party has written as far as its offset, and the file is no shorter. -/
def Reaches (jobs : ι → Job) (n : Nat) (i : ι) : Phase → Prop
  | .writing off _ => off ≤ n
  | .done _ => ∃ cs, jobs i = .write cs ∧ cs.flatten.length ≤ n
  | _ => False

/-- The file is as before, and no party has opened it for writing; or every byte of it is a party's,
and one of those that have opened it reaches no further than its end. -/
structure Scattered (jobs : ι → Job) (before : Option (List UInt8)) (s : Shared ι) : Prop where
  holds : ∀ i, Holds jobs before i (s.phase i)
  content : (s.content = before ∧ ∀ j cs, jobs j = .write cs → s.phase j = .idle) ∨
    ∃ c, s.content = some c ∧ Everywhere (Sourced jobs) c ∧
      ∃ j cs, jobs j = .write cs ∧ Reaches jobs c.length j (s.phase j)

/-! ### Writes at an offset -/

/-- A byte of the file after a write was there, or is written, or fills what lies between. -/
theorem patch_get {old new : List UInt8} {off n : Nat} {b : UInt8}
    (h : (patch old off new)[n]? = some b) :
    old[n]? = some b ∨ off ≤ n ∧ new[n - off]? = some b ∨ b = 0 ∧ old.length ≤ n ∧ n < off := by
  rw [patch] at h
  split at h
  · exact .inl h
  · rw [Posix.Host.overwrite, List.append_assoc] at h
    have hpad : ((old ++ List.replicate (off - old.length) 0).take off).length = off := by
      rw [List.length_take, List.length_append, List.length_replicate]
      omega
    rcases lt_or_ge n off with hn | hn
    · rw [List.getElem?_append_left (by rw [hpad]; exact hn), List.getElem?_take, if_pos hn] at h
      rcases lt_or_ge n old.length with ho | ho
      · rw [List.getElem?_append_left ho] at h
        exact .inl h
      · rw [List.getElem?_append_right ho] at h
        exact .inr (.inr ⟨(List.eq_of_mem_replicate (List.mem_of_getElem? h)), ho, hn⟩)
    · rw [List.getElem?_append_right (by rw [hpad]; exact hn), hpad] at h
      rcases lt_or_ge (n - off) new.length with hw | hw
      · rw [List.getElem?_append_left hw] at h
        exact .inr (.inl ⟨hn, h⟩)
      · rw [List.getElem?_append_right hw, List.getElem?_drop] at h
        have hplace : off + new.length + (n - off - new.length) = n := by omega
        rw [hplace] at h
        exact .inl h

theorem patch_length_eq {old new : List UInt8} (off : Nat) (hne : new ≠ []) :
    (patch old off new).length = max old.length (off + new.length) := by
  rw [patch, if_neg hne, Posix.Host.overwrite]
  simp only [List.length_append, List.length_take, List.length_replicate, List.length_drop]
  omega

theorem le_patch (old new : List UInt8) (off : Nat) : old.length ≤ (patch old off new).length := by
  by_cases hne : new = []
  · rw [patch, if_pos hne]
  · rw [patch_length_eq off hne]
    exact le_max_left _ _

theorem reach_patch {old : List UInt8} (new : List UInt8) {off : Nat} (h : off ≤ old.length) :
    off + new.length ≤ (patch old off new).length := by
  by_cases hne : new = []
  · rw [patch, if_pos hne, hne]
    exact h
  · rw [patch_length_eq off hne]
    exact le_max_right _ _

/-! ### What every move keeps -/

variable [DecidableEq ι] {jobs : ι → Job} {before : Option (List UInt8)} {s s' : Shared ι} {i : ι}

omit [DecidableEq ι] in
theorem Reaches.mono {n m : Nat} {p : Phase} (h : Reaches jobs n i p) (hle : n ≤ m) :
    Reaches jobs m i p := by
  cases p with
  | writing off rest => exact le_trans h hle
  | done got =>
      obtain ⟨cs, hj, hlen⟩ := h
      exact ⟨cs, hj, hlen.trans hle⟩
  | idle => exact h
  | reading off got => exact h

omit [DecidableEq ι] in
/-- The bytes of the file are placed. -/
theorem Scattered.placed (h : Scattered jobs before s) {d : List UInt8} (hd : s.content = some d) :
    Everywhere (Placed jobs before) d := by
  intro n b hb
  rcases h.content with ⟨e, -⟩ | ⟨c, hc, hs, -⟩
  · exact .inl ⟨d, e.symm.trans hd, hb⟩
  · obtain rfl : c = d := Option.some.inj (hc.symm.trans hd)
    exact .inr (hs n b hb)

/-- A move of a party that reads. -/
theorem Scattered.of_reader {p : Phase} (h : Scattered jobs before s) (hj : jobs i = .read)
    (hp : Holds jobs before i p) : Scattered jobs before ⟨s.content,
      Function.update s.phase i p⟩ := by
  have hne : ∀ {j cs}, jobs j = .write cs → j ≠ i := by
    rintro j cs hjc rfl
    rw [hj] at hjc
    cases hjc
  refine ⟨(Function.forall_update_iff _ fun j => Holds jobs before j).mpr ⟨hp,
    fun j _ => h.holds j⟩, ?_⟩
  rcases h.content with ⟨e, hidle⟩ | ⟨c, hc, hs, j, cs, hjc, hr⟩
  · refine .inl ⟨e, fun j cs hjc => ?_⟩
    simp only [Function.update_of_ne (hne hjc)]
    exact hidle j cs hjc
  · refine .inr ⟨c, hc, hs, j, cs, hjc, ?_⟩
    simp only [Function.update_of_ne (hne hjc)]
    exact hr

omit [DecidableEq ι] in
/-- A party that has the file open for writing finds it a party's already. -/
theorem Scattered.opened {off : Nat} {rest : List (List UInt8)} (h : Scattered jobs before s)
    (hp : s.phase i = .writing off rest) : ∃ past c, jobs i = .write (past ++ rest) ∧
      off = past.flatten.length ∧ s.content = some c ∧ Everywhere (Sourced jobs) c ∧
        ∃ j cs, jobs j = .write cs ∧ Reaches jobs c.length j (s.phase j) := by
  have hi := h.holds i
  rw [hp] at hi
  obtain ⟨past, hj, hoff⟩ := hi
  rcases h.content with ⟨-, hidle⟩ | ⟨c, hc⟩
  · rw [hidle i _ hj] at hp
    cases hp
  · exact ⟨past, c, hj, hoff, hc⟩

/-- Opening the file for writing. -/
theorem Scattered.openWrite {cs : List (List UInt8)} (h : Scattered jobs before s)
    (hj : jobs i = .write cs) :
    Scattered jobs before ⟨some [], Function.update s.phase i (.writing 0 cs)⟩ := by
  refine ⟨(Function.forall_update_iff _ fun j => Holds jobs before j).mpr
    ⟨⟨[], hj, rfl⟩, fun j _ => h.holds j⟩, .inr ⟨[], rfl, fun n b hb => ?_, i, cs, hj, ?_⟩⟩
  · cases hb
  · simp only [Function.update_self]
    exact Nat.le_refl 0

omit [DecidableEq ι] in
/-- The bytes of the file after a write are a party's: where the write leaves a gap, the party that
reaches no further than the end of the file is another. -/
theorem Scattered.sourced_patch {past rest : List (List UInt8)} {c old : List UInt8} {j : ι}
    {cs : List (List UInt8)} (hj : jobs i = .write (past ++ c :: rest))
    (hp : s.phase i = .writing past.flatten.length (c :: rest)) (hs : Everywhere (Sourced jobs) old)
    (hjc : jobs j = .write cs) (hr : Reaches jobs old.length j (s.phase j)) :
    Everywhere (Sourced jobs) (patch old past.flatten.length c) := by
  have hall : (past ++ c :: rest).flatten = past.flatten ++ (c ++ rest.flatten) := by simp
  intro n b hb
  rcases patch_get hb with hb | ⟨hn, hb⟩ | ⟨rfl, hold, hn⟩
  · exact hs n b hb
  · refine ⟨i, _, hj, .inl ?_⟩
    rw [hall, List.getElem?_append_right hn,
      List.getElem?_append_left (List.getElem?_eq_some_iff.mp hb).1]
    exact hb
  · have hne : j ≠ i := by
      rintro rfl
      rw [hp] at hr
      exact absurd (le_trans hr hold) (not_le.mpr hn)
    refine ⟨i, _, hj, .inr ⟨rfl, ?_, j, cs, hne, hjc⟩⟩
    rw [hall, List.length_append]
    omega

/-- A write, at the party's own offset. -/
theorem Scattered.write {off : Nat} {c old : List UInt8} {rest : List (List UInt8)}
    (h : Scattered jobs before s) (hp : s.phase i = .writing off (c :: rest))
    (ho : s.content = some old) :
    Scattered jobs before
      ⟨some (patch old off c), Function.update s.phase i (.writing (off + c.length) rest)⟩ := by
  obtain ⟨past, d, hj, rfl, hd, hs, j, cs, hjc, hr⟩ := h.opened hp
  obtain rfl : d = old := Option.some.inj (hd.symm.trans ho)
  refine ⟨(Function.forall_update_iff _ fun j => Holds jobs before j).mpr
    ⟨⟨past ++ [c], by simpa using hj, by simp⟩, fun j _ => h.holds j⟩,
    .inr ⟨_, rfl, Scattered.sourced_patch hj hp hs hjc hr, j, cs, hjc, ?_⟩⟩
  rcases eq_or_ne j i with rfl | hne
  · rw [hp] at hr
    simp only [Function.update_self]
    exact reach_patch c hr
  · simp only [Function.update_of_ne hne]
    exact hr.mono (le_patch d c _)

/-- Closing the file, all being written. -/
theorem Scattered.close {off : Nat} (h : Scattered jobs before s)
    (hp : s.phase i = .writing off []) :
    Scattered jobs before ⟨s.content, Function.update s.phase i (.done [])⟩ := by
  obtain ⟨past, d, hj, rfl, hd, hs, j, cs, hjc, hr⟩ := h.opened hp
  rw [List.append_nil] at hj
  refine ⟨(Function.forall_update_iff _ fun j => Holds jobs before j).mpr
    ⟨fun n b hb => (by cases hb), fun j _ => h.holds j⟩, .inr ⟨d, hd, hs, j, cs, hjc, ?_⟩⟩
  rcases eq_or_ne j i with rfl | hne
  · rw [hp] at hr
    simp only [Function.update_self]
    exact ⟨past, hj, hr⟩
  · simp only [Function.update_of_ne hne]
    exact hr

/-- Reading on. -/
theorem Scattered.read {off len : Nat} {got c : List UInt8} (h : Scattered jobs before s)
    (hp : s.phase i = .reading off got) (hc : s.content = some c) :
    Scattered jobs before ⟨s.content, Function.update s.phase i
      (.reading (off + ((c.drop off).take len).length) (got ++ (c.drop off).take len))⟩ := by
  have hi := h.holds i
  rw [hp] at hi
  obtain ⟨hj, rfl, hgot⟩ := hi
  refine h.of_reader hj ⟨hj, by rw [List.length_append], fun n b hb => ?_⟩
  rcases lt_or_ge n got.length with hn | hn
  · rw [List.getElem?_append_left hn] at hb
    exact hgot n b hb
  · rw [List.getElem?_append_right hn, List.getElem?_take] at hb
    split at hb
    · rw [List.getElem?_drop, Nat.add_sub_cancel' hn] at hb
      exact h.placed hc n b hb
    · cases hb

/-- **Every move** keeps the bytes in their places. -/
theorem Step.scattered {m : Move ι} (hm : Step jobs s m s') (h : Scattered jobs before s) :
    Scattered jobs before s' := by
  cases hm with
  | openWrite _ hj => exact h.openWrite hj
  | write hp ho => exact h.write hp ho
  | close hp => exact h.close hp
  | openRead _ hj _ => exact h.of_reader hj ⟨hj, rfl, fun n b hb => by cases hb⟩
  | read hp hc _ => exact h.read hp hc
  | @eof i off len got c hp _ _ _ =>
      have hi := h.holds i
      rw [hp] at hi
      exact h.of_reader hi.1 hi.2.2

omit [DecidableEq ι] in
theorem Scattered.start (jobs : ι → Job) (before : Option (List UInt8)) :
    Scattered jobs before ⟨before, fun _ => .idle⟩ :=
  ⟨fun _ => trivial, .inl ⟨rfl, fun _ _ _ => rfl⟩⟩

omit [DecidableEq ι] in
/-- When all are done, and one of them wrote, the file has the bytes of those that wrote, and is no
shorter than what one of them wrote. -/
theorem Scattered.settled (h : Scattered jobs before s) (hdone : ∀ i, ∃ d, s.phase i = .done d)
    (hw : ∃ i cs, jobs i = .write cs) : ∃ c, s.content = some c ∧ Everywhere (Sourced jobs) c ∧
      ∃ i cs, jobs i = .write cs ∧ cs.flatten.length ≤ c.length := by
  rcases h.content with ⟨-, hidle⟩ | ⟨c, hc, hs, j, cs, hjc, hr⟩
  · obtain ⟨i, cs, hi⟩ := hw
    obtain ⟨d, hd⟩ := hdone i
    rw [hidle i cs hi] at hd
    cases hd
  · obtain ⟨d, hd⟩ := hdone j
    rw [hd] at hr
    obtain ⟨cs', hj, hle⟩ := hr
    exact ⟨c, hc, hs, j, cs', hj, hle⟩

omit [DecidableEq ι] in
/-- …and if one party writes, it has just its bytes. -/
theorem Scattered.settled_one (h : Scattered jobs before s) (hdone : ∀ i, ∃ d, s.phase i = .done d)
    {cs : List (List UInt8)} (hi : jobs i = .write cs)
    (hone : ∀ j cs', jobs j = .write cs' → j = i) :
    s.content = some cs.flatten := by
  obtain ⟨d, hd, hs, j, cs', hj, hle⟩ := h.settled hdone ⟨i, cs, hi⟩
  have hsame : ∀ {k ds}, jobs k = .write ds → ds = cs := by
    intro k ds hk
    rw [hone k ds hk, hi] at hk
    exact (Job.write.inj hk).symm
  have hbytes : ∀ (n : Nat) (b : UInt8), d[n]? = some b → cs.flatten[n]? = some b := by
    intro n b hb
    obtain ⟨k, ds, hk, hb' | ⟨-, -, j', cs'', hne, hj'⟩⟩ := hs n b hb
    · rwa [hsame hk] at hb'
    · exact absurd ((hone j' cs'' hj').trans (hone k ds hk).symm) hne
  rw [hsame hj] at hle
  rw [hd]
  refine congrArg some (List.ext_getElem? fun n => ?_)
  rcases lt_or_ge n d.length with hn | hn
  · rw [List.getElem?_eq_getElem hn]
    exact (hbytes n _ (List.getElem?_eq_getElem hn)).symm
  · rw [List.getElem?_eq_none hn, List.getElem?_eq_none (hle.trans hn)]

/-- **Whatever the order of the moves**, the bytes keep their places. -/
theorem scattered_of_runs (h : Runs (Step jobs) (fun _ _ => True) ⟨before, fun _ => .idle⟩ s) :
    Scattered jobs before s :=
  h.inv (Q := Scattered jobs before) (fun h _ hm => hm.scattered h) (.start jobs before)

end Sessions
