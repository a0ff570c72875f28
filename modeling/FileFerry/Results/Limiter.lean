import FileFerry.Io.Polls
import FileFerry.Source.Backend

/-!
# Results — Limiter

The reader that caps a transfer, over any reader and any sequence of polls.

* `pollRead_within`, `pollRead_over`, `pollRead_capped`: what one poll does, by where the counter
  stands.
* `polls_within`: up to the cap the polls answer as those of the inner reader do.
* `limitedReader_run`: what a run of polls delivers, and what it leaves alone.
-/

namespace FileFerry
open AsyncIo

namespace LimitedReader

variable {R : Type} [AsyncRead R]

/-! ### One poll -/

/-- The cap error of a poll is the wrapper's own, not one the inner reader happens to give. -/
def CapRaised (l : LimitedReader R) (b : ReadBuf) : Prop :=
  (AsyncIo.pollRead l b).poll = .ready (.error (capError l.max)) ∧
    (l.counter ≤ l.max → (AsyncIo.pollRead l.inner b).poll ≠ .ready (.error (capError l.max)))

/-- **Over the cap** the inner reader is not polled. -/
theorem pollRead_capped {l : LimitedReader R} (b : ReadBuf) (h : l.max < l.counter) :
    AsyncIo.pollRead l b = ⟨.ready (.error (capError l.max)), l, b⟩ := if_pos h

theorem pollRead_other {l : LimitedReader R} {b : ReadBuf} (hcap : l.counter ≤ l.max)
    (hok : (AsyncIo.pollRead l.inner b).poll ≠ .ready (.ok ())) :
    AsyncIo.pollRead l b = ⟨(AsyncIo.pollRead l.inner b).poll,
      ⟨(AsyncIo.pollRead l.inner b).reader, l.max, l.counter⟩,
      (AsyncIo.pollRead l.inner b).buf⟩ := by
  show LimitedReader.pollRead l b = _
  rw [LimitedReader.pollRead, if_neg (Nat.not_lt.mpr hcap)]
  simp only

/-- Bytes within the cap are counted and kept, and bytes over it are counted and taken back. -/
theorem pollRead_ok (h : Appends R) {l : LimitedReader R} {b : ReadBuf} (hcap : l.counter ≤ l.max)
    (hok : (AsyncIo.pollRead l.inner b).poll = .ready (.ok ())) :
    AsyncIo.pollRead l b =
      let p := AsyncIo.pollRead l.inner b
      let total := (l.counter + (p.appended b).length) % 2 ^ 64
      if l.max < total then
        ⟨.ready (.error (capError l.max)), ⟨p.reader, l.max, total⟩,
          p.buf.setFilled b.filled.length⟩
      else ⟨.ready (.ok ()), ⟨p.reader, l.max, total⟩, p.buf⟩ := by
  have hadded : (AsyncIo.pollRead l.inner b).buf.filled.length - b.filled.length
      = ((AsyncIo.pollRead l.inner b).appended b).length := by
    rw [h.filled l.inner b, List.length_append, Nat.add_sub_cancel_left]
  show LimitedReader.pollRead l b = _
  rw [LimitedReader.pollRead, if_neg (Nat.not_lt.mpr hcap)]
  simp only [hok, hadded]

/-- **The wrapper appends** as the inner reader does. -/
theorem appends (h : Appends R) : Appends (LimitedReader R) where
  ok l b hok := by
    by_cases hcap : l.counter ≤ l.max
    · by_cases hin : (AsyncIo.pollRead l.inner b).poll = .ready (.ok ())
      · rw [pollRead_ok h hcap hin] at hok ⊢
        dsimp only at hok ⊢
        split at hok
        · cases hok
        · rename_i hle
          rw [if_neg hle]
          exact h.ok l.inner b hin
      · rw [pollRead_other hcap hin] at hok
        exact absurd hok hin
    · rw [pollRead_capped b (Nat.not_le.mp hcap)] at hok
      cases hok
  other l b hok := by
    by_cases hcap : l.counter ≤ l.max
    · by_cases hin : (AsyncIo.pollRead l.inner b).poll = .ready (.ok ())
      · rw [pollRead_ok h hcap hin] at hok ⊢
        dsimp only at hok ⊢
        split at hok
        · rename_i hlt
          -- what was appended is taken back
          rw [if_pos hlt, ReadBuf.setFilled_filled, h.filled l.inner b, List.take_left]
        · exact absurd rfl hok
      · rw [pollRead_other hcap hin]
        exact h.other l.inner b hin
    · rw [pollRead_capped b (Nat.not_le.mp hcap)]

theorem pollRead_max (h : Appends R) (l : LimitedReader R) (b : ReadBuf) :
    (AsyncIo.pollRead l b).reader.max = l.max := by
  by_cases hcap : l.counter ≤ l.max
  · by_cases hin : (AsyncIo.pollRead l.inner b).poll = .ready (.ok ())
    · rw [pollRead_ok h hcap hin]
      dsimp only
      split
      · rfl
      · rfl
    · rw [pollRead_other hcap hin]
  · rw [pollRead_capped b (Nat.not_le.mp hcap)]

/-- Once the wrapper has raised its error, the counter is over the cap. -/
theorem CapRaised.over (h : Appends R) {l : LimitedReader R} {b : ReadBuf}
    (hraised : CapRaised l b) :
    l.max < (AsyncIo.pollRead l b).reader.counter := by
  obtain ⟨herror, hown⟩ := hraised
  by_cases hcap : l.counter ≤ l.max
  · by_cases hin : (AsyncIo.pollRead l.inner b).poll = .ready (.ok ())
    · rw [pollRead_ok h hcap hin] at herror ⊢
      dsimp only at herror ⊢
      split at herror
      · rename_i hlt
        rw [if_pos hlt]
        exact hlt
      · cases herror
    · rw [pollRead_other hcap hin] at herror
      exact absurd herror (hown hcap)
  · rw [pollRead_capped b (Nat.not_le.mp hcap)]
    exact Nat.not_le.mp hcap

/-- **A poll within the cap** is the inner reader's. -/
theorem pollRead_within (h : Appends R) {l : LimitedReader R} {b : ReadBuf}
    (hcap : l.counter + ((AsyncIo.pollRead l.inner b).appended b).length ≤ l.max)
    (htotal : l.counter + ((AsyncIo.pollRead l.inner b).appended b).length < 2 ^ 64) :
    AsyncIo.pollRead l b = ⟨(AsyncIo.pollRead l.inner b).poll,
      ⟨(AsyncIo.pollRead l.inner b).reader, l.max,
        l.counter + ((AsyncIo.pollRead l.inner b).appended b).length⟩,
      (AsyncIo.pollRead l.inner b).buf⟩ := by
  have hle : l.counter ≤ l.max := (Nat.le_add_right _ _).trans hcap
  by_cases hin : (AsyncIo.pollRead l.inner b).poll = .ready (.ok ())
  · rw [pollRead_ok h hle hin]
    simp only [Nat.mod_eq_of_lt htotal, if_neg (Nat.not_lt.mpr hcap), hin]
  · rw [pollRead_other hle hin, Polled.appended_other hin]
    rfl

/-- A poll that brings the counter over the cap. -/
theorem pollRead_over (h : Appends R) {l : LimitedReader R} {b : ReadBuf} (hle : l.counter ≤ l.max)
    (hover : l.max < l.counter + ((AsyncIo.pollRead l.inner b).appended b).length)
    (htotal : l.counter + ((AsyncIo.pollRead l.inner b).appended b).length < 2 ^ 64) :
    (AsyncIo.pollRead l b).poll = .ready (.error (capError l.max)) ∧
      (AsyncIo.pollRead l b).reader.max < (AsyncIo.pollRead l b).reader.counter := by
  have hin : (AsyncIo.pollRead l.inner b).poll = .ready (.ok ()) := by
    by_contra hin
    rw [Polled.appended_other hin] at hover
    exact absurd hle (Nat.not_le.mpr hover)
  rw [pollRead_ok h hle hin]
  simp only [Nat.mod_eq_of_lt htotal, if_pos hover]
  exact ⟨trivial, hover⟩

/-! ### A run of polls -/

/-- **Over the cap** every poll gives the error. -/
theorem polls_capped {l : LimitedReader R} (h : l.max < l.counter) : ∀ bs : List ReadBuf,
    polls l bs = (bs.map fun b => (.ready (.error (capError l.max)), b), l) ∧ delivered l bs = []
  | [] => ⟨rfl, rfl⟩
  | b :: bs => by
      obtain ⟨hpolls, hdelivered⟩ := polls_capped h bs
      rw [polls, delivered, pollRead_capped b h]
      exact ⟨by simp only [hpolls, List.map_cons], hdelivered⟩

theorem polls_max (h : Appends R) : ∀ (bs : List ReadBuf) (l : LimitedReader R),
    (polls l bs).2.max = l.max
  | [], _ => rfl
  | b :: bs, l => (polls_max h bs _).trans (pollRead_max h l b)

/-- **Up to the cap** the polls are those of the inner reader. -/
theorem polls_within (h : Appends R) (max : Nat) : ∀ (bs : List ReadBuf) (r : R) (count : Nat),
    count + (delivered r bs).length ≤ max → count + (delivered r bs).length < 2 ^ 64 →
      polls (⟨r, max, count⟩ : LimitedReader R) bs
          = ((polls r bs).1, ⟨(polls r bs).2, max, count + (delivered r bs).length⟩) ∧
        delivered (⟨r, max, count⟩ : LimitedReader R) bs = delivered r bs
  | [], _, _, _, _ => ⟨rfl, rfl⟩
  | b :: bs, r, count, hcap, htotal => by
      rw [delivered, List.length_append, ← Nat.add_assoc] at hcap htotal
      have hpoll := pollRead_within h (l := ⟨r, max, count⟩) (b := b)
        ((Nat.le_add_right _ _).trans hcap) ((Nat.le_add_right _ _).trans_lt htotal)
      obtain ⟨hpolls, hdelivered⟩ :=
        polls_within h max bs (AsyncIo.pollRead r b).reader _ hcap htotal
      constructor
      · rw [polls, hpoll]
        simp only [polls, hpolls, delivered, List.length_append, Nat.add_assoc]
      · rw [delivered, hpoll]
        simp only [hdelivered, delivered]
        rfl

/-- **What is delivered** begins what the inner reader delivers, and keeps to the cap. -/
theorem delivered_isPrefix (h : Appends R) (max : Nat) : ∀ (bs : List ReadBuf)
    (r : R) (count : Nat),
    count ≤ max → count + (delivered r bs).length < 2 ^ 64 →
      delivered (⟨r, max, count⟩ : LimitedReader R) bs <+: delivered r bs ∧
        count + (delivered (⟨r, max, count⟩ : LimitedReader R) bs).length ≤ max
  | [], _, _, hle, _ => ⟨List.prefix_refl _, hle⟩
  | b :: bs, r, count, hle, htotal => by
      rw [delivered, List.length_append, ← Nat.add_assoc] at htotal
      have hhead := (Nat.le_add_right _ _).trans_lt htotal
      by_cases hcap : count + ((AsyncIo.pollRead r b).appended b).length ≤ max
      · obtain ⟨hpre, hlen⟩ :=
          delivered_isPrefix h max bs (AsyncIo.pollRead r b).reader _ hcap htotal
        have hcons : delivered (⟨r, max, count⟩ : LimitedReader R) (b :: bs)
            = (AsyncIo.pollRead r b).appended b ++ delivered (⟨(AsyncIo.pollRead r b).reader, max,
              count + ((AsyncIo.pollRead r b).appended b).length⟩ : LimitedReader R) bs := by
          rw [delivered, pollRead_within h (l := ⟨r, max, count⟩) hcap hhead]
          rfl
        rw [hcons, delivered, List.length_append, ← Nat.add_assoc]
        exact ⟨(List.prefix_append_right_inj _).mpr hpre, hlen⟩
      · obtain ⟨herror, hover⟩ :=
          pollRead_over h (l := ⟨r, max, count⟩) hle (Nat.not_le.mp hcap) hhead
        have hnil : delivered (⟨r, max, count⟩ : LimitedReader R) (b :: bs) = [] := by
          rw [delivered, (polls_capped hover bs).2, Polled.appended, herror]
          rfl
        rw [hnil]
        exact ⟨List.nil_prefix, hle⟩

/-- A poll that is not ready with bytes leaves its buffer alone, all through a run. -/
theorem polls_leave {S : Type} [AsyncRead S] (h : Appends S) : ∀ (bs : List ReadBuf) (s : S),
    List.Forall₂ (fun b o => o.1 ≠ .ready (.ok ()) → o.2.filled = b.filled) bs (polls s bs).1
  | [], _ => .nil
  | b :: bs, s => .cons (h.other s b) (polls_leave h bs _)

/-- **The reader that caps a transfer**, over any reader and any polls.  It delivers a prefix of
what the inner reader delivers, within the cap; a poll that fails or waits leaves its buffer alone;
up to the cap it answers as the inner reader does, and counts what it delivers; and once it has
raised its error it raises it in every poll, and does not poll the inner reader. -/
theorem limitedReader_run (h : Appends R) (r : R) (max : Nat) (bs : List ReadBuf)
    (htotal : (delivered r bs).length < 2 ^ 64) :
    (delivered (new r max) bs <+: delivered r bs ∧ (delivered (new r max) bs).length ≤ max) ∧
    List.Forall₂ (fun b o => o.1 ≠ .ready (.ok ()) → o.2.filled = b.filled) bs
      (polls (new r max) bs).1 ∧
    ((delivered r bs).length ≤ max → (polls (new r max) bs).1 = (polls r bs).1 ∧
      (polls (new r max) bs).2.inner = (polls r bs).2 ∧
      (polls (new r max) bs).2.counter = (delivered (new r max) bs).length) ∧
    ∀ first b rest, bs = first ++ b :: rest → CapRaised (polls (new r max) first).2 b →
      polls (new r max) bs = ((polls (new r max) (first ++ [b])).1
          ++ rest.map fun b => (.ready (.error (capError max)), b),
        (polls (new r max) (first ++ [b])).2) := by
  refine ⟨?_, polls_leave (appends h) bs _, fun hcap => ?_, fun first b rest e hraised => ?_⟩
  · obtain ⟨hpre, hlen⟩ := delivered_isPrefix h max bs r 0 (Nat.zero_le _) (by omega)
    exact ⟨hpre, by rwa [Nat.zero_add] at hlen⟩
  · obtain ⟨hpolls, hdelivered⟩ := polls_within h max bs r 0 (by omega) (by omega)
    rw [new, hpolls, hdelivered, Nat.zero_add]
    exact ⟨rfl, rfl, rfl⟩
  · have hlast : (polls (new r max) (first ++ [b])).2
        = (AsyncIo.pollRead (polls (new r max) first).2 b).reader := by
      rw [polls_append]
      rfl
    have hmax : (polls (new r max) (first ++ [b])).2.max = max := polls_max h _ _
    have hfirst : (polls (new r max) first).2.max = max := polls_max h _ _
    have hover : (polls (new r max) (first ++ [b])).2.max
        < (polls (new r max) (first ++ [b])).2.counter := by
      rw [hmax, hlast]
      exact lt_of_eq_of_lt hfirst.symm (hraised.over h)
    rw [e, List.append_cons, polls_append, (polls_capped hover rest).1, hmax]

/-- Five bytes under a cap of three, polled with buffers of two: the third poll goes over. -/
def fiveBytes : Script := ⟨[.data 1 [2], .pending 7, .data 3 [4, 5]], 0⟩

def twoRoom : ReadBuf := .of [] 1

theorem limitedReader_run_five :
    (delivered (new fiveBytes 3) (List.replicate 4 twoRoom)).length ≤ 3 ∧
    polls (new fiveBytes 3) (List.replicate 4 twoRoom)
      = ((polls (new fiveBytes 3) (List.replicate 3 twoRoom)).1
          ++ [(.ready (.error (capError 3)), twoRoom)],
        (polls (new fiveBytes 3) (List.replicate 3 twoRoom)).2) := by
  obtain ⟨⟨-, hlen⟩, -, -, hcapped⟩ := limitedReader_run Script.appends fiveBytes 3
    (List.replicate 4 twoRoom) (by decide)
  exact ⟨hlen, hcapped (List.replicate 2 twoRoom) twoRoom [twoRoom] rfl ⟨rfl,
    fun _ h => by cases h⟩⟩

end LimitedReader

end FileFerry
