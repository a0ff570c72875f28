import FileFerry.Io.Reader

/-!
# Io — Polls

A reader polled again and again, each time with a buffer of the caller's choice.

* `Appends R`: a poll appends to the buffer when it is ready, and leaves it alone otherwise.
* `polls`, `delivered`: the answers to a list of polls, and the bytes they appended.
-/

namespace AsyncIo

variable {R : Type}

/-- What `AsyncRead` asks of a reader: bytes come with the answer `Ok` only, after those there. -/
structure Appends (R : Type) [AsyncRead R] : Prop where
  ok : ∀ (r : R) (b : ReadBuf), (pollRead r b).poll = .ready (.ok ()) →
    b.filled <+: (pollRead r b).buf.filled
  other : ∀ (r : R) (b : ReadBuf), (pollRead r b).poll ≠ .ready (.ok ()) →
    (pollRead r b).buf.filled = b.filled

/-- What a poll that was ready has appended to the buffer. -/
def Polled.appended (b : ReadBuf) (p : Polled R) : List UInt8 :=
  match p.poll with
  | .ready (.ok ()) => p.buf.filled.drop b.filled.length
  | _ => []

theorem Polled.appended_ok {b : ReadBuf} {p : Polled R} (h : p.poll = .ready (.ok ())) :
    p.appended b = p.buf.filled.drop b.filled.length := by
  rw [appended, h]

theorem Polled.appended_other {b : ReadBuf} {p : Polled R} (h : p.poll ≠ .ready (.ok ())) :
    p.appended b = [] := by
  rw [appended]
  split
  · contradiction
  · rfl

variable [AsyncRead R]

/-- The answers to polls with the buffers, and the reader after them. -/
def polls : R → List ReadBuf → List (Poll × ReadBuf) × R
  | r, [] => ([], r)
  | r, b :: bs =>
    let p := pollRead r b
    let q := polls p.reader bs
    ((p.poll, p.buf) :: q.1, q.2)

/-- What polls with the buffers append to them. -/
def delivered : R → List ReadBuf → List UInt8
  | _, [] => []
  | r, b :: bs => (pollRead r b).appended b ++ delivered (pollRead r b).reader bs

/-- A poll that was not ready to give bytes has appended none; one that was has appended what the
buffer is longer by. -/
theorem Appends.filled (h : Appends R) (r : R) (b : ReadBuf) :
    (pollRead r b).buf.filled = b.filled ++ (pollRead r b).appended b := by
  by_cases hok : (pollRead r b).poll = .ready (.ok ())
  · obtain ⟨a, ha⟩ := h.ok r b hok
    rw [Polled.appended_ok hok, ← ha, List.drop_left]
  · rw [Polled.appended_other hok, List.append_nil, h.other r b hok]

theorem polls_append (r : R) (as bs : List ReadBuf) :
    polls r (as ++ bs) = ((polls r as).1 ++ (polls (polls r as).2 bs).1,
      (polls (polls r as).2 bs).2) := by
  induction as generalizing r with
  | nil => rfl
  | cons a as ih =>
      simp only [List.cons_append, polls, ih]

/-- A script is such a reader. -/
theorem Script.appends : Appends Script where
  ok r b h := by
    obtain ⟨events, clock⟩ := r
    cases events with
    | nil => exact List.prefix_refl _
    | cons ev rest =>
        cases ev with
        | data x xs => exact List.prefix_append _ _
        | pending t => cases h
        | error e => cases h
  other r b h := by
    obtain ⟨events, clock⟩ := r
    cases events with
    | nil => exact absurd rfl h
    | cons ev rest =>
        cases ev with
        | data x xs => exact absurd rfl h
        | pending t => rfl
        | error e => rfl

end AsyncIo
