import FileFerry.Io.Reader

/-!
# Io — Copy

`tokio::io::copy`: it polls a reader, and writes what it has read, in order, some of it after each
poll and all of it at the end.  How much room it offers and how much it writes each time is a
`CopyPlan`, so that every way of buffering is covered.

* `copy_spec`: what an invariant of the reader says of the chunks written.
* `copy_stream`: of a reader that yields `c`, the chunks are `c` when it reaches its end, and a
  prefix of `c` when it fails.
-/

namespace AsyncIo

/-- How a copy is driven: in each round, the room offered beyond one byte, and how many of the
bytes read and not yet written are written. -/
structure CopyPlan where
  room : Nat → Nat
  write : Nat → Nat

variable {R : Type}

/-- Rounds of a copy, at most `n` of them, from the `k`-th, with `buf` read and not yet written:
the chunks written, and how it ended. -/
def copyRounds [AsyncRead R] (plan : CopyPlan) :
    Nat → Nat → R → List UInt8 → List (List UInt8) × Except IoError R
  | 0, _, r, _ => ([], .ok r)
  | n + 1, k, r, buf =>
    let p := pollRead r (ReadBuf.of buf (plan.room k))
    match p.poll with
    | .ready (.error e) => ([], .error e)
    | .ready (.ok ()) =>
      if p.buf.filled.length = buf.length then ([buf], .ok p.reader)
      else
        let q := copyRounds plan n (k + 1) p.reader (p.buf.filled.drop (plan.write k))
        (p.buf.filled.take (plan.write k) :: q.1, q.2)
    | .pending =>
      let q := copyRounds plan n (k + 1) p.reader (buf.drop (plan.write k))
      (buf.take (plan.write k) :: q.1, q.2)

/-- `tokio::io::copy`: the chunks written, and the reader at its end or the error. -/
def copy [AsyncRead R] (plan : CopyPlan) (r : R) : List (List UInt8) × Except IoError R :=
  copyRounds plan (rank r + 1) 0 r []

/-- What a poll of a reader in the state `r` can do, where `I d r` says that it has given `d`. -/
inductive Keeps [AsyncRead R] (I : List UInt8 → R → Prop) (E : List UInt8 → R → Prop)
    (F : List UInt8 → IoError → Prop) (d : List UInt8) (r : R) (b : ReadBuf) : Polled R → Prop where
  | pending {r' : R} : rank r' < rank r → I d r' → Keeps I E F d r b ⟨.pending, r', b⟩
  | bytes {r' : R} {b' : ReadBuf} {a : List UInt8} : rank r' < rank r → a ≠ [] →
      b'.filled = b.filled ++ a → I (d ++ a) r' → Keeps I E F d r b ⟨.ready (.ok ()), r', b'⟩
  | eof {r' : R} {b' : ReadBuf} : b'.filled = b.filled → E d r' →
      Keeps I E F d r b ⟨.ready (.ok ()), r', b'⟩
  | error {r' : R} {b' : ReadBuf} {e : IoError} : F d e →
      Keeps I E F d r b ⟨.ready (.error e), r', b'⟩

section Spec

variable [AsyncRead R] {I E : List UInt8 → R → Prop} {F : List UInt8 → IoError → Prop}

/-- What a copy leaves: everything given is written at the end, and a prefix of it on failure. -/
def Wrote (E : List UInt8 → R → Prop) (F : List UInt8 → IoError → Prop) (written : List UInt8) :
    Except IoError R → Prop
  | .ok r => E written r
  | .error e => ∃ d, F d e ∧ written <+: d

theorem copyRounds_spec (plan : CopyPlan)
    (hI : ∀ d r b, 0 < b.room → I d r → Keeps I E F d r b (pollRead r b)) :
    ∀ (n k : Nat) (r : R) (buf w : List UInt8), rank r < n → I (w ++ buf) r →
      Wrote E F (w ++ (copyRounds plan n k r buf).1.flatten) (copyRounds plan n k r buf).2 := by
  intro n
  induction n with
  | zero => intro k r buf w hn; omega
  | succ n ih =>
      intro k r buf w hn hr
      have hroom : 0 < (ReadBuf.of buf (plan.room k)).room := by simp
      have hpoll := hI _ _ _ hroom hr
      -- the bytes written in this round, and those that stay in the buffer
      have hround : ∀ (r' : R) (bs a : List UInt8), rank r' < rank r → bs = buf ++ a →
          I (w ++ buf ++ a) r' →
          Wrote E F (w ++ (bs.take (plan.write k)
              :: (copyRounds plan n (k + 1) r' (bs.drop (plan.write k))).1).flatten)
            (copyRounds plan n (k + 1) r' (bs.drop (plan.write k))).2 := by
        intro r' bs a hlt hbs hi
        rw [List.flatten_cons, ← List.append_assoc]
        refine ih (k + 1) r' _ _ (by omega) ?_
        rw [List.append_assoc, List.take_append_drop, hbs, ← List.append_assoc]
        exact hi
      rw [copyRounds]
      generalize pollRead r (ReadBuf.of buf (plan.room k)) = p at hpoll
      cases hpoll with
      | pending hlt hi => exact hround _ buf [] hlt (by simp) (by simpa using hi)
      | @bytes r' b' a hlt ha hb hi =>
          have hne : b'.filled.length ≠ buf.length := by
            rw [hb, ReadBuf.of_filled, List.length_append]
            have := List.length_pos_iff.mpr ha
            omega
          simp only [if_neg hne]
          exact hround r' b'.filled a hlt hb hi
      | @eof r' b' hb he =>
          have hlen : b'.filled.length = buf.length := by rw [hb, ReadBuf.of_filled]
          simp only [if_pos hlen, List.flatten_cons, List.flatten_nil, List.append_nil]
          exact he
      | error hf => exact ⟨_, hf, by simp⟩

/-- **What a copy writes**, from an invariant of its reader. -/
theorem copy_spec (plan : CopyPlan) {r : R}
    (hI : ∀ d r b, 0 < b.room → I d r → Keeps I E F d r b (pollRead r b))
    (hr : I [] r) : Wrote E F (copy plan r).1.flatten (copy plan r).2 := by
  have h := copyRounds_spec plan hI (rank r + 1) 0 r [] [] (Nat.lt_succ_self _) hr
  rwa [List.nil_append] at h

end Spec

/-- A reader has given `d` of what it yields. -/
def Given [ByteStream R] (c : List UInt8) (err : Option IoError) (d : List UInt8) (r : R) : Prop :=
  d ++ (stream r).1 = c ∧ (stream r).2 = err

theorem given_polls [ByteStream R] {c : List UInt8} {err : Option IoError} {d : List UInt8} {r : R}
    {b : ReadBuf} (hb : 0 < b.room) (h : Given c err d r) :
    Keeps (Given c err) (fun d _ => d = c ∧ err = none) (fun d e => d = c ∧ err = some e) d r b
      (pollRead r b) := by
  have hp := ByteStream.reads r b hb
  obtain ⟨h₁, h₂⟩ := h
  generalize pollRead r b = p at hp
  cases hp with
  | pending hlt hs => exact .pending hlt ⟨by rw [hs, h₁], by rw [hs, h₂]⟩
  | bytes hlt ha hb hs =>
      rw [hs] at h₁ h₂
      exact .bytes hlt ha hb ⟨by rw [List.append_assoc]; exact h₁, h₂⟩
  | eof hs => rw [hs, List.append_nil] at h₁; rw [hs] at h₂; exact .eof rfl ⟨h₁, h₂.symm⟩
  | error hs => rw [hs, List.append_nil] at h₁; rw [hs] at h₂; exact .error ⟨h₁, h₂.symm⟩

/-- **The copy of a stream**: all of it at its end, a prefix when it fails. -/
theorem copy_stream [ByteStream R] (plan : CopyPlan) (r : R) :
    Wrote (fun d (_ : R) => d = (stream r).1 ∧ (stream r).2 = none)
      (fun d e => d = (stream r).1 ∧ (stream r).2 = some e)
      (copy plan r).1.flatten (copy plan r).2 :=
  copy_spec plan (I := Given (stream r).1 (stream r).2) (fun _ _ _ hb h => given_polls hb h)
    ⟨rfl, rfl⟩

end AsyncIo
