import Mathlib

/-!
# Support — Xor

Numbers as vectors of bits.  `combine bs vs` is the sum, by exclusive or, of the `vs` that the `bs`
select.

* `independent`: elimination, one pivot after another.
* `eq_false_of_combine`: only the empty selection of independent numbers sums to zero.
* `eq_of_map_eq`: a linear function is injective below `2 ^ k` if its values at the powers of two
  are independent.
-/

namespace Xor

/-- The sum of the numbers selected. -/
def combine : List Bool → List Nat → Nat
  | b :: bs, v :: vs => (if b then v else 0) ^^^ combine bs vs
  | _, _ => 0

/-- `u` without the bit `p`, by means of `v`. -/
def clear (v p u : Nat) : Nat := if u.testBit p then u ^^^ v else u

/-- Whether each number is nonzero once those before it have cleared their leading bits. -/
def independent : Nat → List Nat → Bool
  | _, [] => true
  | 0, _ :: _ => false
  | n + 1, v :: vs => v != 0 && independent n (vs.map (clear v v.log2))

/-! ### Elimination -/

theorem xor_right_comm (a b c : Nat) : a ^^^ b ^^^ c = a ^^^ c ^^^ b := by
  rw [Nat.xor_assoc, Nat.xor_comm b, ← Nat.xor_assoc]

/-- Clearing a bit adds the pivot once for each number selected that has the bit. -/
theorem combine_clear (v p : Nat) (hp : v.testBit p = true) : ∀ (bs : List Bool) (vs : List Nat),
    combine bs (vs.map (clear v p))
      = combine bs vs ^^^ (if (combine bs vs).testBit p then v else 0)
  | [], vs => by simp [combine]
  | b :: bs, [] => by simp [combine]
  | b :: bs, u :: vs => by
      have ih := combine_clear v p hp bs vs
      rw [List.map_cons, combine, combine, ih, Nat.testBit_xor]
      cases b with
      | false => simp
      | true =>
          simp only [if_true, clear]
          cases hu : u.testBit p with
          | false => simp [Nat.xor_assoc]
          | true =>
              cases hc : (combine bs vs).testBit p with
              | false => simp [xor_right_comm u v]
              | true =>
                  have hvv : v ^^^ (combine bs vs ^^^ v) = combine bs vs := by
                    rw [Nat.xor_comm, Nat.xor_assoc, Nat.xor_self, Nat.xor_zero]
                  simp [Nat.xor_assoc, hvv]

/-- The empty selection sums to zero. -/
theorem combine_eq_zero : ∀ {bs : List Bool} (vs : List Nat), (∀ b ∈ bs, b = false) →
    combine bs vs = 0
  | [], _, _ => rfl
  | _ :: _, [], _ => rfl
  | b :: bs, v :: vs, h => by
      rw [combine, h b List.mem_cons_self,
        combine_eq_zero vs fun c hc => h c (List.mem_cons_of_mem _ hc), Nat.xor_zero]
      rfl

/-- **Of independent numbers** only the empty selection sums to zero. -/
theorem eq_false_of_combine : ∀ {n : Nat} {vs : List Nat}
    {bs : List Bool}, independent n vs = true →
    bs.length = vs.length → combine bs vs = 0 → ∀ b ∈ bs, b = false
  | _, [], bs, _, hlen, _ => by
      rw [List.length_nil, List.length_eq_zero_iff] at hlen
      rw [hlen]
      exact fun b hb => absurd hb List.not_mem_nil
  | 0, _ :: _, _, h, _, _ => by cases h
  | n + 1, v :: vs, [], _, hlen, _ => by cases hlen
  | n + 1, v :: vs, b :: bs, h, hlen, hzero => by
      rw [independent, Bool.and_eq_true, bne_iff_ne] at h
      obtain ⟨hv, hrest⟩ := h
      have hbit := Nat.testBit_log2 hv
      -- the pivot is selected exactly when the others add up to it
      have hsum : combine bs vs = if b then v else 0 := by
        rw [combine] at hzero
        exact (Nat.xor_eq_zero_iff.mp hzero).symm
      have hcleared : combine bs (vs.map (clear v v.log2)) = 0 := by
        rw [combine_clear v v.log2 hbit, hsum]
        cases b with
        | false => simp
        | true => simp [hbit]
      have htail := eq_false_of_combine hrest (by simpa using hlen) hcleared
      refine List.forall_mem_cons.mpr ⟨?_, htail⟩
      cases b with
      | false => rfl
      | true => exact absurd (hsum.symm.trans (combine_eq_zero vs htail)) hv

/-! ### Linear functions -/

/-- A function that takes sums to sums. -/
def Linear (f : Nat → Nat) : Prop := ∀ a b, f (a ^^^ b) = f a ^^^ f b

theorem Linear.zero {f : Nat → Nat} (h : Linear f) : f 0 = 0 := by
  have := h 0 0
  rwa [Nat.xor_self, Nat.xor_self] at this

/-- The lowest `k` bits, the highest first. -/
def bits : Nat → Nat → List Bool
  | 0, _ => []
  | k + 1, n => n.testBit k :: bits k n

/-- The values at the powers of two below `2 ^ k`, the highest first. -/
def images (f : Nat → Nat) : Nat → List Nat
  | 0 => []
  | k + 1 => f (2 ^ k) :: images f k

theorem length_bits (n : Nat) : ∀ k, (bits k n).length = k
  | 0 => rfl
  | k + 1 => by rw [bits, List.length_cons, length_bits n k]

theorem length_images (f : Nat → Nat) : ∀ k, (images f k).length = k
  | 0 => rfl
  | k + 1 => by rw [images, List.length_cons, length_images f k]

theorem bits_mod (n : Nat) : ∀ {k m : Nat}, k ≤ m → bits k (n % 2 ^ m) = bits k n
  | 0, _, _ => rfl
  | k + 1, m, h => by
      rw [bits, bits, bits_mod n (Nat.le_of_succ_le h), Nat.testBit_mod_two_pow,
        decide_eq_true (Nat.lt_of_succ_le h), Bool.true_and]

/-- The highest bit of a number, and the rest of it. -/
theorem xor_mod {n k : Nat} (h : n < 2 ^ (k + 1)) :
    (if n.testBit k then 2 ^ k else 0) ^^^ n % 2 ^ k = n := by
  refine Nat.eq_of_testBit_eq fun i => ?_
  rw [Nat.testBit_xor, Nat.testBit_mod_two_pow]
  rcases Nat.lt_trichotomy i k with hlt | rfl | hgt
  · cases n.testBit k <;> simp [hlt, Nat.ne_of_gt hlt]
  · cases hn : n.testBit i <;> simp
  · have hn : n.testBit i = false :=
      Nat.testBit_lt_two_pow (h.trans_le (Nat.pow_le_pow_right (by decide) hgt))
    cases n.testBit k <;> simp [hn, Nat.ne_of_lt hgt]

/-- **A linear function** is the sum of its values at the bits of the argument. -/
theorem Linear.eq_combine {f : Nat → Nat} (h : Linear f) : ∀ {k n : Nat}, n < 2 ^ k →
    f n = combine (bits k n) (images f k)
  | 0, n, hn => by
      obtain rfl : n = 0 := by simpa using hn
      exact h.zero
  | k + 1, n, hn => by
      rw [bits, images, combine, ← bits_mod n (Nat.le_refl k),
        ← h.eq_combine (Nat.mod_lt n (Nat.two_pow_pos k))]
      nth_rewrite 1 [← xor_mod hn]
      rw [h]
      congr 1
      split
      · rfl
      · exact h.zero

/-- **A linear function is injective** if its values at the powers of two are independent. -/
theorem eq_of_map_eq {f : Nat → Nat} (h : Linear f) {k : Nat}
    (hind : independent k (images f k) = true) {a b : Nat} (ha : a < 2 ^ k) (hb : b < 2 ^ k)
    (he : f a = f b) : a = b := by
  have hlt : a ^^^ b < 2 ^ k := Nat.xor_lt_two_pow ha hb
  have hzero : combine (bits k (a ^^^ b)) (images f k) = 0 := by
    rw [← h.eq_combine hlt, h, he, Nat.xor_self]
  have hbits := eq_false_of_combine hind
    ((length_bits _ k).trans (length_images f k).symm) hzero
  have hid : Linear id := fun _ _ => rfl
  refine Nat.xor_eq_zero_iff.mp ?_
  rw [← id_eq (a ^^^ b), hid.eq_combine hlt, combine_eq_zero _ hbits]

end Xor
