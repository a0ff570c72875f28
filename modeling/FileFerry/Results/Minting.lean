import FileFerry.Results.Tracing
import FileFerry.Support.Xor

/-!
# Results — Minting

The identifiers a process mints, for any number of calls at a time.  Each call reads the clock, and
later, when others may have read it or counted, takes the next number of its counter.

* `drawBytes_inj`: sixteen bytes of the generator determine its seed.
* `traceId_eq_iff`, `logId_eq_iff`: when two identifiers are the same, by clock and counter.
* `minted_unique_iff`: no two identifiers of a run are the same exactly when no two readings of the
  clock differ as the numbers do.
-/

namespace FileFerry
open Text Steps

/-! ### The seed of a draw -/

/-- The bytes as one number. -/
def pack : List UInt8 → Nat
  | [] => 0
  | b :: bs => b.toNat ^^^ pack bs <<< 8

theorem turn_left (k a b : UInt64) :
    (a ^^^ b) ^^^ (a ^^^ b) <<< k = (a ^^^ a <<< k) ^^^ (b ^^^ b <<< k) := by
  rw [UInt64.shiftLeft_xor]
  ac_rfl

theorem turn_right (k a b : UInt64) :
    (a ^^^ b) ^^^ (a ^^^ b) >>> k = (a ^^^ a >>> k) ^^^ (b ^^^ b >>> k) := by
  rw [UInt64.shiftRight_xor]
  ac_rfl

/-- **The generator is linear** over exclusive or. -/
theorem xorshift64_xor (a b : UInt64) : xorshift64 (a ^^^ b) = xorshift64 a ^^^ xorshift64 b := by
  rw [xorshift64, xorshift64, xorshift64, turn_left 13, turn_right 7 (a ^^^ a <<< 13), turn_left 17]

theorem lowByte_eq (s : UInt64) : (s &&& 0xff).toUInt8 = s.toUInt8 := by
  rw [UInt64.toUInt8_and]
  exact UInt8.and_neg_one

theorem pack_drawBytes_xor (n : Nat) : ∀ a b : UInt64,
    pack (drawBytes n (a ^^^ b)) = pack (drawBytes n a) ^^^ pack (drawBytes n b) := by
  induction n with
  | zero =>
      intro a b
      rw [drawBytes, drawBytes, drawBytes, pack, Nat.xor_self]
  | succ n ih =>
      intro a b
      rw [drawBytes, drawBytes, drawBytes, pack, pack, pack, xorshift64_xor, ih, lowByte_eq,
        lowByte_eq, lowByte_eq, UInt64.toUInt8_xor,
        UInt8.toNat_xor, Nat.shiftLeft_xor_distrib]
      ac_rfl

/-- The seeds with one bit draw bytes that are independent. -/
theorem drawBytes_independent :
    Xor.independent 64 (Xor.images (fun n => pack (drawBytes 16 (UInt64.ofNat n))) 64) = true := by
  decide +kernel

/-- **Sixteen bytes** determine the seed they are drawn from. -/
theorem drawBytes_inj {a b : UInt64} (h : drawBytes 16 a = drawBytes 16 b) : a = b := by
  have hlinear : Xor.Linear fun n => pack (drawBytes 16 (UInt64.ofNat n)) := fun m n => by
    dsimp only
    rw [UInt64.ofNat_xor, pack_drawBytes_xor]
  have hvalue : a.toNat = b.toNat :=
    Xor.eq_of_map_eq hlinear drawBytes_independent a.toNat_lt b.toNat_lt (by
      simp only [UInt64.ofNat_toNat, h])
  exact UInt64.toNat.inj hvalue

/-! ### Two identifiers -/

theorem hexText_inj : ∀ {l m : List UInt8}, l.length = m.length → hexText l = hexText m → l = m
  | [], [], _, _ => rfl
  | [], _ :: _, hlen, _ => by cases hlen
  | _ :: _, [], hlen, _ => by cases hlen
  | b :: l, c :: m, hlen, h => by
      have hchars : hex 2 b.toNat ++ l.flatMap (fun b => hex 2 b.toNat)
          = hex 2 c.toNat ++ m.flatMap fun b => hex 2 b.toNat := String.ofList_injective h
      obtain ⟨hhead, htail⟩ := List.append_inj hchars (by simp only [length_hex])
      have hbyte : b = c := UInt8.toNat.inj ((hex_inj b.toNat_lt c.toNat_lt).mp hhead)
      rw [hbyte, hexText_inj (Nat.succ.inj hlen) (congrArg String.ofList htail)]

/-- **Two trace identifiers** are the same when the readings of the clock differ, by exclusive or,
as the counts do. -/
theorem traceId_eq_iff (t u m n : UInt64) :
    hexText (randomBytes 16 t m) = hexText (randomBytes 16 u n) ↔ t ^^^ u = m ^^^ n := by
  have hseed : hexText (randomBytes 16 t m) = hexText (randomBytes 16 u n) ↔ t ^^^ m = u ^^^ n := by
    constructor
    · intro h
      refine drawBytes_inj (hexText_inj ?_ h)
      rw [length_drawBytes, length_drawBytes]
    · intro h
      rw [randomBytes, randomBytes, h]
  rw [hseed, ← UInt64.xor_eq_zero_iff, ← @UInt64.xor_eq_zero_iff (t ^^^ u)]
  have hswap : t ^^^ m ^^^ (u ^^^ n) = t ^^^ u ^^^ (m ^^^ n) := by ac_rfl
  rw [hswap]

/-- **Two identifiers of the access log** are the same when the readings differ as the counts do the
other way round. -/
theorem logId_eq_iff (t u m n : UInt64) :
    String.ofList (hex 16 (t + m).toNat) = String.ofList (hex 16 (u + n).toNat) ↔
    t - u = n - m := by
  rw [String.ofList_inj, hex_inj (t + m).toNat_lt (u + n).toNat_lt, UInt64.toNat_inj]
  constructor
  · intro h
    grind
  · intro h
    grind

/-! ### Calls in flight -/

/-- What draws an identifier: `random_hex_128`, `generate_span_id`, and the fallback of
`extract_trace_id`. -/
inductive Generator where
  | traceId
  | spanId
  | logId
  deriving DecidableEq

/-- The fallback of `extract_trace_id`. -/
def freshLogId (nanos : UInt64) : Proc World Event String := do
  let w ← Proc.get
  Proc.step bumpLog []
  pure (String.ofList (hex 16 (nanos + w.logCounter).toNat))

/-- Without an inbound identifier, a request draws one for the log and one for the trace. -/
theorem draws_fresh (env : Env) {req : Request} (h : inboundTraceId req = none) :
    extractTraceId env req = freshLogId env.logNanos ∧
      extractOrGenerateTraceId env req = mint 16 env.traceNanos := by
  simp only [extractTraceId, extractOrGenerateTraceId, h]
  exact ⟨rfl, trivial⟩

/-- What a call does after it has read the clock. -/
def Generator.draw : Generator → UInt64 → Proc World Event String
  | traceId => mint 16
  | spanId => mint 8
  | logId => freshLogId

/-- The number a call takes next. -/
def Generator.counter : Generator → World → UInt64
  | traceId, w => w.traceCounter
  | spanId, w => w.traceCounter
  | logId, w => w.logCounter

/-- An identifier, with what it was drawn from. -/
structure Minted where
  generator : Generator
  reading : UInt64
  count : UInt64
  id : String

/-- A process that mints: the latest reading of the clock, the calls that have read it and have not
taken a number yet, and what was minted, the latest first. -/
structure Minting where
  clock : Nat
  reading : List (Generator × UInt64)
  world : World
  minted : List Minted

def Minting.start (w : World) : Minting := ⟨0, [], w, []⟩

/-- The identifiers of a generator. -/
def Minting.of (s : Minting) (g : Generator) : List Minted :=
    s.minted.filter fun m => m.generator = g

/-- One step of one call: it reads the clock, in nanoseconds, or takes its number. -/
inductive Mints : Minting → Minting → Prop where
  | read (s : Minting) (g : Generator) (t : Nat) : s.clock ≤ t →
      Mints s { s with clock := t, reading := (g, UInt64.ofNat t) :: s.reading }
  | draw (s : Minting) (g : Generator) (nanos : UInt64) (waiting rest : List (Generator × UInt64)) :
      s.reading = waiting ++ (g, nanos) :: rest →
      Mints s { s with
        reading := waiting ++ rest
        world := after s.world (g.draw nanos s.world).1
        minted := ⟨g, nanos, g.counter s.world, (g.draw nanos s.world).2⟩ :: s.minted }

/-! ### A run -/

/-- An identifier is what its generator makes of the reading and the count. -/
def Minted.Drawn (m : Minted) : Prop :=
  match m.generator with
  | .traceId => m.id = hexText (randomBytes 16 m.reading m.count)
  | .spanId => m.id = hexText (randomBytes 8 m.reading m.count)
  | .logId => m.id = String.ofList (hex 16 (m.reading + m.count).toNat)

theorem Mints.drawn {s s' : Minting} (h : Mints s s') (hs : ∀ m ∈ s.minted, m.Drawn) :
    ∀ m ∈ s'.minted, m.Drawn := by
  cases h with
  | read g t hclock => exact hs
  | draw g nanos waiting rest hreading =>
      refine List.forall_mem_cons.mpr ⟨?_, hs⟩
      cases g with
      | traceId => rfl
      | spanId => rfl
      | logId => rfl

theorem drawn_of_run {w : World} {s : Minting} (h : Relation.ReflTransGen Mints (.start w) s) :
    ∀ m ∈ s.minted, m.Drawn := by
  induction h with
  | refl => exact fun m hm => absurd hm List.not_mem_nil
  | tail _ hstep ih => exact hstep.drawn ih

/-- **The identifiers of a process are unique** exactly when no two trace identifiers were drawn at
readings that differ as the counts do, and no two of the access log at readings that differ as the
counts do the other way round. -/
theorem minted_unique_iff {w : World} {s : Minting} (h : Relation.ReflTransGen Mints (.start w) s) :
    (((s.of .traceId).map Minted.id).Nodup ∧ ((s.of .logId).map Minted.id).Nodup) ↔
      ((s.of .traceId).Pairwise fun a b => a.reading ^^^ b.reading ≠ a.count ^^^ b.count) ∧
        (s.of .logId).Pairwise fun a b => a.reading - b.reading ≠ b.count - a.count := by
  have hdrawn : ∀ g, ∀ m ∈ s.of g, m.Drawn ∧ m.generator = g := fun g m hm => by
    obtain ⟨hmem, hg⟩ := List.mem_filter.mp hm
    exact ⟨drawn_of_run h m hmem, of_decide_eq_true hg⟩
  have hnodup : ∀ l : List Minted, (l.map Minted.id).Nodup ↔ l.Pairwise fun a b => a.id ≠ b.id :=
    fun l => List.pairwise_map
  rw [hnodup, hnodup]
  refine and_congr (List.Pairwise.iff_of_mem fun {a b} ha hb => not_congr ?_)
    (List.Pairwise.iff_of_mem fun {a b} ha hb => not_congr ?_)
  · obtain ⟨hida, hga⟩ := hdrawn _ a ha
    obtain ⟨hidb, hgb⟩ := hdrawn _ b hb
    simp only [Minted.Drawn, hga] at hida
    simp only [Minted.Drawn, hgb] at hidb
    rw [hida, hidb, traceId_eq_iff]
  · obtain ⟨hida, hga⟩ := hdrawn _ a ha
    obtain ⟨hidb, hgb⟩ := hdrawn _ b hb
    simp only [Minted.Drawn, hga] at hida
    simp only [Minted.Drawn, hgb] at hidb
    rw [hida, hidb, logId_eq_iff]

/-- The first nanosecond of 2025. -/
def newYear : Nat := 1735689600000000000

/-- Two calls for the trace and two for the log, in turn. -/
theorem minted_unique_calm : ∃ s, Relation.ReflTransGen Mints (.start .empty) s ∧
    (s.of .traceId).length = 2 ∧ (s.of .logId).length = 2 ∧ ((s.of .traceId).map Minted.id).Nodup ∧
    ((s.of .logId).map Minted.id).Nodup := by
  have h₀ : Relation.ReflTransGen Mints (.start .empty) (.start .empty) := .refl
  have h₁ := h₀.tail (Mints.read _ .traceId newYear (Nat.zero_le _))
  have h₂ := h₁.tail (Mints.draw _ .traceId _ [] [] rfl)
  have h₃ := h₂.tail (Mints.read _ .logId (newYear + 1) (Nat.le_succ newYear))
  have h₄ := h₃.tail (Mints.draw _ .logId _ [] [] rfl)
  have h₅ := h₄.tail (Mints.read _ .traceId (newYear + 2) (Nat.le_succ (newYear + 1)))
  have h₆ := h₅.tail (Mints.draw _ .traceId _ [] [] rfl)
  have h₇ := h₆.tail (Mints.read _ .logId (newYear + 3) (Nat.le_succ (newYear + 2)))
  have h₈ := h₇.tail (Mints.draw _ .logId _ [] [] rfl)
  exact ⟨_, h₈, rfl, rfl, (minted_unique_iff h₈).mpr ⟨by decide +kernel, by decide +kernel⟩⟩

/-- **Identifiers repeat**: of the trace two nanoseconds and two counts apart, and of the log where
the later reading is counted first. -/
theorem minted_twice : ∃ s, Relation.ReflTransGen Mints (.start .empty) s ∧
    s.minted.length < 2 ^ 64 ∧
    ¬ ((s.of .traceId).map Minted.id).Nodup ∧ ¬ ((s.of .logId).map Minted.id).Nodup := by
  have h₀ : Relation.ReflTransGen Mints (.start .empty) (.start .empty) := .refl
  have h₁ := h₀.tail (Mints.read _ .traceId newYear (Nat.zero_le _))
  have h₂ := h₁.tail (Mints.draw _ .traceId _ [] [] rfl)
  have h₃ := h₂.tail (Mints.read _ .spanId (newYear + 1) (Nat.le_succ newYear))
  have h₄ := h₃.tail (Mints.draw _ .spanId _ [] [] rfl)
  have h₅ := h₄.tail (Mints.read _ .traceId (newYear + 2) (Nat.le_succ (newYear + 1)))
  have h₆ := h₅.tail (Mints.draw _ .traceId _ [] [] rfl)
  -- the second of two calls for the log counts first
  have h₇ := h₆.tail (Mints.read _ .logId (newYear + 3) (Nat.le_succ (newYear + 2)))
  have h₈ := h₇.tail (Mints.read _ .logId (newYear + 4) (Nat.le_succ (newYear + 3)))
  have h₉ := h₈.tail (Mints.draw _ .logId _ [] _ rfl)
  have h₁₀ := h₉.tail (Mints.draw _ .logId _ [] [] rfl)
  exact ⟨_, h₁₀, by decide, by decide +kernel, by decide +kernel⟩

end FileFerry
