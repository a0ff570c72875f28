import Mathlib

/-!
# Support — Text

Text and bytes.  A `String` is its UTF-8 bytes (`bytes`), ordered as those bytes are
(`instLinearOrderUInt8` and the order of lists).  A byte string that need not be UTF-8 is read
as text by `toStringLossy`, which puts U+FFFD for each maximal ill-formed part; on the bytes of
a text it is the identity (`toStringLossy_bytes`), and where it puts none it loses nothing
(`bytes_toStringLossy`).

* `trim`: the text without the white space at its two ends.
* `hex`, `decimal`: the digits of a number, left-padded with zeros; `decimal_lt_iff`, their order.
-/

namespace Text

instance instLinearOrderUInt8 : LinearOrder UInt8 where
  le_refl _ := UInt8.le_refl _
  le_trans _ _ _ := UInt8.le_trans
  le_antisymm _ _ := UInt8.le_antisymm
  le_total := UInt8.le_total
  lt_iff_le_not_ge a b := by
    rw [UInt8.lt_iff_toNat_lt, UInt8.le_iff_toNat_le, UInt8.le_iff_toNat_le]; omega
  toDecidableLE := inferInstance
  toDecidableEq := inferInstance
  toDecidableLT := inferInstance

/-- The UTF-8 bytes of a text. -/
def bytes (s : String) : List UInt8 := s.toByteArray.data.toList

theorem toByteArray_bytes (s : String) : (bytes s).toByteArray = s.toByteArray := by
  apply ByteArray.ext
  simp [bytes]

theorem bytes_eq_flatMap (s : String) : bytes s = s.toList.flatMap String.utf8EncodeChar := by
  have h : s.toByteArray = (s.toList.flatMap String.utf8EncodeChar).toByteArray :=
    (String.utf8Encode_toList (b := s)).symm
  rw [bytes, h, List.data_toByteArray]

@[simp] theorem bytes_append (s t : String) : bytes (s ++ t) = bytes s ++ bytes t := by
  simp [bytes, String.toByteArray_append]

/-- A string is known by its bytes. -/
theorem bytes_injective : Function.Injective bytes := fun s t h => by
  rw [← String.toByteArray_inj, ← toByteArray_bytes s, ← toByteArray_bytes t, h]

@[simp] theorem bytes_inj {s t : String} : bytes s = bytes t ↔ s = t :=
  bytes_injective.eq_iff

/-- A common prefix does not matter to the order of byte strings. -/
theorem append_lt_append_iff {p a b : List UInt8} : p ++ a < p ++ b ↔ a < b := by
  refine ⟨fun h => ?_, List.append_left_lt⟩
  by_contra hn
  rcases lt_or_eq_of_le (not_lt.mp hn) with hlt | rfl
  · exact lt_asymm h (List.append_left_lt hlt)
  · exact lt_irrefl _ h

/-- Of two texts whose first parts are of one length, these decide first. -/
theorem append_lt_append_iff_of_length {a b x y : List UInt8} (h : a.length = b.length) :
    a ++ x < b ++ y ↔ a < b ∨ a = b ∧ x < y := by
  induction a generalizing b with
  | nil =>
      obtain rfl := List.eq_nil_of_length_eq_zero h.symm
      simp
  | cons c a ih =>
      cases b with
      | nil => cases h
      | cons d b =>
          have ih := ih (Nat.succ.inj h)
          simp only [List.cons_append, List.cons_lt_cons_iff, ih, List.cons.injEq]
          tauto

/-! ### ASCII -/

/-- The text of ASCII bytes. -/
def ofAscii (l : List UInt8) : String := String.ofList (l.map fun b => Char.ofNat b.toNat)

theorem utf8EncodeChar_ascii {b : UInt8} (h : b < 128) :
    String.utf8EncodeChar (Char.ofNat b.toNat) = [b] := by
  have hall : ∀ n : Fin 128,
      String.utf8EncodeChar (Char.ofNat n.val) = [UInt8.ofNat n.val] := by decide
  have hn : b.toNat < 128 := by rw [UInt8.lt_iff_toNat_lt] at h; exact h
  simpa using hall ⟨b.toNat, hn⟩

/-- A text of ASCII bytes has these bytes. -/
theorem bytes_ofAscii {l : List UInt8} (h : ∀ b ∈ l, b < 128) : bytes (ofAscii l) = l := by
  rw [bytes_eq_flatMap, ofAscii, String.toList_ofList, List.flatMap_map]
  induction l with
  | nil => rfl
  | cons b l ih =>
      rw [List.flatMap_cons, utf8EncodeChar_ascii (h b List.mem_cons_self),
        ih fun c hc => h c (List.mem_cons_of_mem _ hc)]
      rfl

/-! ### Prefixes -/

/-- `str::strip_prefix`. -/
def stripPrefix (pre s : String) : Option String :=
  if pre.toList <+: s.toList then some (String.ofList (s.toList.drop pre.toList.length)) else none

/-- What is left of a string that begins so. -/
theorem stripPrefix_eq_some {pre s t : String} : stripPrefix pre s = some t ↔ s = pre ++ t := by
  rw [stripPrefix]
  constructor
  · intro h
    split at h
    · rename_i hp
      obtain ⟨l, hl⟩ := hp
      rw [Option.some.injEq] at h
      apply String.ext
      rw [← h, String.toList_append, String.toList_ofList, ← hl, List.drop_left]
    · cases h
  · rintro rfl
    rw [if_pos (by rw [String.toList_append]; exact List.prefix_append _ _), String.toList_append,
      List.drop_left, String.ofList_toList]

/-! ### Lossy decoding -/

/-- How many bytes of an ill-formed sequence one U+FFFD stands for: the longest prefix that some
well-formed sequence begins with, or one byte. -/
def invalidLen : List UInt8 → Nat
  | [] => 0
  | [_] => 1
  | b :: b₁ :: l =>
    let cont (c : UInt8) : Bool := 0x80 ≤ c && c ≤ 0xBF
    if 0xE0 ≤ b && b ≤ 0xEF then
      if (b == 0xE0 && 0xA0 ≤ b₁ && b₁ ≤ 0xBF) || (b == 0xED && 0x80 ≤ b₁ && b₁ ≤ 0x9F)
          || (b != 0xE0 && b != 0xED && cont b₁) then 2 else 1
    else if 0xF0 ≤ b && b ≤ 0xF4 then
      if (b == 0xF0 && 0x90 ≤ b₁ && b₁ ≤ 0xBF) || (b == 0xF4 && 0x80 ≤ b₁ && b₁ ≤ 0x8F)
          || (b != 0xF0 && b != 0xF4 && cont b₁) then
        match l with
        | b₂ :: _ => if cont b₂ then 3 else 2
        | [] => 2
      else 1
    else 1

/-- The characters of `l`, with `n` a bound on their number. -/
def lossyChars : Nat → List UInt8 → List Char
  | 0, _ => []
  | _ + 1, [] => []
  | n + 1, b :: l =>
    match (b :: l).toByteArray.utf8DecodeChar? 0 with
    | some c => c :: lossyChars n ((b :: l).drop c.utf8Size)
    | none => '\uFFFD' :: lossyChars n ((b :: l).drop (invalidLen (b :: l)))

/-- `OsStr::to_string_lossy`. -/
def toStringLossy (l : List UInt8) : String := String.ofList (lossyChars l.length l)

/-- Well-formed UTF-8 is decoded to the characters it was made of. -/
theorem lossyChars_flatMap :
    ∀ (cs : List Char) (n : Nat), cs.length ≤ n →
      lossyChars n (cs.flatMap String.utf8EncodeChar) = cs
  | [], 0, _ => rfl
  | [], _ + 1, _ => rfl
  | c :: cs, n + 1, h => by
      have hd : ((c :: cs).flatMap String.utf8EncodeChar).toByteArray.utf8DecodeChar? 0
        = some c := by
        rw [List.flatMap_cons, List.toByteArray_append]
        exact ByteArray.utf8DecodeChar?_utf8EncodeChar_append
      have hdrop : ((c :: cs).flatMap String.utf8EncodeChar).drop c.utf8Size
          = cs.flatMap String.utf8EncodeChar := by
        rw [List.flatMap_cons, ← String.length_utf8EncodeChar, List.drop_left]
      obtain ⟨b, l, e⟩ : ∃ b l, (c :: cs).flatMap String.utf8EncodeChar = b :: l := by
        refine List.exists_cons_of_ne_nil fun hn => ?_
        rw [List.flatMap_cons, List.append_eq_nil_iff] at hn
        exact String.utf8EncodeChar_ne_nil hn.1
      rw [e] at hd hdrop ⊢
      simp only [lossyChars, hd, hdrop]
      rw [lossyChars_flatMap cs n (by simpa using h)]

/-- A string has at least as many bytes as characters. -/
theorem length_le_bytes (s : String) : s.toList.length ≤ (bytes s).length := by
  rw [bytes_eq_flatMap, List.length_flatMap]
  generalize s.toList = cs
  induction cs with
  | nil => simp
  | cons c cs ih =>
      have hc : 0 < (String.utf8EncodeChar c).length := by
        rw [String.length_utf8EncodeChar]; exact c.utf8Size_pos
      simp only [List.length_cons, List.map_cons, List.sum_cons]
      omega

@[simp] theorem toStringLossy_bytes (s : String) : toStringLossy (bytes s) = s := by
  have h := length_le_bytes s
  rw [toStringLossy, bytes_eq_flatMap, lossyChars_flatMap _ _ (by rwa [← bytes_eq_flatMap]),
    String.ofList_toList]

/-- A character that was decoded is at the start of the bytes. -/
theorem decoded {l : List UInt8} {c : Char} (h : l.toByteArray.utf8DecodeChar? 0 = some c) :
    l = String.utf8EncodeChar c ++ l.drop c.utf8Size := by
  obtain ⟨m, hm⟩ := ByteArray.exists_of_utf8DecodeChar?_eq_some h
  have hl : l = String.utf8EncodeChar c ++ m.data.toList := by
    have := congrArg (fun b : ByteArray => b.data.toList) hm
    simpa using this
  rw [hl, ← String.length_utf8EncodeChar, List.drop_left]

/-- Decoding that puts no U+FFFD loses nothing. -/
theorem flatMap_lossyChars : ∀ {n : Nat} {l : List UInt8}, l.length ≤ n →
    '\uFFFD' ∉ lossyChars n l → (lossyChars n l).flatMap String.utf8EncodeChar = l
  | 0, l, h, _ => by rw [List.eq_nil_of_length_eq_zero (Nat.le_zero.mp h)]; rfl
  | _ + 1, [], _, _ => rfl
  | n + 1, b :: l, h, hn => by
      rcases hd : (b :: l).toByteArray.utf8DecodeChar? 0 with _ | c
      · simp [lossyChars, hd] at hn
      · simp only [lossyChars, hd, List.mem_cons, not_or] at hn ⊢
        have hlen : ((b :: l).drop c.utf8Size).length ≤ n := by
          have := c.utf8Size_pos
          simp only [List.length_drop, List.length_cons] at h ⊢
          omega
        rw [List.flatMap_cons, flatMap_lossyChars hlen hn.2]
        exact (decoded hd).symm

/-- Bytes that decode without a replacement are the bytes of the text. -/
theorem bytes_toStringLossy {l : List UInt8} (h : '\uFFFD' ∉ (toStringLossy l).toList) :
    bytes (toStringLossy l) = l := by
  rw [toStringLossy, String.toList_ofList] at h
  rw [bytes_eq_flatMap, toStringLossy, String.toList_ofList, flatMap_lossyChars le_rfl h]

/-- Decoding brings in no ASCII. -/
theorem notMem_lossyChars {x : UInt8} (hx : x < 128) : ∀ {n : Nat} {l : List UInt8}, x ∉ l →
    x ∉ (lossyChars n l).flatMap String.utf8EncodeChar
  | 0, _, _ => by simp [lossyChars]
  | _ + 1, [], _ => by simp [lossyChars]
  | n + 1, b :: l, h => by
      rcases hd : (b :: l).toByteArray.utf8DecodeChar? 0 with _ | c
      · simp only [lossyChars, hd, List.flatMap_cons, List.mem_append, not_or]
        refine ⟨fun hm => ?_, notMem_lossyChars hx fun hm => h (List.drop_subset _ _ hm)⟩
        have hall : ∀ y ∈ ([0xEF, 0xBF, 0xBD] : List UInt8), 128 ≤ y := by simp
        have henc : String.utf8EncodeChar '\uFFFD' = [0xEF, 0xBF, 0xBD] := rfl
        exact absurd hx (not_lt.mpr (hall x (henc ▸ hm)))
      · simp only [lossyChars, hd, List.flatMap_cons, List.mem_append, not_or]
        refine ⟨fun hm => h ?_, notMem_lossyChars hx fun hm => h (List.drop_subset _ _ hm)⟩
        rw [decoded hd]
        exact List.mem_append_left _ hm

/-- An ASCII byte is never the work of a replacement. -/
theorem notMem_bytes_toStringLossy {x : UInt8} (hx : x < 128) {l : List UInt8} (h : x ∉ l) :
    x ∉ bytes (toStringLossy l) := by
  rw [bytes_eq_flatMap, toStringLossy, String.toList_ofList]
  exact notMem_lossyChars hx h

/-! ### Trimming -/

/-- `char::is_whitespace`: the Unicode property White_Space. -/
def isWhitespace (c : Char) : Bool :=
  let n := c.toNat
  (9 ≤ n && n ≤ 13) || n == 0x20 || n == 0x85 || n == 0xA0 || n == 0x1680
    || (0x2000 ≤ n && n ≤ 0x200A) || n == 0x2028 || n == 0x2029 || n == 0x202F || n == 0x205F
    || n == 0x3000

/-- The characters without the blanks at both ends. -/
def trimChars (l : List Char) : List Char :=
  ((l.dropWhile isWhitespace).reverse.dropWhile isWhitespace).reverse

/-- `str::trim`. -/
def trim (s : String) : String := String.ofList (trimChars s.toList)

/-! ### Digits -/

/-- A digit of a lower-case hexadecimal number. -/
def hexDigit (n : Nat) : Char := Char.ofNat (if n < 10 then 48 + n else 87 + n)

/-- The `w` lowest hexadecimal digits of `n`, most significant first. -/
def hex : Nat → Nat → List Char
  | 0, _ => []
  | w + 1, n => hex w (n / 16) ++ [hexDigit (n % 16)]

/-- The `w` lowest decimal digits of `n`, most significant first. -/
def decimal : Nat → Nat → List UInt8
  | 0, _ => []
  | w + 1, n => decimal w (n / 10) ++ [UInt8.ofNat (48 + n % 10)]

theorem length_hex : ∀ w n, (hex w n).length = w
  | 0, _ => rfl
  | w + 1, n => by simp [hex, length_hex w]

theorem hexDigit_inj {m n : Nat} (hm : m < 16) (hn : n < 16)
    (h : hexDigit m = hexDigit n) : m = n := by
  have hall : ∀ a b : Fin 16, hexDigit a.val = hexDigit b.val → a = b := by decide
  exact congrArg Fin.val (hall ⟨m, hm⟩ ⟨n, hn⟩ h)

/-- Numbers of fixed width are known by their digits. -/
theorem hex_inj : ∀ {w m n : Nat}, m < 16 ^ w → n < 16 ^ w → (hex w m = hex w n ↔ m = n)
  | 0, m, n, hm, hn => by
      rw [Nat.pow_zero, Nat.lt_one_iff] at hm hn
      simp [hm, hn]
  | w + 1, m, n, hm, hn => by
      refine ⟨fun e => ?_, fun e => by rw [e]⟩
      rw [Nat.pow_succ] at hm hn
      obtain ⟨h₁, h₂⟩ := List.append_inj e (by simp only [length_hex])
      have hdiv : m / 16 = n / 16 := (hex_inj (by omega) (by omega)).mp h₁
      have hmod := hexDigit_inj (Nat.mod_lt _ (by decide)) (Nat.mod_lt _ (by decide))
        (List.cons.inj h₂).1
      omega

theorem length_decimal : ∀ w n, (decimal w n).length = w
  | 0, _ => rfl
  | w + 1, n => by simp [decimal, length_decimal w]

theorem toNat_digit {n : Nat} (h : n < 10) : (UInt8.ofNat (48 + n)).toNat = 48 + n :=
  UInt8.toNat_ofNat_of_lt' (by rw [UInt8.size]; omega)

/-- …in base ten as well. -/
theorem decimal_inj : ∀ {w m n : Nat}, m < 10 ^ w → n < 10 ^ w →
    (decimal w m = decimal w n ↔ m = n)
  | 0, m, n, hm, hn => by
      rw [Nat.pow_zero, Nat.lt_one_iff] at hm hn
      simp [hm, hn]
  | w + 1, m, n, hm, hn => by
      refine ⟨fun e => ?_, fun e => by rw [e]⟩
      rw [Nat.pow_succ] at hm hn
      obtain ⟨h₁, h₂⟩ := List.append_inj e (by simp only [length_decimal])
      have hdiv : m / 10 = n / 10 := (decimal_inj (by omega) (by omega)).mp h₁
      have hmod := congrArg UInt8.toNat (List.cons.inj h₂).1
      rw [toNat_digit (by omega), toNat_digit (by omega)] at hmod
      omega

/-- **Digits** are ordered as the numbers are. -/
theorem decimal_lt_iff : ∀ {w m n : Nat}, m < 10 ^ w → n < 10 ^ w →
    (decimal w m < decimal w n ↔ m < n)
  | 0, m, n, hm, hn => by
      rw [Nat.pow_zero, Nat.lt_one_iff] at hm hn
      simp [hm, hn]
  | w + 1, m, n, hm, hn => by
      rw [Nat.pow_succ] at hm hn
      rw [decimal, decimal, append_lt_append_iff_of_length (by simp only [length_decimal]),
        decimal_lt_iff (by omega) (by omega), decimal_inj (by omega) (by omega),
        List.cons_lt_cons_iff, UInt8.lt_iff_toNat_lt, toNat_digit (by omega),
          toNat_digit (by omega)]
      simp only [List.not_lt_nil, and_false, or_false]
      omega

end Text
