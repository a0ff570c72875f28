import FileFerry.Source.Date
import FileFerry.Support.Calendar

/-!
# Results — Dates

`format_rfc3339` prints the moment its seconds count to.

* `formatRfc3339_eq`: the text is that of the calendar's own moment.
* `formatRfc3339Checked_eq`: no operation on the way leaves its machine type.
* `print_lt_iff`: texts with years of four digits are ordered as their moments.
-/

namespace FileFerry
open Text Calendar

/-- The text of a moment, `YYYY-MM-DDTHH:MM:SSZ`. -/
def print (t : Moment) : String :=
  pad 4 t.date.year ++ "-" ++ pad 2 t.date.month ++ "-" ++ pad 2 t.date.day ++ "T" ++ pad 2 t.hour
    ++ ":" ++ pad 2 t.minute ++ ":" ++ pad 2 t.second ++ "Z"

/-- **The text** is that of the moment so many seconds after the beginning of 1970. -/
theorem formatRfc3339_eq (secs : Nat) : formatRfc3339 secs = print (moment secs) := by
  have hz : ((secs / 86400 : Nat) : Int) + 719468 = ((secs / 86400 + 719468 : Nat) : Int) := by
    push_cast; rfl
  simp only [formatRfc3339, print, moment, civil, hz]
  generalize secs / 86400 + 719468 = z
  have hera : (z : Int).tdiv 146097 = (z / 146097 : Nat) := by
    rw [Int.tdiv_eq_ediv_of_nonneg (Int.natCast_nonneg _)]; push_cast; rfl
  have hdoe : ((z : Int) - (z / 146097 : Nat) * 146097).toNat = z % 146097 := by omega
  have hyear : ((if civilMonth (dayOfYear (z % 146097)) ≤ 2 then
        (yearOfEra (z % 146097) : Int) + (z / 146097 : Nat) * 400 + 1
      else yearOfEra (z % 146097) + (z / 146097 : Nat) * 400) : Int).toNat
      = civilYear (marchYear z) (dayOfYear (z % 146097)) := by
    rw [civilYear, marchYear]
    split <;> omega
  simp only [ge_iff_le, Int.natCast_nonneg, if_true, hera, hdoe]
  rw [← hyear]
  rfl

/-! ### Machine integers -/

/-- A number below `2 ^ 64` passes the check. -/
theorem u64_nat {n : Nat} (h : n < 2 ^ 64) : u64 n = some n := by
  rw [u64, if_pos (by omega), Int.toNat_natCast]

theorem u64_sub {a b : Nat} (h : b ≤ a) (ha : a < 2 ^ 64) : u64 (a - b) = some (a - b) := by
  rw [u64, if_pos (by omega)]
  congr 1
  omega

theorem i64_of {n : Int} (h : -2 ^ 63 ≤ n ∧ n < 2 ^ 63) : i64 n = some n := if_pos h

/-- A check that passes is a step of the computation. -/
theorem checked_bind {α β : Type} {x : Option α} {a : α} {f : α → Option β} (h : x = some a) :
    (x >>= f) = f a := by
  rw [h]; rfl

variable {doe c q u doy : Nat}

/-- The year of an era is computed without overflow… -/
theorem yoeChecked_eq (h : EraDay doe c q u doy) : yoeChecked doe = some (yearOfEra doe) := by
  obtain ⟨ha, hb, -, -⟩ := h.bounds
  obtain ⟨hc, hq, hu, hd, -, hs⟩ := h
  have h₁ : u64 ((doe : Int) - (doe / 1460 : Nat)) = some (doe - doe / 1460) :=
    u64_sub ha (by omega)
  have h₂ : u64 (doe - doe / 1460 + doe / 36524 : Nat) = some (doe - doe / 1460 + doe / 36524) :=
    u64_nat (by omega)
  have h₃ : u64 (((doe - doe / 1460 + doe / 36524 : Nat) : Int) - (doe / 146096 : Nat))
      = some (doe - doe / 1460 + doe / 36524 - doe / 146096) := u64_sub hb (by omega)
  rw [yoeChecked, checked_bind h₁, checked_bind h₂, checked_bind h₃]
  rfl

/-- …and the day of the year… -/
theorem doyChecked_eq (h : EraDay doe c q u doy) :
    doyChecked doe (yearOfEra doe) = some (dayOfYear doe) := by
  obtain ⟨-, -, hle, hle'⟩ := h.bounds
  have hyoe := h.yearOfEra
  obtain ⟨hc, hq, hu, hd, -, hs⟩ := h
  rw [doyChecked, dayOfYear]
  generalize yearOfEra doe = yoe at *
  have h₁ : u64 (365 * yoe : Nat) = some (365 * yoe) := u64_nat (by omega)
  have h₂ : u64 (365 * yoe + yoe / 4 : Nat) = some (365 * yoe + yoe / 4) := u64_nat (by omega)
  have h₃ : u64 (((365 * yoe + yoe / 4 : Nat) : Int) - (yoe / 100 : Nat))
      = some (365 * yoe + yoe / 4 - yoe / 100) := u64_sub hle (by omega)
  rw [checked_bind h₁, checked_bind h₂, checked_bind h₃]
  exact u64_sub hle' (by omega)

/-- …and the month… -/
theorem mpChecked_eq (h : doy ≤ 365) : mpChecked doy = some (monthOfYear doy) := by
  have h₁ : u64 (5 * doy : Nat) = some (5 * doy) := u64_nat (by omega)
  have h₂ : u64 (5 * doy + 2 : Nat) = some (5 * doy + 2) := u64_nat (by omega)
  rw [mpChecked, checked_bind h₁, checked_bind h₂]
  rfl

/-- …and the day of the month. -/
theorem dChecked_eq (h : doy ≤ 365) : dChecked doy (monthOfYear doy) = some (civilDay doy) := by
  have hle : (153 * monthOfYear doy + 2) / 5 ≤ doy := by rw [monthOfYear]; omega
  rw [dChecked, civilDay]
  generalize monthOfYear doy = mp at hle ⊢
  have h₁ : u64 (153 * mp : Nat) = some (153 * mp) := u64_nat (by omega)
  have h₂ : u64 (153 * mp + 2 : Nat) = some (153 * mp + 2) := u64_nat (by omega)
  have h₃ : u64 ((doy : Int) - ((153 * mp + 2) / 5 : Nat)) = some (doy - (153 * mp + 2) / 5) :=
    u64_sub hle (by omega)
  rw [checked_bind h₁, checked_bind h₂, checked_bind h₃]
  exact u64_nat (by omega)

/-- **No operation leaves its type**, for any seconds a `u64` holds. -/
theorem formatRfc3339Checked_eq {secs : Nat} (h : secs < 2 ^ 64) :
    formatRfc3339Checked secs = some (formatRfc3339 secs) := by
  have hdays : i64 (secs / 86400 : Nat) = some ((secs / 86400 : Nat) : Int) := i64_of (by omega)
  have hz : i64 (((secs / 86400 : Nat) : Int) + 719468)
      = some (((secs / 86400 : Nat) : Int) + 719468) := i64_of (by omega)
  have hz' : ((secs / 86400 : Nat) : Int) + 719468 = ((secs / 86400 + 719468 : Nat) : Int) := by
    push_cast; rfl
  have hle : secs / 86400 + 719468 < 2 ^ 60 := by omega
  simp only [formatRfc3339Checked, formatRfc3339]
  rw [checked_bind hdays, checked_bind hz, hz']
  generalize secs / 86400 + 719468 = z at hle ⊢
  -- the era, and the day within it
  have hera : (z : Int).tdiv 146097 = (z / 146097 : Nat) := by
    rw [Int.tdiv_eq_ediv_of_nonneg (Int.natCast_nonneg _)]; push_cast; rfl
  have hdoe : (z : Int) - ((z / 146097 : Nat) : Int) * 146097 = ((z % 146097 : Nat) : Int) := by
    omega
  have hdoe' : ((z : Int) - ((z / 146097 : Nat) : Int) * 146097).toNat = z % 146097 := by omega
  have h₁ : i64 ((z / 146097 : Nat) : Int) = some ((z / 146097 : Nat) : Int) := i64_of (by omega)
  have h₂ : i64 (((z / 146097 : Nat) : Int) * 146097)
      = some (((z / 146097 : Nat) : Int) * 146097) := i64_of (by omega)
  have h₃ : i64 (z % 146097 : Nat) = some ((z % 146097 : Nat) : Int) := i64_of (by omega)
  have h₄ : u64 (z % 146097 : Nat) = some (z % 146097) := u64_nat (by omega)
  simp only [ge_iff_le, Int.natCast_nonneg, if_true, hera, hdoe']
  rw [checked_bind (a := (z : Int)) rfl, hera, checked_bind h₁, checked_bind h₂, hdoe,
    checked_bind h₃, checked_bind h₄]
  obtain ⟨c, q, u, doy, hday⟩ := exists_eraDay (Nat.mod_lt z (by decide : 0 < 146097))
  have hlt : z / 146097 < 2 ^ 50 := by omega
  generalize z / 146097 = era at hlt ⊢
  generalize z % 146097 = doe at hday ⊢
  -- the year and the day of the year, and from it the month and the day
  have hyoe : yearOfEra doe < 400 := by
    rw [hday.yearOfEra]
    have := hday.century
    have := hday.cycle
    have := hday.year
    omega
  have hdoy : dayOfYear doe ≤ 365 := by rw [hday.dayOfYear]; exact hday.day
  have h₅ : i64 ((era : Int) * 400) = some ((era : Int) * 400) := i64_of (by omega)
  have h₆ : i64 ((yearOfEra doe : Int) + era * 400) = some ((yearOfEra doe : Int) + era * 400) :=
    i64_of (by omega)
  rw [checked_bind (yoeChecked_eq hday), checked_bind h₅, checked_bind h₆,
    checked_bind (doyChecked_eq hday), checked_bind (mpChecked_eq hdoy),
    checked_bind (dChecked_eq hdoy)]
  have hmp : monthOfYear (dayOfYear doe) ≤ 11 := by rw [monthOfYear]; omega
  have h₇ : (if monthOfYear (dayOfYear doe) < 10 then u64 (monthOfYear (dayOfYear doe) + 3 : Nat)
        else u64 ((monthOfYear (dayOfYear doe) : Int) - 9))
      = some (civilMonth (dayOfYear doe)) := by
    rw [civilMonth]
    split
    · exact u64_nat (by omega)
    · exact u64_sub (b := 9) (by omega) (by omega)
  have h₈ : (if civilMonth (dayOfYear doe) ≤ 2 then i64 ((yearOfEra doe : Int) + era * 400 + 1)
        else some ((yearOfEra doe : Int) + era * 400))
      = some (if civilMonth (dayOfYear doe) ≤ 2 then (yearOfEra doe : Int) + era * 400 + 1
        else yearOfEra doe + era * 400) := by
    split
    · exact i64_of (by omega)
    · rfl
  rw [checked_bind h₇, checked_bind h₈]
  simp only [civilMonth, civilDay, monthOfYear, dayOfYear, yearOfEra]
  rfl

/-! ### The text -/

/-- A digit is one byte. -/
theorem bytes_digitChar {n : Nat} (h : n < 10) :
    String.utf8EncodeChar (Nat.digitChar n) = [UInt8.ofNat (48 + n)] := by
  have hall : ∀ k : Fin 10,
      String.utf8EncodeChar (Nat.digitChar k.val) = [UInt8.ofNat (48 + k.val)] := by decide
  exact hall ⟨n, h⟩

theorem decimal_zero (w : Nat) :
    decimal w 0 = (List.replicate w '0').flatMap String.utf8EncodeChar := by
  induction w with
  | zero => rfl
  | succ w ih =>
      rw [decimal, Nat.zero_div, ih, List.replicate_succ', List.flatMap_append]
      rfl

/-- The digits of a number, with zeros before them. -/
theorem bytes_digits : ∀ {w n : Nat}, n < 10 ^ (w + 1) →
    (List.replicate (w + 1 - (Nat.toDigits 10 n).length) '0' ++ Nat.toDigits 10 n).flatMap
      String.utf8EncodeChar = decimal (w + 1) n
  | w, n, h => by
      rcases lt_or_ge n 10 with hn | hn
      · rw [Nat.toDigits_of_lt_base hn, decimal, Nat.div_eq_of_lt hn, decimal_zero,
          Nat.mod_eq_of_lt hn,
          List.flatMap_append, List.flatMap_singleton, bytes_digitChar hn]
        rfl
      · rw [Nat.pow_succ] at h
        rcases w with _ | w
        · omega
        · rw [Nat.toDigits_of_base_le (by decide) hn, decimal, ← bytes_digits (by omega),
            List.length_append, List.length_singleton, Nat.add_sub_add_right, ← List.append_assoc,
            List.flatMap_append, List.flatMap_singleton, bytes_digitChar (by omega)]

/-- A number that is padded is printed by its decimal digits. -/
theorem bytes_pad {w n : Nat} (h : n < 10 ^ (w + 1)) :
    bytes (pad (w + 1) n) = decimal (w + 1) n := by
  rw [← bytes_digits h, bytes_eq_flatMap, pad, String.toList_ofList, Nat.toString_eq_repr,
    Nat.toList_repr]

/-- **The bytes of a timestamp** whose year has four digits: fields of fixed width. -/
theorem bytes_print {t : Moment} (h : t.date.year < 10000) :
    bytes (print t) = decimal 4 t.date.year ++
      (bytes "-" ++ (decimal 2 t.date.month ++ (bytes "-" ++
      (decimal 2 t.date.day ++ (bytes "T" ++ (decimal 2 t.hour ++ (bytes ":" ++
        (decimal 2 t.minute ++ (bytes ":" ++ (decimal 2 t.second ++ bytes "Z")))))))))) := by
  have hm := t.date.month_valid
  have hd := t.date.day_valid
  have := monthLength_le t.date.year t.date.month
  have hh := t.hour_valid
  have hmin := t.minute_valid
  have hs := t.second_valid
  simp only [print, bytes_append, List.append_assoc]
  rw [bytes_pad (w := 3) (by omega), bytes_pad (w := 1) (by omega), bytes_pad (w := 1) (by omega),
    bytes_pad (w := 1) (by omega), bytes_pad (w := 1) (by omega), bytes_pad (w := 1) (by omega)]

/-- **Texts with years of four digits** are ordered as their moments. -/
theorem print_lt_iff {t t' : Moment} (h : t.date.year < 10000) (h' : t'.date.year < 10000) :
    bytes (print t) < bytes (print t') ↔ t.Before t' := by
  -- one field after another decides, each of one width
  have hfield : ∀ {w m n : Nat} {x y : List UInt8}, m < 10 ^ w → n < 10 ^ w →
      (decimal w m ++ x < decimal w n ++ y ↔ m < n ∨ m = n ∧ x < y) := fun hm hn => by
    rw [append_lt_append_iff_of_length (by simp only [length_decimal]), decimal_lt_iff hm hn,
      decimal_inj hm hn]
  have hm := t.date.month_valid
  have hm' := t'.date.month_valid
  have hd := t.date.day_valid.2.trans (monthLength_le _ _)
  have hd' := t'.date.day_valid.2.trans (monthLength_le _ _)
  have hh := t.hour_valid
  have hh' := t'.hour_valid
  have hmin := t.minute_valid
  have hmin' := t'.minute_valid
  have hs := t.second_valid
  have hs' := t'.second_valid
  rw [bytes_print h, bytes_print h', hfield (by omega) (by omega), append_lt_append_iff,
    hfield (by omega) (by omega), append_lt_append_iff, hfield (by omega) (by omega),
    append_lt_append_iff, hfield (by omega) (by omega), append_lt_append_iff,
    hfield (by omega) (by omega), append_lt_append_iff, hfield (by omega) (by omega)]
  simp only [lt_irrefl, and_false, or_false, Moment.Before, Date.Before, Date.ext_iff]
  tauto

/-- Seconds before the year 10000 are a moment before the year 10000. -/
theorem moment_year {secs : Nat} (h : secs < 86400 * ∑ y ∈ Finset.Ico 1970 10000, yearLength y) :
    (moment secs).date.year < 10000 := by
  by_contra hy
  have hdays : ∑ y ∈ Finset.Ico 1970 10000, yearLength y ≤ (moment secs).date.days := by
    refine (sum_Ico_le (Nat.le_of_not_lt hy)).trans ?_
    rw [Date.days]
    omega
  have hsecs := moment_seconds secs
  rw [Moment.seconds] at hsecs
  omega

/-- **The date format is exact.**  The text of any seconds a `u64` holds is that of a valid date and
time, so many seconds after the beginning of 1970, and no operation leaves its machine type on the
way; before the year 10000 the texts are ordered as the seconds. -/
theorem formatRfc3339_exact :
    (∀ secs < 2 ^ 64, ∃ t : Moment, 1970 ≤ t.date.year ∧ formatRfc3339 secs = print t ∧
      t.seconds = secs ∧ formatRfc3339Checked secs = some (formatRfc3339 secs)) ∧
    ∀ secs < 86400 * ∑ y ∈ Finset.Ico 1970 10000, yearLength y,
      ∀ secs' < 86400 * ∑ y ∈ Finset.Ico 1970 10000, yearLength y,
        (bytes (formatRfc3339 secs) < bytes (formatRfc3339 secs') ↔ secs < secs') := by
  refine ⟨fun secs h => ⟨moment secs, civil_year _, formatRfc3339_eq secs, moment_seconds secs,
    formatRfc3339Checked_eq h⟩, fun secs h secs' h' => ?_⟩
  rw [formatRfc3339_eq, formatRfc3339_eq, print_lt_iff (moment_year h) (moment_year h'),
    ← Moment.seconds_lt_iff (civil_year _) (civil_year _), moment_seconds, moment_seconds]

/-- A leap day prints as a valid date. -/
theorem formatRfc3339_exact_leapDay : ∃ t : Moment, 1970 ≤ t.date.year ∧
    formatRfc3339 1582934400 = print t ∧ t.seconds = 1582934400 ∧
    formatRfc3339Checked 1582934400 = some (formatRfc3339 1582934400) :=
  formatRfc3339_exact.1 1582934400 (by decide)

end FileFerry
