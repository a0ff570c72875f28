import Mathlib

/-!
# Support — Calendar

The proleptic Gregorian calendar, and the day of a date counted by the lengths of the years and
months before it (`Date.days`).

* `sum_yearLength`: the days of the years before a year, in closed form.
* `civil_days`: the date of a day, in years that begin in March and eras of 400 years, is the date
  whose days are counted.
* `Date.days_lt`: the count ascends with the date.
* `Moment.seconds_lt_iff`, `moment_seconds`: the same for the seconds of a date and a time.
-/

namespace Calendar

/-- Every fourth year, but of the centuries every fourth only. -/
def leap (y : Nat) : Bool := y % 4 == 0 && (y % 100 != 0 || y % 400 == 0)

def yearLength (y : Nat) : Nat := if leap y then 366 else 365

def monthLength (y : Nat) : Nat → Nat
  | 2 => if leap y then 29 else 28
  | 4 | 6 | 9 | 11 => 30
  | _ => 31

/-- A date of the calendar. -/
@[ext] structure Date where
  year : Nat
  month : Nat
  day : Nat
  month_valid : 1 ≤ month ∧ month ≤ 12
  day_valid : 1 ≤ day ∧ day ≤ monthLength year month

/-- The days from the first of January 1970 to a date that is not before it. -/
def Date.days (d : Date) : Nat :=
  ∑ y ∈ Finset.Ico 1970 d.year, yearLength y + ∑ m ∈ Finset.Ico 1 d.month, monthLength d.year m
    + (d.day - 1)

theorem leap_iff {y : Nat} : leap y = true ↔ y % 4 = 0 ∧ (y % 100 ≠ 0 ∨ y % 400 = 0) := by
  simp [leap]

/-! ### Sums of lengths -/

/-- **The days of the years** before `y`, counted from the year 0 (whose length and those of the
years to 1970 are 719528 days). -/
theorem sum_yearLength {y : Nat} (h : 1970 ≤ y) :
    ∑ i ∈ Finset.Ico 1970 y, yearLength i + 719528
      = 365 * y + (y + 3) / 4 - (y + 99) / 100 + (y + 399) / 400 := by
  induction y, h using Nat.le_induction with
  | base => rfl
  | succ y h ih =>
      rw [Finset.sum_Ico_succ_top h, Nat.add_right_comm, ih, yearLength]
      split
      · rename_i hl
        have hl := leap_iff.mp hl
        omega
      · rename_i hl
        rw [leap_iff] at hl
        omega

/-- The days of the months from March on, before the `mp`-th of them. -/
theorem sum_monthLength {y mp : Nat} (h : mp < 10) :
    ∑ m ∈ Finset.Ico 1 (mp + 3), monthLength y m
      = (if leap y then 60 else 59) + (153 * mp + 2) / 5 := by
  interval_cases mp <;> cases hl : leap y <;> simp [Finset.sum_Ico_succ_top, monthLength, hl]

theorem sum_months (y : Nat) : ∑ m ∈ Finset.Ico 1 13, monthLength y m = yearLength y := by
  cases hl : leap y <;> simp [Finset.sum_Ico_succ_top, monthLength, yearLength, hl]

theorem monthLength_le (y m : Nat) : monthLength y m ≤ 31 := by
  simp only [monthLength]
  split
  · split
    · omega
    · omega
  all_goals omega

theorem sum_Ico_le {f : Nat → Nat} {a b c : Nat} (h : b ≤ c) :
    ∑ i ∈ Finset.Ico a b, f i ≤ ∑ i ∈ Finset.Ico a c, f i :=
  Finset.sum_le_sum_of_subset (Finset.Ico_subset_Ico_right h)

/-! ### The order of dates -/

/-- The date comes before the other. -/
def Date.Before (d d' : Date) : Prop :=
  d.year < d'.year ∨ d.year = d'.year ∧ (d.month < d'.month ∨ d.month = d'.month ∧ d.day < d'.day)

/-- The days of a date within its year are fewer than the year's. -/
theorem Date.within_year (d : Date) :
    ∑ m ∈ Finset.Ico 1 d.month, monthLength d.year m + d.day ≤ yearLength d.year := by
  have hm : ∑ m ∈ Finset.Ico 1 (d.month + 1), monthLength d.year m ≤ yearLength d.year := by
    rw [← sum_months]
    exact sum_Ico_le (by have := d.month_valid; omega)
  rw [Finset.sum_Ico_succ_top d.month_valid.1] at hm
  have := d.day_valid
  omega

/-- **The count ascends** with the date. -/
theorem Date.days_lt {d d' : Date} (hd : 1970 ≤ d.year) (h : d.Before d') : d.days < d'.days := by
  have hday := d.day_valid
  have hday' := d'.day_valid
  rcases h with hy | ⟨hy, hm | ⟨hm, h⟩⟩
  · have hyears : ∑ y ∈ Finset.Ico 1970 (d.year + 1), yearLength y
        ≤ ∑ y ∈ Finset.Ico 1970 d'.year, yearLength y := sum_Ico_le hy
    rw [Finset.sum_Ico_succ_top hd] at hyears
    have := d.within_year
    rw [days, days]
    omega
  · have hmonths : ∑ m ∈ Finset.Ico 1 (d.month + 1), monthLength d.year m
        ≤ ∑ m ∈ Finset.Ico 1 d'.month, monthLength d.year m := sum_Ico_le hm
    rw [Finset.sum_Ico_succ_top d.month_valid.1] at hmonths
    rw [days, days, ← hy]
    omega
  · rw [days, days, ← hy, ← hm]
    omega

/-! ### The date of a day -/

/-- The year of a day of an era, and its day within that year.  Days and years are counted from the
first of March, so that a leap day is the last of its year. -/
structure EraDay (doe c q u doy : Nat) : Prop where
  century : c < 4
  cycle : q < 25
  year : u < 4
  day : doy ≤ 365
  leapDay : doy = 365 → u = 3 ∧ (q < 24 ∨ c = 3)
  sum : doe = 36524 * c + 1461 * q + 365 * u + doy

theorem exists_eraDay {doe : Nat} (h : doe < 146097) : ∃ c q u doy, EraDay doe c q u doy := by
  obtain ⟨c, r, hc, hr, e⟩ :
      ∃ c r, c < 4 ∧ (r < 36524 ∨ r = 36524 ∧ c = 3) ∧ doe = 36524 * c + r := by
    rcases lt_or_ge doe 146096 with h' | h'
    · exact ⟨doe / 36524, doe % 36524, by omega, by omega, by omega⟩
    · exact ⟨3, 36524, by omega, by omega, by omega⟩
  obtain ⟨u, doy, hu, hd, e'⟩ :
      ∃ u doy, u < 4 ∧ (doy < 365 ∨ doy = 365 ∧ u = 3) ∧ r % 1461 = 365 * u + doy := by
    rcases lt_or_ge (r % 1461) 1460 with h' | h'
    · exact ⟨r % 1461 / 365, r % 1461 % 365, by omega, by omega, by omega⟩
    · exact ⟨3, 365, by omega, by omega, by omega⟩
  exact ⟨c, r / 1461, u, doy, hc, by omega, hu, by omega, by omega, by omega⟩

/-- The year of era, from the day of era: the corrections take out the leap days. -/
def yearOfEra (doe : Nat) : Nat := (doe - doe / 1460 + doe / 36524 - doe / 146096) / 365

def dayOfYear (doe : Nat) : Nat :=
  doe - (365 * yearOfEra doe + yearOfEra doe / 4 - yearOfEra doe / 100)

variable {doe c q u doy : Nat}

theorem EraDay.yearOfEra (h : EraDay doe c q u doy) : yearOfEra doe = 100 * c + 4 * q + u := by
  obtain ⟨hc, hq, hu, hd, hl, hs⟩ := h
  have h₁ : doe / 146096 = if c = 3 ∧ q = 24 ∧ u = 3 ∧ doy = 365 then 1 else 0 := by
    split <;> omega
  have h₂ : doe / 36524 = if c = 3 ∧ q = 24 ∧ u = 3 ∧ doy = 365 then 4 else c := by
    split <;> omega
  have h₃ : doe / 1460 = 25 * c + q + if 1460 ≤ 24 * c + q + 365 * u + doy then 1 else 0 := by
    split <;> omega
  rw [Calendar.yearOfEra, h₁, h₂, h₃]
  split <;> split <;> omega

theorem EraDay.dayOfYear (h : EraDay doe c q u doy) : dayOfYear doe = doy := by
  have := h.sum
  have := h.cycle
  have := h.year
  rw [Calendar.dayOfYear, h.yearOfEra]
  omega

/-- No subtraction in the two goes below zero. -/
theorem EraDay.bounds (h : EraDay doe c q u doy) :
    doe / 1460 ≤ doe ∧ doe / 146096 ≤ doe - doe / 1460 + doe / 36524 ∧
      Calendar.yearOfEra doe / 100 ≤ 365 * Calendar.yearOfEra doe + Calendar.yearOfEra doe / 4 ∧
      365 * Calendar.yearOfEra doe + Calendar.yearOfEra doe / 4 - Calendar.yearOfEra doe / 100
        ≤ doe := by
  have := h.sum
  have := h.cycle
  have := h.year
  rw [h.yearOfEra]
  omega

/-- The month of a day of the year, counted from March. -/
def monthOfYear (doy : Nat) : Nat := (5 * doy + 2) / 153

def civilMonth (doy : Nat) : Nat :=
  if monthOfYear doy < 10 then monthOfYear doy + 3 else monthOfYear doy - 9

def civilDay (doy : Nat) : Nat := doy - (153 * monthOfYear doy + 2) / 5 + 1

/-- The year of a day of the year `y`, which began in March. -/
def civilYear (y doy : Nat) : Nat := if civilMonth doy ≤ 2 then y + 1 else y

/-- The year that began in March, of a day counted from the first of March of the year 0. -/
def marchYear (z : Nat) : Nat := yearOfEra (z % 146097) + 400 * (z / 146097)

/-- **The day of a year** that began in March: the days before the year, and when the last of its
days is a leap day. -/
theorem marchYear_spec (z : Nat) :
    z = 365 * marchYear z + marchYear z / 4 - marchYear z / 100 + marchYear z / 400
        + dayOfYear (z % 146097) ∧ dayOfYear (z % 146097) ≤ 365 ∧
      (dayOfYear (z % 146097) = 365 → leap (marchYear z + 1) = true) := by
  obtain ⟨c, q, u, doy, h⟩ := exists_eraDay (Nat.mod_lt z (by decide : 0 < 146097))
  rw [marchYear, h.yearOfEra, h.dayOfYear, leap_iff]
  have := h.leapDay
  obtain ⟨hc, hq, hu, hd, -, hs⟩ := h
  have hz := Nat.div_add_mod z 146097
  generalize z / 146097 = era at hz ⊢
  have h₄ : (100 * c + 4 * q + u + 400 * era) / 4 = 100 * era + 25 * c + q := by omega
  have h₁₀₀ : (100 * c + 4 * q + u + 400 * era) / 100 = 4 * era + c := by omega
  have h₄₀₀ : (100 * c + 4 * q + u + 400 * era) / 400 = era := by omega
  rw [h₄, h₁₀₀, h₄₀₀]
  refine ⟨by omega, hd, fun h => ?_⟩
  omega

/-- The days of a month, where the leap day is the last of the year. -/
theorem civil_valid {y doy : Nat} (hd : doy ≤ 365) (hl : doy = 365 → leap (y + 1) = true) :
    (1 ≤ civilMonth doy ∧ civilMonth doy ≤ 12) ∧
      1 ≤ civilDay doy ∧ civilDay doy ≤ monthLength (civilYear y doy) (civilMonth doy) := by
  obtain ⟨mp, hmp⟩ : ∃ mp, monthOfYear doy = mp := ⟨_, rfl⟩
  have hle : mp ≤ 11 := by rw [← hmp, monthOfYear]; omega
  rw [civilYear, civilDay, civilMonth, hmp]
  rw [monthOfYear] at hmp
  refine ⟨by split <;> omega, by omega, ?_⟩
  interval_cases mp
  all_goals simp only [monthLength]
  all_goals simp
  all_goals try omega
  split
  · omega
  · rename_i h
    have : doy ≠ 365 := fun e => h (hl e)
    omega

/-- The date of a day counted from the first of January 1970. -/
def civil (days : Nat) : Date where
  year := civilYear (marchYear (days + 719468)) (dayOfYear ((days + 719468) % 146097))
  month := civilMonth (dayOfYear ((days + 719468) % 146097))
  day := civilDay (dayOfYear ((days + 719468) % 146097))
  month_valid := (civil_valid (marchYear_spec _).2.1 (marchYear_spec _).2.2).1
  day_valid := (civil_valid (marchYear_spec _).2.1 (marchYear_spec _).2.2).2

theorem civil_year (days : Nat) : 1970 ≤ (civil days).year := by
  obtain ⟨h, hd, -⟩ := marchYear_spec (days + 719468)
  simp only [civil, civilYear]
  generalize marchYear (days + 719468) = y at h ⊢
  generalize dayOfYear ((days + 719468) % 146097) = doy at h hd ⊢
  split
  · omega
  · rename_i hm
    have hmp : monthOfYear doy < 10 := by
      rw [civilMonth] at hm
      rw [monthOfYear] at hm ⊢
      split at hm <;> omega
    rw [monthOfYear] at hmp
    omega

/-- **The date of a day** is the one whose days are counted. -/
theorem civil_days (days : Nat) : (civil days).days = days := by
  have hy := civil_year days
  obtain ⟨hz, hd, hl⟩ := marchYear_spec (days + 719468)
  rw [Date.days]
  simp only [civil] at hy ⊢
  generalize marchYear (days + 719468) = y at hy hz hl ⊢
  generalize dayOfYear ((days + 719468) % 146097) = doy at hy hz hd hl ⊢
  have hyears := sum_yearLength hy
  obtain ⟨mp, hmp⟩ : ∃ mp, monthOfYear doy = mp := ⟨_, rfl⟩
  rcases lt_or_ge mp 10 with h | h
  · -- from March on, the year is the one that began in March
    have hmonths := sum_monthLength (y := y) h
    have hm : civilMonth doy = mp + 3 := by rw [civilMonth, hmp, if_pos h]
    have hyear : civilYear y doy = y := by rw [civilYear, hm, if_neg (by omega)]
    rw [hyear] at hyears ⊢
    rw [hm, hmonths, civilDay, hmp]
    rw [monthOfYear] at hmp
    split
    · rename_i hleap
      have := leap_iff.mp hleap
      omega
    · rename_i hleap
      rw [leap_iff] at hleap
      omega
  · -- January and February are in the next year
    have hm : civilMonth doy = mp - 9 := by rw [civilMonth, hmp, if_neg (by omega)]
    have hmp' : mp = 10 ∨ mp = 11 := by rw [monthOfYear] at hmp; omega
    have hyear : civilYear y doy = y + 1 := by rw [civilYear, hm, if_pos (by omega)]
    rw [hyear] at hyears ⊢
    rw [hm, civilDay, hmp]
    rw [monthOfYear] at hmp
    rcases hmp' with rfl | rfl
    · simp
      omega
    · simp [monthLength]
      omega

/-! ### Moments -/

/-- A date and a time of the day. -/
structure Moment where
  date : Date
  hour : Nat
  minute : Nat
  second : Nat
  hour_valid : hour < 24
  minute_valid : minute < 60
  second_valid : second < 60

/-- The seconds from the beginning of 1970. -/
def Moment.seconds (t : Moment) : Nat :=
  86400 * t.date.days + 3600 * t.hour + 60 * t.minute + t.second

def Moment.Before (t t' : Moment) : Prop :=
  t.date.Before t'.date ∨ t.date = t'.date ∧ (t.hour < t'.hour ∨ t.hour = t'.hour ∧
    (t.minute < t'.minute ∨ t.minute = t'.minute ∧ t.second < t'.second))

theorem Date.trichotomy (d d' : Date) : d.Before d' ∨ d = d' ∨ d'.Before d := by
  rcases d with ⟨y, m, k, _, _⟩
  rcases d' with ⟨y', m', k', _, _⟩
  simp only [Before, Date.mk.injEq]
  omega

theorem Moment.trichotomy (t t' : Moment) : t.Before t' ∨ t = t' ∨ t'.Before t := by
  rcases t with ⟨d, h, m, s, _, _, _⟩
  rcases t' with ⟨d', h', m', s', _, _, _⟩
  simp only [Before, Moment.mk.injEq]
  rcases Date.trichotomy d d' with hd | rfl | hd
  · exact .inl (.inl hd)
  · simp only [true_and]
    omega
  · exact .inr (.inr (.inl hd))

theorem Moment.seconds_lt {t t' : Moment} (ht : 1970 ≤ t.date.year) (h : t.Before t') :
    t.seconds < t'.seconds := by
  have hh := t.hour_valid
  have hm := t.minute_valid
  have hs := t.second_valid
  rw [seconds, seconds]
  rcases h with hd | ⟨hd, h⟩
  · have := Date.days_lt ht hd
    omega
  · rw [hd]
    omega

/-- **The order of moments** is that of their seconds. -/
theorem Moment.seconds_lt_iff {t t' : Moment} (ht : 1970 ≤ t.date.year)
    (ht' : 1970 ≤ t'.date.year) : t.seconds < t'.seconds ↔ t.Before t' := by
  refine ⟨fun h => ?_, seconds_lt ht⟩
  rcases trichotomy t t' with hb | rfl | hb
  · exact hb
  · exact absurd h (lt_irrefl _)
  · exact absurd h (seconds_lt ht' hb).asymm

/-- The moment so many seconds after the beginning of 1970. -/
def moment (secs : Nat) : Moment where
  date := civil (secs / 86400)
  hour := secs % 86400 / 3600
  minute := secs % 86400 / 60 % 60
  second := secs % 86400 % 60
  hour_valid := by omega
  minute_valid := by omega
  second_valid := by omega

theorem moment_seconds (secs : Nat) : (moment secs).seconds = secs := by
  simp only [Moment.seconds, moment, civil_days]
  omega

end Calendar
