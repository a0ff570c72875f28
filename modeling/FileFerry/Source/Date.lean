import FileFerry.Source.Fs

/-!
# Source — Date

`format_rfc3339` again, with every operation on its machine integers checked: where one would
leave its type, `formatRfc3339Checked` is `none`.
-/

namespace FileFerry

/-- A value of `u64`. -/
def u64 (n : Int) : Option Nat := if 0 ≤ n ∧ n < 2 ^ 64 then some n.toNat else none

/-- A value of `i64`. -/
def i64 (n : Int) : Option Int := if -2 ^ 63 ≤ n ∧ n < 2 ^ 63 then some n else none

/-- The year of the era, each operation checked as in a debug build. -/
def yoeChecked (doe : Nat) : Option Nat := do
  let a ← u64 (↑doe - ↑(doe / 1460))
  let b ← u64 ↑(a + doe / 36524)
  let c ← u64 (↑b - ↑(doe / 146096))
  return c / 365

/-- The day of the year. -/
def doyChecked (doe yoe : Nat) : Option Nat := do
  let a ← u64 ↑(365 * yoe)
  let b ← u64 ↑(a + yoe / 4)
  let c ← u64 (↑b - ↑(yoe / 100))
  u64 (↑doe - ↑c)

/-- The month, counted from March. -/
def mpChecked (doy : Nat) : Option Nat := do
  let a ← u64 ↑(5 * doy)
  let b ← u64 ↑(a + 2)
  return b / 153

/-- The day of the month. -/
def dChecked (doy mp : Nat) : Option Nat := do
  let a ← u64 ↑(153 * mp)
  let b ← u64 ↑(a + 2)
  let c ← u64 (↑doy - ↑(b / 5))
  u64 ↑(c + 1)

/-- `format_rfc3339`, of a `u64`. -/
def formatRfc3339Checked (secs : Nat) : Option String := do
  let days ← i64 ↑(secs / 86400)
  let secsOfDay := secs % 86400
  let h := secsOfDay / 3600
  let m := secsOfDay / 60 % 60
  let s := secsOfDay % 60
  let z ← i64 (days + 719468)
  let n ← (if z ≥ 0 then some z else i64 (z - 146096))
  let era ← i64 (n.tdiv 146097)
  let eraStart ← i64 (era * 146097)
  let ofEra ← i64 (z - eraStart)
  let doe ← u64 ofEra
  let yoe ← yoeChecked doe
  let eraYear ← i64 (era * 400)
  let y ← i64 (↑yoe + eraYear)
  let doy ← doyChecked doe yoe
  let mp ← mpChecked doy
  let d ← dChecked doy mp
  let mOut ← (if mp < 10 then u64 ↑(mp + 3) else u64 (↑mp - 9))
  let yOut ← (if mOut ≤ 2 then i64 (y + 1) else some y)
  return pad 4 yOut.toNat ++ "-" ++ pad 2 mOut ++ "-" ++ pad 2 d ++ "T" ++ pad 2 h ++ ":" ++ pad 2 m
    ++ ":" ++ pad 2 s ++ "Z"

end FileFerry
