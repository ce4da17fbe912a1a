-- SUMMARY: Dates as text: the calendar behind toISOString, and reading its format back.
import Jiffy.Lib.JavaScript
import Mathlib.Tactic.Ring

/-!
# Dates as text

`Date.prototype.toISOString` and the reading of what it writes. The calendar is
the proleptic Gregorian one, with years that begin in March, so that the leap
day is the last of its year.
-/

namespace Js

-- ---------------------------------------------------------------------------
-- The calendar
-- ---------------------------------------------------------------------------

/-- A calendar date. -/
structure Civil where
  year : Int
  month : Int
  day : Int
deriving DecidableEq, Repr

/-- The day of the epoch, counted from 1 March of the year 0. -/
def epochDay : Int := 719468

/-- The date of a day since the epoch: centuries, groups of four years and
years are cut off one after another, the last of each possibly being longer. -/
def civilOfDays (days : Int) : Civil :=
  let z := days + epochDay
  let dayOfEra := z % 146097
  let century := min (dayOfEra / 36524) 3
  let dayOfCentury := dayOfEra - 36524 * century
  let quad := dayOfCentury / 1461
  let dayOfQuad := dayOfCentury % 1461
  let yearOfQuad := min (dayOfQuad / 365) 3
  let dayOfYear := dayOfQuad - 365 * yearOfQuad
  let month := (5 * dayOfYear + 2) / 153
  let year := 400 * (z / 146097) + 100 * century + 4 * quad + yearOfQuad
  { year := if month < 10 then year else year + 1
    month := if month < 10 then month + 3 else month - 9
    day := dayOfYear - (153 * month + 2) / 5 + 1 }

def daysOfCivil (date : Civil) : Int :=
  let year := if date.month > 2 then date.year else date.year - 1
  let month := if date.month > 2 then date.month - 3 else date.month + 9
  let yearOfEra := year % 400
  let dayOfYear := (153 * month + 2) / 5 + date.day - 1
  146097 * (year / 400) + 365 * yearOfEra + yearOfEra / 4 - yearOfEra / 100 + dayOfYear - epochDay

theorem civilOfDays_range (days : Int) :
    1 ≤ (civilOfDays days).month ∧ (civilOfDays days).month ≤ 12 ∧
      1 ≤ (civilOfDays days).day ∧ (civilOfDays days).day ≤ 31 := by
  unfold civilOfDays
  simp only
  split <;> omega

/-- A year as its era, century, group of four years and year in that. -/
theorem year_parts {era century quad year : Int} (hcentury : 0 ≤ century ∧ century ≤ 3)
    (hquad : 0 ≤ quad ∧ quad ≤ 24) (hyear : 0 ≤ year ∧ year ≤ 3) :
    (400 * era + 100 * century + 4 * quad + year) / 400 = era ∧
      (400 * era + 100 * century + 4 * quad + year) % 400 = 100 * century + 4 * quad + year ∧
      (100 * century + 4 * quad + year) / 4 = 25 * century + quad ∧
      (100 * century + 4 * quad + year) / 100 = century := by
  omega

theorem daysOfCivil_civilOfDays (days : Int) : daysOfCivil (civilOfDays days) = days := by
  unfold daysOfCivil civilOfDays
  simp only
  generalize hz : days + epochDay = z
  generalize hcentury : min (z % 146097 / 36524) 3 = century
  generalize hrest : z % 146097 - 36524 * century = rest
  generalize hyear : min (rest % 1461 / 365) 3 = year
  generalize hday : rest % 1461 - 365 * year = dayOfYear
  have hcentury' : 0 ≤ century ∧ century ≤ 3 := by omega
  have hquad : 0 ≤ rest / 1461 ∧ rest / 1461 ≤ 24 := by omega
  have hyear' : 0 ≤ year ∧ year ≤ 3 := by omega
  have hday' : 0 ≤ dayOfYear ∧ dayOfYear ≤ 365 := by omega
  obtain ⟨hera, hmod, hfour, hhundred⟩ := @year_parts (z / 146097) _ _ _ hcentury' hquad hyear'
  generalize hmonth : (5 * dayOfYear + 2) / 153 = month
  have hmonth' : 0 ≤ month ∧ month ≤ 11 := by omega
  split
  · have hmarch : month + 3 > 2 := by omega
    simp only [hmarch, if_true, hera, hmod, hfour, hhundred]
    omega
  · have hmarch : ¬ month - 9 > 2 := by omega
    have hshift : ∀ y : Int, y + 1 - 1 = y := by omega
    simp only [hmarch, if_false, hera, hmod, hfour, hhundred, hshift]
    omega

-- ---------------------------------------------------------------------------
-- Digits
-- ---------------------------------------------------------------------------

def digitChar (d : Nat) : Char := Char.ofNat (48 + d)

/-- The last `width` digits of a number. -/
def digits : Nat → Nat → List Char
  | 0, _ => []
  | width + 1, n => digitChar (n / 10 ^ width % 10) :: digits width (n % 10 ^ width)

/-- A number of exactly so many digits, with what follows it. -/
def readDigits : Nat → Nat → List Char → Option (Nat × List Char)
  | 0, acc, cs => some (acc, cs)
  | _ + 1, _, [] => none
  | width + 1, acc, c :: cs =>
    if c.isDigit then readDigits width (10 * acc + (c.toNat - 48)) cs else none

theorem digitChar_reads {d : Nat} (h : d < 10) :
    (digitChar d).isDigit = true ∧ (digitChar d).toNat - 48 = d := by
  have hall : ∀ d < 10, (digitChar d).isDigit = true ∧ (digitChar d).toNat - 48 = d := by decide
  exact hall d h

theorem readDigits_digits {width n : Nat} (h : n < 10 ^ width) (acc : Nat) (rest : List Char) :
    readDigits width acc (digits width n ++ rest) = some (acc * 10 ^ width + n, rest) := by
  induction width generalizing n acc with
  | zero =>
    have hzero : n = 0 := by omega
    simp [readDigits, digits, hzero]
  | succ width ih =>
    have hlt : n / 10 ^ width < 10 := by
      rw [Nat.div_lt_iff_lt_mul (Nat.pow_pos (by decide))]
      rwa [pow_succ, mul_comm] at h
    obtain ⟨hdigit, hvalue⟩ := digitChar_reads hlt
    have hmod : n % 10 ^ width < 10 ^ width := Nat.mod_lt n (Nat.pow_pos (by decide))
    simp only [digits, List.cons_append, readDigits, Nat.mod_eq_of_lt hlt, hdigit, hvalue, if_true,
      ih hmod]
    congr 2
    rw [add_mul, add_assoc, mul_comm (n / 10 ^ width), Nat.div_add_mod, pow_succ]
    ring

-- ---------------------------------------------------------------------------
-- The text
-- ---------------------------------------------------------------------------

/-- Four digits, or a sign and six. -/
def yearText (year : Int) : List Char :=
  if 0 ≤ year ∧ year ≤ 9999 then digits 4 year.toNat
  else if year < 0 then '-' :: digits 6 (-year).toNat
  else '+' :: digits 6 year.toNat

/-- The characters of `new Date(t).toISOString()`. -/
def isoChars (t : Int) : List Char :=
  let date := civilOfDays (t / 86400000)
  let ms := (t % 86400000).toNat
  yearText date.year ++ '-' :: digits 2 date.month.toNat ++ '-' :: digits 2 date.day.toNat ++
    'T' :: digits 2 (ms / 3600000) ++ ':' :: digits 2 (ms / 60000 % 60) ++
    ':' :: digits 2 (ms / 1000 % 60) ++ '.' :: digits 3 (ms % 1000) ++ ['Z']

def toISOString (t : Int) : String := String.ofList (isoChars t)

def readYear : List Char → Option (Int × List Char)
  | '-' :: cs => (readDigits 6 0 cs).map fun (y, cs) => (-(y : Int), cs)
  | '+' :: cs => (readDigits 6 0 cs).map fun (y, cs) => ((y : Int), cs)
  | cs => (readDigits 4 0 cs).map fun (y, cs) => ((y : Int), cs)

/-- A character, then a number of so many digits. -/
def readPart (c : Char) (width : Nat) : List Char → Option (Nat × List Char)
  | [] => none
  | c' :: cs => if c' = c then readDigits width 0 cs else none

/-- Read what `toISOString` writes. -/
def parseISO (text : String) : Option Int := do
  let (year, cs) ← readYear text.toList
  let (month, cs) ← readPart '-' 2 cs
  let (day, cs) ← readPart '-' 2 cs
  let (hour, cs) ← readPart 'T' 2 cs
  let (minute, cs) ← readPart ':' 2 cs
  let (second, cs) ← readPart ':' 2 cs
  let (ms, cs) ← readPart '.' 3 cs
  if cs = ['Z'] then
    some (daysOfCivil ⟨year, month, day⟩ * 86400000 +
      (hour * 3600000 + minute * 60000 + second * 1000 + ms : Nat))
  else
    none

/-- What a `Date` can hold: up to a hundred million days around the epoch. -/
def IsTime (t : Int) : Prop := -8640000000000000 ≤ t ∧ t ≤ 8640000000000000

instance (t : Int) : Decidable (IsTime t) := inferInstanceAs (Decidable (_ ∧ _))

theorem civilOfDays_year {days : Int} (h : -100000000 ≤ days ∧ days ≤ 100000000) :
    -999999 ≤ (civilOfDays days).year ∧ (civilOfDays days).year ≤ 999999 := by
  unfold civilOfDays epochDay
  simp only
  split <;> omega

theorem readYear_yearText {year : Int} (h : -999999 ≤ year ∧ year ≤ 999999) (rest : List Char) :
    readYear (yearText year ++ rest) = some (year, rest) := by
  unfold yearText
  split
  · next hfour =>
    have hnat : year.toNat < 10 ^ 4 := by omega
    have hdigit : ∀ d < 10, digitChar d ≠ '-' ∧ digitChar d ≠ '+' := by decide
    obtain ⟨hminus, hplus⟩ := hdigit (year.toNat / 10 ^ 3 % 10) (Nat.mod_lt _ (by decide))
    unfold readYear
    split
    · next heq => exact absurd (List.cons.inj heq).1 hminus
    · next heq => exact absurd (List.cons.inj heq).1 hplus
    · rw [readDigits_digits hnat, zero_mul, zero_add, Option.map_some]
      exact congrArg some (Prod.ext (Int.toNat_of_nonneg hfour.1) rfl)
  split
  · next hneg =>
    have hnat : (-year).toNat < 10 ^ 6 := by omega
    simp only [List.cons_append, readYear, readDigits_digits hnat, Option.map_some]
    congr 2
    omega
  · next hpos =>
    have hnat : year.toNat < 10 ^ 6 := by omega
    simp only [List.cons_append, readYear, readDigits_digits hnat, Option.map_some]
    congr 2
    omega

theorem readPart_digits {c : Char} {width n : Nat} (h : n < 10 ^ width) (rest : List Char) :
    readPart c width (c :: digits width n ++ rest) = some (n, rest) := by
  simp only [List.cons_append, readPart, if_true, readDigits_digits h, zero_mul, zero_add]

theorem parseISO_toISOString {t : Int} (h : IsTime t) : parseISO (toISOString t) = some t := by
  obtain ⟨hmonth, hmonth', hday, hday'⟩ := civilOfDays_range (t / 86400000)
  have hyear := @civilOfDays_year (t / 86400000) (by unfold IsTime at h; omega)
  have hdays := daysOfCivil_civilOfDays (t / 86400000)
  generalize hms : (t % 86400000).toNat = ms
  generalize hdate : civilOfDays (t / 86400000) = date at hmonth hmonth' hday hday' hyear hdays
  have hmonth₂ : date.month.toNat < 10 ^ 2 := by omega
  have hday₂ : date.day.toNat < 10 ^ 2 := by omega
  have hhour : ms / 3600000 < 10 ^ 2 := by omega
  have hminute : ms / 60000 % 60 < 10 ^ 2 := by omega
  have hsecond : ms / 1000 % 60 < 10 ^ 2 := by omega
  have hmilli : ms % 1000 < 10 ^ 3 := by omega
  unfold parseISO toISOString isoChars
  rw [String.toList_ofList]
  simp only [hms, hdate, List.append_assoc, readYear_yearText hyear, Option.bind_eq_bind,
    Option.bind_some, readPart_digits hmonth₂, readPart_digits hday₂, readPart_digits hhour,
    readPart_digits hminute, readPart_digits hsecond, readPart_digits hmilli, if_true]
  have hmonth₃ : (date.month.toNat : Int) = date.month := by omega
  have hday₃ : (date.day.toNat : Int) = date.day := by omega
  rw [hmonth₃, hday₃, hdays]
  congr 1
  omega

end Js
