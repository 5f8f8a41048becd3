import Mathlib.Data.Int.LeastGreatest
import Mathlib.Data.Nat.Digits.Lemmas
import Mathlib.Tactic.IntervalCases
import NeigeCalm.Library.Lines

/-!
# The calendar of the market plugin

Days are counted from 1970-01-01.  The two conversions work on years that start in March, so
that a leap day is the last of its year: `yearStart` counts the days before such a year,
`monthStart` those before a month of it.  Every day lies in one such year (`exists_year`) and
the closed formula finds it (`civilFromDays_eq`).
-/

namespace NeigeCalm.Market

open Library List Nat

/-! ## The source's functions -/

/-- Only zero remainders are asked for, so their sign does not matter. -/
def isLeapYear (year : Int) : Bool :=
  (year % 4 = 0 && year % 100 ≠ 0) || year % 400 = 0

def daysInMonth (year : Int) (month : Nat) : Nat :=
  match month with
  | 1 | 3 | 5 | 7 | 8 | 10 | 12 => 31
  | 4 | 6 | 9 | 11 => 30
  | 2 => if isLeapYear year then 29 else 28
  | _ => 0

def daysFromCivil (year : Int) (month day : Nat) : Int :=
  let y := if month ≤ 2 then year - 1 else year
  let era := y / 400
  let yoe := y - era * 400
  let m : Int := month
  let doy := (153 * (if m > 2 then m - 3 else m + 9) + 2) / 5 + day - 1
  let doe := yoe * 365 + yoe / 4 - yoe / 100 + doy
  era * 146097 + doe - 719468

def civilFromDays (day : Int) : Int × Nat × Nat :=
  let z := day + 719468
  let era := z / 146097
  let doe := z - era * 146097
  let yoe := (doe - doe / 1460 + doe / 36524 - doe / 146096) / 365
  let y := yoe + era * 400
  let doy := doe - (365 * yoe + yoe / 4 - yoe / 100)
  let mp := (5 * doy + 2) / 153
  let d := doy - (153 * mp + 2) / 5 + 1
  let m := if mp < 10 then mp + 3 else mp - 9
  (if m ≤ 2 then y + 1 else y, m.toNat?.getD 1, d.toNat?.getD 1)

/-- The number of a slice of digits. -/
def digits (slice : Text) : Option Nat :=
  if slice.all Char.isDigit then some (Nat.ofDigitChars 10 slice 0) else none

/-- Strict `YYYY-MM-DD`.  A text with other than ASCII characters is refused, so that its bytes
are its characters. -/
def parseDate (raw : Text) : Option Int :=
  if raw.length ≠ 10 ∨ raw[4]? ≠ some '-' ∨ raw[7]? ≠ some '-' then none
  else do
    let year ← digits (raw.take 4)
    let month ← digits ((raw.drop 5).take 2)
    let day ← digits ((raw.drop 8).take 2)
    if ¬(1 ≤ month ∧ month ≤ 12) ∨ day = 0 ∨ day > daysInMonth year month then none
    else some (daysFromCivil year month day)

/-- `{n:0width}`. -/
def zeroPadded (width n : Nat) : Text :=
  let text := Nat.toDigits 10 n
  replicate (width - text.length) '0' ++ text

/-- `{n:0width}` of a number with a sign, which counts for the width. -/
def signedZeroPadded (width : Nat) : Int → Text
  | .ofNat n => zeroPadded width n
  | .negSucc n => '-' :: zeroPadded (width - 1) (n + 1)

def formatDate (day : Int) : Text :=
  let (y, m, d) := civilFromDays day
  signedZeroPadded 4 y ++ '-' :: zeroPadded 2 m ++ '-' :: zeroPadded 2 d

/-- Monday is 1, Sunday 7. -/
def isoWeekday (day : Int) : Int := (day + 3) % 7 + 1

def weekStart (day : Int) : Int := day - (isoWeekday day - 1)

def weekEnd (day : Int) : Int := weekStart day + 6

def monthStart (day : Int) : Int :=
  let (y, m, _) := civilFromDays day
  daysFromCivil y m 1

def monthEnd (day : Int) : Int :=
  let (y, m, _) := civilFromDays day
  daysFromCivil y m (daysInMonth y m)

inductive Period where
  | day | week | month
deriving DecidableEq

def periodBounds (period : Period) (day : Int) : Int × Int :=
  match period with
  | .day => (day, day)
  | .week => (weekStart day, weekEnd day)
  | .month => (monthStart day, monthEnd day)

/-! ## Years that start in March -/

/-- The dates of the calendar, as the source's triple of year, month and day. -/
def IsDate (date : Int × Nat × Nat) : Prop :=
  1 ≤ date.2.1 ∧ date.2.1 ≤ 12 ∧ 1 ≤ date.2.2 ∧ date.2.2 ≤ daysInMonth date.1 date.2.1

/-- The order of dates by year, month and day. -/
def Before (a b : Int × Nat × Nat) : Prop :=
  a.1 < b.1 ∨ a.1 = b.1 ∧ (a.2.1 < b.2.1 ∨ a.2.1 = b.2.1 ∧ a.2.2 < b.2.2)

def dayNumber (date : Int × Nat × Nat) : Int := daysFromCivil date.1 date.2.1 date.2.2

/-- The days before the March-based year `y`, counted from 0000-03-01. -/
def yearStart (y : Int) : Int := 365 * y + y / 4 - y / 100 + y / 400

/-- The days of a March-based year before its month `mp`. -/
def monthOffset (mp : Int) : Int := (153 * mp + 2) / 5

theorem yearStart_succ (y : Int) :
    yearStart (y + 1) = yearStart y + if isLeapYear (y + 1) then 366 else 365 := by
  simp only [yearStart, isLeapYear, Bool.or_eq_true, Bool.and_eq_true, decide_eq_true_eq]
  split <;> omega

theorem yearStart_mono (less : y < y') : yearStart (y + 1) ≤ yearStart y' := by
  simp only [yearStart]
  omega

/-- A date's year and month, with January and February in the year before. -/
def marchYear (year : Int) (month : Nat) : Int := if month ≤ 2 then year - 1 else year

def marchMonth (month : Nat) : Int := if month ≤ 2 then month + 9 else month - 3

theorem daysFromCivil_eq :
    daysFromCivil year month day + 719468
      = yearStart (marchYear year month) + (monthOffset (marchMonth month) + day - 1) := by
  simp only [daysFromCivil, yearStart, marchYear, monthOffset, marchMonth]
  split <;> split <;> omega

section

variable {yoe doy doe : Int} (low : 0 ≤ yoe) (high : yoe < 400)

include low high

theorem yearStart_era (era : Int) :
    yearStart (yoe + era * 400) = era * 146097 + (365 * yoe + yoe / 4 - yoe / 100) := by
  simp only [yearStart]
  omega

variable (first : 0 ≤ doy) (short : doy ≤ 365)
  (leap : doy = 365 → yoe % 4 = 3 ∧ (yoe % 100 ≠ 99 ∨ yoe = 399))
  (is : doe = 365 * yoe + yoe / 4 - yoe / 100 + doy)

include first short leap is

/-- The century of an era's day: only the era's last day lies past the fourth of them. -/
theorem century_eq : doe / 36524 - doe / 146096 = yoe / 100 := by
  by_cases last : yoe = 399 ∧ doy = 365
  · omega
  · obtain ⟨rest, _⟩ : ∃ rest, doe = 36524 * (yoe / 100) + rest ∧ 0 ≤ rest ∧ rest ≤ 36523 :=
      ⟨365 * (yoe % 100) + yoe % 100 / 4 + doy, by omega, by omega, by omega⟩
    omega

theorem yearOfEra_eq : (doe - doe / 1460 + doe / 36524 - doe / 146096) / 365 = yoe := by
  have century := century_eq low high first short leap is
  have : doe / 1460 = yoe / 4 ∧ doy ≤ 364 ∨ doe / 1460 = yoe / 4 + 1 ∧ 0 < doy := by omega
  omega

end

theorem civilFromDays_eq (is : day + 719468 = yearStart y + doy) (first : 0 ≤ doy)
    (within : yearStart y + doy < yearStart (y + 1)) :
    civilFromDays day =
      let mp := (5 * doy + 2) / 153
      let m := if mp < 10 then mp + 3 else mp - 9
      (if m ≤ 2 then y + 1 else y, m.toNat?.getD 1, (doy - monthOffset mp + 1).toNat?.getD 1) := by
  obtain ⟨era, yoe, rfl, low, high⟩ : ∃ era yoe, y = yoe + era * 400 ∧ 0 ≤ yoe ∧ yoe < 400 :=
    ⟨y / 400, y % 400, by omega, by omega, by omega⟩
  have leap : doy ≤ 365 ∧ (doy = 365 → yoe % 4 = 3 ∧ (yoe % 100 ≠ 99 ∨ yoe = 399)) := by
    simp only [yearStart] at within
    omega
  rw [yearStart_era low high] at is
  have year := yearOfEra_eq low high first leap.1 leap.2 rfl
  simp only [civilFromDays, monthOffset, show (day + 719468) / 146097 = era by omega]
  rw [show day + 719468 - era * 146097 = 365 * yoe + yoe / 4 - yoe / 100 + doy by omega, year]
  simp

/-! ## Dates and days -/

/-- The day of the March-based year a date is. -/
def dayOfYear (date : Int × Nat × Nat) : Int := monthOffset (marchMonth date.2.1) + date.2.2 - 1

theorem dayNumber_eq (date : Int × Nat × Nat) :
    dayNumber date + 719468 = yearStart (marchYear date.1 date.2.1) + dayOfYear date :=
  daysFromCivil_eq ..

theorem exists_year (z : Int) : ∃ y, yearStart y ≤ z ∧ z < yearStart (y + 1) := by
  obtain ⟨y, starts, last⟩ := Int.exists_greatest_of_bdd (P := (yearStart · ≤ z))
    ⟨max z 0 + 1, by grind [yearStart]⟩ ⟨min z 0 - 1, by grind [yearStart]⟩
  refine ⟨y, starts, ?_⟩
  by_contra next
  have := last (y + 1) (by omega)
  omega

theorem toNat?_getD {n : Int} (low : 0 ≤ n) : n.toNat?.getD 1 = n.toNat := by
  obtain ⟨_, rfl⟩ := Int.eq_ofNat_of_zero_le low
  rfl

theorem civilFromDays_spec (day : Int) :
    IsDate (civilFromDays day) ∧ dayNumber (civilFromDays day) = day := by
  obtain ⟨y, _⟩ := exists_year (day + 719468)
  have leap := yearStart_succ y
  have is : day + 719468 = yearStart y + (day + 719468 - yearStart y) := by omega
  rw [civilFromDays_eq is (by omega) (by omega)]
  generalize day + 719468 - yearStart y = doy at is
  obtain ⟨mp, isMonth⟩ : ∃ mp, (5 * doy + 2) / 153 = mp := ⟨_, rfl⟩
  obtain ⟨_, _⟩ : 0 ≤ mp ∧ mp ≤ 11 := by omega
  have first : 0 ≤ doy - monthOffset mp + 1 := by
    unfold monthOffset
    omega
  rw [← Int.add_left_inj (k := 719468), dayNumber_eq, is]
  simp only [isMonth, toNat?_getD first]
  interval_cases mp <;>
    simp [IsDate, daysInMonth, marchYear, marchMonth, dayOfYear, monthOffset, toNat?_getD] at * <;>
    grind

theorem IsDate.within (valid : IsDate date) :
    (5 * dayOfYear date + 2) / 153 = marchMonth date.2.1 ∧ 0 ≤ dayOfYear date ∧
      yearStart (marchYear date.1 date.2.1) + dayOfYear date
        < yearStart (marchYear date.1 date.2.1 + 1) := by
  obtain ⟨year, month, _⟩ := date
  obtain ⟨low, high, first, last⟩ := valid
  have later := yearStart_succ year
  have earlier := yearStart_succ (year - 1)
  rw [Int.sub_add_cancel] at earlier
  simp only at low high first last
  interval_cases month <;>
    simp [dayOfYear, monthOffset, marchMonth, marchYear, daysInMonth] at * <;> grind

theorem dayNumber_lt (validA : IsDate a) (validB : IsDate b) (before : Before a b) :
    dayNumber a < dayNumber b := by
  have placeA := dayNumber_eq a
  have placeB := dayNumber_eq b
  obtain ⟨_, _⟩ := validA.within
  obtain ⟨_, _⟩ := validB.within
  by_cases year : marchYear a.1 a.2.1 < marchYear b.1 b.2.1
  · have := yearStart_mono year
    omega
  · have : marchYear a.1 a.2.1 = marchYear b.1 b.2.1 ∧ (marchMonth a.2.1 < marchMonth b.2.1 ∨
        marchMonth a.2.1 = marchMonth b.2.1 ∧ a.2.2 < b.2.2) := by
      obtain ⟨_, _⟩ := validA
      obtain ⟨_, _⟩ := validB
      grind [marchYear, marchMonth, Before]
    rw [this.1] at placeA
    simp only [dayOfYear, monthOffset] at *
    omega

theorem eq_or_before (a b : Int × Nat × Nat) : a = b ∨ Before a b ∨ Before b a := by
  simp only [Before, Prod.ext_iff]
  omega

theorem before_iff (validA : IsDate a) (validB : IsDate b) :
    Before a b ↔ dayNumber a < dayNumber b := by
  refine ⟨dayNumber_lt validA validB, fun less => ?_⟩
  obtain rfl | before | after := eq_or_before a b
  · exact absurd less (lt_irrefl _)
  · exact before
  · exact absurd (dayNumber_lt validB validA after) (by omega)

theorem civilFromDays_dayNumber (valid : IsDate date) : civilFromDays (dayNumber date) = date := by
  obtain ⟨valid', _⟩ := civilFromDays_spec (dayNumber date)
  obtain is | before | before := eq_or_before (civilFromDays (dayNumber date)) date
  · exact is
  · rw [before_iff valid' valid] at before
    omega
  · rw [before_iff valid valid'] at before
    omega

theorem dayNumber_next (validA : IsDate a) (validB : IsDate b) (before : Before a b)
    (adjacent : ∀ c, IsDate c → Before a c → ¬Before c b) : dayNumber b = dayNumber a + 1 := by
  obtain ⟨valid, is⟩ := civilFromDays_spec (dayNumber a + 1)
  have less := dayNumber_lt validA validB before
  have := adjacent _ valid
  rw [before_iff validA valid, before_iff valid validB, is] at this
  omega

theorem daysInMonth_bounds (year : Int) (low : 1 ≤ month) (high : month ≤ 12) :
    28 ≤ daysInMonth year month ∧ daysInMonth year month ≤ 31 := by
  interval_cases month <;> grind [daysInMonth]

/-! ## Texts -/

theorem digits_eq_some : digits slice = some n ↔
    (∀ c ∈ slice, c.isDigit) ∧ ofDigitChars 10 slice 0 = n := by
  simp [digits]

theorem ofDigitChars_eq_ofDigits (slice : Text) : ofDigitChars 10 slice 0
    = ofDigits 10 (slice.reverse.map fun c => c.toNat - '0'.toNat) := by
  induction slice using reverseRecOn with
  | nil => rfl
  | append_singleton _ _ ih =>
    simp [ofDigitChars_append, ofDigitChars_cons, ofDigits_cons, ih, Nat.add_comm]

theorem digit_lt {slice : Text} (ofDigits : ∀ c ∈ slice, c.isDigit) :
    ∀ d ∈ slice.reverse.map fun c => c.toNat - '0'.toNat, d < 10 := by
  intro d member
  obtain ⟨c, inside, rfl⟩ := mem_map.1 member
  have := (Char.isDigit_iff_toNat.1 (ofDigits c (mem_reverse.1 inside))).2
  exact lt_succ_of_le (sub_le_of_le_add this)

theorem ofDigitChars_lt (ofDigits : ∀ c ∈ slice, c.isDigit) :
    ofDigitChars 10 slice 0 < 10 ^ slice.length := by
  rw [ofDigitChars_eq_ofDigits]
  simpa using ofDigits_lt_base_pow_length (by decide) (digit_lt ofDigits)

/-- As many digits with the same number are the same text. -/
theorem ofDigitChars_inj (left : ∀ c ∈ xs, c.isDigit) (right : ∀ c ∈ ys, c.isDigit)
    (length : xs.length = ys.length)
    (same : ofDigitChars 10 xs 0 = ofDigitChars 10 ys 0) : xs = ys := by
  rw [ofDigitChars_eq_ofDigits, ofDigitChars_eq_ofDigits] at same
  have digits := ofDigits_inj_of_len_eq (by decide) (by simpa using length) (digit_lt left)
    (digit_lt right) same
  rw [map_reverse, map_reverse, reverse_inj] at digits
  apply ext_getElem length
  intro i inX inY
  have := Char.isDigit_iff_toNat.1 (left _ (getElem_mem inX))
  have := Char.isDigit_iff_toNat.1 (right _ (getElem_mem inY))
  have here : xs[i].toNat - '0'.toNat = ys[i].toNat - '0'.toNat := by
    simpa [inX, inY] using congrArg (·[i]?) digits
  exact Char.toNat_inj.1 (by omega)

theorem digits_zeroPadded (wide : 0 < width) (small : n < 10 ^ width) :
    digits (zeroPadded width n) = some n ∧ (zeroPadded width n).length = width := by
  have := (length_toDigits_le_iff (by decide) wide).2 small
  refine ⟨digits_eq_some.2 ⟨?_, ?_⟩, ?_⟩
  · intro c member
    obtain member | member := mem_append.1 member
    · rw [eq_of_mem_replicate member]
      decide
    · exact isDigit_of_mem_toDigits (by decide) le_rfl member
  · simp [zeroPadded, ofDigitChars_append, ofDigitChars_replicate_zero]
  · simp [zeroPadded]
    omega

theorem digits_slice (width : Nat) : slice.length = width + 1 ∧ digits slice = some n ↔
    n < 10 ^ (width + 1) ∧ slice = zeroPadded (width + 1) n := by
  refine ⟨fun ⟨long, read⟩ => ?_, fun ⟨small, is⟩ => ?_⟩
  · obtain ⟨ofDigits, rfl⟩ := digits_eq_some.1 read
    have small := ofDigitChars_lt ofDigits
    rw [long] at small
    obtain ⟨back, same⟩ := digits_zeroPadded (succ_pos width) small
    have back := digits_eq_some.1 back
    exact ⟨small, ofDigitChars_inj ofDigits back.1 (long.trans same.symm) back.2.symm⟩
  · rw [is]
    exact (digits_zeroPadded (succ_pos width) small).symm

theorem eq_dashed (long : raw.length = 10) (first : raw[4]? = some '-')
    (second : raw[7]? = some '-') :
    raw = raw.take 4 ++ '-' :: (raw.drop 5).take 2 ++ '-' :: (raw.drop 8).take 2 := by
  apply ext_getElem?
  intro i
  grind

theorem parseDate_eq_some : parseDate raw = some n ↔ ∃ y m d : Nat,
    (y ≤ 9999 ∧ raw = zeroPadded 4 y ++ '-' :: zeroPadded 2 m ++ '-' :: zeroPadded 2 d) ∧
      IsDate (y, m, d) ∧ dayNumber (y, m, d) = n := by
  constructor
  · intro read
    simp only [parseDate, Option.bind_eq_bind] at read
    split at read
    · cases read
    rename_i shape
    simp only [Option.bind_eq_some_iff] at read
    obtain ⟨y, year, m, month, d, day, read⟩ := read
    split at read
    · cases read
    rename_i inside
    simp only [not_or, not_not, not_lt] at shape inside
    obtain ⟨long, first, second⟩ := shape
    obtain ⟨small, year⟩ := (digits_slice 3).1 ⟨by simp [long], year⟩
    obtain ⟨-, month⟩ := (digits_slice 1).1 ⟨by simp [long], month⟩
    obtain ⟨-, day⟩ := (digits_slice 1).1 ⟨by simp [long], day⟩
    refine ⟨y, m, d, ⟨le_of_lt_succ small, ?_⟩,
      ⟨inside.1.1, inside.1.2, pos_of_ne_zero inside.2.1, inside.2.2⟩, Option.some.inj read⟩
    rw [← year, ← month, ← day]
    exact eq_dashed long first second
  · rintro ⟨y, m, d, ⟨_, is⟩, ⟨low, high, first, last⟩, rfl⟩
    simp only at low high first last
    have short := (daysInMonth_bounds y low high).2
    obtain ⟨yearLong, readYear⟩ := (digits_slice 3).2 ⟨show y < 10 ^ 4 by omega, rfl⟩
    obtain ⟨monthLong, readMonth⟩ := (digits_slice 1).2 ⟨show m < 10 ^ 2 by omega, rfl⟩
    obtain ⟨dayLong, readDay⟩ := (digits_slice 1).2 ⟨show d < 10 ^ 2 by omega, rfl⟩
    simp only [reduceAdd] at yearLong monthLong dayLong readYear readMonth readDay
    have shape : raw.length = 10 ∧ raw[4]? = some '-' ∧ raw[7]? = some '-' := by
      grind
    have slices : raw.take 4 = zeroPadded 4 y ∧ (raw.drop 5).take 2 = zeroPadded 2 m ∧
        (raw.drop 8).take 2 = zeroPadded 2 d := by
      simp [is, yearLong, monthLong, dayLong, drop_append, drop_eq_nil_of_le, take_of_length_le]
    simp only [parseDate, shape, slices, readYear, readMonth, readDay, Option.bind_eq_bind,
      Option.bind_some, ne_eq, not_true_eq_false, or_self, if_false]
    rw [if_neg (by omega)]
    rfl

theorem formatDate_eq (is : civilFromDays n = (((y : Nat) : Int), m, d)) :
    formatDate n = zeroPadded 4 y ++ '-' :: zeroPadded 2 m ++ '-' :: zeroPadded 2 d := by
  simp only [formatDate, is]
  rfl

theorem parseDate_iff : parseDate raw = some n ↔
    formatDate n = raw ∧ 0 ≤ (civilFromDays n).1 ∧ (civilFromDays n).1 ≤ 9999 := by
  rw [parseDate_eq_some]
  constructor
  · rintro ⟨y, m, d, ⟨_, rfl⟩, valid, rfl⟩
    have is := civilFromDays_dayNumber valid
    refine ⟨formatDate_eq is, ?_⟩
    rw [is]
    omega
  · intro ⟨printed, low, high⟩
    obtain ⟨valid, is⟩ := civilFromDays_spec n
    obtain ⟨⟨y, m, d⟩, date⟩ : ∃ date, civilFromDays n = date := ⟨_, rfl⟩
    rw [date] at valid is low high
    obtain ⟨y, rfl⟩ := Int.eq_ofNat_of_zero_le low
    exact ⟨y, m, d, ⟨by omega, by rw [← printed, formatDate_eq date]⟩, valid, is⟩

/-! ## Periods -/

theorem daysFromCivil_day :
    daysFromCivil year month day = daysFromCivil year month 1 + (day - 1) := by
  simp only [daysFromCivil]
  omega

theorem exists_date_of_month (low : 1 ≤ m) (high : m ≤ 12) (starts : daysFromCivil y m 1 ≤ day)
    (ends : day ≤ daysFromCivil y m (daysInMonth y m)) :
    ∃ d, IsDate (y, m, d) ∧ dayNumber (y, m, d) = day := by
  rw [daysFromCivil_day] at ends
  obtain ⟨d, _⟩ := Int.eq_ofNat_of_zero_le (by omega : 0 ≤ day - daysFromCivil y m 1 + 1)
  refine ⟨d, ⟨low, high, show 1 ≤ d by omega, show d ≤ daysInMonth y m by omega⟩, ?_⟩
  rw [dayNumber, daysFromCivil_day]
  exact (by omega : daysFromCivil y m 1 + ((d : Int) - 1) = day)

theorem isoWeekday_succ (day : Int) :
    1 ≤ isoWeekday day ∧ isoWeekday day ≤ 7 ∧ isoWeekday (day + 1) = isoWeekday day % 7 + 1 := by
  simp only [isoWeekday]
  omega

/-- A day lies in its period, and so does each day of the period. -/
theorem periodBounds_spec (period : Period) (day : Int) :
    (periodBounds period day).1 ≤ day ∧ day ≤ (periodBounds period day).2 ∧
      ∀ other, (periodBounds period day).1 ≤ other → other ≤ (periodBounds period day).2 →
        periodBounds period other = periodBounds period day := by
  cases period with simp only [periodBounds]
  | day => grind
  | week =>
    simp only [weekEnd, weekStart, isoWeekday]
    refine ⟨by omega, by omega, fun other low high => ?_⟩
    rw [show (other + 3) % 7 = (day + 3) % 7 + (other - day) by omega]
    ext <;> simp only <;> omega
  | month =>
    obtain ⟨valid, is⟩ := civilFromDays_spec day
    obtain ⟨_, date⟩ : ∃ date, civilFromDays day = date := ⟨_, rfl⟩
    simp only [monthStart, monthEnd, date] at valid is ⊢
    refine ⟨?_, ?_, fun other low high => ?_⟩
    · grind [dayNumber, daysFromCivil_day, IsDate]
    · grind [dayNumber, daysFromCivil_day, IsDate]
    · obtain ⟨_, valid, rfl⟩ := exists_date_of_month valid.1 valid.2.1 low high
      rw [civilFromDays_dayNumber valid]

/-- The day after a period is the first of the next one. -/
theorem periodBounds_next (period : Period) (day : Int) :
    (periodBounds period ((periodBounds period day).2 + 1)).1 =
      (periodBounds period day).2 + 1 := by
  obtain ⟨_, _, own⟩ := periodBounds_spec period day
  obtain ⟨_, last, next⟩ := periodBounds_spec period ((periodBounds period day).2 + 1)
  -- otherwise the last day would lie in both periods
  by_contra other
  have first := own _ (by omega) le_rfl
  rw [next (periodBounds period day).2 (by omega) (by omega)] at first
  rw [first] at last
  omega

theorem calendar_exact : (∀ date, IsDate date → civilFromDays (dayNumber date) = date) ∧
    (∀ day, IsDate (civilFromDays day) ∧ dayNumber (civilFromDays day) = day) ∧
    (∀ a b, IsDate a → IsDate b → (Before a b ↔ dayNumber a < dayNumber b) ∧
      (Before a b → (∀ c, IsDate c → Before a c → ¬Before c b) → dayNumber b = dayNumber a + 1)) ∧
    daysFromCivil 1970 1 1 = 0 ∧
    (∀ raw day, parseDate raw = some day ↔
      formatDate day = raw ∧ 0 ≤ (civilFromDays day).1 ∧ (civilFromDays day).1 ≤ 9999) ∧
    (∀ day, 1 ≤ isoWeekday day ∧ isoWeekday day ≤ 7 ∧
      isoWeekday (day + 1) = isoWeekday day % 7 + 1) ∧
    ∀ period day, let bounds := periodBounds period day
      (bounds.1 ≤ day ∧ day ≤ bounds.2) ∧
      (∀ other, periodBounds period other = bounds ↔ bounds.1 ≤ other ∧ other ≤ bounds.2) ∧
      (periodBounds period (bounds.2 + 1)).1 = bounds.2 + 1 := by
  refine ⟨fun _ => civilFromDays_dayNumber, civilFromDays_spec, fun a b validA validB =>
    ⟨before_iff validA validB, dayNumber_next validA validB⟩, by decide, fun _ _ => parseDate_iff,
    isoWeekday_succ, fun period day => ?_⟩
  obtain ⟨low, high, own⟩ := periodBounds_spec period day
  refine ⟨⟨low, high⟩, fun other => ⟨fun same => ?_, fun inside => own other inside.1 inside.2⟩,
    periodBounds_next period day⟩
  obtain ⟨low, high, -⟩ := periodBounds_spec period other
  rw [same] at low high
  exact ⟨low, high⟩

end NeigeCalm.Market
