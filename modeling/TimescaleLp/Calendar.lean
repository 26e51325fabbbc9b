import TimescaleLp.KeyOrder

/-!
Instants as texts. The civil date of a day determines the day, so that the text that
`isoformat` gives for an instant is read back to it, to the microsecond.
-/
namespace TimescaleLp.Calendar

open Names ColdStore KeyOrder

section Days

/-- The day of a civil date, counted from 1970-01-01. -/
def daysOfCivil (year month day : ℤ) : ℤ :=
  let y := if month ≤ 2 then year - 1 else year
  let era := y / 400
  let yoe := y - era * 400
  let doy := (153 * (if month ≤ 2 then month + 9 else month - 3) + 2) / 5 + day - 1
  era * 146097 + (yoe * 365 + yoe / 4 - yoe / 100 + doy) - 719468

/-- The year of a day in its era. -/
def yearOfEra (doe : ℤ) : ℤ := (doe - doe / 1460 + doe / 36524 - doe / 146096) / 365

def dayOfYear (doe : ℤ) : ℤ :=
  doe - (365 * yearOfEra doe + yearOfEra doe / 4 - yearOfEra doe / 100)

variable {doe : ℤ}

theorem yearOfEra_bounds (hlow : 0 ≤ doe) (hhigh : doe < 146097) :
    0 ≤ yearOfEra doe ∧ yearOfEra doe < 400 := by
  unfold yearOfEra
  omega

/-- Within a century the leap years are those of the fourth years; the last day of an era
is the last one of a leap year of its own. -/
theorem dayOfYear_bounds (hlow : 0 ≤ doe) (hhigh : doe < 146097) :
    0 ≤ dayOfYear doe ∧ dayOfYear doe ≤ 365 := by
  have hcentury : doe = 146096 ∨ ∃ c, 0 ≤ c ∧ c ≤ 3 ∧ doe / 36524 = c := by
    by_cases hlast : doe = 146096
    · exact Or.inl hlast
    · exact Or.inr ⟨_, by omega, by omega, rfl⟩
  rcases hcentury with rfl | ⟨c, hclow, hchigh, hc⟩
  · decide
  · have hera : doe / 146096 = 0 := by omega
    have hyear : yearOfEra doe / 100 = c := by
      simp only [yearOfEra, hc, hera]
      omega
    rw [dayOfYear, hyear]
    simp only [yearOfEra, hc, hera]
    omega

/-- March is the first month of a year that is counted this way. -/
def monthOfYear (doy : ℤ) : ℤ := (5 * doy + 2) / 153

theorem civilOfDays_eq (days : ℤ) : ∃ era doe, 0 ≤ doe ∧ doe < 146097 ∧
    days = era * 146097 + doe - 719468 ∧ civilOfDays days =
      (yearOfEra doe + era * 400 + (if monthOfYear (dayOfYear doe) < 10 then 0 else 1),
        (if monthOfYear (dayOfYear doe) < 10 then monthOfYear (dayOfYear doe) + 3
          else monthOfYear (dayOfYear doe) - 9),
        dayOfYear doe - (153 * monthOfYear (dayOfYear doe) + 2) / 5 + 1) := by
  refine ⟨(days + 719468) / 146097, days + 719468 - (days + 719468) / 146097 * 146097, by omega,
    by omega, by omega, ?_⟩
  have hmonth : ∀ mp : ℤ, 0 ≤ mp → mp ≤ 11 →
      (if (if mp < 10 then mp + 3 else mp - 9) ≤ 2 then (1 : ℤ) else 0) =
        if mp < 10 then 0 else 1 := by
    intro mp hlow hhigh
    split <;> split <;> omega
  generalize hdoe : days + 719468 - (days + 719468) / 146097 * 146097 = doe
  have hbounds : 0 ≤ dayOfYear doe ∧ dayOfYear doe ≤ 365 := dayOfYear_bounds (by omega) (by omega)
  have hmp := hmonth (monthOfYear (dayOfYear doe)) (by unfold monthOfYear; omega)
    (by unfold monthOfYear; omega)
  rw [← hmp, ← hdoe]
  rfl

/-- Months and days of a date are numbers of two digits. -/
theorem civilOfDays_bounds (days : ℤ) : 1 ≤ (civilOfDays days).2.1 ∧ (civilOfDays days).2.1 ≤ 12 ∧
    1 ≤ (civilOfDays days).2.2 ∧ (civilOfDays days).2.2 ≤ 31 := by
  obtain ⟨era, doe, hlow, hhigh, -, heq⟩ := civilOfDays_eq days
  obtain ⟨hdlow, hdhigh⟩ := dayOfYear_bounds hlow hhigh
  have hmonth : monthOfYear (dayOfYear doe) = (5 * dayOfYear doe + 2) / 153 := rfl
  rw [heq]
  generalize monthOfYear (dayOfYear doe) = mp at hmonth
  generalize dayOfYear doe = doy at hmonth hdlow hdhigh
  refine ⟨?_, ?_, ?_, ?_⟩
  · show 1 ≤ if mp < 10 then mp + 3 else mp - 9
    split <;> omega
  · show (if mp < 10 then mp + 3 else mp - 9) ≤ 12
    split <;> omega
  · show 1 ≤ doy - (153 * mp + 2) / 5 + 1
    omega
  · show doy - (153 * mp + 2) / 5 + 1 ≤ 31
    omega

/-- The date determines the day. -/
theorem daysOfCivil_civilOfDays (days : ℤ) : daysOfCivil (civilOfDays days).1
    (civilOfDays days).2.1 (civilOfDays days).2.2 = days := by
  obtain ⟨era, doe, hlow, hhigh, hdays, heq⟩ := civilOfDays_eq days
  obtain ⟨hylow, hyhigh⟩ := yearOfEra_bounds hlow hhigh
  obtain ⟨hdlow, hdhigh⟩ := dayOfYear_bounds hlow hhigh
  have hdoe : dayOfYear doe =
    doe - (365 * yearOfEra doe + yearOfEra doe / 4 - yearOfEra doe / 100) := rfl
  have hmonth : monthOfYear (dayOfYear doe) = (5 * dayOfYear doe + 2) / 153 := rfl
  rw [heq, daysOfCivil]
  generalize yearOfEra doe = yoe at *
  generalize monthOfYear (dayOfYear doe) = mp at *
  generalize dayOfYear doe = doy at *
  by_cases hmp : mp < 10
  · have hera : (yoe + era * 400 + 0) / 400 = era := by omega
    have hyear : yoe + era * 400 + 0 - era * 400 = yoe := by omega
    have hback : mp + 3 - 3 = mp := by omega
    simp only [if_pos hmp, if_neg (show ¬mp + 3 ≤ 2 by omega), hera, hyear, hback]
    omega
  · have hera : (yoe + era * 400 + 1 - 1) / 400 = era := by omega
    have hyear : yoe + era * 400 + 1 - 1 - era * 400 = yoe := by omega
    have hback : mp - 9 + 9 = mp := by omega
    simp only [if_neg hmp, if_pos (show mp - 9 ≤ 2 by omega), hera, hyear, hback]
    omega

end Days

section Texts

/-- `isoformat` of a datetime in UTC: microseconds are left out when there are none. -/
def isoformat (ts : Time) : Str :=
  let us := (ts % 86400000000).toNat
  dayOf ts ++ ('T' :: (zeroPad 2 (us / 3600000000) ++ (':' :: (zeroPad 2 (us / 60000000 % 60) ++
    (':' :: (zeroPad 2 (us / 1000000 % 60) ++ ((if us % 1000000 = 0 then []
      else '.' :: zeroPad 6 (us % 1000000)) ++ "+00:00".toList)))))))

def readNumber (width : ℕ) (s : Str) : Option (ℕ × Str) :=
  if (s.take width).length = width ∧ (s.take width).all Char.isDigit then
    some (Nat.ofDigitChars 10 (s.take width) 0, s.drop width)
  else none

def readChar (c : Char) : Str → Option Str
  | a :: s => if a = c then some s else none
  | [] => none

def readDate (s : Str) : Option (ℤ × Str) := do
  let (year, s) ← readNumber 4 s
  let s ← readChar '-' s
  let (month, s) ← readNumber 2 s
  let s ← readChar '-' s
  let (day, s) ← readNumber 2 s
  some (daysOfCivil year month day, s)

def readFraction : Str → Option (ℕ × Str)
  | '.' :: s => readNumber 6 s
  | s => some (0, s)

def readClock (s : Str) : Option (ℕ × Str) := do
  let (hour, s) ← readNumber 2 s
  let s ← readChar ':' s
  let (minute, s) ← readNumber 2 s
  let s ← readChar ':' s
  let (second, s) ← readNumber 2 s
  let (fraction, s) ← readFraction s
  some (((hour * 60 + minute) * 60 + second) * 1000000 + fraction, s)

/-- A timestamp with a time zone that is UTC. -/
def readTimestamp (s : Str) : Option Time := do
  let (days, s) ← readDate s
  let s ← readChar 'T' s
  let (us, s) ← readClock s
  if s = "+00:00".toList then some (days * 86400000000 + us) else none

/-- A year of four digits, as every datetime has one. -/
def Dated (ts : Time) : Prop :=
  0 ≤ (civilOfDays (ts / 86400000000)).1 ∧ (civilOfDays (ts / 86400000000)).1 < 10000

theorem readNumber_zeroPad {width n : ℕ} (hwidth : 0 < width) (hn : n < 10 ^ width) (rest : Str) :
    readNumber width (zeroPad width n ++ rest) = some (n, rest) := by
  have hlength := length_zeroPad hwidth hn
  have htake : (zeroPad width n ++ rest).take width = zeroPad width n :=
    List.take_left' hlength
  have hdrop : (zeroPad width n ++ rest).drop width = rest := List.drop_left' hlength
  rw [readNumber, htake, hdrop, if_pos ⟨hlength, List.all_eq_true.mpr (zeroPad_isDigit width n)⟩,
    ofDigitChars_zeroPad]

theorem readChar_cons (c : Char) (rest : Str) : readChar c (c :: rest) = some rest := by
  rw [readChar, if_pos rfl]

theorem readDate_dayOf {ts : Time} (h : Dated ts) (rest : Str) :
    readDate (dayOf ts ++ rest) = some (ts / 86400000000, rest) := by
  obtain ⟨hylow, hyhigh⟩ := h
  obtain ⟨hmlow, hmhigh, hdlow, hdhigh⟩ := civilOfDays_bounds (ts / 86400000000)
  have hdays := daysOfCivil_civilOfDays (ts / 86400000000)
  rw [dayOf]
  generalize civilOfDays (ts / 86400000000) = date at *
  obtain ⟨year, month, day⟩ := date
  simp only at hylow hyhigh hmlow hmhigh hdlow hdhigh hdays
  have hdash : "-".toList = ['-'] := by decide
  simp only [hdash, List.append_assoc, List.cons_append, List.nil_append]
  rw [readDate, readNumber_zeroPad (by decide) (by omega)]
  simp only [bind, Option.bind_some, readChar_cons]
  rw [readNumber_zeroPad (by decide) (by omega)]
  simp only [Option.bind_some, readChar_cons]
  rw [readNumber_zeroPad (by decide) (by omega)]
  simp only [Option.bind_some]
  rw [Int.toNat_of_nonneg hylow, Int.toNat_of_nonneg (by omega), Int.toNat_of_nonneg (by omega),
    hdays]

theorem readFraction_eq {us : ℕ} (hus : us < 1000000) :
    readFraction ((if us = 0 then [] else '.' :: zeroPad 6 us) ++ "+00:00".toList) =
      some (us, "+00:00".toList) := by
  by_cases hzero : us = 0
  · rw [if_pos hzero, hzero]
    decide
  · rw [if_neg hzero, List.cons_append, readFraction, readNumber_zeroPad (by decide) (by omega)]

theorem readTimestamp_isoformat {ts : Time} (h : Dated ts) :
    readTimestamp (isoformat ts) = some ts := by
  have hus : ((ts % 86400000000).toNat : ℤ) = ts % 86400000000 :=
    Int.toNat_of_nonneg (Int.emod_nonneg _ (by decide))
  have hlt : (ts % 86400000000).toNat < 86400000000 := by
    have hmod := Int.emod_lt_of_pos ts (show (0 : ℤ) < 86400000000 by decide)
    omega
  unfold isoformat
  generalize (ts % 86400000000).toNat = us at hus hlt
  have hclock : readClock (zeroPad 2 (us / 3600000000) ++ (':' :: (zeroPad 2 (us / 60000000 % 60) ++
      (':' :: (zeroPad 2 (us / 1000000 % 60) ++ ((if us % 1000000 = 0 then []
        else '.' :: zeroPad 6 (us % 1000000)) ++ "+00:00".toList)))))) =
      some (us, "+00:00".toList) := by
    rw [readClock, readNumber_zeroPad (by decide) (by omega)]
    simp only [bind, Option.bind_some, readChar_cons]
    rw [readNumber_zeroPad (by decide) (by omega)]
    simp only [Option.bind_some, readChar_cons]
    rw [readNumber_zeroPad (by decide) (by omega)]
    simp only [Option.bind_some, readFraction_eq (Nat.mod_lt us (by decide))]
    congr 2
    omega
  simp only [readTimestamp, readDate_dayOf h, bind, Option.bind_some, readChar_cons, hclock, hus]
  rw [if_pos trivial]
  exact congrArg some (Int.ediv_mul_add_emod ts 86400000000)

theorem quote_notMem_dayOf (ts : Time) : '\'' ∉ dayOf ts := by
  simp [dayOf, notMem_zeroPad]

theorem quote_notMem_isoformat (ts : Time) : '\'' ∉ isoformat ts := by
  have hfraction : ∀ us : ℕ, '\'' ∉ (if us = 0 then [] else '.' :: zeroPad 6 us) := by
    intro us
    split <;> simp [notMem_zeroPad]
  simp [isoformat, quote_notMem_dayOf, notMem_zeroPad, hfraction]

example : isoformat 1780356600250000 = "2026-06-01T23:30:00.250000+00:00".toList := by
  decide +kernel

end Texts

end TimescaleLp.Calendar
