import Hecks.Lib.Calendar
import Hecks.Lib.Decimal
import Hecks.Lib.Panics
import Hecks.Lib.Segments
import Hecks.Needs

/-! The instants the host stamps, and the two readers of them. -/
namespace Hecks.Host.Clock

open Calendar

/-! ### Writing and reading an instant -/

/-- A date of the proleptic Gregorian calendar from the days since the epoch. -/
def civilFromDays (z : ℤ) : ℤ × ℕ × ℕ :=
  let z := z + 719468
  let era := (if 0 ≤ z then z else z - 146096).tdiv 146097
  let doe := (z - era * 146097).toNat
  let yoe := (doe - doe / 1460 + doe / 36524 - doe / 146096) / 365
  let y := yoe + era * 400
  let doy := doe - (365 * yoe + yoe / 4 - yoe / 100)
  let mp := (5 * doy + 2) / 153
  let d := doy - (153 * mp + 2) / 5 + 1
  let m := if mp < 10 then mp + 3 else mp - 9
  (if m ≤ 2 then y + 1 else y, m, d)

/-- The inverse of `civilFromDays`. -/
def daysFromCivil (year month day : ℤ) : ℤ :=
  let y := if month ≤ 2 then year - 1 else year
  let era := (if 0 ≤ y then y else y - 399).tdiv 400
  let yoe := y - era * 400
  let mp := if 2 < month then month - 3 else month + 9
  let doy := (153 * mp + 2).tdiv 5 + day - 1
  let doe := yoe * 365 + yoe.tdiv 4 - yoe.tdiv 100 + doy
  era * 146097 + doe - 719468

def daysInMonth (year month : ℤ) : ℤ :=
  if month = 2 then
    if year.tmod 4 = 0 ∧ (year.tmod 100 ≠ 0 ∨ year.tmod 400 = 0) then 29 else 28
  else if month = 4 ∨ month = 6 ∨ month = 9 ∨ month = 11 then 30
  else 31

/-- `{n:0width}`. -/
def padded (width n : ℕ) : List Char :=
  List.replicate (width - (Nat.toDigits 10 n).length) '0' ++ Nat.toDigits 10 n

/-- Epoch seconds as `YYYY-MM-DDTHH:MM:SSZ`. They are counted from 1970 on, so no year is
negative. -/
def isoUtc (secs : ℕ) : String :=
  let days := secs / 86400
  let rem := secs % 86400
  let date := civilFromDays days
  String.ofList (padded 4 date.1.toNat ++ '-' :: padded 2 date.2.1 ++ '-' :: padded 2 date.2.2 ++
    'T' :: padded 2 (rem / 3600) ++ ':' :: padded 2 (rem % 3600 / 60) ++
    ':' :: padded 2 (rem % 60) ++ ['Z'])

def number (text : List Char) (start stop : ℕ) : Option ℤ :=
  let digits := (text.drop start).take (stop - start)
  if stop ≤ text.length ∧ digits.all Char.isDigit then
    (Text.parseI64 (String.ofList digits)).map Int64.toInt
  else none

/-- Optional fractional seconds. -/
def fractionOk (fraction : List Char) : Bool :=
  fraction.isEmpty ||
    (fraction.head? = some '.' && 1 < fraction.length && (fraction.drop 1).all Char.isDigit)

/-- Epoch seconds of an instant; a fraction is dropped. -/
def parseIsoUtc (text : String) : Option ℤ := do
  let chars := text.toList
  guard (20 ≤ chars.length ∧ chars.all (fun c => c.toNat < 128) ∧ chars.getLast? = some 'Z')
  guard (chars[4]? = some '-' ∧ chars[7]? = some '-' ∧ chars[10]? = some 'T' ∧
    chars[13]? = some ':' ∧ chars[16]? = some ':')
  guard (fractionOk ((chars.drop 19).dropLast))
  let year ← number chars 0 4
  let month ← number chars 5 7
  let day ← number chars 8 10
  let hour ← number chars 11 13
  let minute ← number chars 14 16
  let second ← number chars 17 19
  guard (1 ≤ month ∧ month ≤ 12 ∧ 1 ≤ day ∧ day ≤ daysInMonth year month ∧ hour < 24 ∧
    minute < 60 ∧ second < 60)
  some (daysFromCivil year month day * 86400 + hour * 3600 + minute * 60 + second)

example : isoUtc 951782400 = "2000-02-29T00:00:00Z" := by decide

example : parseIsoUtc "2026-10-22T12:00:00.789Z" = parseIsoUtc "2026-10-22T12:00:00Z" := by decide

example : parseIsoUtc "2026-02-29T00:00:00Z" = none := by decide

/-! ### Dates and days -/

/-- January and February are the last months of their March year, and of the next civil one. -/
def monthOfYear (month : ℕ) : ℕ := if month < 10 then month + 3 else month - 9

/-- The date of a day of an era. -/
def civil (era : ℕ) (e : EraDay) : ℕ × ℕ × ℕ :=
  (e.yearOfEra + 400 * era + if monthOf e.day < 10 then 0 else 1, monthOfYear (monthOf e.day),
    e.day - daysBefore (monthOf e.day) + 1)

/-- The days since the epoch of a day of an era. -/
def epochDay (era : ℕ) (e : EraDay) : ℤ := era * 146097 + e.ofEra - 719468

theorem monthOfYear_le_two {month : ℕ} (h : month ≤ 11) : monthOfYear month ≤ 2 ↔ ¬ month < 10 := by
  unfold monthOfYear
  by_cases early : month < 10
  · rw [if_pos early]
    omega
  · rw [if_neg early]
    omega

theorem civilFromDays_epochDay (era : ℕ) (e : EraDay) :
    civilFromDays (epochDay era e) = (((civil era e).1 : ℤ), (civil era e).2) := by
  have small := e.ofEra_lt
  have shifted : epochDay era e + 719468 = era * 146097 + e.ofEra := by
    unfold epochDay
    omega
  have nonneg : (0 : ℤ) ≤ era * 146097 + e.ofEra := by omega
  have quotient : ((era : ℤ) * 146097 + e.ofEra).tdiv 146097 = era := by
    rw [Int.tdiv_eq_ediv_of_nonneg nonneg]
    omega
  have rest : ((era : ℤ) * 146097 + e.ofEra - era * 146097).toNat = e.ofEra := by omega
  have before := e.days_before
  have day : e.ofEra - (365 * e.yearOfEra + e.yearOfEra / 4 - e.yearOfEra / 100) = e.day := by
    rw [before, EraDay.ofEra]
    omega
  have top := monthOf_le e.day_le
  have month : (5 * e.day + 2) / 153 = monthOf e.day := rfl
  have named : (if monthOf e.day < 10 then monthOf e.day + 3 else monthOf e.day - 9) =
      monthOfYear (monthOf e.day) := rfl
  unfold civilFromDays civil
  dsimp only
  rw [shifted, if_pos nonneg, quotient, rest, e.year_of_day, day, month, named]
  simp only [monthOfYear_le_two top]
  refine Prod.ext ?_ rfl
  dsimp only
  by_cases early : monthOf e.day < 10
  · rw [if_pos early, if_neg (not_not.mpr early)]
    push_cast
    omega
  · rw [if_neg early, if_pos early]
    push_cast
    omega

theorem daysFromCivil_civil (era : ℕ) (e : EraDay) :
    daysFromCivil (civil era e).1 (civil era e).2.1 (civil era e).2.2 = epochDay era e := by
  have small := e.yearOfEra_lt
  have low := (monthOf_bounds e.day).1
  have top := monthOf_le e.day_le
  have before := e.days_before
  have year : (if ((civil era e).2.1 : ℤ) ≤ 2 then ((civil era e).1 : ℤ) - 1 else (civil era e).1) =
      e.yearOfEra + 400 * era := by
    have late := monthOfYear_le_two top
    unfold civil
    dsimp only
    by_cases early : monthOf e.day < 10
    · rw [if_pos early, if_neg (by omega)]
      push_cast
      omega
    · rw [if_neg early, if_pos (by omega)]
      push_cast
      omega
  have month : (if (2 : ℤ) < (civil era e).2.1 then ((civil era e).2.1 : ℤ) - 3
      else (civil era e).2.1 + 9) = monthOf e.day := by
    unfold civil monthOfYear
    dsimp only
    by_cases early : monthOf e.day < 10
    · rw [if_pos early, if_pos (by omega)]
      omega
    · rw [if_neg early, if_neg (by omega)]
      omega
  have nonneg : (0 : ℤ) ≤ e.yearOfEra + 400 * era := by omega
  have era' : (e.yearOfEra + 400 * (era : ℤ)).tdiv 400 = era := by
    rw [Int.tdiv_eq_ediv_of_nonneg nonneg]
    omega
  have yoe : (e.yearOfEra : ℤ) + 400 * era - era * 400 = e.yearOfEra := by omega
  have months : ((153 * (monthOf e.day : ℤ) + 2).tdiv 5) = daysBefore (monthOf e.day) := by
    rw [Int.tdiv_eq_ediv_of_nonneg (by omega)]
    unfold daysBefore
    omega
  have fours : (e.yearOfEra : ℤ).tdiv 4 = (e.yearOfEra / 4 : ℕ) := by
    rw [Int.tdiv_eq_ediv_of_nonneg (by omega)]
    omega
  have centuries : (e.yearOfEra : ℤ).tdiv 100 = (e.yearOfEra / 100 : ℕ) := by
    rw [Int.tdiv_eq_ediv_of_nonneg (by omega)]
    omega
  unfold daysFromCivil
  dsimp only
  rw [year, month, if_pos nonneg, era', yoe, months, fours, centuries]
  unfold epochDay EraDay.ofEra civil
  dsimp only
  omega

/-- A date that the calendar has. -/
structure Date where
  year : ℕ
  month : ℕ
  day : ℕ
  month_pos : 1 ≤ month
  month_le : month ≤ 12
  day_pos : 1 ≤ day
  day_le : (day : ℤ) ≤ daysInMonth year month

/-- A year with a 29th of February. -/
def Leap (year : ℕ) : Prop := year % 4 = 0 ∧ (year % 100 ≠ 0 ∨ year % 400 = 0)

theorem daysInMonth_february (year : ℕ) :
    daysInMonth year 2 = 29 ∧ Leap year ∨ daysInMonth year 2 = 28 ∧ ¬ Leap year := by
  have same : ((year : ℤ).tmod 4 = 0 ∧ ((year : ℤ).tmod 100 ≠ 0 ∨ (year : ℤ).tmod 400 = 0)) ↔
      Leap year := by
    rw [Int.tmod_eq_emod_of_nonneg (by omega), Int.tmod_eq_emod_of_nonneg (by omega),
      Int.tmod_eq_emod_of_nonneg (by omega)]
    unfold Leap
    omega
  unfold daysInMonth
  rw [if_pos rfl]
  by_cases leap : Leap year
  · rw [if_pos (same.mpr leap)]
    exact .inl ⟨rfl, leap⟩
  · rw [if_neg fun h => leap (same.mp h)]
    exact .inr ⟨rfl, leap⟩

/-- The other months are as long as the table of the days before them tells. -/
theorem daysInMonth_other (year : ℤ) {month : ℕ} (h : month ≤ 10) :
    daysInMonth year (monthOfYear month) + daysBefore month = daysBefore (month + 1) := by
  interval_cases month <;> rfl

theorem leap_civil (era : ℕ) (e : EraDay) :
    Leap (e.yearOfEra + 400 * era + 1) ↔ e.year = 3 ∧ (e.four = 24 → e.century = 3) := by
  obtain ⟨c, f, y, d, hc, hf, hy, hd, leap⟩ := e
  simp only [Leap, EraDay.yearOfEra]
  omega

theorem civil_valid (era : ℕ) (e : EraDay) : 1 ≤ (civil era e).2.1 ∧ (civil era e).2.1 ≤ 12 ∧
    1 ≤ (civil era e).2.2 ∧
    ((civil era e).2.2 : ℤ) ≤ daysInMonth (civil era e).1 (civil era e).2.1 := by
  have top := monthOf_le e.day_le
  obtain ⟨low, high⟩ := monthOf_bounds e.day
  unfold civil
  dsimp only
  refine ⟨?_, ?_, Nat.le_add_left _ _, ?_⟩
  · unfold monthOfYear
    split <;> omega
  · unfold monthOfYear
    split <;> omega
  · by_cases february : monthOf e.day = 11
    · have early : ¬ (11 < 10) := by omega
      have before : daysBefore 11 = 337 := rfl
      rw [february, if_neg early]
      have last := e.day_le
      have second : ((monthOfYear 11 : ℕ) : ℤ) = 2 := rfl
      rw [second]
      rcases daysInMonth_february (e.yearOfEra + 400 * era + 1) with ⟨long, -⟩ | ⟨short, common⟩
      · rw [long]
        omega
      · rw [short]
        have notLast : e.day ≠ 365 := fun full => common ((leap_civil era e).mpr (e.leap full))
        omega
    · have length := @daysInMonth_other
        ((e.yearOfEra + 400 * era + if monthOf e.day < 10 then 0 else 1 : ℕ) : ℤ)
        (monthOf e.day) (by omega)
      omega

/-- Every date but those before March of the year 0 is the date of a day of an era. -/
theorem Date.exists_civil (date : Date) (late : 0 < date.year ∨ 2 < date.month) :
    ∃ era e, civil era e = (date.year, date.month, date.day) := by
  obtain ⟨year, month, day, month_pos, month_le, day_pos, day_le⟩ := date
  dsimp only at late
  -- the March year, and the place of the month in it
  obtain ⟨year', mp, hmp, hmonth, hyear⟩ : ∃ year' mp, mp ≤ 11 ∧ monthOfYear mp = month ∧
      year = year' + if mp < 10 then 0 else 1 := by
    by_cases early : month ≤ 2
    · refine ⟨year - 1, month + 9, by omega, ?_, ?_⟩
      · rw [monthOfYear, if_neg (by omega)]
        omega
      · rw [if_neg (by omega)]
        omega
    · refine ⟨year, month - 3, by omega, ?_, ?_⟩
      · rw [monthOfYear, if_pos (by omega)]
        omega
      · rw [if_pos (by omega)]
        omega
  have length : (day : ℤ) + daysBefore mp ≤ daysBefore (mp + 1) ∨ mp = 11 := by
    by_cases february : mp = 11
    · exact .inr february
    · have := @daysInMonth_other (year : ℤ) mp (by omega)
      rw [hmonth] at this
      omega
  have february : mp = 11 → day ≤ 29 ∧ (day = 29 → Leap year) := by
    intro second
    have two : month = 2 := by rw [← hmonth, second]; rfl
    rw [two] at day_le
    rcases daysInMonth_february year with ⟨long, leap⟩ | ⟨short, -⟩
    · have : ((2 : ℕ) : ℤ) = 2 := rfl
      rw [this, long] at day_le
      exact ⟨by omega, fun _ => leap⟩
    · have : ((2 : ℕ) : ℤ) = 2 := rfl
      rw [this, short] at day_le
      exact ⟨by omega, fun h => by omega⟩
  have inMonth : daysBefore mp + (day - 1) < daysBefore (mp + 1) := by
    rcases length with common | last
    · omega
    · have := (february last).1
      have before : daysBefore 11 = 337 := rfl
      have behind : daysBefore (11 + 1) = 367 := rfl
      rw [last, before, behind]
      omega
  have inYear : daysBefore mp + (day - 1) ≤ 365 := by
    by_cases last : mp = 11
    · have := (february last).1
      have before : daysBefore 11 = 337 := rfl
      rw [last, before]
      omega
    · have : daysBefore (mp + 1) ≤ 337 := by
        unfold daysBefore
        omega
      omega
  have leapDay : daysBefore mp + (day - 1) = 365 → Leap year ∧ year = year' + 1 := by
    intro full
    have last : mp = 11 := by
      by_contra other
      have : daysBefore (mp + 1) ≤ 337 := by
        unfold daysBefore
        omega
      omega
    have before : daysBefore 11 = 337 := rfl
    rw [last, before] at full
    have early : ¬ (11 < 10) := by omega
    rw [last, if_neg early] at hyear
    exact ⟨(february last).2 (by omega), hyear⟩
  refine ⟨year' / 400, ⟨year' % 400 / 100, year' % 100 / 4, year' % 4, daysBefore mp + (day - 1),
    by omega, by omega, by omega, inYear, ?_⟩, ?_⟩
  · intro full
    obtain ⟨leap, next⟩ := leapDay full
    unfold Leap at leap
    omega
  · have here := monthOf_eq (Nat.le_add_right (daysBefore mp) (day - 1)) inMonth
    unfold civil EraDay.yearOfEra
    dsimp only
    rw [here, hmonth, hyear]
    refine Prod.ext ?_ (Prod.ext rfl ?_)
    · dsimp only
      omega
    · dsimp only
      omega

/-! ### Instants -/

/-- An instant as it is written: a date and a time of day, the year of four digits. -/
structure Instant extends Date where
  hour : ℕ
  minute : ℕ
  second : ℕ
  year_lt : year < 10000
  hour_lt : hour < 24
  minute_lt : minute < 60
  second_lt : second < 60

def Instant.text (i : Instant) : List Char :=
  padded 4 i.year ++ '-' :: padded 2 i.month ++ '-' :: padded 2 i.day ++
    'T' :: padded 2 i.hour ++ ':' :: padded 2 i.minute ++ ':' :: padded 2 i.second ++ ['Z']

def Instant.secs (i : Instant) : ℤ :=
  daysFromCivil i.year i.month i.day * 86400 + i.hour * 3600 + i.minute * 60 + i.second

/-- The text of the seconds an instant stands for. -/
theorem isoUtc_secs (i : Instant) (late : 0 ≤ i.secs) (modern : 0 < i.year) :
    isoUtc i.secs.toNat = String.ofList i.text := by
  obtain ⟨era, e, date⟩ := i.toDate.exists_civil (.inl modern)
  have days := daysFromCivil_civil era e
  have back := civilFromDays_epochDay era e
  rw [date] at days back
  dsimp only at days back
  have hour := i.hour_lt
  have minute := i.minute_lt
  have second := i.second_lt
  unfold Instant.secs at late ⊢
  rw [days] at late ⊢
  have quotient : (((epochDay era e * 86400 + i.hour * 3600 + i.minute * 60 + i.second).toNat /
      86400 : ℕ) : ℤ) = epochDay era e := by omega
  have rest : (epochDay era e * 86400 + i.hour * 3600 + i.minute * 60 + i.second).toNat % 86400 =
      i.hour * 3600 + i.minute * 60 + i.second := by omega
  have hours : (i.hour * 3600 + i.minute * 60 + i.second) / 3600 = i.hour := by omega
  have minutes : (i.hour * 3600 + i.minute * 60 + i.second) % 3600 / 60 = i.minute := by omega
  have seconds : (i.hour * 3600 + i.minute * 60 + i.second) % 60 = i.second := by omega
  unfold isoUtc Instant.text
  dsimp only
  rw [quotient, rest, hours, minutes, seconds, back]
  rfl

/-- The last second of the year 9999. -/
def lastSecond : ℕ := 253402300799

/-- The instant of a number of seconds. -/
theorem exists_instant {secs : ℕ} (bound : secs ≤ lastSecond) :
    ∃ i : Instant, i.secs = secs ∧ 0 < i.year := by
  unfold lastSecond at bound
  obtain ⟨e, day⟩ := EraDay.exists_ofEra (n := (secs / 86400 + 719468) % 146097) (by omega)
  obtain ⟨month_pos, month_le, day_pos, day_le⟩ :=
    civil_valid ((secs / 86400 + 719468) / 146097) e
  have days : epochDay ((secs / 86400 + 719468) / 146097) e = (secs / 86400 : ℕ) := by
    unfold epochDay
    rw [day]
    omega
  have year : 0 < (civil ((secs / 86400 + 719468) / 146097) e).1 ∧
      (civil ((secs / 86400 + 719468) / 146097) e).1 < 10000 := by
    have small := e.yearOfEra_lt
    have before := e.days_before
    unfold civil
    dsimp only
    refine ⟨by omega, ?_⟩
    -- the years end in February, the last of them in the year 10000
    by_cases last : (secs / 86400 + 719468) / 146097 = 24 ∧ e.yearOfEra = 399
    · have most : secs / 86400 ≤ 2932896 := by omega
      have inEra : e.ofEra ≤ 146036 := by
        rw [day]
        omega
      have early : e.day ≤ 305 := by
        have century := e.century_le
        have four := e.four_le
        have year := e.year_le
        have whole := last.2
        unfold EraDay.ofEra at inEra
        unfold EraDay.yearOfEra at whole
        omega
      have months : monthOf e.day < 10 := by
        unfold monthOf
        omega
      rw [if_pos months]
      omega
    · split <;> omega
  refine ⟨⟨⟨_, _, _, month_pos, month_le, day_pos, day_le⟩, secs % 86400 / 3600,
    secs % 3600 / 60, secs % 60, year.2, by omega, by omega, by omega⟩, ?_, year.1⟩
  unfold Instant.secs
  dsimp only
  rw [daysFromCivil_civil, days]
  omega

end Hecks.Host.Clock
