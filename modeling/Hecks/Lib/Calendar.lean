import Mathlib

/-! The Gregorian calendar in years that begin in March, so that a leap day is the last of its
year. An era is the 400 years after which the calendar repeats. -/
namespace Calendar

/-- A day of an era: its century, the four years of the century, the year of those, and the day of
the year. Only the last year of four has a leap day, and of the last four of a century only in the
last century. -/
structure EraDay where
  century : ℕ
  four : ℕ
  year : ℕ
  day : ℕ
  century_le : century ≤ 3
  four_le : four ≤ 24
  year_le : year ≤ 3
  day_le : day ≤ 365
  leap : day = 365 → year = 3 ∧ (four = 24 → century = 3)

namespace EraDay

variable (e : EraDay)

def ofEra : ℕ := 36524 * e.century + 1461 * e.four + 365 * e.year + e.day

def yearOfEra : ℕ := 100 * e.century + 4 * e.four + e.year

theorem ofEra_lt : e.ofEra < 146097 := by
  obtain ⟨c, f, y, d, hc, hf, hy, hd, leap⟩ := e
  simp only [ofEra]
  omega

theorem yearOfEra_lt : e.yearOfEra < 400 := by
  obtain ⟨c, f, y, d, hc, hf, hy, hd, leap⟩ := e
  simp only [yearOfEra]
  omega

/-- The days before the year. -/
theorem days_before : 365 * e.yearOfEra + e.yearOfEra / 4 - e.yearOfEra / 100 =
    36524 * e.century + 1461 * e.four + 365 * e.year := by
  obtain ⟨c, f, y, d, hc, hf, hy, hd, leap⟩ := e
  simp only [yearOfEra]
  have fours : (100 * c + 4 * f + y) / 4 = 25 * c + f := by omega
  have centuries : (100 * c + 4 * f + y) / 100 = c := by omega
  rw [fours, centuries]
  omega

/-- The year of a day, from the number of the day alone. -/
theorem year_of_day :
    (e.ofEra - e.ofEra / 1460 + e.ofEra / 36524 - e.ofEra / 146096) / 365 = e.yearOfEra := by
  obtain ⟨c, f, y, d, hc, hf, hy, hd, leap⟩ := e
  simp only [ofEra, yearOfEra]
  -- the fours passed, and one more in the last days of the four years
  have fours : ∃ k ≤ 1, (36524 * c + 1461 * f + 365 * y + d) / 1460 = 25 * c + f + k ∧
      (k = 1 → 269 ≤ d) ∧ (d = 365 → k = 1) := by
    by_cases late : 1460 ≤ 24 * c + f + 365 * y + d
    · exact ⟨1, Nat.le_refl _, by omega, fun _ => by omega, fun _ => rfl⟩
    · exact ⟨0, Nat.zero_le _, by omega, fun h => by omega, fun h => by omega⟩
  -- the last day of the era is the one day past a fourth century
  have centuries : ∃ k, (36524 * c + 1461 * f + 365 * y + d) / 36524 = c + k ∧
      (36524 * c + 1461 * f + 365 * y + d) / 146096 = k := by
    by_cases last : 36524 * c + 1461 * f + 365 * y + d = 146096
    · exact ⟨1, by omega, by omega⟩
    · exact ⟨0, by omega, by omega⟩
  obtain ⟨k, small, fours, late, leapDay⟩ := fours
  obtain ⟨l, first, second⟩ := centuries
  rw [fours, first, second]
  omega

/-- Every day of an era has its place in it. -/
theorem exists_ofEra {n : ℕ} (h : n < 146097) : ∃ e : EraDay, e.ofEra = n := by
  have century : ∃ c ≤ 3, ∃ r, n = 36524 * c + r ∧ r ≤ 36524 ∧ (c < 3 → r < 36524) := by
    by_cases last : n = 146096
    · exact ⟨3, Nat.le_refl _, 36524, by omega, Nat.le_refl _, fun h => by omega⟩
    · exact ⟨n / 36524, by omega, n % 36524, by omega, by omega, fun _ => by omega⟩
  obtain ⟨c, hc, r, rfl, hr, short⟩ := century
  have year : ∃ y ≤ 3, ∃ d ≤ 365, r % 1461 = 365 * y + d ∧ (d = 365 → y = 3) := by
    by_cases last : r % 1461 = 1460
    · exact ⟨3, Nat.le_refl _, 365, Nat.le_refl _, by omega, fun _ => rfl⟩
    · exact ⟨r % 1461 / 365, by omega, r % 1461 % 365, by omega, by omega, fun h => by omega⟩
  obtain ⟨y, hy, d, hd, split, leap⟩ := year
  refine ⟨⟨c, r / 1461, y, d, hc, by omega, hy, hd, fun full => ⟨leap full, fun four => ?_⟩⟩, ?_⟩
  · have := leap full
    omega
  · simp only [ofEra]
    omega

end EraDay

/-! ### Months -/

/-- The days of the months before, the year beginning in March. -/
def daysBefore (month : ℕ) : ℕ := (153 * month + 2) / 5

/-- The month of a day of the year. -/
def monthOf (day : ℕ) : ℕ := (5 * day + 2) / 153

theorem monthOf_le {day : ℕ} (h : day ≤ 365) : monthOf day ≤ 11 := by
  simp only [monthOf]
  omega

/-- A day lies in its month. -/
theorem monthOf_bounds (day : ℕ) :
    daysBefore (monthOf day) ≤ day ∧ day < daysBefore (monthOf day + 1) := by
  simp only [daysBefore, monthOf]
  omega

/-- A day that lies in a month has that month. -/
theorem monthOf_eq {day month : ℕ} (low : daysBefore month ≤ day)
    (high : day < daysBefore (month + 1)) : monthOf day = month := by
  simp only [daysBefore, monthOf] at *
  omega

end Calendar
