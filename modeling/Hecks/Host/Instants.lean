import Hecks.Host.Clock

/-! The two readers of the instants the host writes, and the texts one of them reads. -/
namespace Hecks.Host.Clock

open Calendar Panics

/-! ### Digits -/

theorem padded_succ {width n : ℕ} (wide : 1 ≤ width) :
    padded (width + 1) n = padded width (n / 10) ++ [Nat.digitChar (n % 10)] := by
  unfold padded
  by_cases small : n < 10
  · have none : n / 10 = 0 := by omega
    have same : n % 10 = n := by omega
    have zeros : List.replicate width '0' = List.replicate (width - 1) '0' ++ ['0'] := by
      rw [← List.replicate_succ', Nat.sub_add_cancel wide]
    rw [Nat.toDigits_of_lt_base small, none, same, Nat.toDigits_zero]
    simp [zeros]
  · rw [Nat.toDigits_of_base_le (by omega) (by omega), List.length_append, List.length_singleton,
      Nat.add_sub_add_right, List.append_assoc]

theorem padded_one {n : ℕ} (small : n < 10) : padded 1 n = [Nat.digitChar n] := by
  unfold padded
  rw [Nat.toDigits_of_lt_base small]
  rfl

theorem padded_two {n : ℕ} (small : n < 100) :
    padded 2 n = [n / 10, n % 10].map Nat.digitChar := by
  rw [padded_succ (by omega), padded_one (by omega)]
  rfl

theorem padded_four {n : ℕ} (small : n < 10000) :
    padded 4 n = [n / 10 / 10 / 10, n / 10 / 10 % 10, n / 10 % 10, n % 10].map Nat.digitChar := by
  rw [padded_succ (by omega), padded_succ (by omega), padded_succ (by omega), padded_one (by omega)]
  rfl

def IsDigits (ks : List ℕ) : Prop := ∀ k ∈ ks, k < 10

def value (ks : List ℕ) (acc : ℕ) : ℕ := ks.foldl (fun n k => 10 * n + k) acc

theorem digit_digitChar {k : ℕ} (small : k < 10) : Text.digit? (Nat.digitChar k) = some k := by
  interval_cases k <;> rfl

theorem isDigit_digitChar {k : ℕ} (small : k < 10) : (Nat.digitChar k).isDigit := by
  interval_cases k <;> rfl

theorem digitsValue_map {ks : List ℕ} (digits : IsDigits ks) (acc : ℕ) :
    Text.digitsValue (ks.map Nat.digitChar) acc = some (value ks acc) := by
  induction ks generalizing acc with
  | nil => rfl
  | cons k ks ih =>
    rw [List.map_cons, Text.digitsValue, digit_digitChar (digits k List.mem_cons_self),
      Option.bind_some, ih fun j mem => digits j (List.mem_cons_of_mem _ mem)]
    rfl

theorem value_le {ks : List ℕ} (digits : IsDigits ks) (acc : ℕ) :
    value ks acc < (acc + 1) * 10 ^ ks.length := by
  induction ks generalizing acc with
  | nil =>
    simp only [value, List.foldl_nil, List.length_nil]
    omega
  | cons k ks ih =>
    have small := digits k List.mem_cons_self
    have later := ih (fun j mem => digits j (List.mem_cons_of_mem _ mem)) (10 * acc + k)
    have grows : (10 * acc + k + 1) * 10 ^ ks.length ≤ (10 * acc + 10) * 10 ^ ks.length :=
      Nat.mul_le_mul_right _ (by omega)
    calc value (k :: ks) acc = value ks (10 * acc + k) := rfl
      _ < (10 * acc + 10) * 10 ^ ks.length := Nat.lt_of_lt_of_le later grows
      _ = (acc + 1) * 10 ^ (k :: ks).length := by rw [List.length_cons, pow_succ]; ring

theorem parseI64_map {ks : List ℕ} (digits : IsDigits ks) (nonempty : ks ≠ [])
    (short : ks.length ≤ 4) :
    Text.parseI64 (String.ofList (ks.map Nat.digitChar)) = some (Int64.ofInt (value ks 0)) := by
  obtain ⟨k, rest, rfl⟩ := List.exists_cons_of_ne_nil nonempty
  have small := digits k List.mem_cons_self
  have unsigned : Text.splitSign ((k :: rest).map Nat.digitChar) =
      (false, (k :: rest).map Nat.digitChar) := by
    rw [List.map_cons]
    interval_cases k <;> rfl
  have bound := value_le digits 0
  have top : 10 ^ (k :: rest).length ≤ 10 ^ 4 := Nat.pow_le_pow_right (by omega) short
  have fits : Fits (value (k :: rest) 0) := by
    rw [fits_iff]
    omega
  unfold Text.parseI64
  rw [String.toList_ofList, unsigned, List.map_cons]
  dsimp only
  rw [← List.map_cons, digitsValue_map digits, Option.bind_some]
  exact if_pos fits

/-- The kernel's copy of the algorithm, in machine arithmetic. -/
theorem toInt_daysFromCivil {y m d : ℤ} (hy : 0 ≤ y ∧ y ≤ 9999) (hm : 1 ≤ m ∧ m ≤ 12)
    (hd : 1 ≤ d ∧ d ≤ 31) :
    (Needs.daysFromCivil (Int64.ofInt y) (Int64.ofInt m) (Int64.ofInt d)).toInt =
      daysFromCivil y m d := by
  have year : (Int64.ofInt y).toInt = y := Int64.toInt_ofInt_of_le (by omega) (by omega)
  have month : (Int64.ofInt m).toInt = m := Int64.toInt_ofInt_of_le (by omega) (by omega)
  have day : (Int64.ofInt d).toInt = d := Int64.toInt_ofInt_of_le (by omega) (by omega)
  unfold Needs.daysFromCivil daysFromCivil
  dsimp only
  have isEarly : Int64.ofInt m ≤ 2 ↔ m ≤ 2 := by
    rw [Int64.le_iff_toInt_le, month]
    exact Iff.rfl
  have isLate : 2 < Int64.ofInt m ↔ 2 < m := by
    rw [Int64.lt_iff_toInt_lt, month]
    exact Iff.rfl
  have fits : ∀ {n : ℤ}, -1000000000 ≤ n → n ≤ 1000000000 → Fits n := by
    intro n low high
    rw [fits_iff]
    omega
  -- the March year
  have marchYear := toInt_ite isEarly
    (toInt_sub year (b := 1) (j := 1) rfl (fits (by omega) (by omega))) year
  have marchBounds : -1 ≤ (if m ≤ 2 then y - 1 else y) ∧ (if m ≤ 2 then y - 1 else y) ≤ 9999 := by
    split <;> omega
  generalize (if m ≤ 2 then y - 1 else y) = Y at marchYear marchBounds ⊢
  generalize (if Int64.ofInt m ≤ 2 then Int64.ofInt y - 1 else Int64.ofInt y) = Y' at marchYear ⊢
  have isNonneg : 0 ≤ Y' ↔ 0 ≤ Y := by
    rw [Int64.le_iff_toInt_le, marchYear]
    exact Iff.rfl
  -- the era
  have floor := toInt_ite isNonneg marchYear
    (toInt_sub marchYear (b := 399) (j := 399) rfl (fits (by omega) (by omega)))
  have eraBounds : -1 ≤ (if 0 ≤ Y then Y else Y - 399).tdiv 400 ∧
      (if 0 ≤ Y then Y else Y - 399).tdiv 400 ≤ 24 ∧
      0 ≤ Y - (if 0 ≤ Y then Y else Y - 399).tdiv 400 * 400 ∧
      Y - (if 0 ≤ Y then Y else Y - 399).tdiv 400 * 400 ≤ 399 := by
    by_cases nonneg : 0 ≤ Y
    · rw [if_pos nonneg, Int.tdiv_eq_ediv_of_nonneg nonneg]
      omega
    · have last : Y = -1 := by omega
      rw [if_neg nonneg, last]
      decide
  have era := toInt_div floor (b := 400) (j := 400) rfl (fits (by omega) (by omega))
  generalize (if 0 ≤ Y then Y else Y - 399).tdiv 400 = E at era eraBounds ⊢
  generalize (if 0 ≤ Y' then Y' else Y' - 399) / 400 = E' at era ⊢
  have yearOfEra := toInt_sub marchYear (toInt_mul era (b := 400) (j := 400) rfl
    (fits (by omega) (by omega))) (fits (by omega) (by omega))
  generalize Y - E * 400 = yoe at yearOfEra eraBounds ⊢
  generalize Y' - E' * 400 = yoe' at yearOfEra ⊢
  -- the month and the day of the year
  have marchMonth := toInt_ite isLate
    (toInt_sub month (b := 3) (j := 3) rfl (fits (by omega) (by omega)))
    (toInt_add month (b := 9) (j := 9) rfl (fits (by omega) (by omega)))
  have monthBounds : 0 ≤ (if 2 < m then m - 3 else m + 9) ∧ (if 2 < m then m - 3 else m + 9) ≤ 11 := by
    split <;> omega
  generalize (if 2 < m then m - 3 else m + 9) = mp at marchMonth monthBounds ⊢
  generalize (if 2 < Int64.ofInt m then Int64.ofInt m - 3 else Int64.ofInt m + 9) = mp'
    at marchMonth ⊢
  have scaled := toInt_add (toInt_mul (a := 153) (i := 153) rfl marchMonth
    (fits (by omega) (by omega))) (b := 2) (j := 2) rfl (fits (by omega) (by omega))
  have monthDays : (153 * mp + 2).tdiv 5 = (153 * mp + 2) / 5 :=
    Int.tdiv_eq_ediv_of_nonneg (by omega)
  have dayOfYear := toInt_sub (toInt_add (toInt_div scaled (b := 5) (j := 5) rfl
    (fits (by omega) (by omega))) day (fits (by omega) (by omega))) (b := 1) (j := 1) rfl
    (fits (by omega) (by omega))
  have dayBounds : 0 ≤ (153 * mp + 2).tdiv 5 + d - 1 ∧ (153 * mp + 2).tdiv 5 + d - 1 ≤ 1000 := by
    omega
  generalize (153 * mp + 2).tdiv 5 + d - 1 = doy at dayOfYear dayBounds ⊢
  generalize (153 * mp' + 2) / 5 + Int64.ofInt d - 1 = doy' at dayOfYear ⊢
  have fours : yoe.tdiv 4 = yoe / 4 := Int.tdiv_eq_ediv_of_nonneg (by omega)
  have centuries : yoe.tdiv 100 = yoe / 100 := Int.tdiv_eq_ediv_of_nonneg (by omega)
  have dayOfEra := toInt_add (toInt_sub (toInt_add (toInt_mul yearOfEra (b := 365) (j := 365) rfl
    (fits (by omega) (by omega))) (toInt_div yearOfEra (b := 4) (j := 4) rfl
    (fits (by omega) (by omega))) (fits (by omega) (by omega))) (toInt_div yearOfEra (b := 100)
    (j := 100) rfl (fits (by omega) (by omega))) (fits (by omega) (by omega))) dayOfYear
    (fits (by omega) (by omega))
  exact toInt_sub (toInt_add (toInt_mul era (b := 146097) (j := 146097) rfl
    (fits (by omega) (by omega))) dayOfEra (fits (by omega) (by omega))) (b := 719468)
    (j := 719468) rfl (fits (by omega) (by omega))

/-! ### The layout of an instant -/

/-- The digits of an instant, field by field. -/
structure Fields where
  year : List ℕ
  month : List ℕ
  day : List ℕ
  hour : List ℕ
  minute : List ℕ
  second : List ℕ

namespace Fields

/-- Four digits for the year and two for the rest. -/
structure Valid (f : Fields) : Prop where
  year : f.year.length = 4 ∧ IsDigits f.year
  month : f.month.length = 2 ∧ IsDigits f.month
  day : f.day.length = 2 ∧ IsDigits f.day
  hour : f.hour.length = 2 ∧ IsDigits f.hour
  minute : f.minute.length = 2 ∧ IsDigits f.minute
  second : f.second.length = 2 ∧ IsDigits f.second

def layout (f : Fields) : List Char :=
  f.year.map Nat.digitChar ++ '-' :: (f.month.map Nat.digitChar ++ '-' ::
    (f.day.map Nat.digitChar ++ 'T' :: (f.hour.map Nat.digitChar ++ ':' ::
      (f.minute.map Nat.digitChar ++ ':' :: (f.second.map Nat.digitChar ++ ['Z'])))))

end Fields

theorem digitChar_ascii {ks : List ℕ} (digits : IsDigits ks) :
    (ks.map Nat.digitChar).all fun c => c.toNat < 128 := by
  rw [List.all_map, List.all_eq_true]
  intro k mem
  have small := digits k mem
  interval_cases k <;> rfl

theorem number_layout {chars : List Char} {start stop : ℕ} {ks : List ℕ} (digits : IsDigits ks)
    (nonempty : ks ≠ []) (short : ks.length ≤ 4) (within : stop ≤ chars.length)
    (cut : (chars.drop start).take (stop - start) = ks.map Nat.digitChar) :
    number chars start stop = some (value ks 0 : ℤ) := by
  have all : (ks.map Nat.digitChar).all Char.isDigit := by
    rw [List.all_map, List.all_eq_true]
    exact fun k mem => isDigit_digitChar (digits k mem)
  have bound := value_le digits 0
  have top : 10 ^ ks.length ≤ 10 ^ 4 := Nat.pow_le_pow_right (by omega) short
  unfold number
  dsimp only
  rw [cut, if_pos ⟨within, all⟩, parseI64_map digits nonempty short, Option.map_some,
    Int64.toInt_ofInt_of_le (by omega) (by omega)]

/-- The fields a reader checks the ranges of. -/
def inRange (year month day hour minute second : ℤ) : Prop :=
  1 ≤ month ∧ month ≤ 12 ∧ 1 ≤ day ∧ day ≤ daysInMonth year month ∧ hour < 24 ∧ minute < 60 ∧
    second < 60

instance (year month day hour minute second : ℤ) :
    Decidable (inRange year month day hour minute second) :=
  inferInstanceAs (Decidable (_ ∧ _))

theorem parseIsoUtc_layout {f : Fields} (valid : f.Valid) :
    parseIsoUtc (String.ofList f.layout) =
      if inRange (value f.year 0) (value f.month 0) (value f.day 0) (value f.hour 0)
        (value f.minute 0) (value f.second 0) then
        some (daysFromCivil (value f.year 0) (value f.month 0) (value f.day 0) * 86400 +
          (value f.hour 0) * 3600 + (value f.minute 0) * 60 + (value f.second 0))
      else none := by
  obtain ⟨ys, ms, ds, hs, ns, ss⟩ := f
  obtain ⟨⟨ly, dy⟩, ⟨lm, dm⟩, ⟨ld, dd⟩, ⟨lh, dh⟩, ⟨ln, dn⟩, ⟨ls, dt⟩⟩ := valid
  dsimp only at ly dy lm dm ld dd lh dh ln dn ls dt ⊢
  have ascii : (Fields.layout ⟨ys, ms, ds, hs, ns, ss⟩).all fun c => c.toNat < 128 := by
    simp only [Fields.layout, List.all_append, List.all_cons, digitChar_ascii dy,
      digitChar_ascii dm, digitChar_ascii dd, digitChar_ascii dh, digitChar_ascii dn,
      digitChar_ascii dt]
    rfl
  obtain ⟨y1, y2, y3, y4, rfl⟩ := List.length_eq_four.mp ly
  obtain ⟨m1, m2, rfl⟩ := List.length_eq_two.mp lm
  obtain ⟨d1, d2, rfl⟩ := List.length_eq_two.mp ld
  obtain ⟨h1, h2, rfl⟩ := List.length_eq_two.mp lh
  obtain ⟨n1, n2, rfl⟩ := List.length_eq_two.mp ln
  obtain ⟨s1, s2, rfl⟩ := List.length_eq_two.mp ls
  generalize chars : Fields.layout ⟨[y1, y2, y3, y4], [m1, m2], [d1, d2], [h1, h2], [n1, n2],
    [s1, s2]⟩ = text at ascii ⊢
  have long : text.length = 20 := by
    rw [← chars]
    rfl
  have ends : text.getLast? = some 'Z' := by
    rw [← chars]
    rfl
  have separators : text[4]? = some '-' ∧ text[7]? = some '-' ∧ text[10]? = some 'T' ∧
      text[13]? = some ':' ∧ text[16]? = some ':' := by
    rw [← chars]
    exact ⟨rfl, rfl, rfl, rfl, rfl⟩
  have fraction : (text.drop 19).dropLast = [] := by
    rw [← chars]
    rfl
  have year := @number_layout text 0 4 _ dy (by simp) (by simp) (by omega)
    (show (text.drop 0).take 4 = _ by rw [← chars]; rfl)
  have month := @number_layout text 5 7 _ dm (by simp) (by simp) (by omega)
    (show (text.drop 5).take 2 = _ by rw [← chars]; rfl)
  have day := @number_layout text 8 10 _ dd (by simp) (by simp) (by omega)
    (show (text.drop 8).take 2 = _ by rw [← chars]; rfl)
  have hour := @number_layout text 11 13 _ dh (by simp) (by simp) (by omega)
    (show (text.drop 11).take 2 = _ by rw [← chars]; rfl)
  have minute := @number_layout text 14 16 _ dn (by simp) (by simp) (by omega)
    (show (text.drop 14).take 2 = _ by rw [← chars]; rfl)
  have second := @number_layout text 17 19 _ dt (by simp) (by simp) (by omega)
    (show (text.drop 17).take 2 = _ by rw [← chars]; rfl)
  have enough : 20 ≤ text.length := by omega
  unfold parseIsoUtc
  rw [String.toList_ofList]
  dsimp only
  rw [fraction, year, month, day, hour, minute, second]
  simp only [guard, enough, ascii, ends, separators, and_self, if_true, fractionOk,
    List.isEmpty_nil, Bool.true_or, Option.bind_eq_bind, Option.bind_some, Option.pure_def]
  by_cases range : inRange (value [y1, y2, y3, y4] 0) (value [m1, m2] 0) (value [d1, d2] 0)
      (value [h1, h2] 0) (value [n1, n2] 0) (value [s1, s2] 0)
  · rw [if_pos range]
    unfold inRange at range
    rw [if_pos range]
    rfl
  · rw [if_neg range]
    unfold inRange at range
    rw [if_neg range]
    rfl

/-! ### What the host's reader accepts -/

theorem of_guard {p : Prop} [Decidable p] {u : Unit} (h : (guard p : Option Unit) = some u) : p := by
  by_contra refused
  rw [guard, if_neg refused] at h
  cases h

theorem exists_digitChar {c : Char} (digit : c.isDigit) : ∃ k < 10, c = Nat.digitChar k := by
  have bounds : 48 ≤ c.toNat ∧ c.toNat ≤ 57 := by
    simpa [Char.isDigit, UInt32.le_iff_toNat_le] using digit
  refine ⟨c.toNat - 48, by omega, Char.toNat_inj.mp ?_⟩
  rw [Nat.toNat_digitChar_of_lt_ten (by omega)]
  omega

theorem exists_digits {cs : List Char} (digits : ∀ c ∈ cs, c.isDigit) :
    ∃ ks, IsDigits ks ∧ cs = ks.map Nat.digitChar := by
  induction cs with
  | nil => exact ⟨[], fun _ mem => absurd mem List.not_mem_nil, rfl⟩
  | cons c cs ih =>
    obtain ⟨k, small, rfl⟩ := exists_digitChar (digits c List.mem_cons_self)
    obtain ⟨ks, all, rfl⟩ := ih fun d mem => digits d (List.mem_cons_of_mem _ mem)
    refine ⟨k :: ks, fun j mem => ?_, rfl⟩
    rcases List.mem_cons.mp mem with rfl | later
    · exact small
    · exact all j later

theorem number_some {chars : List Char} {start stop : ℕ} {n : ℤ}
    (read : number chars start stop = some n) : ∃ ks, ks.length = stop - start ∧ IsDigits ks ∧
      (chars.drop start).take (stop - start) = ks.map Nat.digitChar := by
  unfold number at read
  dsimp only at read
  by_cases digits : stop ≤ chars.length ∧ ((chars.drop start).take (stop - start)).all Char.isDigit
  · obtain ⟨ks, all, eq⟩ := exists_digits fun c mem => List.all_eq_true.mp digits.2 c mem
    refine ⟨ks, ?_, all, eq⟩
    rw [← List.length_map (f := Nat.digitChar), ← eq, List.length_take, List.length_drop]
    omega
  · rw [if_neg digits] at read
    cases read

/-- A field and the separator behind it. -/
theorem drop_field {chars field : List Char} {start stop : ℕ} {sep : Char} (order : start ≤ stop)
    (cut : (chars.drop start).take (stop - start) = field) (behind : chars[stop]? = some sep) :
    chars.drop start = field ++ sep :: chars.drop (stop + 1) := by
  obtain ⟨within, at'⟩ := List.getElem?_eq_some_iff.mp behind
  have rest : (chars.drop start).drop (stop - start) = sep :: chars.drop (stop + 1) := by
    rw [List.drop_drop, Nat.add_sub_cancel' order, List.drop_eq_getElem_cons within, at']
  rw [← cut, ← rest, List.take_append_drop]

theorem layout_of_parse {text : String} {v : ℤ} (read : parseIsoUtc text = some v)
    (whole : '.' ∉ text.toList) : ∃ f : Fields, f.Valid ∧ text = String.ofList f.layout := by
  unfold parseIsoUtc at read
  obtain ⟨_, frame, read⟩ := Option.bind_eq_some_iff.mp read
  obtain ⟨_, separators, read⟩ := Option.bind_eq_some_iff.mp read
  obtain ⟨_, fraction, read⟩ := Option.bind_eq_some_iff.mp read
  obtain ⟨_, year, read⟩ := Option.bind_eq_some_iff.mp read
  obtain ⟨_, month, read⟩ := Option.bind_eq_some_iff.mp read
  obtain ⟨_, day, read⟩ := Option.bind_eq_some_iff.mp read
  obtain ⟨_, hour, read⟩ := Option.bind_eq_some_iff.mp read
  obtain ⟨_, minute, read⟩ := Option.bind_eq_some_iff.mp read
  obtain ⟨_, second, -⟩ := Option.bind_eq_some_iff.mp read
  obtain ⟨long, -, ends⟩ := of_guard frame
  obtain ⟨dash, dash', t, colon, colon'⟩ := of_guard separators
  have none := of_guard fraction
  obtain ⟨ys, ly, dy, ey⟩ := number_some year
  obtain ⟨ms, lm, dm, em⟩ := number_some month
  obtain ⟨ds, ld, dd, ed⟩ := number_some day
  obtain ⟨hs, lh, dh, eh⟩ := number_some hour
  obtain ⟨ns, ln, dn, en⟩ := number_some minute
  obtain ⟨ss, ls, dt, es⟩ := number_some second
  refine ⟨⟨ys, ms, ds, hs, ns, ss⟩, ⟨⟨ly, dy⟩, ⟨lm, dm⟩, ⟨ld, dd⟩, ⟨lh, dh⟩, ⟨ln, dn⟩, ⟨ls, dt⟩⟩,
    ?_⟩
  -- behind the seconds nothing stands but the zone
  have tail : text.toList.drop 19 = ['Z'] := by
    obtain ⟨front, eq⟩ := List.getLast?_eq_some_iff.mp ends
    have last : text.toList.drop 19 = (text.toList.drop 19).dropLast ++ ['Z'] := by
      rw [eq] at long ⊢
      rw [List.length_append, List.length_singleton] at long
      rw [List.drop_append_of_le_length (by omega), List.dropLast_concat]
    have empty : (text.toList.drop 19).dropLast = [] := by
      unfold fractionOk at none
      rcases Bool.or_eq_true _ _ ▸ none with isEmpty | pointed
      · exact List.isEmpty_iff.mp isEmpty
      · simp only [Bool.and_eq_true, decide_eq_true_eq] at pointed
        have mem := List.mem_of_mem_head? (Option.mem_def.mpr pointed.1.1)
        exact absurd (List.mem_of_mem_drop (List.dropLast_subset _ mem)) whole
    rw [last, empty, List.nil_append]
  have seconds : text.toList.drop 17 = ss.map Nat.digitChar ++ ['Z'] := by
    have split := List.take_append_drop 2 (text.toList.drop 17)
    rw [List.drop_drop] at split
    rw [← es, ← tail]
    exact split.symm
  have chars : text.toList = Fields.layout ⟨ys, ms, ds, hs, ns, ss⟩ := by
    unfold Fields.layout
    dsimp only
    rw [← seconds, ← drop_field (by omega) en colon', ← drop_field (by omega) eh colon,
      ← drop_field (by omega) ed t, ← drop_field (by omega) em dash',
      ← drop_field (by omega) ey dash, List.drop_zero]
  rw [← chars, String.ofList_toList]

/-! ### Written and read again -/

/-- The fields an instant is written as. -/
def Instant.fields (i : Instant) : Fields where
  year := [i.year / 10 / 10 / 10, i.year / 10 / 10 % 10, i.year / 10 % 10, i.year % 10]
  month := [i.month / 10, i.month % 10]
  day := [i.day / 10, i.day % 10]
  hour := [i.hour / 10, i.hour % 10]
  minute := [i.minute / 10, i.minute % 10]
  second := [i.second / 10, i.second % 10]

theorem isDigits_two {n : ℕ} (small : n < 100) : IsDigits [n / 10, n % 10] := by
  intro k mem
  simp only [List.mem_cons, List.not_mem_nil, or_false] at mem
  omega

theorem split_two {ks : List ℕ} (two : ks.length = 2) (digits : IsDigits ks) :
    [value ks 0 / 10, value ks 0 % 10] = ks := by
  obtain ⟨a, b, rfl⟩ := List.length_eq_two.mp two
  have first := digits a (by simp)
  have second := digits b (by simp)
  simp only [value, List.foldl_cons, List.foldl_nil, List.cons.injEq, and_true]
  omega

theorem split_four {ks : List ℕ} (four : ks.length = 4) (digits : IsDigits ks) :
    [value ks 0 / 10 / 10 / 10, value ks 0 / 10 / 10 % 10, value ks 0 / 10 % 10,
      value ks 0 % 10] = ks := by
  obtain ⟨a, b, c, d, rfl⟩ := List.length_eq_four.mp four
  have first := digits a (by simp)
  have second := digits b (by simp)
  have third := digits c (by simp)
  have fourth := digits d (by simp)
  simp only [value, List.foldl_cons, List.foldl_nil, List.cons.injEq, and_true]
  omega

theorem value_two (n : ℕ) : value [n / 10, n % 10] 0 = n := by
  simp only [value, List.foldl_cons, List.foldl_nil]
  omega

theorem Instant.day_le_month (i : Instant) : i.day ≤ 31 := by
  have bound : daysInMonth i.year i.month ≤ 31 := by
    unfold daysInMonth
    repeat' split
    all_goals omega
  have := i.day_le
  omega

theorem Instant.fields_valid (i : Instant) : i.fields.Valid where
  year := by
    have := i.year_lt
    refine ⟨rfl, fun k mem => ?_⟩
    simp only [Instant.fields, List.mem_cons, List.not_mem_nil, or_false] at mem
    omega
  month := by
    have := i.month_le
    exact ⟨rfl, isDigits_two (by omega)⟩
  day := by
    have := i.day_le_month
    exact ⟨rfl, isDigits_two (by omega)⟩
  hour := by
    have := i.hour_lt
    exact ⟨rfl, isDigits_two (by omega)⟩
  minute := by
    have := i.minute_lt
    exact ⟨rfl, isDigits_two (by omega)⟩
  second := by
    have := i.second_lt
    exact ⟨rfl, isDigits_two (by omega)⟩

theorem Instant.text_layout (i : Instant) : i.text = i.fields.layout := by
  have day := i.day_le_month
  have month := i.month_le
  have hour := i.hour_lt
  have minute := i.minute_lt
  have second := i.second_lt
  unfold Instant.text Fields.layout Instant.fields
  rw [padded_four i.year_lt, padded_two (n := i.month) (by omega), padded_two (n := i.day) (by omega),
    padded_two (n := i.hour) (by omega), padded_two (n := i.minute) (by omega),
    padded_two (n := i.second) (by omega)]
  simp only [List.append_assoc, List.cons_append]

theorem Instant.value_year (i : Instant) : value i.fields.year 0 = i.year := by
  simp only [Instant.fields, value, List.foldl_cons, List.foldl_nil]
  omega

theorem parseIsoUtc_text (i : Instant) : parseIsoUtc (String.ofList i.text) = some i.secs := by
  have range : inRange i.year i.month i.day i.hour i.minute i.second := by
    have pos := i.month_pos
    have le := i.month_le
    have day := i.day_pos
    have hour := i.hour_lt
    have minute := i.minute_lt
    have second := i.second_lt
    unfold inRange
    exact ⟨by omega, by omega, by omega, i.day_le, by omega, by omega, by omega⟩
  rw [i.text_layout, parseIsoUtc_layout i.fields_valid, i.value_year]
  simp only [Instant.fields, value_two]
  rw [if_pos range]
  rfl

theorem daysFromCivil_year_zero {month : ℕ} (low : 1 ≤ month) (high : month ≤ 12) (day : ℕ) :
    daysFromCivil 0 month day < day - 700000 := by
  interval_cases month <;>
    (norm_num [daysFromCivil]; simp only [Int.reduceTDiv]; omega)

/-- Before the year 1 there are no seconds of the epoch. -/
theorem Instant.modern {i : Instant} (late : 0 ≤ i.secs) : 0 < i.year := by
  by_contra zero
  have year : (i.year : ℤ) = 0 := by omega
  have early := daysFromCivil_year_zero i.month_pos i.month_le i.day
  have day := i.day_le_month
  have hour := i.hour_lt
  have minute := i.minute_lt
  have second := i.second_lt
  unfold Instant.secs at late
  rw [year] at late
  omega

/-- The instant a text without a fraction is read as. -/
theorem exists_instant_of_parse {text : String} {v : ℤ} (read : parseIsoUtc text = some v)
    (whole : '.' ∉ text.toList) : ∃ i : Instant, text = String.ofList i.text ∧ i.secs = v := by
  obtain ⟨f, valid, rfl⟩ := layout_of_parse read whole
  rw [parseIsoUtc_layout valid] at read
  by_cases range : inRange (value f.year 0) (value f.month 0) (value f.day 0) (value f.hour 0)
      (value f.minute 0) (value f.second 0)
  · rw [if_pos range, Option.some.injEq] at read
    obtain ⟨month_pos, month_le, day_pos, day_le, hour, minute, second⟩ := range
    have year := value_le valid.year.2 0
    rw [valid.year.1] at year
    refine ⟨⟨⟨value f.year 0, value f.month 0, value f.day 0, by omega, by omega, by omega,
      day_le⟩, value f.hour 0, value f.minute 0, value f.second 0, by omega, by omega, by omega,
      by omega⟩, ?_, read⟩
    obtain ⟨ys, ms, ds, hs, ns, ss⟩ := f
    obtain ⟨⟨ly, dy⟩, ⟨lm, dm⟩, ⟨ld, dd⟩, ⟨lh, dh⟩, ⟨ln, dn⟩, ⟨ls, dt⟩⟩ := valid
    dsimp only at *
    rw [Instant.text_layout]
    unfold Instant.fields Fields.layout
    dsimp only
    rw [split_four ly dy, split_two lm dm, split_two ld dd, split_two lh dh, split_two ln dn,
      split_two ls dt]
  · rw [if_neg range] at read
    cases read

/-! ### The kernel's reader -/

theorem digits_free {ks : List ℕ} (digits : IsDigits ks) {sep : Char} (other : ¬ sep.isDigit) :
    sep ∉ ks.map Nat.digitChar := by
  intro mem
  obtain ⟨k, listed, rfl⟩ := List.mem_map.mp mem
  exact other (isDigit_digitChar (digits k listed))

theorem segments_three {sep : Char} {a b c : List Char} (ha : sep ∉ a) (hb : sep ∉ b)
    (hc : sep ∉ c) : Text.segments sep (String.ofList (a ++ sep :: (b ++ sep :: c))) =
      [String.ofList a, String.ofList b, String.ofList c] := by
  unfold Text.segments
  rw [String.toList_ofList, Text.segmentsChars_append _ ha, Text.segmentsChars_append _ hb,
    Text.segmentsChars_of_not_mem hc]
  rfl

theorem parseIso8601Utc_layout {f : Fields} (valid : f.Valid) :
    Needs.parseIso8601Utc (String.ofList f.layout) = some
      (Needs.daysFromCivil (Int64.ofInt (value f.year 0)) (Int64.ofInt (value f.month 0))
        (Int64.ofInt (value f.day 0)) * 86400 + Int64.ofInt (value f.hour 0) * 3600 +
        Int64.ofInt (value f.minute 0) * 60 + Int64.ofInt (value f.second 0)) := by
  obtain ⟨ys, ms, ds, hs, ns, ss⟩ := f
  obtain ⟨⟨ly, dy⟩, ⟨lm, dm⟩, ⟨ld, dd⟩, ⟨lh, dh⟩, ⟨ln, dn⟩, ⟨ls, dt⟩⟩ := valid
  dsimp only at ly dy lm dm ld dd lh dh ln dn ls dt ⊢
  have date : ∀ sep : Char, ¬ sep.isDigit → sep ≠ '-' → sep ∉ ys.map Nat.digitChar ++
      '-' :: (ms.map Nat.digitChar ++ '-' :: ds.map Nat.digitChar) := by
    intro sep other dash
    simp only [List.mem_append, List.mem_cons, not_or]
    exact ⟨digits_free dy other, dash, digits_free dm other, dash, digits_free dd other⟩
  have whole : Fields.layout ⟨ys, ms, ds, hs, ns, ss⟩ =
      ((ys.map Nat.digitChar ++ '-' :: (ms.map Nat.digitChar ++ '-' :: ds.map Nat.digitChar)) ++
        'T' :: (hs.map Nat.digitChar ++ ':' :: (ns.map Nat.digitChar ++
          ':' :: ss.map Nat.digitChar))) ++ ['Z'] := by
    simp [Fields.layout]
  have cut : Text.splitOnce "T" (String.ofList ((ys.map Nat.digitChar ++
      '-' :: (ms.map Nat.digitChar ++ '-' :: ds.map Nat.digitChar)) ++
        'T' :: (hs.map Nat.digitChar ++ ':' :: (ns.map Nat.digitChar ++
          ':' :: ss.map Nat.digitChar)))) = some (String.ofList (ys.map Nat.digitChar ++
      '-' :: (ms.map Nat.digitChar ++ '-' :: ds.map Nat.digitChar)),
        String.ofList (hs.map Nat.digitChar ++ ':' :: (ns.map Nat.digitChar ++
          ':' :: ss.map Nat.digitChar))) := by
    unfold Text.splitOnce
    have t : "T".toList = ['T'] := rfl
    rw [t, String.toList_ofList, Text.splitOnceChars_append _ (date 'T' (by decide) (by decide))]
    rfl
  have fraction : Text.firstSegment "." (String.ofList (ss.map Nat.digitChar)) =
      String.ofList (ss.map Nat.digitChar) := by
    unfold Text.firstSegment Text.splitOnce
    have dot : ".".toList = ['.'] := rfl
    rw [dot, String.toList_ofList,
      Text.splitOnceChars_of_not_mem (digits_free dt (show ¬ ('.' : Char).isDigit by decide))]
    rfl
  have nonempty : ∀ {ks : List ℕ} {n : ℕ}, ks.length = n + 1 → ks ≠ [] := by
    intro ks n long none
    rw [none] at long
    cases long
  unfold Needs.parseIso8601Utc
  rw [whole, Text.stripSuffix_append]
  simp only [Option.bind_eq_bind, Option.bind_some, cut]
  rw [segments_three (digits_free dy (by decide)) (digits_free dm (by decide))
    (digits_free dd (by decide)), segments_three (digits_free dh (by decide))
    (digits_free dn (by decide)) (digits_free dt (by decide))]
  dsimp only
  rw [fraction, parseI64_map dy (nonempty ly) (by omega), parseI64_map dm (nonempty lm) (by omega),
    parseI64_map dd (nonempty ld) (by omega), parseI64_map dh (nonempty lh) (by omega),
    parseI64_map dn (nonempty ln) (by omega), parseI64_map dt (nonempty ls) (by omega)]
  rfl

/-- The days of an instant, within the range of the machine arithmetic by far. -/
theorem Instant.days_bounds {i : Instant} (modern : 0 < i.year) :
    -719468 ≤ daysFromCivil i.year i.month i.day ∧
      daysFromCivil i.year i.month i.day ≤ 25 * 146097 := by
  obtain ⟨era, e, date⟩ := i.toDate.exists_civil (.inl modern)
  have days := daysFromCivil_civil era e
  have year := congrArg Prod.fst date
  rw [date] at days
  dsimp only [civil] at days year
  have bound := i.year_lt
  have small := e.ofEra_lt
  rw [days]
  unfold epochDay
  omega

theorem parseIso8601Utc_text {i : Instant} (modern : 0 < i.year) :
    Needs.parseIso8601Utc (String.ofList i.text) = some (Int64.ofInt i.secs) := by
  have year := i.year_lt
  have month_pos := i.month_pos
  have month_le := i.month_le
  have day_pos := i.day_pos
  have day := i.day_le_month
  have hour := i.hour_lt
  have minute := i.minute_lt
  have second := i.second_lt
  obtain ⟨low, high⟩ := i.days_bounds modern
  have days := toInt_daysFromCivil (y := i.year) (m := i.month) (d := i.day) (by omega) (by omega)
    (by omega)
  have exact64 : ∀ {n : ℕ}, n < 100 → (Int64.ofInt n).toInt = n :=
    fun small => Int64.toInt_ofInt_of_le (by omega) (by omega)
  have fits : ∀ {n : ℤ}, -100000000000 ≤ n → n ≤ 1000000000000 → Fits n := by
    intro n low high
    rw [fits_iff]
    omega
  have total := toInt_add (toInt_add (toInt_add
    (toInt_mul days (b := 86400) (j := 86400) rfl (fits (by omega) (by omega)))
    (toInt_mul (exact64 (n := i.hour) (by omega)) (b := 3600) (j := 3600) rfl
      (fits (by omega) (by omega))) (fits (by omega) (by omega)))
    (toInt_mul (exact64 (n := i.minute) (by omega)) (b := 60) (j := 60) rfl
      (fits (by omega) (by omega))) (fits (by omega) (by omega)))
    (exact64 (n := i.second) (by omega)) (fits (by omega) (by omega))
  rw [i.text_layout, parseIso8601Utc_layout i.fields_valid, i.value_year]
  simp only [Instant.fields, value_two]
  rw [← Int64.ofInt_toInt (_ + _), total]
  rfl

/-! ### Both readers invert the writer -/

/-- Every instant up to the year 9999 is read back by the host and by the kernel as the seconds it
was written from, and a text the host reads is written again as it was. -/
theorem iso_utc_inverse :
    (∀ secs ≤ lastSecond, parseIsoUtc (isoUtc secs) = some (secs : ℤ) ∧
      Needs.parseIso8601Utc (isoUtc secs) = some (Int64.ofInt secs)) ∧
    ∀ text v, parseIsoUtc text = some v → '.' ∉ text.toList → 0 ≤ v → isoUtc v.toNat = text := by
  refine ⟨fun secs bound => ?_, fun text v read whole late => ?_⟩
  · obtain ⟨i, eq, modern⟩ := exists_instant bound
    have written := isoUtc_secs i (by omega) modern
    rw [eq, Int.toNat_natCast] at written
    rw [written, parseIsoUtc_text, parseIso8601Utc_text modern, eq]
    exact ⟨rfl, rfl⟩
  · obtain ⟨i, rfl, rfl⟩ := exists_instant_of_parse read whole
    exact isoUtc_secs i late (Instant.modern late)

theorem leap_day_inverse :
    (parseIsoUtc (isoUtc 951782400) = some 951782400 ∧
      Needs.parseIso8601Utc (isoUtc 951782400) = some (Int64.ofInt 951782400)) ∧
    isoUtc (951782400 : ℤ).toNat = "2000-02-29T00:00:00Z" :=
  ⟨iso_utc_inverse.1 951782400 (by decide),
    iso_utc_inverse.2 "2000-02-29T00:00:00Z" 951782400 (by decide) (by decide) (by decide)⟩

end Hecks.Host.Clock
