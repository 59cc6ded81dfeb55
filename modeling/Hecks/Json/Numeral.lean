import Hecks.Json.Grammar

/-! The numbers the reader takes: its scan splits off exactly a number of the loose grammar,
and the value is there exactly when that number is in range. -/
open Reading Hecks.Json.Parser

namespace Hecks.Json.Grammar

variable {n : Numeral} {cs rest : List Char}

/-! ### The scan of a number's text -/

theorem isDigit_eq (c : Char) : isDigit c = c.isDigit := Decimal.digit?_isSome

theorem takeDigits_of_stop {ds : List Char} (digits : ∀ c ∈ ds, isDigit c)
    (stop : ∀ c, rest.head? = some c → isDigit c = false) :
    takeDigits (ds ++ rest) = (ds, rest) := by
  simp only [isDigit_eq] at digits stop
  obtain ⟨take, drop⟩ := Decimal.takeWhile_digits rest digits stop
  exact Prod.ext take drop

theorem takeOne_stop {pred : Char → Bool} (stop : ∀ c, cs.head? = some c → pred c = false) :
    takeOne pred cs = ([], cs) := by
  cases cs with
  | nil => rfl
  | cons c cs => simp [takeOne, stop c rfl]

theorem mark_cases {mark : List Char} (h : mark ∈ Numeral.marks) :
    ∃ m sign, mark = m :: sign ∧ (m = 'e' ∨ m = 'E') ∧
      (sign = [] ∨ ∃ s, sign = [s] ∧ (s = '+' ∨ s = '-')) := by
  simp only [Numeral.marks, List.mem_cons, List.not_mem_nil, or_false] at h
  rcases h with rfl | rfl | rfl | rfl | rfl | rfl <;> simp

/-- The exponent, or what stands behind the number, starts with no digit and no point. -/
theorem head_exponentText (wf : n.WellFormed) (stops : n.Stops rest) {c : Char}
    (head : (n.exponentText ++ rest).head? = some c) :
    isDigit c = false ∧ (n.fraction = none → c ≠ '.') := by
  unfold Numeral.exponentText at head
  cases eq : n.exponent with
  | none =>
    rw [eq] at head
    obtain ⟨digit, others⟩ := stops c head
    exact ⟨digit, (others eq).2.2⟩
  | some e =>
    obtain ⟨mark, ds⟩ := e
    obtain ⟨m, sign, rfl, letter, -⟩ := mark_cases (wf.exponent (mark, ds) eq).1
    rw [eq] at head
    simp only [List.cons_append, List.head?_cons, Option.some.injEq] at head
    subst head
    rcases letter with rfl | rfl
    · exact ⟨by decide, fun _ => by decide⟩
    · exact ⟨by decide, fun _ => by decide⟩

theorem head_fractionText (wf : n.WellFormed) (stops : n.Stops rest) {c : Char}
    (head : (n.fractionText ++ (n.exponentText ++ rest)).head? = some c) :
    isDigit c = false := by
  unfold Numeral.fractionText at head
  cases eq : n.fraction with
  | none =>
    rw [eq] at head
    exact (head_exponentText wf stops head).1
  | some ds =>
    rw [eq] at head
    simp only [List.cons_append, List.head?_cons, Option.some.injEq] at head
    subst head
    decide

theorem takeExponent_text (wf : n.WellFormed) (stops : n.Stops rest)
    (someExponent : ∀ e ∈ n.exponent, e.2 ≠ []) :
    takeExponent (n.exponentText ++ rest) = (n.exponentText, rest) := by
  unfold Numeral.exponentText
  cases eq : n.exponent with
  | none =>
    have none : takeOne isMark rest = ([], rest) := by
      apply takeOne_stop
      intro c head
      obtain ⟨_, others⟩ := stops c head
      obtain ⟨e, E, _⟩ := others eq
      simp [isMark, e, E]
    simp [takeExponent, none]
  | some e =>
    obtain ⟨mark, ds⟩ := e
    obtain ⟨hm, digits⟩ := wf.exponent (mark, ds) eq
    have nonempty : ds ≠ [] := someExponent (mark, ds) eq
    obtain ⟨m, sign, rfl, letter, signs⟩ := mark_cases hm
    have stop : ∀ c, rest.head? = some c → isDigit c = false := fun c head => (stops c head).1
    have behind := takeDigits_of_stop digits stop
    have letter' : isMark m = true := by simpa [isMark] using letter
    rcases signs with rfl | ⟨s, rfl, sign⟩
    · have noSign : takeOne isSign (ds ++ rest) =
          ([], ds ++ rest) := by
        apply takeOne_stop
        intro c head
        obtain ⟨d, ds', rfl⟩ := List.exists_cons_of_ne_nil nonempty
        simp only [List.cons_append, List.head?_cons, Option.some.injEq] at head
        subst head
        have digit := digits d List.mem_cons_self
        have plus : d ≠ '+' := by rintro rfl; simp [isDigit, Text.digit?] at digit
        have minus : d ≠ '-' := by rintro rfl; simp [isDigit, Text.digit?] at digit
        simp [isSign, plus, minus]
      have mark : takeOne isMark ([m] ++ ds ++ rest) = ([m], ds ++ rest) := by
        simp [takeOne, letter']
      simp only [takeExponent, mark, noSign]
      simp [behind]
    · have sign' : isSign s = true := by simpa [isSign] using sign
      have mark : takeOne isMark ([m, s] ++ ds ++ rest) = ([m], [s] ++ ds ++ rest) := by
        simp [takeOne, letter']
      have signed : takeOne isSign ([s] ++ ds ++ rest) = ([s], ds ++ rest) := by
        simp [takeOne, sign']
      simp only [takeExponent, mark, signed]
      simp [behind]

theorem takeFraction_text (wf : n.WellFormed) (stops : n.Stops rest) :
    takeFraction (n.fractionText ++ (n.exponentText ++ rest)) =
      (n.fractionText, n.exponentText ++ rest) := by
  unfold Numeral.fractionText
  cases eq : n.fraction with
  | none =>
    have none : takeOne (· = '.') (n.exponentText ++ rest) = ([], n.exponentText ++ rest) := by
      apply takeOne_stop
      intro c head
      simpa using (head_exponentText wf stops head).2 eq
    simp [takeFraction, none]
  | some ds =>
    have behind := takeDigits_of_stop (wf.fraction ds eq)
      fun c head => (head_exponentText wf stops head).1
    simp [takeFraction, takeOne, behind]

/-- The reader takes the whole of a number, and no more. -/
theorem numberText_text (loose : n.Loose) (stops : n.Stops rest) :
    numberText (n.text ++ rest) = (n.text, rest) := by
  have wf := loose.toWellFormed
  have sign : takeOne (· = '-') (n.text ++ rest) =
      (if n.minus then ['-'] else [],
        n.whole ++ (n.fractionText ++ (n.exponentText ++ rest))) := by
    unfold Numeral.text
    cases minus : n.minus with
    | true => simp [takeOne]
    | false =>
      have whole := loose.start.resolve_left (by simp [minus])
      obtain ⟨d, ds, eq⟩ := List.exists_cons_of_ne_nil whole
      have digit := wf.whole d (by simp [eq])
      have : d ≠ '-' := by rintro rfl; simp [isDigit, Text.digit?] at digit
      simp [eq, takeOne, this]
  have whole := takeDigits_of_stop wf.whole fun c head => head_fractionText wf stops head
  have fraction := takeFraction_text wf stops
  have exponent := takeExponent_text wf stops loose.someExponent
  unfold numberText
  rw [sign]
  simp only [whole, fraction, exponent]
  simp [Numeral.text]

/-! ### What the scan found -/

theorem takeOne_cases (pred : Char → Bool) (cs : List Char) :
    (takeOne pred cs = ([], cs) ∧ ∀ c, cs.head? = some c → pred c = false) ∨
      ∃ c rest, cs = c :: rest ∧ pred c = true ∧ takeOne pred cs = ([c], rest) := by
  cases cs with
  | nil => exact .inl ⟨rfl, by simp⟩
  | cons c cs =>
    by_cases h : pred c
    · exact .inr ⟨c, cs, rfl, h, by simp [takeOne, h]⟩
    · exact .inl ⟨by simp [takeOne, h], by simpa using h⟩

theorem takeDigits_spec (cs : List Char) :
    (∀ c ∈ (takeDigits cs).1, isDigit c) ∧
      ∀ c, (takeDigits cs).2.head? = some c → isDigit c = false := by
  constructor
  · intro c hc
    exact List.mem_takeWhile_imp hc
  · intro c head
    have := List.head?_dropWhile_not isDigit cs
    simp only [takeDigits] at head
    rw [head] at this
    simpa using this

theorem takeFraction_cases (cs : List Char) :
    (takeFraction cs = ([], cs) ∧ ∀ c, cs.head? = some c → c ≠ '.') ∨
      ∃ ds rest, takeFraction cs = ('.' :: ds, rest) ∧ (∀ c ∈ ds, isDigit c) ∧
        ∀ c, rest.head? = some c → isDigit c = false := by
  rcases takeOne_cases (· = '.') cs with ⟨eq, stop⟩ | ⟨c, rest, rfl, point, eq⟩
  · left
    refine ⟨by simp [takeFraction, eq], ?_⟩
    intro c head
    simpa using stop c head
  · right
    obtain rfl : c = '.' := by simpa using point
    obtain ⟨digits, stop⟩ := takeDigits_spec rest
    exact ⟨(takeDigits rest).1, (takeDigits rest).2, by simp [takeFraction, eq], digits, stop⟩

theorem takeExponent_cases (cs : List Char) :
    (takeExponent cs = ([], cs) ∧ ∀ c, cs.head? = some c → c ≠ 'e' ∧ c ≠ 'E') ∨
      ∃ mark ds rest, takeExponent cs = (mark ++ ds, rest) ∧ mark ∈ Numeral.marks ∧
        (∀ c ∈ ds, isDigit c) ∧ ∀ c, rest.head? = some c → isDigit c = false := by
  rcases takeOne_cases isMark cs with ⟨eq, stop⟩ | ⟨m, rest, rfl, letter, eq⟩
  · left
    refine ⟨by simp [takeExponent, eq], ?_⟩
    intro c head
    simpa [isMark] using stop c head
  · right
    have letter : m = 'e' ∨ m = 'E' := by simpa [isMark] using letter
    rcases takeOne_cases isSign rest with ⟨eq', -⟩ | ⟨s, rest', rfl, sign, eq'⟩
    · obtain ⟨digits, stop⟩ := takeDigits_spec rest
      refine ⟨[m], (takeDigits rest).1, (takeDigits rest).2, by simp [takeExponent, eq, eq'], ?_,
        digits, stop⟩
      rcases letter with rfl | rfl <;> simp [Numeral.marks]
    · obtain ⟨digits, stop⟩ := takeDigits_spec rest'
      have sign : s = '+' ∨ s = '-' := by simpa [isSign] using sign
      refine ⟨[m, s], (takeDigits rest').1, (takeDigits rest').2, by simp [takeExponent, eq, eq'],
        ?_, digits, stop⟩
      rcases letter with rfl | rfl <;> rcases sign with rfl | rfl <;> simp [Numeral.marks]

/-- Whatever the reader scans as a number is a number in the shape of one. -/
theorem numberText_numeral {c : Char} {body : List Char} (start : c = '-' ∨ isDigit c) :
    ∃ n : Numeral, n.WellFormed ∧ (n.minus = true ∨ n.whole ≠ []) ∧
      n.text = (numberText (c :: body)).1 ∧ n.Stops (numberText (c :: body)).2 := by
  obtain ⟨minus, after, sign, begins⟩ : ∃ (minus : Bool) (after : List Char),
      takeOne (· = '-') (c :: body) = (if minus then ['-'] else [], after) ∧
      (minus = true ∨ (takeDigits after).1 ≠ []) := by
    by_cases dash : c = '-'
    · exact ⟨true, body, by simp [takeOne, dash], .inl rfl⟩
    · have digit := start.resolve_left dash
      exact ⟨false, c :: body, by simp [takeOne, dash], .inr (by simp [takeDigits, digit])⟩
  obtain ⟨wholeDigits, wholeStop⟩ := takeDigits_spec after
  unfold numberText
  rw [sign]
  dsimp only
  generalize takeDigits after = whole at *
  obtain ⟨whole, afterWhole⟩ := whole
  dsimp only at *
  rcases takeFraction_cases afterWhole with
    ⟨fraction, noPoint⟩ | ⟨ds, afterFraction, fraction, digits, stop⟩
  · rw [fraction]
    dsimp only
    rcases takeExponent_cases afterWhole with
      ⟨exponent, noMark⟩ | ⟨mark, es, rest, exponent, marks, digits, stop⟩
    · rw [exponent]
      refine ⟨⟨minus, whole, none, none⟩, ⟨wholeDigits, by simp, by simp⟩, begins,
        by simp [Numeral.text, Numeral.fractionText, Numeral.exponentText], ?_⟩
      intro c head
      exact ⟨wholeStop c head, fun _ => ⟨(noMark c head).1, (noMark c head).2,
        fun _ => noPoint c head⟩⟩
    · rw [exponent]
      refine ⟨⟨minus, whole, none, some (mark, es)⟩, ⟨wholeDigits, by simp, ?_⟩, begins,
        by simp [Numeral.text, Numeral.fractionText, Numeral.exponentText], ?_⟩
      · rintro _ ⟨⟩
        exact ⟨marks, digits⟩
      · intro c head
        exact ⟨stop c head, fun none => by cases none⟩
  · rw [fraction]
    dsimp only
    rcases takeExponent_cases afterFraction with
      ⟨exponent, noMark⟩ | ⟨mark, es, rest, exponent, marks, digits', stop'⟩
    · rw [exponent]
      refine ⟨⟨minus, whole, some ds, none⟩, ⟨wholeDigits, ?_, by simp⟩, begins,
        by simp [Numeral.text, Numeral.fractionText, Numeral.exponentText], ?_⟩
      · rintro _ ⟨⟩
        exact digits
      · intro c head
        exact ⟨stop c head, fun _ => ⟨(noMark c head).1, (noMark c head).2,
          fun none => by cases none⟩⟩
    · rw [exponent]
      refine ⟨⟨minus, whole, some ds, some (mark, es)⟩, ⟨wholeDigits, ?_, ?_⟩, begins,
        by simp [Numeral.text, Numeral.fractionText, Numeral.exponentText], ?_⟩
      · rintro _ ⟨⟩
        exact digits
      · rintro _ ⟨⟩
        exact ⟨marks, digits'⟩
      · intro c head
        exact ⟨stop' c head, fun none => by cases none⟩

/-! ### What the text of a number reads as -/

theorem digitsValue_isSome {ds : List Char} (digits : ∀ c ∈ ds, isDigit c) (acc : ℕ) :
    ∃ m, Text.digitsValue ds acc = some m := by
  simp only [isDigit_eq] at digits
  exact ⟨_, Decimal.digitsValue_eq digits acc⟩

/-- The exponent of a well-formed number is read when it has a digit. -/
theorem splitSign_exponent {sign ds : List Char} (digits : ∀ c ∈ ds, isDigit c)
    (signs : sign = [] ∨ ∃ s, sign = [s] ∧ (s = '+' ∨ s = '-')) :
    ∃ neg, Text.splitSign (sign ++ ds) = (neg, ds) := by
  rcases signs with rfl | ⟨s, rfl, rfl | rfl⟩
  · cases ds with
    | nil => exact ⟨false, rfl⟩
    | cons d ds =>
      have digit := digits d List.mem_cons_self
      have plus : d ≠ '+' := by rintro rfl; simp [isDigit, Text.digit?] at digit
      have minus : d ≠ '-' := by rintro rfl; simp [isDigit, Text.digit?] at digit
      refine ⟨false, ?_⟩
      unfold Text.splitSign
      split
      next => simp_all
      next => simp_all
      next => simp_all
  · exact ⟨false, rfl⟩
  · exact ⟨true, rfl⟩

/-- The standard library's reader takes a well-formed number apart the same way. -/
theorem splitNumber_parts (wf : n.WellFormed) :
    let whole := (n.whole ++ (n.fractionText ++ n.exponentText)).takeWhile isDigit
    let behind := (n.whole ++ (n.fractionText ++ n.exponentText)).dropWhile isDigit
    whole = n.whole ∧ behind = n.fractionText ++ n.exponentText := by
  have stops : n.Stops [] := by
    intro c head
    cases head
  have split := takeDigits_of_stop wf.whole fun c head => head_fractionText wf stops head
  rw [List.append_nil] at split
  exact ⟨congrArg Prod.fst split, congrArg Prod.snd split⟩

theorem splitNumber_numeral (wf : n.WellFormed) :
    ((n.whole ≠ [] ∨ n.fraction.getD [] ≠ []) → (∀ e ∈ n.exponent, e.2 ≠ []) →
      ∃ k, Binary64.splitNumber (n.whole ++ (n.fractionText ++ n.exponentText)) =
        some (n.whole, n.fraction.getD [], k)) ∧
    (∀ parts, Binary64.splitNumber (n.whole ++ (n.fractionText ++ n.exponentText)) = some parts →
      (n.whole ≠ [] ∨ n.fraction.getD [] ≠ []) ∧ (∀ e ∈ n.exponent, e.2 ≠ [])) := by
  obtain ⟨whole, behind⟩ := splitNumber_parts wf
  have scan : Binary64.splitNumber (n.whole ++ (n.fractionText ++ n.exponentText)) =
      if n.whole = [] ∧ n.fraction.getD [] = [] then none
      else n.exponentText.head?.elim (some (n.whole, n.fraction.getD [], 0)) fun c =>
        if c = 'e' ∨ c = 'E' then
          if (Text.splitSign n.exponentText.tail).2 = [] then none
          else (Text.digitsValue (Text.splitSign n.exponentText.tail).2 0).map fun m =>
            (n.whole, n.fraction.getD [],
              if (Text.splitSign n.exponentText.tail).1 then -(m : ℤ) else m)
        else none := by
    have same : (fun c => (Text.digit? c).isSome) = isDigit := rfl
    unfold Binary64.splitNumber
    dsimp only
    rw [same, whole, behind]
    have stops : n.Stops [] := by
      intro c head
      cases head
    unfold Numeral.fractionText
    cases eq : n.fraction with
    | none =>
      unfold Numeral.exponentText
      cases eq' : n.exponent with
      | none => rfl
      | some e =>
        obtain ⟨mark, es⟩ := e
        obtain ⟨m, sign, rfl, letter, -⟩ := mark_cases (wf.exponent (mark, es) eq').1
        cases signed : Text.splitSign (sign ++ es) with
        | mk neg ds =>
          rcases letter with rfl | rfl
          · cases ds <;> simp [signed]
          · cases ds <;> simp [signed]
    | some ds =>
      have split := takeDigits_of_stop (wf.fraction ds eq)
        fun c head => (head_exponentText wf stops head).1
      rw [List.append_nil] at split
      have take : (ds ++ n.exponentText).takeWhile isDigit = ds := congrArg Prod.fst split
      have drop : (ds ++ n.exponentText).dropWhile isDigit = n.exponentText :=
        congrArg Prod.snd split
      simp only [List.cons_append, Option.getD_some, take, drop]
      cases n.exponentText with
      | nil => rfl
      | cons c cs =>
        cases signed : Text.splitSign cs with
        | mk neg es => cases es <;> simp [signed]
  have some : n.whole ≠ [] ∨ n.fraction.getD [] ≠ [] ↔
      ¬ (n.whole = [] ∧ n.fraction.getD [] = []) := by tauto
  rw [scan, some]
  unfold Numeral.exponentText
  cases eq : n.exponent with
  | none =>
    dsimp only
    constructor
    · intro good _
      exact ⟨0, if_neg good⟩
    · intro parts found
      refine ⟨?_, by simp⟩
      intro bad
      rw [if_pos bad] at found
      cases found
  | some e =>
    obtain ⟨mark, ds⟩ := e
    obtain ⟨hm, digits⟩ := wf.exponent (mark, ds) eq
    obtain ⟨m, sign, rfl, letter, signs⟩ := mark_cases hm
    obtain ⟨neg, sign⟩ := splitSign_exponent digits signs
    obtain ⟨k, value⟩ := digitsValue_isSome digits 0
    dsimp only [List.cons_append, List.head?_cons, List.tail_cons, Option.elim_some]
    rw [if_pos letter]
    simp only [List.tail_cons, sign]
    constructor
    · intro good nonempty
      rw [if_neg good, if_neg (nonempty (m :: _, ds) rfl), value]
      exact ⟨_, rfl⟩
    · intro parts found
      by_cases bad : n.whole = [] ∧ n.fraction.getD [] = []
      · rw [if_pos bad] at found
        cases found
      · refine ⟨bad, ?_⟩
        rintro _ ⟨⟩ empty
        rw [if_neg bad, if_pos empty] at found
        cases found

theorem head_text (wf : n.WellFormed) {c : Char}
    (body : n.whole ++ (n.fractionText ++ n.exponentText) = c :: cs) :
    isDigit c = true ∨ c = '.' ∨ c = 'e' ∨ c = 'E' := by
  cases whole : n.whole with
  | cons d ds =>
    rw [whole] at body
    obtain rfl := (List.cons.inj body).1
    exact .inl (wf.whole d (by simp [whole]))
  | nil =>
    rw [whole] at body
    unfold Numeral.fractionText at body
    cases fraction : n.fraction with
    | some ds =>
      rw [fraction] at body
      obtain rfl := (List.cons.inj body).1
      exact .inr (.inl rfl)
    | none =>
      rw [fraction] at body
      unfold Numeral.exponentText at body
      cases exponent : n.exponent with
      | none =>
        rw [exponent] at body
        cases body
      | some e =>
        obtain ⟨mark, es⟩ := e
        obtain ⟨m, sign, rfl, letter, -⟩ := mark_cases (wf.exponent (mark, es) exponent).1
        rw [exponent] at body
        obtain rfl := (List.cons.inj body).1
        exact .inr (.inr letter)

theorem toLower_ne {c : Char} (h : isDigit c = true ∨ c = '.' ∨ c = 'e' ∨ c = 'E') :
    c.toLower ≠ 'i' ∧ c.toLower ≠ 'n' := by
  rcases h with digit | rfl | rfl | rfl
  · rw [isDigit_eq] at digit
    rw [Decimal.toLower_digit digit]
    constructor
    · rintro rfl
      simp at digit
    · rintro rfl
      simp at digit
  · decide
  · decide
  · decide

/-- Which numbers the standard library reads. -/
theorem parse_numeral (wf : n.WellFormed) (start : n.minus = true ∨ n.whole ≠ []) :
    (∃ f, Binary64.parse (String.ofList n.text) = some f) ↔
      (n.whole ≠ [] ∨ n.fraction.getD [] ≠ []) ∧ (∀ e ∈ n.exponent, e.2 ≠ []) := by
  obtain ⟨reads, only⟩ := splitNumber_numeral wf
  have stops : n.Stops [] := by
    intro c head
    cases head
  have sign : Text.splitSign n.text =
      (n.minus, n.whole ++ (n.fractionText ++ n.exponentText)) := by
    unfold Numeral.text
    cases minus : n.minus with
    | true => simp [Text.splitSign]
    | false =>
      have whole := start.resolve_left (by simp [minus])
      obtain ⟨d, ds, eq⟩ := List.exists_cons_of_ne_nil whole
      have digit := wf.whole d (by simp [eq])
      have plus : d ≠ '+' := by rintro rfl; simp [isDigit, Text.digit?] at digit
      have dash : d ≠ '-' := by rintro rfl; simp [isDigit, Text.digit?] at digit
      simp only [eq, Bool.false_eq_true, if_false, List.nil_append, List.cons_append,
        List.append_assoc]
      unfold Text.splitSign
      split
      next => simp_all
      next => simp_all
      next => rfl
  have word : ∀ w ws, (w = 'i' ∨ w = 'n') →
      String.ofList ((n.whole ++ (n.fractionText ++ n.exponentText)).map Char.toLower) ≠
        String.ofList (w :: ws) := by
    intro w ws letter same
    have lists := String.ofList_injective same
    cases body : n.whole ++ (n.fractionText ++ n.exponentText) with
    | nil =>
      rw [body] at lists
      cases lists
    | cons c cs =>
      rw [body, List.map_cons] at lists
      have first : isDigit c = true ∨ c = '.' ∨ c = 'e' ∨ c = 'E' := head_text wf body
      obtain ⟨i, n'⟩ := toLower_ne first
      have := (List.cons.inj lists).1
      rcases letter with rfl | rfl
      · exact i this
      · exact n' this
  unfold Binary64.parse
  rw [String.toList_ofList, sign]
  dsimp only
  have inf := word 'i' ['n', 'f'] (.inl rfl)
  have infinity := word 'i' ['n', 'f', 'i', 'n', 'i', 't', 'y'] (.inl rfl)
  rw [if_neg (not_or.mpr ⟨inf, infinity⟩), if_neg (word 'n' ['a', 'n'] (.inr rfl))]
  constructor
  · rintro ⟨f, found⟩
    cases parts : Binary64.splitNumber (n.whole ++ (n.fractionText ++ n.exponentText)) with
    | none => simp [parts] at found
    | some p => exact only p parts
  · rintro ⟨digit, exponent⟩
    obtain ⟨k, parts⟩ := reads digit exponent
    have digits : ∀ c ∈ n.whole ++ n.fraction.getD [], isDigit c := by
      intro c hc
      rcases List.mem_append.mp hc with h | h
      · exact wf.whole c h
      · cases eq : n.fraction with
        | none => simp [eq] at h
        | some ds =>
          rw [eq] at h
          exact wf.fraction ds eq c h
    obtain ⟨m, value⟩ := digitsValue_isSome digits 0
    rw [parts]
    simp only [Option.bind_some, value, Option.map_some]
    exact ⟨_, rfl⟩

/-! ### The value of a number -/

theorem contains_text (wf : n.WellFormed) :
    (!n.text.contains '.' && !n.text.contains 'e' && !n.text.contains 'E') = true ↔
      n.fraction = none ∧ n.exponent = none := by
  have whole : ∀ c, isDigit c = false → c ∉ n.whole := by
    intro c no mem
    rw [wf.whole c mem] at no
    cases no
  have dot := whole '.' (by decide)
  have lower := whole 'e' (by decide)
  have upper := whole 'E' (by decide)
  constructor
  · intro none
    simp only [Bool.and_eq_true, Bool.not_eq_true', List.contains_eq_mem, decide_eq_false_iff_not]
      at none
    obtain ⟨⟨noDot, noLower⟩, noUpper⟩ := none
    constructor
    · cases eq : n.fraction with
      | none => rfl
      | some ds => simp [Numeral.text, Numeral.fractionText, eq] at noDot
    · cases eq : n.exponent with
      | none => rfl
      | some e =>
        obtain ⟨mark, es⟩ := e
        obtain ⟨m, sign, rfl, letter, -⟩ := mark_cases (wf.exponent (mark, es) eq).1
        rcases letter with rfl | rfl
        · simp [Numeral.text, Numeral.exponentText, eq] at noLower
        · simp [Numeral.text, Numeral.exponentText, eq] at noUpper
  · rintro ⟨fraction, exponent⟩
    cases minus : n.minus with
    | true => simp [Numeral.text, Numeral.fractionText, Numeral.exponentText, fraction, exponent,
        minus, dot, lower, upper]
    | false => simp [Numeral.text, Numeral.fractionText, Numeral.exponentText, fraction, exponent,
        minus, dot, lower, upper]

/-- The text of a float that is not finite holds an `n` or an `N`: it is no number's text. -/
theorem canonical_of_not_finite {f : Float.Model} (h : f.isFinite = false) :
    'n' ∈ (canonicalIntegerDigits f).toList ∨ 'N' ∈ (canonicalIntegerDigits f).toList := by
  unfold Float.Model.isFinite at h
  have notWhole : Binary64.isWhole f = false := by
    unfold Binary64.isWhole
    split <;> simp_all [Float.Model.UnpackedFloat.isFinite]
  unfold canonicalIntegerDigits
  rw [if_neg (by simp [notWhole])]
  unfold Binary64.display
  split <;> simp_all [Float.Model.UnpackedFloat.isFinite]

theorem not_mem_text (wf : n.WellFormed) {c : Char} (digit : isDigit c = false)
    (others : c ∉ ['-', '.', 'e', 'E', '+']) : c ∉ n.text := by
  have noDigit : ∀ ds : List Char, (∀ d ∈ ds, isDigit d) → c ∉ ds := by
    intro ds digits mem
    rw [digits c mem] at digit
    cases digit
  simp only [List.mem_cons, List.not_mem_nil, or_false, not_or] at others
  obtain ⟨dash, dot, lower, upper, plus⟩ := others
  intro mem
  simp only [Numeral.text, List.mem_append] at mem
  rcases mem with ((sign | whole) | fraction) | exponent
  · cases minus : n.minus with
    | true => simp [minus, dash] at sign
    | false => simp [minus] at sign
  · exact noDigit _ wf.whole whole
  · unfold Numeral.fractionText at fraction
    split at fraction
    next => cases fraction
    next ds eq =>
      rcases List.mem_cons.mp fraction with same | mem
      · exact dot same
      · exact noDigit ds (wf.fraction ds eq) mem
  · unfold Numeral.exponentText at exponent
    split at exponent
    next => cases exponent
    next mark es eq =>
      obtain ⟨hm, digits⟩ := wf.exponent (mark, es) eq
      rcases List.mem_append.mp exponent with mem | mem
      · simp only [Numeral.marks, List.mem_cons, List.not_mem_nil, or_false] at hm
        rcases hm with rfl | rfl | rfl | rfl | rfl | rfl <;> simp_all
      · exact noDigit es digits mem

/-- The reader's value of a number in range, and its refusal of any other. -/
theorem numberValue_ok_iff {escapes : Char → Bool} (wf : n.WellFormed)
    (start : n.minus = true ∨ n.whole ≠ []) :
    (∃ v, numberValue escapes false n.text = .ok v) ↔ n.Loose ∧ n.InRange := by
  have reads := parse_numeral wf start
  have plain := contains_text wf
  have notText : ∀ f : Float.Model, f.isFinite = false →
      canonicalIntegerDigits f ≠ String.ofList n.text := by
    intro f h same
    have := canonical_of_not_finite h
    rw [same, String.toList_ofList] at this
    rcases this with mem | mem
    · exact not_mem_text wf (by decide) (by decide) mem
    · exact not_mem_text wf (by decide) (by decide) mem
  unfold numberValue
  cases parsed : Binary64.parse (String.ofList n.text) with
  | none =>
    constructor
    · rintro ⟨v, found⟩
      cases found
    · rintro ⟨loose, -⟩
      obtain ⟨f, found⟩ := reads.mpr ⟨loose.someDigit, loose.someExponent⟩
      rw [parsed] at found
      cases found
  | some f =>
    obtain ⟨someDigit, someExponent⟩ := reads.mp ⟨f, parsed⟩
    have loose : n.Loose := ⟨wf, start, someDigit, someExponent⟩
    dsimp only
    rw [Bool.false_or]
    cases finite : f.isFinite with
    | true =>
      simp only [Bool.not_true, Bool.false_and, Bool.false_eq_true, if_false]
      constructor
      · rintro -
        exact ⟨loose, .inr ⟨f, parsed, finite⟩⟩
      · rintro -
        exact ⟨_, rfl⟩
    | false =>
      have differs : (canonicalIntegerDigits f != String.ofList n.text) = true := by
        simpa using notText f finite
      rw [differs, Bool.and_true]
      constructor
      · rintro ⟨v, found⟩
        refine ⟨loose, .inl (plain.mp ?_)⟩
        by_contra notPlain
        simp only [Bool.eq_false_of_not_eq_true notPlain] at found
        cases found
      · rintro ⟨-, h | ⟨g, found, finite'⟩⟩
        · simp only [plain.mpr h]
          exact ⟨_, rfl⟩
        · rw [parsed] at found
          cases found
          rw [finite] at finite'
          cases finite'

theorem Numeral.Loose.text_first (h : n.Loose) (rest : List Char) :
    ∃ c body, n.text ++ rest = c :: body ∧ (c = '-' ∨ isDigit c) := by
  unfold Numeral.text
  cases minus : n.minus with
  | true => exact ⟨'-', _, rfl, .inl rfl⟩
  | false =>
    have whole : n.whole ≠ [] := h.start.resolve_left (by simp [minus])
    obtain ⟨d, ds, eq⟩ := List.exists_cons_of_ne_nil whole
    exact ⟨d, ds ++ n.fractionText ++ n.exponentText ++ rest, by simp [eq],
      .inr (h.whole d (by simp [eq]))⟩

/-- The reader's numbers are those of the loose grammar. -/
theorem loose_number_iff {escapes : Char → Bool} :
    loose.number cs rest ↔ ∃ c body v, cs = c :: body ∧ (c = '-' ∨ isDigit c) ∧
      Reads (parseNumber escapes false cs) v rest := by
  constructor
  · rintro ⟨n, hn, range, stops, rfl⟩
    obtain ⟨v, found⟩ := (numberValue_ok_iff hn.toWellFormed hn.start).mpr ⟨hn, range⟩
    have text := numberText_text hn stops
    obtain ⟨c, body, eq, first⟩ := hn.text_first rest
    refine ⟨c, body, v, eq, first, reads_parseNumber.mpr ?_⟩
    rw [text]
    exact ⟨found, rfl⟩
  · rintro ⟨c, body, v, rfl, first, read⟩
    obtain ⟨found, rfl⟩ := reads_parseNumber.mp read
    obtain ⟨n, wf, start, text, stops⟩ := @numberText_numeral c body first
    rw [← text] at found
    obtain ⟨hn, range⟩ := (numberValue_ok_iff wf start).mp ⟨v, found⟩
    exact ⟨n, hn, range, stops, by rw [text, numberText_append]⟩

end Hecks.Json.Grammar
