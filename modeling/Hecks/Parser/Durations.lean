import Hecks.Parser.Canonical

/-! Durations in a canonical text: what folding the calls of one unit makes of an unquoted run. -/

namespace Hecks.Parser.Canonical

open Text (isWhitespace)

/-! ### The product -/

theorem digitChar_isDigit {n : ℕ} (small : n < 10) : (digitChar n).isDigit := by
  revert n
  decide

theorem carried_digits (carry : ℕ) : ∀ c ∈ carried carry, c.isDigit := by
  fun_induction carried carry with
  | case1 => exact fun c none => absurd none List.not_mem_nil
  | case2 carry positive ih =>
    intro c mem
    rcases List.mem_cons.mp mem with rfl | mem
    · exact digitChar_isDigit (Nat.mod_lt _ (by decide))
    · exact ih c mem

theorem carried_length {carry : ℕ} : ∀ {k : ℕ}, carry < 10 ^ k → (carried carry).length ≤ k := by
  fun_induction carried carry with
  | case1 => exact fun _ => Nat.zero_le _
  | case2 carry positive ih =>
    intro k bounded
    cases k with
    | zero => exact absurd (Nat.lt_one_iff.mp bounded) positive
    | succ k =>
      have less : carry / 10 < 10 ^ k := by
        rw [Nat.pow_succ] at bounded
        omega
      exact Nat.succ_le_succ (ih less)

variable {factor : ℕ} {digits : List Char}

theorem multiplyFrom_digits (ds : List Char) : ∀ carry : ℕ,
    ∀ c ∈ multiplyFrom factor ds carry, c.isDigit := by
  induction ds with
  | nil => exact carried_digits
  | cons d ds ih =>
    intro carry c mem
    rcases List.mem_cons.mp mem with rfl | mem
    · exact digitChar_isDigit (Nat.mod_lt _ (by decide))
    · exact ih _ c mem

theorem digit_value {d : Char} (digit : d.isDigit) : d.toNat - '0'.toNat ≤ 9 := by
  simp only [Char.isDigit, ge_iff_le, Bool.and_eq_true, decide_eq_true_eq] at digit
  have upper : d.toNat ≤ 57 := digit.2
  have zero : '0'.toNat = 48 := rfl
  omega

/-- No carry exceeds the factor, so it has no more digits than the factor. -/
theorem multiplyFrom_length {k : ℕ} (bounded : factor < 10 ^ k) {ds : List Char}
    (all : ∀ d ∈ ds, d.isDigit) : ∀ carry ≤ factor,
      (multiplyFrom factor ds carry).length ≤ ds.length + k := by
  induction ds with
  | nil =>
    intro carry small
    rw [List.length_nil, Nat.zero_add]
    exact carried_length (Nat.lt_of_le_of_lt small bounded)
  | cons d ds ih =>
    intro carry small
    have value := Nat.mul_le_mul_right factor (digit_value (all d List.mem_cons_self))
    have rest := ih (fun e mem => all e (List.mem_cons_of_mem _ mem))
      (((d.toNat - '0'.toNat) * factor + carry) / 10) (by omega)
    rw [multiplyFrom, List.length_cons, List.length_cons]
    omega

theorem stripZeros_suffix (ds : List Char) : stripZeros ds <:+ ds := by
  fun_induction stripZeros ds with
  | case1 c cs ih => exact ih.trans (List.suffix_cons _ _)
  | case2 cs => exact List.suffix_rfl

theorem stripZeros_ne_nil {ds : List Char} (nonempty : ds ≠ []) : stripZeros ds ≠ [] := by
  fun_induction stripZeros ds with
  | case1 c cs ih => exact ih (List.cons_ne_nil _ _)
  | case2 cs => exact nonempty

theorem multiply_digits (factor : ℕ) (digits : List Char) :
    ∀ c ∈ multiply digits factor, c.isDigit := by
  intro c mem
  exact multiplyFrom_digits _ _ c (List.mem_reverse.mp ((stripZeros_suffix _).subset mem))

theorem multiply_ne_nil (nonempty : digits ≠ []) : multiply digits factor ≠ [] := by
  apply stripZeros_ne_nil
  cases shape : digits.reverse with
  | nil => exact absurd (List.reverse_eq_nil_iff.mp shape) nonempty
  | cons d ds =>
    rw [multiplyFrom, List.reverse_cons]
    exact List.append_ne_nil_of_right_ne_nil _ (List.cons_ne_nil _ _)

theorem multiply_length {k : ℕ} (bounded : factor < 10 ^ k) (all : ∀ d ∈ digits, d.isDigit) :
    (multiply digits factor).length ≤ digits.length + k := by
  have reversed : ∀ d ∈ digits.reverse, d.isDigit := fun d mem => all d (List.mem_reverse.mp mem)
  have product := multiplyFrom_length bounded reversed 0 (Nat.zero_le _)
  have stripped := (stripZeros_suffix (multiplyFrom factor digits.reverse 0).reverse).length_le
  rw [List.length_reverse] at product stripped
  unfold multiply
  omega

/-! ### Calls -/

/-- A call that folds, without its name. -/
structure Whole (text digits rest : List Char) : Prop where
  number : digits ≠ [] ∧ ∀ d ∈ digits, d.isDigit
  spelled : ∃ lead trail, (∀ c ∈ lead, isWhitespace c) ∧ (∀ c ∈ trail, isWhitespace c) ∧
    text = '(' :: (lead ++ (digits ++ (trail ++ ')' :: rest)))

theorem not_digit_of_blank {c : Char} (blank : isWhitespace c) : ¬ c.isDigit := by
  intro digit
  simp only [Char.isDigit, ge_iff_le, Bool.and_eq_true, decide_eq_true_eq] at digit
  have lower : 48 ≤ c.toNat := digit.1
  have upper : c.toNat ≤ 57 := digit.2
  simp only [isWhitespace, Bool.or_eq_true, Bool.and_eq_true, decide_eq_true_eq, beq_iff_eq]
    at blank
  omega

theorem dropWhile_stretch {p : Char → Bool} {front rest : List Char} (all : ∀ c ∈ front, p c)
    (stops : ∀ c, rest.head? = some c → ¬ p c) : (front ++ rest).dropWhile p = rest := by
  rw [List.dropWhile_append_of_pos all]
  cases rest with
  | nil => rfl
  | cons c rest => exact List.dropWhile_cons_of_neg (stops c rfl)

theorem takeWhile_stretch {p : Char → Bool} {front rest : List Char} (all : ∀ c ∈ front, p c)
    (stops : ∀ c, rest.head? = some c → ¬ p c) : (front ++ rest).takeWhile p = front := by
  rw [List.takeWhile_append_of_pos all]
  cases rest with
  | nil => rw [List.takeWhile_nil, List.append_nil]
  | cons c rest => rw [List.takeWhile_cons_of_neg (stops c rfl), List.append_nil]

theorem wholeNumberCall_iff {text rest : List Char} :
    wholeNumberCall text = some (digits, rest) ↔ Whole text digits rest := by
  constructor
  · intro call
    unfold wholeNumberCall at call
    split at call
    · rename_i inner
      dsimp only at call
      split at call
      · cases call
      rename_i some'
      split at call
      · rename_i after closed
        cases call
        refine ⟨⟨some', fun d mem => (List.mem_takeWhile_imp mem)⟩,
          inner.takeWhile isWhitespace,
          ((inner.dropWhile isWhitespace).dropWhile Char.isDigit).takeWhile isWhitespace,
          fun c mem => List.mem_takeWhile_imp mem, fun c mem => List.mem_takeWhile_imp mem, ?_⟩
        rw [← closed, List.takeWhile_append_dropWhile, List.takeWhile_append_dropWhile,
          List.takeWhile_append_dropWhile]
      · cases call
    · cases call
  · rintro ⟨⟨nonempty, all⟩, lead, trail, blank, blank', rfl⟩
    have past : (trail ++ ')' :: rest).dropWhile isWhitespace = ')' :: rest := by
      apply dropWhile_stretch blank'
      rintro c ⟨⟩
      decide
    have stops : ∀ c, (trail ++ ')' :: rest).head? = some c → ¬ c.isDigit := by
      intro c head
      cases trail with
      | nil =>
        cases head
        decide
      | cons d trail =>
        cases head
        exact not_digit_of_blank (blank' c List.mem_cons_self)
    have led : (lead ++ (digits ++ (trail ++ ')' :: rest))).dropWhile isWhitespace =
        digits ++ (trail ++ ')' :: rest) := by
      apply dropWhile_stretch blank
      intro c head
      cases digits with
      | nil => exact absurd rfl nonempty
      | cons d digits =>
        cases head
        exact fun blank => not_digit_of_blank blank (all c List.mem_cons_self)
    rw [wholeNumberCall, led, takeWhile_stretch all stops, if_neg nonempty,
      dropWhile_stretch all stops, past]
    rfl

theorem callHere_iff {words : Words} {token text rest : List Char} {previous : Option Char} :
    callHere words token previous text = some (digits, rest) ↔
      preceded words previous = false ∧ ∃ call, text = token ++ call ∧ Whole call digits rest := by
  unfold callHere
  constructor
  · intro here
    split at here
    · rename_i stands
      rw [Bool.and_eq_true, List.isPrefixOf_iff_prefix, Bool.not_eq_true'] at stands
      obtain ⟨⟨call, rfl⟩, free⟩ := stands
      rw [List.drop_left] at here
      exact ⟨free, call, rfl, wholeNumberCall_iff.mp here⟩
    · cases here
  · rintro ⟨free, call, rfl, whole⟩
    have stands : token.isPrefixOf (token ++ call) = true :=
      List.isPrefixOf_iff_prefix.mpr ⟨call, rfl⟩
    rw [stands, free, if_pos (show (true && !false) = true from rfl), List.drop_left]
    exact wholeNumberCall_iff.mpr whole

/-! ### Scaling a run -/

/-- The name of a unit: lower-case letters. -/
def Name (token : List Char) : Prop := token ≠ [] ∧ ∀ c ∈ token, c.isLower

/-- Somewhere in the run a call of this name folds; `previous` is the character before the run. -/
def Foldable (words : Words) (token : List Char) (previous : Option Char) : List Char → Prop
  | [] => False
  | c :: cs =>
      (callHere words token previous (c :: cs)).isSome ∨ Foldable words token (some c) cs

/-- The run starts with a call that opens on another call, spaces aside. -/
def NestsHere (names : List (List Char)) (run : List Char) : Prop :=
  ∃ outer ∈ names, ∃ lead, ∃ inner ∈ names, ∃ rest, (∀ c ∈ lead, isWhitespace c) ∧
    run = outer ++ '(' :: (lead ++ (inner ++ '(' :: rest))

/-- Somewhere in the run a call opens on another call. -/
def Nests (names : List (List Char)) (run : List Char) : Prop :=
  ∃ before after, run = before ++ after ∧ NestsHere names after

variable {words : Words} {token : List Char} {names : List (List Char)} {previous : Option Char}
  {run rest : List Char}

theorem scaleCall_self (none : ¬ Foldable words token previous run) :
    scaleCall words token factor previous run = run := by
  fun_induction scaleCall words token factor previous run with
  | case1 => rfl
  | case2 previous c cs digits rest call ih =>
    exact absurd (.inl (by rw [call]; rfl)) none
  | case3 previous c cs call ih => rw [ih fun later => none (.inr later)]

theorem callHere_length (bounded : factor < 10 ^ (token.length + 1))
    (call : callHere words token previous run = some (digits, rest)) :
    (multiply digits factor).length + rest.length < run.length := by
  obtain ⟨-, text, rfl, ⟨-, all⟩, lead, trail, -, -, rfl⟩ := callHere_iff.mp call
  have product := multiply_length bounded all
  simp only [List.length_append, List.length_cons]
  omega

theorem scaleCall_length (bounded : factor < 10 ^ (token.length + 1)) :
    (scaleCall words token factor previous run).length ≤ run.length := by
  fun_induction scaleCall words token factor previous run with
  | case1 => exact Nat.le_refl _
  | case2 previous c cs digits rest call ih =>
    have shorter := callHere_length bounded call
    rw [List.length_append]
    omega
  | case3 previous c cs call ih => exact Nat.succ_le_succ ih

theorem scaleCall_lt (bounded : factor < 10 ^ (token.length + 1))
    (foldable : Foldable words token previous run) :
    (scaleCall words token factor previous run).length < run.length := by
  fun_induction scaleCall words token factor previous run with
  | case1 => exact foldable.elim
  | case2 previous c cs digits rest call ih =>
    have shorter := callHere_length bounded call
    have later : (scaleCall words token factor (some ')') rest).length ≤ rest.length :=
      scaleCall_length bounded
    rw [List.length_append]
    omega
  | case3 previous c cs call ih =>
    rcases foldable with here | later
    · rw [call] at here
      cases here
    · exact Nat.succ_lt_succ (ih later)

/-! What a scaled run shows of the run. -/

theorem scaleCall_fold {c : Char} {cs : List Char}
    (call : callHere words token previous (c :: cs) = some (digits, rest)) :
    scaleCall words token factor previous (c :: cs) =
      multiply digits factor ++ scaleCall words token factor (some ')') rest := by
  rw [scaleCall]
  split
  · rename_i found
    rw [call] at found
    cases found
    rfl
  · rename_i none
    rw [call] at none
    cases none

theorem scaleCall_copy {c : Char} {cs : List Char}
    (none : callHere words token previous (c :: cs) = none) :
    scaleCall words token factor previous (c :: cs) =
      c :: scaleCall words token factor (some c) cs := by
  rw [scaleCall]
  split
  · rename_i found
    rw [none] at found
    cases found
  · rfl

theorem multiply_head (factor : ℕ)
    (call : callHere words token previous run = some (digits, rest)) :
    ∃ d ds, multiply digits factor = d :: ds ∧ d.isDigit := by
  obtain ⟨-, text, -, ⟨nonempty, -⟩, -⟩ := callHere_iff.mp call
  cases shape : multiply digits factor with
  | nil => exact absurd shape (multiply_ne_nil nonempty)
  | cons d ds =>
    refine ⟨d, ds, rfl, multiply_digits factor digits d ?_⟩
    rw [shape]
    exact List.mem_cons_self

/-- The scaled run keeps the first character, or starts with a digit where a call folds. -/
theorem scaleCall_first {d : Char} {ds : List Char}
    (same : scaleCall words token factor previous run = d :: ds) :
    (∃ cs, run = d :: cs ∧ callHere words token previous run = none ∧
      scaleCall words token factor (some d) cs = ds) ∨
    d.isDigit ∧ (callHere words token previous run).isSome := by
  cases run with
  | nil =>
    rw [scaleCall] at same
    cases same
  | cons c cs =>
    cases call : callHere words token previous (c :: cs) with
    | some found =>
      obtain ⟨digits, behind⟩ := found
      obtain ⟨e, es, product, digit⟩ := multiply_head factor call
      rw [scaleCall_fold call, product, List.cons_append, List.cons.injEq] at same
      rw [← same.1]
      exact .inr ⟨digit, rfl⟩
    | none =>
      rw [scaleCall_copy call, List.cons.injEq] at same
      obtain ⟨rfl, same⟩ := same
      exact .inl ⟨cs, rfl, rfl, same⟩

/-- The character before what is behind a stretch. -/
def before (previous : Option Char) (stretch : List Char) : Option Char :=
  stretch.foldl (fun _ c => some c) previous

/-- A stretch of the scaled run without digits is a stretch of the run. -/
theorem scaleCall_stretch {stretch rest : List Char} (letters : ∀ c ∈ stretch, ¬ c.isDigit) :
    ∀ {previous : Option Char} {run : List Char},
      scaleCall words token factor previous run = stretch ++ rest →
        ∃ behind, run = stretch ++ behind ∧
          scaleCall words token factor (before previous stretch) behind = rest := by
  induction stretch with
  | nil => exact fun same => ⟨_, rfl, same⟩
  | cons d stretch ih =>
    intro previous run same
    rcases scaleCall_first same with ⟨cs, rfl, -, tail⟩ | ⟨digit, -⟩
    · obtain ⟨behind, rfl, left⟩ := ih (fun e mem => letters e (List.mem_cons_of_mem _ mem)) tail
      exact ⟨behind, rfl, left⟩
    · exact absurd digit (letters d List.mem_cons_self)

/-- Behind a digit nothing folds, so digits of the scaled run that follow one are digits of the
run. -/
theorem scaleCall_number {number rest : List Char} (digits : ∀ d ∈ number, d.isDigit) :
    ∀ {previous : Option Char} {run : List Char}, preceded words previous = true →
      scaleCall words token factor previous run = number ++ rest →
        ∃ behind, run = number ++ behind ∧
          scaleCall words token factor (before previous number) behind = rest := by
  induction number with
  | nil => exact fun _ same => ⟨_, rfl, same⟩
  | cons d number ih =>
    intro previous run word same
    rcases scaleCall_first same with ⟨cs, rfl, -, tail⟩ | ⟨-, here⟩
    · have word' : preceded words (some d) = true := by
        simp [preceded, words.digit (digits d List.mem_cons_self)]
      obtain ⟨behind, rfl, left⟩ :=
        ih (fun e mem => digits e (List.mem_cons_of_mem _ mem)) word' tail
      exact ⟨behind, rfl, left⟩
    · obtain ⟨⟨ds, behind⟩, call⟩ := Option.isSome_iff_exists.mp here
      rw [(callHere_iff.mp call).1] at word
      cases word

theorem Name.letters {name : List Char} (isName : Name name) : ∀ c ∈ name, ¬ c.isDigit := by
  intro c mem digit
  have lower := isName.2 c mem
  simp only [Char.isDigit, Char.isLower, ge_iff_le, Bool.and_eq_true, decide_eq_true_eq]
    at digit lower
  have small : c.toNat ≤ 57 := digit.2
  have large : 97 ≤ c.toNat := lower.1
  omega

theorem blank_letters {lead : List Char} (blank : ∀ c ∈ lead, isWhitespace c) :
    ∀ c ∈ lead, ¬ c.isDigit := fun c mem => not_digit_of_blank (blank c mem)

/-- Where a call folds in the scaled run, one folds in the run, or opens on another. -/
theorem callHere_scaleCall {name : List Char} (isName : Name name) (mem : name ∈ names)
    (own : token ∈ names) {before' : Option Char}
    (free : preceded words before' = false → preceded words previous = false)
    (here : callHere words name before' (scaleCall words token factor previous run) =
      some (digits, rest)) :
    NestsHere names run ∨ (callHere words name previous run).isSome := by
  obtain ⟨stands, call, scaled, ⟨nonempty, all⟩, lead, trail, blank, blank', rfl⟩ :=
    callHere_iff.mp here
  have opening : ∀ c ∈ name ++ '(' :: lead, ¬ c.isDigit := by
    intro c mem
    rcases List.mem_append.mp mem with mem | mem
    · exact isName.letters c mem
    · rcases List.mem_cons.mp mem with rfl | mem
      · decide
      · exact blank_letters blank c mem
  have opened : scaleCall words token factor previous run =
      (name ++ '(' :: lead) ++ (digits ++ (trail ++ ')' :: rest)) := by
    rw [scaled, List.append_assoc]
    rfl
  obtain ⟨argument, rfl, left⟩ := scaleCall_stretch opening opened
  cases digits with
  | nil => exact absurd rfl nonempty
  | cons d ds =>
    rcases scaleCall_first left with ⟨cs, rfl, -, number⟩ | ⟨-, nested⟩
    · right
      have word : preceded words (some d) = true := by
        simp [preceded, words.digit (all d List.mem_cons_self)]
      obtain ⟨behind, rfl, closed⟩ :=
        scaleCall_number (fun e mem => all e (List.mem_cons_of_mem _ mem)) word number
      have closing : ∀ c ∈ trail ++ [')'], ¬ c.isDigit := by
        intro c mem
        rcases List.mem_append.mp mem with mem | mem
        · exact blank_letters blank' c mem
        · rw [List.mem_singleton.mp mem]
          decide
      rw [List.append_cons] at closed
      obtain ⟨after, rfl, -⟩ := scaleCall_stretch closing closed
      have whole : callHere words name previous
          (name ++ '(' :: lead ++ d :: (ds ++ (trail ++ [')'] ++ after))) = some (d :: ds, after) :=
        callHere_iff.mpr ⟨free stands, _, List.append_assoc _ _ _, ⟨nonempty, all⟩, lead, trail,
          blank, blank', by simp⟩
      rw [whole]
      rfl
    · left
      obtain ⟨⟨ds', behind⟩, call⟩ := Option.isSome_iff_exists.mp nested
      obtain ⟨-, inner, rfl, -, lead', trail', -, -, rfl⟩ := callHere_iff.mp call
      exact ⟨name, mem, lead, token, own, lead' ++ (ds' ++ (trail' ++ ')' :: behind)), blank,
        List.append_assoc _ _ _⟩

/-! What is left to fold. -/

theorem nests_cons {c : Char} {cs : List Char} :
    Nests names (c :: cs) ↔ NestsHere names (c :: cs) ∨ Nests names cs := by
  constructor
  · rintro ⟨front, after, whole, here⟩
    cases front with
    | nil =>
      rw [List.nil_append] at whole
      rw [whole]
      exact .inl here
    | cons d front =>
      rw [List.cons_append, List.cons.injEq] at whole
      exact .inr ⟨front, after, whole.2, here⟩
  · rintro (here | ⟨front, after, rfl, here⟩)
    · exact ⟨[], _, rfl, here⟩
    · exact ⟨c :: front, after, rfl, here⟩

theorem Nests.behind {front : List Char} (nests : Nests names run) :
    Nests names (front ++ run) := by
  obtain ⟨start, after, rfl, here⟩ := nests
  exact ⟨front ++ start, after, (List.append_assoc _ _ _).symm, here⟩

theorem before_append (previous : Option Char) (front back : List Char) :
    before previous (front ++ back) = before (before previous front) back := List.foldl_append

theorem Foldable.behind {name front : List Char} :
    ∀ {previous : Option Char}, Foldable words name (before previous front) run →
      Foldable words name previous (front ++ run) := by
  induction front with
  | nil => exact id
  | cons c front ih => exact fun foldable => .inr (ih foldable)

/-- A name does not start with a digit. -/
theorem foldable_number {name number : List Char} (isName : Name name)
    (digits : ∀ d ∈ number, d.isDigit) (nonempty : number ≠ []) :
    ∀ {previous : Option Char}, Foldable words name previous (number ++ run) →
      ∃ d, d.isDigit ∧ Foldable words name (some d) run := by
  induction number with
  | nil => exact absurd rfl nonempty
  | cons d number ih =>
    intro previous foldable
    have digit := digits d List.mem_cons_self
    rcases foldable with here | later
    · obtain ⟨⟨ds, rest⟩, call⟩ := Option.isSome_iff_exists.mp here
      obtain ⟨-, text, same, -⟩ := callHere_iff.mp call
      cases name with
      | nil => exact absurd rfl isName.1
      | cons e name =>
        rw [List.cons_append, List.cons.injEq] at same
        rw [same.1] at digit
        exact absurd digit (isName.letters e List.mem_cons_self)
    · by_cases last : number = []
      · subst last
        exact ⟨d, digit, later⟩
      · exact ih (fun e mem => digits e (List.mem_cons_of_mem _ mem)) last later

/-- A call that folds in the scaled run folds in the run, and then it is of another unit, unless
the run has a call that opens on another. -/
theorem foldable_scaleCall {name : List Char} (isName : Name name) (mem : name ∈ names)
    (own : token ∈ names) : ∀ {before' : Option Char},
      (preceded words before' = false → preceded words previous = false) →
        Foldable words name before' (scaleCall words token factor previous run) →
          Nests names run ∨ name ≠ token ∧ Foldable words name previous run := by
  fun_induction scaleCall words token factor previous run with
  | case1 => exact fun _ foldable => foldable.elim
  | case2 previous c cs digits rest call ih =>
    intro before' _ foldable
    obtain ⟨-, text, whole, ⟨nonempty, -⟩, lead, trail, -, -, rfl⟩ := callHere_iff.mp call
    obtain ⟨d, digit, later⟩ := foldable_number isName (multiply_digits factor digits)
      (multiply_ne_nil nonempty) foldable
    have word : preceded words (some d) = true := by
      simp [preceded, words.digit digit]
    have closed : c :: cs =
        (token ++ '(' :: (lead ++ (digits ++ trail)) ++ [')']) ++ rest := by
      rw [whole]
      simp
    rw [closed]
    rcases ih (fun free => absurd word (by rw [free]; exact Bool.false_ne_true)) later with
      nests | ⟨other, elsewhere⟩
    · exact .inl nests.behind
    · right
      refine ⟨other, Foldable.behind ?_⟩
      rwa [before_append]
  | case3 previous c cs none ih =>
    intro before' free foldable
    rcases foldable with here | later
    · have scaled : scaleCall words token factor previous (c :: cs) = _ := scaleCall_copy none
      obtain ⟨⟨digits, rest⟩, call⟩ := Option.isSome_iff_exists.mp here
      rw [← scaled] at call
      rcases callHere_scaleCall isName mem own free call with nests | found
      · exact .inl (nests_cons.mpr (.inl nests))
      · right
        refine ⟨?_, .inl found⟩
        rintro rfl
        rw [none] at found
        cases found
    · rcases ih id later with nests | ⟨other, elsewhere⟩
      · exact .inl (nests_cons.mpr (.inr nests))
      · exact .inr ⟨other, .inr elsewhere⟩

/-- Characters that start no name hide no nested call. -/
theorem nests_skip {front : List Char}
    (others : ∀ c ∈ front, ∀ name ∈ names, name.head? ≠ some c) (isName : ∀ name ∈ names, Name name)
    (nests : Nests names (front ++ run)) : Nests names run := by
  induction front with
  | nil => exact nests
  | cons c front ih =>
    rcases nests_cons.mp nests with ⟨outer, mem, lead, inner, mem', rest, blank, same⟩ | later
    · exfalso
      apply others c List.mem_cons_self outer mem
      cases outer with
      | nil => exact absurd rfl (isName [] mem).1
      | cons d outer =>
        rw [List.cons_append, List.cons.injEq] at same
        rw [same.1, List.head?_cons]
    · exact ih (fun d behind => others d (List.mem_cons_of_mem _ behind)) later

/-- What a call that opens on another is written with. -/
def Stretch (stretch : List Char) : Prop := ∀ c ∈ stretch, c.isLower ∨ c = '(' ∨ isWhitespace c

theorem nestsHere_of_stretch {text : List Char} (isName : ∀ name ∈ names, Name name)
    (stands : ∀ {stretch rest : List Char}, Stretch stretch → text = stretch ++ rest →
      ∃ behind, run = stretch ++ behind)
    (nests : NestsHere names text) : NestsHere names run := by
  obtain ⟨outer, mem, lead, inner, mem', rest, blank, rfl⟩ := nests
  have stretch : Stretch (outer ++ '(' :: (lead ++ (inner ++ ['(']))) := by
    intro c within
    simp only [List.mem_append, List.mem_cons, List.not_mem_nil, or_false] at within
    rcases within with name | rfl | space | name | rfl
    · exact .inl ((isName outer mem).2 c name)
    · exact .inr (.inl rfl)
    · exact .inr (.inr (blank c space))
    · exact .inl ((isName inner mem').2 c name)
    · exact .inr (.inl rfl)
  have whole : outer ++ '(' :: (lead ++ (inner ++ '(' :: rest)) =
      (outer ++ '(' :: (lead ++ (inner ++ ['(']))) ++ rest := by simp
  obtain ⟨behind, rfl⟩ := stands stretch whole
  exact ⟨outer, mem, lead, inner, mem', behind, blank, by simp⟩

theorem lower_not_digit {c : Char} (lower : c.isLower) : ¬ c.isDigit := by
  have name : Name [c] := ⟨List.cons_ne_nil _ _, fun d mem => by rwa [List.mem_singleton.mp mem]⟩
  exact name.letters c (List.mem_singleton_self c)

theorem Stretch.letters {stretch : List Char} (is : Stretch stretch) :
    ∀ c ∈ stretch, ¬ c.isDigit := by
  intro c mem
  rcases is c mem with lower | rfl | blank
  · exact lower_not_digit lower
  · decide
  · exact not_digit_of_blank blank

/-- Scaling nests nothing. -/
theorem nests_scaleCall (isName : ∀ name ∈ names, Name name)
    (nests : Nests names (scaleCall words token factor previous run)) : Nests names run := by
  fun_induction scaleCall words token factor previous run with
  | case1 => exact nests
  | case2 previous c cs digits rest call ih =>
    obtain ⟨-, text, whole, -, lead, trail, -, -, rfl⟩ := callHere_iff.mp call
    have closed : c :: cs = (token ++ '(' :: (lead ++ (digits ++ (trail ++ [')'])))) ++ rest := by
      rw [whole]
      simp
    rw [closed]
    refine Nests.behind (ih (nests_skip ?_ isName nests))
    intro d mem name own head
    have digit := multiply_digits factor digits d mem
    cases name with
    | nil => cases head
    | cons e name =>
      cases head
      exact (isName _ own).letters d List.mem_cons_self digit
  | case3 previous c cs none ih =>
    rcases nests_cons.mp nests with here | later
    · apply nests_cons.mpr (.inl _)
      apply nestsHere_of_stretch isName _ here
      intro stretch rest is scaled
      have whole : scaleCall words token factor previous (c :: cs) = stretch ++ rest := by
        rw [scaleCall_copy none, scaled]
      obtain ⟨behind, same, -⟩ := scaleCall_stretch is.letters whole
      exact ⟨behind, same⟩
    · exact nests_cons.mpr (.inr (ih later))

theorem nests_sizeForLength (isName : ∀ name ∈ names, Name name)
    (others : ∀ c ∈ '.' :: sizeName, ∀ name ∈ names, name.head? ≠ some c)
    (nests : Nests names (sizeForLength words run)) : Nests names run := by
  induction run using sizeForLength_induct words with
  | nil => rwa [sizeForLength_nil] at nests
  | goes after stands row ih =>
    rw [row] at nests
    exact Nests.behind (ih (nests_skip others isName nests))
  | stays c cs none row ih =>
    rw [row] at nests
    rcases nests_cons.mp nests with here | later
    · apply nests_cons.mpr (.inl _)
      apply nestsHere_of_stretch isName _ here
      intro stretch rest is scaled
      have dotless : '.' ∉ stretch := by
        intro mem
        rcases is '.' mem with lower | impossible | blank
        · exact absurd lower (by decide)
        · exact absurd impossible (by decide)
        · exact absurd blank (by decide)
      obtain ⟨behind, same, -⟩ := sizeForLength_stretch words dotless (row.trans scaled)
      exact ⟨behind, same⟩
    · exact nests_cons.mpr (.inr (ih later))

/-- A stretch of the collapsed run without blanks is one of the run. -/
theorem collapse_solid {stretch rest : List Char} (solid : ∀ c ∈ stretch, ¬ isWhitespace c) :
    ∀ {run : List Char}, collapseWhitespace false run = stretch ++ rest →
      ∃ behind inRun, run = stretch ++ behind ∧ collapseWhitespace inRun behind = rest := by
  induction stretch with
  | nil => exact fun same => ⟨_, false, rfl, same⟩
  | cons d stretch ih =>
    intro run same
    cases run with
    | nil => cases same
    | cons c cs =>
      rw [collapseWhitespace] at same
      split at same
      · rw [if_neg Bool.false_ne_true, List.cons_append, List.cons.injEq] at same
        have blank := solid d List.mem_cons_self
        rw [← same.1] at blank
        exact absurd (by decide) blank
      · rw [List.cons_append, List.cons.injEq] at same
        obtain ⟨rfl, tail⟩ := same
        obtain ⟨behind, inRun, rfl, left⟩ :=
          ih (fun e mem => solid e (List.mem_cons_of_mem _ mem)) tail
        exact ⟨behind, inRun, rfl, left⟩

/-- The same behind blanks, which stand for blanks. -/
theorem collapse_lead {stretch rest : List Char} (solid : ∀ c ∈ stretch, ¬ isWhitespace c)
    (nonempty : stretch ≠ []) {run : List Char} :
    ∀ {inRun : Bool} {lead : List Char}, (∀ c ∈ lead, isWhitespace c) →
      collapseWhitespace inRun run = lead ++ (stretch ++ rest) →
        ∃ lead' behind, (∀ c ∈ lead', isWhitespace c) ∧ run = lead' ++ (stretch ++ behind) := by
  induction run with
  | nil =>
    intro inRun lead blank same
    have none := List.append_eq_nil_iff.mp (List.append_eq_nil_iff.mp same.symm).2
    exact absurd none.1 nonempty
  | cons c cs ih =>
    intro inRun lead blank same
    rw [collapseWhitespace] at same
    by_cases space : isWhitespace c
    · have further : (∃ lead, (∀ c ∈ lead, isWhitespace c) ∧
          collapseWhitespace true cs = lead ++ (stretch ++ rest)) := by
        rw [if_pos space] at same
        cases inRun with
        | true => exact ⟨lead, blank, same⟩
        | false =>
          rw [if_neg Bool.false_ne_true] at same
          cases lead with
          | nil =>
            cases stretch with
            | nil => exact absurd rfl nonempty
            | cons d stretch =>
              rw [List.nil_append, List.cons_append, List.cons.injEq] at same
              have plain := solid d List.mem_cons_self
              rw [← same.1] at plain
              exact absurd (by decide) plain
          | cons d lead =>
            rw [List.cons_append, List.cons.injEq] at same
            exact ⟨lead, fun e mem => blank e (List.mem_cons_of_mem _ mem), same.2⟩
      obtain ⟨lead, blank, tail⟩ := further
      obtain ⟨lead', behind, blank', rfl⟩ := ih blank tail
      refine ⟨c :: lead', behind, ?_, rfl⟩
      intro d mem
      rcases List.mem_cons.mp mem with rfl | mem
      · exact space
      · exact blank' d mem
    · rw [if_neg space] at same
      have none : lead = [] := by
        cases lead with
        | nil => rfl
        | cons d lead =>
          rw [List.cons_append, List.cons.injEq] at same
          rw [same.1] at space
          exact absurd (blank d List.mem_cons_self) space
      subst none
      have whole : collapseWhitespace false (c :: cs) = stretch ++ rest := by
        rw [collapseWhitespace, if_neg space]
        exact same
      obtain ⟨behind, -, front, -⟩ := collapse_solid solid whole
      exact ⟨[], behind, fun d mem => absurd mem List.not_mem_nil, front⟩

theorem Name.solid {name : List Char} (isName : Name name) : ∀ c ∈ name, ¬ isWhitespace c := by
  intro c mem blank
  have lower := isName.2 c mem
  simp only [Char.isLower, ge_iff_le, Bool.and_eq_true, decide_eq_true_eq] at lower
  have least : 97 ≤ c.toNat := lower.1
  have most : c.toNat ≤ 122 := lower.2
  simp only [isWhitespace, Bool.or_eq_true, Bool.and_eq_true, decide_eq_true_eq, beq_iff_eq]
    at blank
  omega

theorem Name.opened {name : List Char} (isName : Name name) :
    ∀ c ∈ name ++ ['('], ¬ isWhitespace c := by
  intro c mem
  rcases List.mem_append.mp mem with mem | mem
  · exact isName.solid c mem
  · rw [List.mem_singleton.mp mem]
    decide

theorem nests_collapse (isName : ∀ name ∈ names, Name name) (inRun : Bool)
    (nests : Nests names (collapseWhitespace inRun run)) : Nests names run := by
  fun_induction collapseWhitespace inRun run with
  | case1 => exact nests
  | case2 c cs space ih => exact nests_cons.mpr (.inr (ih nests))
  | case3 inRun c cs space _ ih =>
    have space_first : Nests names ([' '] ++ collapseWhitespace true cs) := nests
    refine nests_cons.mpr (.inr (ih (nests_skip ?_ isName space_first)))
    intro d mem name own head
    rw [List.mem_singleton.mp mem] at head
    have first := (isName name own).solid ' ' (List.mem_of_head? head)
    exact absurd (by decide) first
  | case4 inRun c cs plain ih =>
    rcases nests_cons.mp nests with here | later
    · apply nests_cons.mpr (.inl _)
      obtain ⟨outer, mem, lead, inner, mem', rest, blank, same⟩ := here
      have whole : collapseWhitespace false (c :: cs) =
          (outer ++ ['(']) ++ (lead ++ ((inner ++ ['(']) ++ rest)) := by
        rw [collapseWhitespace, if_neg plain, same]
        simp
      obtain ⟨argument, inRun', front, left⟩ := collapse_solid (isName outer mem).opened whole
      obtain ⟨lead', behind, blank', rfl⟩ := collapse_lead (isName inner mem').opened
        (List.append_ne_nil_of_right_ne_nil _ (List.cons_ne_nil _ _)) blank left
      exact ⟨outer, mem, lead', inner, mem', behind, blank', by rw [front]; simp⟩
    · exact nests_cons.mpr (.inr (ih later))

/-! What scaling keeps. -/

theorem digit_solid {c : Char} (digit : c.isDigit) : ¬ isWhitespace c :=
  fun blank => not_digit_of_blank blank digit

theorem callHere_closed {c : Char} {cs : List Char}
    (call : callHere words token previous (c :: cs) = some (digits, rest)) :
    digits ≠ [] ∧ ∃ front, c :: cs = front ++ rest := by
  obtain ⟨-, text, whole, ⟨nonempty, -⟩, lead, trail, -, -, rfl⟩ := callHere_iff.mp call
  refine ⟨nonempty, token ++ '(' :: (lead ++ (digits ++ (trail ++ [')']))), ?_⟩
  rw [whole]
  simp

theorem scaleCall_collapsed : ∀ {inRun : Bool}, Collapsed inRun run →
    Collapsed inRun (scaleCall words token factor previous run) := by
  fun_induction scaleCall words token factor previous run with
  | case1 => exact id
  | case2 previous c cs digits rest call ih =>
    intro inRun collapsed
    obtain ⟨nonempty, front, whole⟩ := callHere_closed call
    rw [whole] at collapsed
    exact collapsed_append (fun d mem => digit_solid (multiply_digits factor digits d mem))
      (multiply_ne_nil nonempty) (ih collapsed.behind)
  | case3 previous c cs none ih =>
    intro inRun collapsed
    by_cases blank : isWhitespace c
    · obtain ⟨outside, same, rest⟩ := (collapsed_blank blank cs).mp collapsed
      exact (collapsed_blank blank _).mpr ⟨outside, same, ih rest⟩
    · exact (collapsed_plain blank _).mpr (ih ((collapsed_plain blank cs).mp collapsed))

theorem scaleCall_quoteless (quoteless : Quoteless run) :
    Quoteless (scaleCall words token factor previous run) := by
  fun_induction scaleCall words token factor previous run with
  | case1 => exact quoteless
  | case2 previous c cs digits rest call ih =>
    obtain ⟨-, front, whole⟩ := callHere_closed call
    intro d mem
    rcases List.mem_append.mp mem with number | later
    · have digit := multiply_digits factor digits d number
      rintro (rfl | rfl) <;> exact absurd digit (by decide)
    · refine ih (fun e behind => quoteless e ?_) d later
      rw [whole]
      exact List.mem_append_right _ behind
  | case3 previous c cs none ih =>
    intro d mem
    rcases List.mem_cons.mp mem with rfl | mem
    · exact quoteless d List.mem_cons_self
    · exact ih (fun e behind => quoteless e (List.mem_cons_of_mem _ behind)) d mem

theorem boundary_scaleCall (identifier : boundary words run = false) :
    boundary words (scaleCall words token factor previous run) = false := by
  cases run with
  | nil => rwa [scaleCall]
  | cons c cs =>
    cases shape : scaleCall words token factor previous (c :: cs) with
    | nil =>
      cases call : callHere words token previous (c :: cs) with
      | none =>
        rw [scaleCall_copy call] at shape
        cases shape
      | some found =>
        obtain ⟨digits, rest⟩ := found
        rw [scaleCall_fold call] at shape
        exact absurd (List.append_eq_nil_iff.mp shape).1 (multiply_ne_nil (callHere_closed call).1)
    | cons d ds =>
      rcases scaleCall_first shape with ⟨behind, same, -, -⟩ | ⟨digit, -⟩
      · cases same
        exact identifier
      · simp [boundary, words.digit digit]

theorem length_letters : ∀ c ∈ '.' :: lengthName, ¬ c.isDigit := by
  simp only [lengthName, List.mem_cons, List.not_mem_nil, or_false]
  rintro c (rfl | rfl | rfl | rfl | rfl | rfl | rfl) <;> decide

theorem scaleCall_replaced (replaced : Replaced words ('.' :: lengthName) run) :
    Replaced words ('.' :: lengthName) (scaleCall words token factor previous run) := by
  fun_induction scaleCall words token factor previous run with
  | case1 => exact replaced
  | case2 previous c cs digits rest call ih =>
    obtain ⟨-, front, whole⟩ := callHere_closed call
    rw [whole] at replaced
    intro start after same
    rw [List.append_assoc] at same
    rcases List.append_eq_append_iff.mp same with ⟨gap, rfl, left⟩ | ⟨gap, number, left⟩
    · rw [← List.append_assoc] at left
      exact ih replaced.behind gap after left
    · cases gap with
      | nil => exact ih replaced.behind [] after left.symm
      | cons d gap =>
        rw [List.cons_append, List.cons_append, List.cons.injEq] at left
        have digit := multiply_digits factor digits d (by rw [number]; simp)
        rw [← left.1] at digit
        exact absurd digit (by decide)
  | case3 previous c cs none ih =>
    intro start after same
    cases start with
    | nil =>
      have whole : scaleCall words token factor previous (c :: cs) =
          ('.' :: lengthName) ++ after := by
        rw [scaleCall_copy none]
        exact same
      obtain ⟨behind, front, left⟩ := scaleCall_stretch length_letters whole
      rw [← left]
      exact boundary_scaleCall (replaced [] behind (by rw [front]; rfl))
    | cons d start =>
      rw [List.cons_append, List.cons_append, List.cons.injEq] at same
      have tail : Replaced words ('.' :: lengthName) ([c] ++ cs) := replaced
      exact ih tail.behind start after same.2

/-! Calls at the ends of a run. -/

theorem Foldable.append {name : List Char} (back : List Char) : ∀ {previous : Option Char},
    Foldable words name previous run → Foldable words name previous (run ++ back) := by
  induction run with
  | nil => exact fun foldable => foldable.elim
  | cons c cs ih =>
    intro previous foldable
    rcases foldable with here | later
    · left
      obtain ⟨⟨digits, rest⟩, call⟩ := Option.isSome_iff_exists.mp here
      obtain ⟨free, text, whole, number, lead, trail, blank, blank', rfl⟩ := callHere_iff.mp call
      have extended : callHere words name previous (c :: (cs ++ back)) =
          some (digits, rest ++ back) := by
        apply callHere_iff.mpr ⟨free, _, _, number, lead, trail, blank, blank', rfl⟩
        rw [← List.cons_append, whole]
        simp
      show (callHere words name previous (c :: (cs ++ back))).isSome
      rw [extended]
      rfl
    · exact .inr (ih later)

theorem Foldable.after_blank {name : List Char} {c : Char} (blank : isWhitespace c)
    (foldable : Foldable words name none run) : Foldable words name none (c :: run) := by
  right
  cases run with
  | nil => exact foldable.elim
  | cons d run =>
    have others : c ≠ '_' ∧ c ≠ '.' := by
      constructor <;> rintro rfl <;> exact absurd blank (by decide)
    have free : preceded words (some c) = preceded words none := by
      simp [preceded, words.blank blank, others]
    rcases foldable with here | later
    · left
      unfold callHere at here ⊢
      rwa [free]
    · exact .inr later

end Hecks.Parser.Canonical
