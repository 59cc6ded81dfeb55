import Hecks.Parser.RubyValue

/-! Reading back the spelling of a captured literal. -/

namespace Hecks.Parser.RubyValue

open Text (isWhitespace)
open Canonical (trimmed)

/-! ### Text a splitter passes over -/

/-- From the depth `low` on, the text goes into the item being read as it stands. -/
def Within (low : Int) (text : List Char) : Prop :=
  ∀ depth ≥ low, ∀ current rest, splitFrom depth false false current (text ++ rest) =
    splitFrom depth false false (current ++ text) rest

section Within

variable {low high : Int} {text more : List Char}

theorem within_nil : Within low [] := by
  intro depth _ current rest
  simp

theorem Within.append (first : Within low text) (second : Within low more) :
    Within low (text ++ more) := by
  intro depth deep current rest
  rw [List.append_assoc, first depth deep, second depth deep, List.append_assoc]

theorem Within.mono (h : Within low text) (le : low ≤ high) : Within high text :=
  fun depth deep => h depth (le.trans deep)

theorem within_char {c : Char} (plain : c ≠ '"') (flat : ∀ depth, deepened depth c = depth)
    (comma : c = ',' → 0 < low) : Within low [c] := by
  intro depth deep current rest
  rw [List.singleton_append, splitFrom, flat]
  simp only [Bool.false_eq_true, if_false, Bool.false_and, plain]
  split
  next stops =>
    simp only [Bool.and_eq_true, decide_eq_true_eq] at stops
    have := comma stops.1
    omega
  · rfl

/-- Characters that neither quote, nest nor separate. -/
def isPlain (c : Char) : Bool := c ∉ ['"', ',', '\x7b', '\x7d', '[', ']', '(', ')']

theorem deepened_plain {c : Char} (plain : isPlain c = true) (depth : Int) :
    deepened depth c = depth := by
  simp only [isPlain, List.mem_cons, List.not_mem_nil, not_or, decide_eq_true_eq] at plain
  simp [deepened, plain]

theorem within_plain (plain : ∀ c ∈ text, isPlain c = true) : Within 0 text := by
  induction text with
  | nil => exact within_nil
  | cons c text ih =>
    have here := plain c List.mem_cons_self
    have first : Within 0 [c] := by
      apply within_char
      · rintro rfl
        revert here
        decide
      · exact deepened_plain here
      · rintro rfl
        revert here
        decide
    exact first.append (ih fun d hd => plain d (List.mem_cons_of_mem _ hd))

/-- Brackets make what stands between them one level deeper. -/
theorem within_brackets {opening closing : Char} (body : Within 1 text)
    (brackets : (opening, closing) ∈ [('\x7b', '\x7d'), ('[', ']')]) :
    Within 0 (opening :: text ++ [closing]) := by
  have facts : opening ≠ '"' ∧ opening ≠ ',' ∧ closing ≠ '"' ∧ closing ≠ ',' ∧
      (∀ depth, deepened depth opening = depth + 1) ∧
      ∀ depth, deepened depth closing = depth - 1 := by
    simp only [List.mem_cons, Prod.mk.injEq, List.not_mem_nil, or_false] at brackets
    rcases brackets with ⟨rfl, rfl⟩ | ⟨rfl, rfl⟩ <;> simp [deepened]
  obtain ⟨q1, s1, q2, s2, up, down⟩ := facts
  intro depth deep current rest
  rw [List.cons_append, List.cons_append, splitFrom, up]
  simp only [Bool.false_eq_true, if_false, Bool.false_and, q1, s1, decide_false]
  rw [List.append_assoc, body (depth + 1) (by omega), List.singleton_append, splitFrom, down]
  simp only [Bool.false_eq_true, if_false, Bool.false_and, q2, s2, decide_false]
  rw [show depth + 1 - 1 = depth by omega]
  simp

theorem splitFrom_escape (depth : Int) (c : Char) (current rest : List Char) :
    splitFrom depth true false current (escape c ++ rest) =
      splitFrom depth true false (current ++ escape c) rest := by
  unfold escape
  split_ifs with quote slash
  · simp [splitFrom]
  · simp [splitFrom]
  · simp [splitFrom, quote, slash]

theorem splitFrom_escaped (depth : Int) (current rest : List Char) :
    splitFrom depth true false current (text.flatMap escape ++ '"' :: rest) =
      splitFrom depth false false (current ++ text.flatMap escape ++ ['"']) rest := by
  induction text generalizing current with
  | nil =>
    rw [List.flatMap_nil, List.nil_append, splitFrom]
    simp
  | cons c text ih =>
    rw [List.flatMap_cons, List.append_assoc, splitFrom_escape, ih, List.append_assoc current]

theorem within_quote : Within 0 (quote text) := by
  intro depth deep current rest
  unfold quote
  rw [List.cons_append, List.cons_append, splitFrom]
  simp only [Bool.false_eq_true, if_false, Bool.false_and, if_true, Bool.not_false]
  rw [List.append_assoc, List.singleton_append, splitFrom_escaped]
  simp

end Within

/-! ### Items -/

/-- A text with no blank at either end. -/
def Framed (text : List Char) : Prop :=
  (∃ c, text.head? = some c ∧ isWhitespace c = false) ∧
    ∃ c, text.getLast? = some c ∧ isWhitespace c = false

section Items

variable {text : List Char}

theorem Framed.ne_nil (h : Framed text) : text ≠ [] := by
  rintro rfl
  obtain ⟨⟨c, first, -⟩, -⟩ := h
  cases first

theorem Framed.trimmed (h : Framed text) : trimmed text = text := by
  obtain ⟨⟨c, first, solid⟩, d, last, solid'⟩ := h
  unfold Canonical.trimmed
  have front : text.dropWhile isWhitespace = text := by
    cases text with
    | nil => rfl
    | cons a text =>
      cases first
      exact List.dropWhile_cons_of_neg (by simp [solid])
  rw [front, List.rdropWhile_eq_self_iff]
  intro ne blank
  rw [List.getLast?_eq_getLast_of_ne_nil ne] at last
  cases last
  rw [solid'] at blank
  cases blank

theorem Framed.trimmed_behind (h : Framed text) : Canonical.trimmed (' ' :: text) = text := by
  have front : (' ' :: text).dropWhile isWhitespace = text.dropWhile isWhitespace :=
    List.dropWhile_cons_of_pos (by decide)
  have whole := h.trimmed
  unfold Canonical.trimmed at whole ⊢
  rw [front, whole]

theorem framed_of_ends {c d : Char} {middle : List Char} (first : isWhitespace c = false)
    (last : isWhitespace d = false) : Framed (c :: middle ++ [d]) :=
  ⟨⟨c, rfl, first⟩, d, List.getLast?_concat, last⟩

/-- Texts that pass as they stand are the items of their list. -/
theorem splitFrom_joined {texts : List (List Char)} (passes : Within 0 text)
    (pass : ∀ t ∈ texts, Within 0 t) (current : List Char) :
    splitFrom 0 false false current (joined (text :: texts)) =
      (current ++ text) :: texts.map (' ' :: ·) := by
  induction texts generalizing text current with
  | nil =>
    have whole := passes 0 le_rfl current []
    rw [List.append_nil] at whole
    rw [joined, whole, splitFrom]
    rfl
  | cons t texts ih =>
    have separated : ∀ current rest, splitFrom 0 false false current (',' :: ' ' :: rest) =
        current :: splitFrom 0 false false [' '] rest := by
      intro current rest
      simp [splitFrom, deepened]
    rw [joined, passes 0 le_rfl, separated]
    · rw [ih (pass t List.mem_cons_self) (fun u hu => pass u (List.mem_cons_of_mem _ hu))]
      rfl
    · exact List.cons_ne_nil _ _

theorem splitItems_joined {texts : List (List Char)} (pass : ∀ t ∈ texts, Within 0 t)
    (framed : ∀ t ∈ texts, Framed t) : splitItems (joined texts) = texts := by
  cases texts with
  | nil => decide
  | cons text texts =>
    have head := framed text List.mem_cons_self
    have tail : (texts.map (' ' :: ·)).map trimmed = texts := by
      rw [List.map_map]
      refine (List.map_congr_left ?_).trans (List.map_id texts)
      intro t ht
      exact (framed t (List.mem_cons_of_mem _ ht)).trimmed_behind
    unfold splitItems
    rw [splitFrom_joined (pass text List.mem_cons_self)
      (fun t ht => pass t (List.mem_cons_of_mem _ ht)), List.nil_append, List.map_cons, tail,
      head.trimmed, List.filter_eq_self]
    intro t ht
    simpa using (framed t ht).ne_nil

theorem within_joined {texts : List (List Char)} (pass : ∀ t ∈ texts, Within 0 t) :
    Within 1 (joined texts) := by
  induction texts with
  | nil => exact within_nil
  | cons text texts ih =>
    have head := (pass text List.mem_cons_self).mono (show (0 : Int) ≤ 1 by omega)
    cases texts with
    | nil => exact head
    | cons t texts =>
      have comma : Within 1 [','] := by
        apply within_char (by decide) (fun depth => by simp [deepened])
        intro _
        omega
      have blank : Within 1 [' '] := by
        apply within_char (by decide) (fun depth => by simp [deepened])
        rintro ⟨⟩
      have rest := ih fun u hu => pass u (List.mem_cons_of_mem _ hu)
      exact head.append (comma.append (blank.append rest))

end Items

/-! ### Literals -/

/-- A nonempty word of letters, digits, `_`, `?` and `!`, or of letters outside ASCII: every Ruby
identifier is one. -/
def Word (name : List Char) : Prop :=
  name ≠ [] ∧ ∀ c ∈ name, c.isAlphanum = true ∨ c ∈ ['_', '?', '!'] ∨
    128 ≤ c.toNat ∧ isWhitespace c = false

/-- What the spelling is pinned for, at any nesting. -/
inductive Literal : Value → Prop
  | nil : Literal .nil
  | bool (b : Bool) : Literal (.bool b)
  | int (n : Int64) : Literal (.int n)
  | str (text : List Char) : Literal (.str text)
  | symbol {name : List Char} (word : Word name) : Literal (.symbol name)
  | hash {pairs : List (List Char × Value)} (words : ∀ pair ∈ pairs, Word pair.1)
      (values : ∀ pair ∈ pairs, Literal pair.2) : Literal (.hash pairs)
  | array {items : List Value} (values : ∀ item ∈ items, Literal item) : Literal (.array items)

theorem range_of_alphanum {c : Char} (h : c.isAlphanum = true) :
    48 ≤ c.toNat ∧ c.toNat ≤ 57 ∨ 65 ≤ c.toNat ∧ c.toNat ≤ 90 ∨ 97 ≤ c.toNat ∧ c.toNat ≤ 122 := by
  simp only [Char.isAlphanum, Char.isAlpha, Char.isUpper, Char.isLower, Char.isDigit,
    Bool.or_eq_true, Bool.and_eq_true, decide_eq_true_eq, ge_iff_le, UInt32.le_iff_toNat_le] at h
  change (48 ≤ c.toNat ∧ c.toNat ≤ 57) ∨ _
  rcases h with (h | h) | h
  · exact .inr (.inl h)
  · exact .inr (.inr h)
  · exact .inl h

theorem Word.solid {name : List Char} (word : Word name) {c : Char} (mem : c ∈ name) :
    isWhitespace c = false ∧ isPlain c = true ∧ c ≠ ':' := by
  have apart : ∀ {d : Char}, c.toNat ≠ d.toNat → c ≠ d := fun ne same => ne (congrArg _ same)
  rcases word.2 c mem with alphanum | mark | ⟨wide, solid⟩
  · have range := range_of_alphanum alphanum
    refine ⟨?_, ?_, apart ?_⟩
    · simp only [isWhitespace, Bool.or_eq_false_iff, Bool.and_eq_false_iff, decide_eq_false_iff_not,
        beq_eq_false_iff_ne]
      omega
    · simp only [isPlain, decide_eq_true_eq, List.mem_cons, List.not_mem_nil, or_false, not_or]
      refine ⟨apart ?_, apart ?_, apart ?_, apart ?_, apart ?_, apart ?_, apart ?_, apart ?_⟩ <;>
        simp only [Char.reduceToNat] <;> omega
    · simp only [Char.reduceToNat]
      omega
  · simp only [List.mem_cons, List.not_mem_nil, or_false] at mark
    rcases mark with rfl | rfl | rfl <;> decide
  · refine ⟨solid, ?_, apart ?_⟩
    · simp only [isPlain, decide_eq_true_eq, List.mem_cons, List.not_mem_nil, or_false, not_or]
      refine ⟨apart ?_, apart ?_, apart ?_, apart ?_, apart ?_, apart ?_, apart ?_, apart ?_⟩ <;>
        simp only [Char.reduceToNat] <;> omega
    · simp only [Char.reduceToNat]
      omega

/-! ### What the reader makes of one spelling -/

section Reading

variable {c : Char} {rest text : List Char}

theorem isInteger_marked (digit : c.isDigit = false) (sign : c ≠ '-') :
    isInteger (c :: rest) = false := by
  simp [isInteger, sign, digit]

theorem isFloat_marked (digit : c.isDigit = false) (sign : c ≠ '-') :
    isFloat (c :: rest) = false := by
  unfold isFloat
  simp only [List.head?_cons, Option.some.injEq, sign, if_false]
  cases h : Text.splitOnceChars ['.'] (c :: rest) with
  | none => rfl
  | some halves =>
    unfold Text.splitOnceChars at h
    split at h
    · cases h
      rfl
    · obtain ⟨⟨before, after⟩, -, same⟩ := Option.map_eq_some_iff.mp h
      cases same
      simp [digit]

/-- No number and no keyword starts with a mark. -/
theorem readScalar_marked (mark : c ∈ [':', '"', '\x7b', '[']) :
    readScalar (c :: rest) =
      if c = ':' then some (.symbol rest)
      else if c = '"' then
        match scanAdjacent (c :: rest) with
        | some (text, []) => some (.str text)
        | _ =>
            if between '"' '"' (c :: rest) then some (.str (unescapeDouble (inner (c :: rest))))
            else none
      else none := by
  have facts : c.isDigit = false ∧ c ≠ '-' ∧ c ≠ 'n' ∧ c ≠ 't' ∧ c ≠ 'f' ∧ c ≠ '\'' := by
    simp only [List.mem_cons, List.not_mem_nil, or_false] at mark
    rcases mark with rfl | rfl | rfl | rfl <;> decide
  obtain ⟨digit, sign, n, t, f, single⟩ := facts
  have words : ∀ word : List Char, word.head? ≠ some c → c :: rest ≠ word := by
    rintro word differs rfl
    exact differs rfl
  unfold readScalar
  rw [isInteger_marked digit sign, isFloat_marked digit sign]
  have notNil : c :: rest ≠ "nil".toList := words _ (by simpa using n.symm)
  have notTrue : c :: rest ≠ "true".toList := words _ (by simpa using t.symm)
  have notFalse : c :: rest ≠ "false".toList := words _ (by simpa using f.symm)
  simp only [List.isEmpty_cons, notNil, notTrue, notFalse, decide_false, Bool.or_false,
    Bool.false_eq_true, if_false]
  split
  next name same =>
    cases same
    simp
  next raw other =>
    have colon : c ≠ ':' := fun same => other rest (by rw [same])
    rw [if_neg colon]
    have unquoted : between '\'' '\'' (c :: rest) = false := by simp [between, single]
    simp only [unquoted, Bool.false_eq_true, if_false]
    by_cases quote : c = '"'
    · subst quote
      rfl
    · simp [quote, isQuote, single, between]

theorem closeQuote_escaped : closeQuote '"' (text.flatMap escape ++ '"' :: rest) =
    some (text.flatMap escape, rest) := by
  induction text with
  | nil => simp [closeQuote]
  | cons c text ih =>
    have step : closeQuote '"' (escape c ++ (text.flatMap escape ++ '"' :: rest)) =
        (closeQuote '"' (text.flatMap escape ++ '"' :: rest)).map fun closed =>
          (escape c ++ closed.1, closed.2) := by
      unfold escape
      split_ifs with quote slash
      · simp [closeQuote]
      · simp [closeQuote]
      · simp [closeQuote, quote, slash]
    rw [List.flatMap_cons, List.append_assoc, step, ih]
    rfl

theorem unescapeDouble_escaped : unescapeDouble (text.flatMap escape) = text := by
  induction text with
  | nil => simp [unescapeDouble]
  | cons c text ih =>
    have step : ∀ behind, unescapeDouble (escape c ++ behind) = c :: unescapeDouble behind := by
      intro behind
      unfold escape
      split_ifs with quote slash
      · rw [quote, List.cons_append, List.cons_append, unescapeDouble]
        rfl
      · rw [slash, List.cons_append, List.cons_append, unescapeDouble]
        rfl
      · rw [List.cons_append, unescapeDouble]
        · rfl
        · exact fun same _ => slash same
        · exact fun _ _ same _ => slash same
    rw [List.flatMap_cons, step, ih]

theorem readScalar_quote : readScalar (quote text) = some (.str text) := by
  have scanned : scanAdjacent (quote text) = some (text, []) := by
    unfold quote
    rw [List.cons_append, scanAdjacent]
    rw [closeQuote_escaped]
    simp [isQuote, unescapeDouble_escaped]
  have marked := @readScalar_marked '"' (text.flatMap escape ++ ['"']) (by decide)
  have whole : '"' :: (text.flatMap escape ++ ['"']) = quote text := rfl
  rw [whole, scanned] at marked
  exact marked

theorem isInteger_toString (i : Int) : isInteger (toString i).toList = true := by
  have digits : ∀ c ∈ Nat.toDigits 10 i.natAbs, c.isDigit = true := by
    intro c hc
    exact Nat.isDigit_of_mem_toDigits (by norm_num) (by norm_num) hc
  have ne : Nat.toDigits 10 i.natAbs ≠ [] := Nat.toDigits_ne_nil
  rw [Decimal.toString_int]
  unfold isInteger Decimal.signed
  cases decide (i < 0) with
  | true => simpa [ne] using digits
  | false =>
    have unsigned : (Nat.toDigits 10 i.natAbs).head? ≠ some '-' := by
      intro first
      have := digits '-' (List.mem_of_mem_head? first)
      revert this
      decide
    simpa [ne, unsigned] using digits

theorem toString_chars (i : Int) : ∀ c ∈ (toString i).toList, c.isDigit = true ∨ c = '-' := by
  intro c mem
  rw [Decimal.toString_int] at mem
  unfold Decimal.signed at mem
  have digit : c ∈ Nat.toDigits 10 i.natAbs → c.isDigit = true :=
    fun mem => Nat.isDigit_of_mem_toDigits (by norm_num) (by norm_num) mem
  split at mem
  · rcases List.mem_cons.mp mem with sign | mem
    · exact .inr sign
    · exact .inl (digit mem)
  · exact .inl (digit mem)

theorem readScalar_toString (n : Int64) :
    readScalar (toString n.toInt).toList = some (.int n) := by
  have word : ∀ keyword : List Char, (∃ c ∈ keyword, c.isDigit = false ∧ c ≠ '-') →
      (toString n.toInt).toList ≠ keyword := by
    rintro keyword ⟨c, mem, digit, sign⟩ rfl
    rcases toString_chars n.toInt c mem with h | h
    · rw [digit] at h
      cases h
    · exact sign h
  have filled : (toString n.toInt).toList.isEmpty = false := by
    cases h : (toString n.toInt).toList with
    | nil =>
      have := isInteger_toString n.toInt
      rw [h] at this
      cases this
    | cons c cs => rfl
  have notNil := word "nil".toList ⟨'n', by decide, by decide, by decide⟩
  have notTrue := word "true".toList ⟨'t', by decide, by decide, by decide⟩
  have notFalse := word "false".toList ⟨'f', by decide, by decide, by decide⟩
  unfold readScalar
  simp only [filled, notNil, notTrue, notFalse, isInteger_toString, String.ofList_toList,
    Decimal.parseI64_toString, decide_false, Bool.or_false, Bool.false_eq_true, if_false, if_true]

end Reading

/-! ### Every spelling is read back -/

/-- The spelling of the value passes through a list as it stands, and reads as the value. -/
structure Spelled (value : Value) : Prop where
  within : Within 0 (render value)
  framed : Framed (render value)
  reads : read (render value) = value

theorem renderItems_eq (items : List Value) : renderItems items = items.map render := by
  induction items with
  | nil => rfl
  | cons item items ih => rw [renderItems, ih, List.map_cons]

theorem renderPairs_eq (pairs : List (List Char × Value)) :
    renderPairs pairs = pairs.map fun pair => pair.1 ++ ':' :: ' ' :: render pair.2 := by
  induction pairs with
  | nil => rfl
  | cons pair pairs ih =>
    obtain ⟨key, held⟩ := pair
    rw [renderPairs, ih, List.map_cons]

theorem reads_scalar {value : Value} (framed : Framed (render value))
    (scalar : readScalar (render value) = some value) : read (render value) = value := by
  rw [read_eq, framed.trimmed, scalar]

theorem framed_of_solid {text : List Char} (ne : text ≠ [])
    (solid : ∀ c ∈ text, isWhitespace c = false) : Framed text := by
  constructor
  · exact ⟨text.head ne, List.head?_eq_some_head ne, solid _ (List.head_mem ne)⟩
  · exact ⟨text.getLast ne, List.getLast?_eq_getLast_of_ne_nil ne, solid _ (List.getLast_mem ne)⟩

theorem Word.framed {name : List Char} (word : Word name) : Framed name :=
  framed_of_solid word.1 fun _ mem => (word.solid mem).1

/-- A spelling of plain characters without a blank. -/
theorem spelled_plain {value : Value} (ne : render value ≠ [])
    (chars : (render value).all (fun c => !isWhitespace c && isPlain c) = true)
    (scalar : readScalar (render value) = some value) : Spelled value := by
  have each : ∀ c ∈ render value, isWhitespace c = false ∧ isPlain c = true := by
    intro c mem
    simpa using List.all_eq_true.mp chars c mem
  have framed := framed_of_solid ne fun c mem => (each c mem).1
  exact ⟨within_plain fun c mem => (each c mem).2, framed, reads_scalar framed scalar⟩

theorem splitPair_pair {key held : List Char} (word : Word key) :
    splitPair (key ++ ':' :: held) = (key, held) := by
  have split : Text.splitOnceChars [':'] (key ++ ':' :: held) = some (key, held) := by
    have clear : ∀ c ∈ key, c ≠ ':' := fun c mem => (word.solid mem).2.2
    clear word
    induction key with
    | nil => simp [Text.splitOnceChars]
    | cons c key ih =>
      have here := clear c List.mem_cons_self
      rw [List.cons_append, Text.splitOnceChars, ih fun d hd => clear d (List.mem_cons_of_mem _ hd)]
      simp [Ne.symm here]
  unfold splitPair
  rw [split, Option.getD_some]

theorem between_brackets {opening closing : Char} {body : List Char} :
    between opening closing (opening :: body ++ [closing]) = true ∧
      inner (opening :: body ++ [closing]) = body := by
  have last : (opening :: body ++ [closing]).getLast? = some closing := List.getLast?_concat
  constructor
  · unfold between
    rw [last]
    simp
  · simp [inner]

theorem framed_brackets {opening closing : Char} {body : List Char}
    (brackets : (opening, closing) ∈ [('\x7b', '\x7d'), ('[', ']')]) :
    Framed (opening :: body ++ [closing]) := by
  simp only [List.mem_cons, Prod.mk.injEq, List.not_mem_nil, or_false] at brackets
  rcases brackets with ⟨rfl, rfl⟩ | ⟨rfl, rfl⟩
  · exact framed_of_ends (by decide) (by decide)
  · exact framed_of_ends (by decide) (by decide)

theorem spelled_array {items : List Value} (each : ∀ item ∈ items, Spelled item) :
    Spelled (.array items) := by
  have texts : ∀ t ∈ items.map render, ∃ item ∈ items, render item = t :=
    fun t ht => List.mem_map.mp ht
  have pass : ∀ t ∈ items.map render, Within 0 t := by
    intro t ht
    obtain ⟨item, mem, rfl⟩ := texts t ht
    exact (each item mem).within
  have framed : ∀ t ∈ items.map render, Framed t := by
    intro t ht
    obtain ⟨item, mem, rfl⟩ := texts t ht
    exact (each item mem).framed
  have whole : render (.array items) = '[' :: joined (items.map render) ++ [']'] := by
    rw [render, renderItems_eq]
  have brackets : ('[', ']') ∈ [('\x7b', '\x7d'), ('[', ']')] := by decide
  constructor
  · rw [whole]
    exact within_brackets (within_joined pass) brackets
  · rw [whole]
    exact framed_brackets brackets
  · obtain ⟨stands, body⟩ := @between_brackets '[' ']' (joined (items.map render))
    have scalar : readScalar ('[' :: joined (items.map render) ++ [']']) = none :=
      readScalar_marked (by decide)
    have hash : between '\x7b' '\x7d' ('[' :: joined (items.map render) ++ [']']) = false := by
      simp [between]
    rw [whole, read_eq, (framed_brackets brackets).trimmed, scalar]
    simp only [hash, stands, body, Bool.false_eq_true, if_false, if_true,
      splitItems_joined pass framed, List.map_map]
    refine congrArg Value.array ((List.map_congr_left ?_).trans (List.map_id items))
    intro item mem
    have spelled := each item mem
    change read (trimmed (render item)) = item
    rw [spelled.framed.trimmed, spelled.reads]

theorem spelled_hash {pairs : List (List Char × Value)} (words : ∀ pair ∈ pairs, Word pair.1)
    (each : ∀ pair ∈ pairs, Spelled pair.2) : Spelled (.hash pairs) := by
  let spell := fun pair : List Char × Value => pair.1 ++ ':' :: ' ' :: render pair.2
  have texts : ∀ t ∈ pairs.map spell, ∃ pair ∈ pairs, spell pair = t :=
    fun t ht => List.mem_map.mp ht
  have pass : ∀ t ∈ pairs.map spell, Within 0 t := by
    intro t ht
    obtain ⟨pair, mem, rfl⟩ := texts t ht
    have key : Within 0 pair.1 := within_plain fun c hc => ((words pair mem).solid hc).2.1
    have colon : Within 0 [':', ' '] := by
      apply within_plain
      intro c hc
      simp only [List.mem_cons, List.not_mem_nil, or_false] at hc
      rcases hc with rfl | rfl <;> decide
    have held := (each pair mem).within
    exact key.append (colon.append held)
  have framed : ∀ t ∈ pairs.map spell, Framed t := by
    intro t ht
    obtain ⟨pair, mem, rfl⟩ := texts t ht
    obtain ⟨⟨c, first, solid⟩, -⟩ := (words pair mem).framed
    obtain ⟨-, d, last, solid'⟩ := (each pair mem).framed
    constructor
    · refine ⟨c, ?_, solid⟩
      rw [List.head?_append, first]
      rfl
    · refine ⟨d, ?_, solid'⟩
      rw [List.getLast?_append, List.getLast?_cons_cons, List.getLast?_cons, last]
      rfl
  have whole : render (.hash pairs) = '\x7b' :: joined (pairs.map spell) ++ ['\x7d'] := by
    rw [render, renderPairs_eq]
  have brackets : ('\x7b', '\x7d') ∈ [('\x7b', '\x7d'), ('[', ']')] := by decide
  constructor
  · rw [whole]
    exact within_brackets (within_joined pass) brackets
  · rw [whole]
    exact framed_brackets brackets
  · obtain ⟨stands, body⟩ := @between_brackets '\x7b' '\x7d' (joined (pairs.map spell))
    have scalar : readScalar ('\x7b' :: joined (pairs.map spell) ++ ['\x7d']) = none :=
      readScalar_marked (by decide)
    rw [whole, read_eq, (framed_brackets brackets).trimmed, scalar]
    simp only [stands, body, if_true, splitItems_joined pass framed, List.map_map]
    refine congrArg Value.hash ((List.map_congr_left ?_).trans (List.map_id pairs))
    intro pair mem
    have spelled := each pair mem
    change (trimmed (splitPair (pair.1 ++ ':' :: ' ' :: render pair.2)).1,
      read (trimmed (splitPair (pair.1 ++ ':' :: ' ' :: render pair.2)).2)) = pair
    rw [splitPair_pair (words pair mem)]
    dsimp only
    rw [(words pair mem).framed.trimmed, spelled.framed.trimmed_behind, spelled.reads]

theorem Literal.spelled {value : Value} (literal : Literal value) : Spelled value := by
  induction literal with
  | nil => exact spelled_plain (List.cons_ne_nil _ _) rfl rfl
  | bool b =>
    cases b with
    | true => exact spelled_plain (List.cons_ne_nil _ _) rfl rfl
    | false => exact spelled_plain (List.cons_ne_nil _ _) rfl rfl
  | int n =>
    apply spelled_plain
    · intro empty
      have := isInteger_toString n.toInt
      rw [show (toString n.toInt).toList = [] from empty] at this
      cases this
    · rw [List.all_eq_true]
      intro c mem
      rcases toString_chars n.toInt c mem with digit | rfl
      · have alphanum : c.isAlphanum = true := by simp [Char.isAlphanum, digit]
        have word : Word [c] := ⟨List.cons_ne_nil _ _, fun d hd => by
          rw [List.mem_singleton.mp hd]
          exact .inl alphanum⟩
        obtain ⟨solid, plain, -⟩ := word.solid List.mem_cons_self
        simp [solid, plain]
      · decide
    · exact readScalar_toString n
  | str text =>
    have framed : Framed (render (.str text)) := framed_of_ends (by decide) (by decide)
    refine ⟨within_quote, framed, ?_⟩
    exact reads_scalar framed readScalar_quote
  | @symbol name word =>
    refine spelled_plain (List.cons_ne_nil _ _) ?_ (readScalar_marked (by decide))
    rw [List.all_eq_true]
    intro c mem
    rcases List.mem_cons.mp mem with rfl | mem
    · decide
    · simp [(word.solid mem).1, (word.solid mem).2.1]
  | hash words _ each => exact spelled_hash words each
  | array _ each => exact spelled_array each

/-- A literal is read back from its spelling, at any nesting. -/
theorem read_render (value : Value) (literal : Literal value) : read (render value) = value :=
  literal.spelled.reads

/-- A hash over a quoted text full of separators, a list, and the lowest number. -/
def nestedLiteral : Value :=
  .hash [("note".toList, .str "a, \"b\": [c\\]\n".toList),
    ("rows".toList, .array [.symbol "open".toList, .nil, .hash [], .int Int64.minValue])]

theorem nestedLiteral_literal : Literal nestedLiteral := by
  have word : ∀ name ∈ ["note".toList, "rows".toList, "open".toList], Word name := by
    intro name mem
    have letters : name ≠ [] ∧ name.all Char.isAlphanum = true := by
      simp only [List.mem_cons, List.not_mem_nil, or_false] at mem
      rcases mem with rfl | rfl | rfl <;> exact ⟨List.cons_ne_nil _ _, rfl⟩
    exact ⟨letters.1, fun c inside => .inl (List.all_eq_true.mp letters.2 c inside)⟩
  have empty : Literal (.hash []) := .hash (by simp) (by simp)
  have rows : Literal (.array [.symbol "open".toList, .nil, .hash [], .int Int64.minValue]) := by
    apply Literal.array
    intro item mem
    simp only [List.mem_cons, List.not_mem_nil, or_false] at mem
    rcases mem with rfl | rfl | rfl | rfl
    · exact .symbol (word _ (by simp))
    · exact .nil
    · exact empty
    · exact .int _
  apply Literal.hash
  · intro pair mem
    simp only [List.mem_cons, List.not_mem_nil, or_false] at mem
    rcases mem with rfl | rfl
    · exact word _ (by simp)
    · exact word _ (by simp)
  · intro pair mem
    simp only [List.mem_cons, List.not_mem_nil, or_false] at mem
    rcases mem with rfl | rfl
    · exact .str _
    · exact rows

theorem nestedLiteral_read : read (render nestedLiteral) = nestedLiteral :=
  read_render nestedLiteral nestedLiteral_literal

end Hecks.Parser.RubyValue
