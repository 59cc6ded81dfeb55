import Hecks.Json.Accepts
import Hecks.Json.Writer
import Hecks.Lib.Delimited
import Hecks.Lib.FloatOrder

/-! What the text of a value reads back as, whatever follows it, and which texts the reader
refuses. -/
open Reading Hecks.Json.Parser Hecks.Json.Grammar

namespace Hecks.Json

section

variable {escapes : Char → Bool} {cs rest : List Char}

/-! ### Strings -/

theorem fromStrRadix16_hex4 {n : Nat} (h : n < 32) :
    Text.fromStrRadix16 (hex4 n) = some n ∧ (hex4 n).length = 4 := by
  have all : ∀ n : Fin 32, Text.fromStrRadix16 (hex4 n) = some n.val ∧ (hex4 n).length = 4 := by
    decide
  exact all ⟨n, h⟩

theorem scalarOr_toNat (c : Char) : scalarOr c.toNat = c := by
  have valid : c.toNat.isValidChar := c.valid
  unfold scalarOr
  rw [if_pos valid, Char.ofNat_toNat]

/-- The text of a character reads as the character. -/
theorem reads_writeEscapedChar {c : Char} {t : List Char}
    (h : Reads (stringBody escapes cs) t rest) :
    Reads (stringBody escapes (writeEscapedChar c ++ cs)) (c :: t) rest := by
  have short : ∀ e c : Char, e ≠ 'u' → shortEscape e = some c →
      Reads (stringBody escapes ('\\' :: e :: cs)) (c :: t) rest := by
    intro e c notU found
    exact (reads_stringBody_short notU).mpr ⟨c, found, t, h, rfl⟩
  by_cases quote : c = '"'
  · subst quote
    exact short '"' '"' (by decide) rfl
  by_cases slash : c = '\\'
  · subst slash
    exact short '\\' '\\' (by decide) rfl
  by_cases newline : c = '\n'
  · subst newline
    exact short 'n' '\n' (by decide) rfl
  by_cases tab : c = '\t'
  · subst tab
    exact short 't' '\t' (by decide) rfl
  by_cases carriage : c = '\r'
  · subst carriage
    exact short 'r' '\r' (by decide) rfl
  by_cases backspace : c = '\x08'
  · subst backspace
    exact short 'b' '\x08' (by decide) rfl
  by_cases feed : c = '\x0c'
  · subst feed
    exact short 'f' '\x0c' (by decide) rfl
  have step : writeEscapedChar c =
      if c.toNat < 0x20 then '\\' :: 'u' :: hex4 c.toNat else [c] := by
    rw [writeEscapedChar] <;> assumption
  rw [step]
  by_cases control : c.toNat < 0x20
  · rw [if_pos control]
    obtain ⟨code, four⟩ := fromStrRadix16_hex4 control
    have text : hexText (hex4 c.toNat ++ cs) = hex4 c.toNat := by
      unfold hexText
      rw [List.take_left' four, Nat.sub_eq_zero_of_le (by rw [List.length_append]; omega)]
      simp
    have drop : (hex4 c.toNat ++ cs).drop 4 = cs := List.drop_left' four
    refine reads_stringBody_unicode.mpr ⟨c.toNat, ?_, t, ?_, ?_⟩
    · exact (congrArg Text.fromStrRadix16 text).trans code
    · have : Reads (stringBody escapes ((hex4 c.toNat ++ cs).drop 4)) t rest := by rwa [drop]
      exact this
    · rw [scalarOr_toNat]
  · rw [if_neg control]
    exact (reads_stringBody_plain quote slash).mpr ⟨t, h, rfl⟩

theorem reads_escaped (s : List Char) :
    Reads (stringBody escapes (s.flatMap writeEscapedChar ++ '"' :: rest)) s rest := by
  induction s with
  | nil => exact reads_stringBody_quote.mpr ⟨rfl, rfl⟩
  | cons c s ih =>
    rw [List.flatMap_cons, List.append_assoc]
    exact reads_writeEscapedChar ih

theorem reads_writeEscapedString (s : String) :
    Reads (parseString escapes (writeEscapedString s ++ rest)) s rest := by
  refine reads_parseString.mpr ⟨s.toList.flatMap writeEscapedChar ++ '"' :: rest, s.toList, ?_,
    reads_escaped s.toList, ?_⟩
  · simp [writeEscapedString]
  · rw [String.ofList_toList]

theorem writeEscapedString_at (s : String) : Delimited.At writeEscapedString s := by
  intro t rest rest' same
  have read : ∀ u left, Reads (parseString (fun _ => false) (writeEscapedString u ++ left)) u left :=
    fun u _ => reads_writeEscapedString u
  have first := read s rest
  rw [same] at first
  exact first.unique (read t rest')

/-! ### Integers -/

/-- The digits of an integer as a number of the grammar. -/
def integer (i : Int64) : Numeral :=
  ⟨decide (i.toInt < 0), Nat.toDigits 10 i.toInt.natAbs, none, none⟩

theorem integer_text (i : Int64) : (integer i).text = (toString i.toInt).toList := by
  rw [Decimal.toString_int]
  unfold Numeral.text integer Decimal.signed
  by_cases neg : i.toInt < 0
  · simp [neg, Numeral.fractionText, Numeral.exponentText]
  · simp [neg, Numeral.fractionText, Numeral.exponentText]

theorem integer_loose (i : Int64) : (integer i).Loose := by
  have digits : ∀ c ∈ (integer i).whole, isDigit c := by
    intro c hc
    rw [isDigit_eq]
    exact Nat.isDigit_of_mem_toDigits (by norm_num) (by norm_num) hc
  have nonempty : (integer i).whole ≠ [] := Nat.toDigits_ne_nil
  exact ⟨⟨digits, by simp [integer], by simp [integer]⟩, .inr nonempty, .inl nonempty,
    by simp [integer]⟩

/-- What an integer reads back as: its digits are kept unless the `f64` prints them. -/
def reread (i : Int64) : Json :=
  num (Float.Model.ofInt64 i)
    (if canonicalIntegerDigits (Float.Model.ofInt64 i) != toString i.toInt then
      some (toString i.toInt) else none)

theorem canonical_ne {f : Float.Model} (i : Int64) (h : f.isFinite = false) :
    canonicalIntegerDigits f ≠ toString i.toInt := by
  intro same
  have wf := (integer_loose i).toWellFormed
  have letter := canonical_of_not_finite h
  rw [same, ← integer_text] at letter
  rcases letter with mem | mem
  · exact not_mem_text wf (by decide) (by decide) mem
  · exact not_mem_text wf (by decide) (by decide) mem

theorem numberValue_integer (i : Int64) :
    numberValue escapes false (toString i.toInt).toList = .ok (reread i) := by
  have plain := (contains_text (integer_loose i).toWellFormed).mpr ⟨rfl, rfl⟩
  rw [integer_text] at plain
  unfold numberValue
  rw [String.ofList_toList, Decimal.parse_toString_int64]
  simp only [plain, Bool.true_and, Bool.false_or]
  cases finite : (Float.Model.ofInt64 i).isFinite with
  | true => rfl
  | false =>
    have differs : (canonicalIntegerDigits (Float.Model.ofInt64 i) != toString i.toInt) = true := by
      simpa using canonical_ne i finite
    simp only [reread, differs]
    rfl

theorem reads_numeral {t : Numeral} {v : Json} (loose : t.Loose)
    (value : numberValue escapes false t.text = .ok v) (d : Nat) (follows : Follows rest) :
    Reads (parseValue escapes false d (t.text ++ rest)) v rest := by
  obtain ⟨c, body, eq, first⟩ := loose.text_first rest
  have text := numberText_text loose follows.stops
  rw [eq]
  have skip : skipWs (c :: body) = c :: body := by simp [skipWs, not_space_of_digit first]
  refine (reads_value skip).mpr ((starts_number first).mpr (reads_parseNumber.mpr ?_))
  rw [← eq, text]
  exact ⟨value, rfl⟩

theorem reads_integer (d : Nat) (i : Int64) (follows : Follows rest) :
    Reads (parseValue escapes false d ((toString i.toInt).toList ++ rest)) (reread i) rest := by
  rw [← integer_text]
  apply reads_numeral (integer_loose i) _ d follows
  rw [integer_text]
  exact numberValue_integer i

end

/-! ### Numbers -/

/-- Digits as the numeral they are. -/
def decimal (neg : Bool) (whole fraction : List Char) : Numeral :=
  ⟨neg, whole, if fraction.isEmpty then none else some fraction, none⟩

section

variable {neg : Bool} {whole fraction : List Char} {n : Float.Model}

theorem decimal_text :
    (decimal neg whole fraction).text = Decimal.signed neg (Decimal.numeral whole fraction) := by
  unfold decimal Numeral.text Numeral.fractionText Numeral.exponentText Decimal.signed
    Decimal.numeral
  cases neg <;> cases fraction <;> simp

theorem decimal_loose (hw : ∀ c ∈ whole, c.isDigit) (hf : ∀ c ∈ fraction, c.isDigit)
    (nonempty : whole ≠ []) : (decimal neg whole fraction).Loose := by
  refine ⟨⟨?_, ?_, ?_⟩, .inr nonempty, .inl nonempty, ?_⟩
  · intro c hc
    rw [isDigit_eq]
    exact hw c hc
  · intro ds hds c hc
    rw [isDigit_eq]
    unfold decimal at hds
    cases fraction with
    | nil => simp at hds
    | cons d fraction =>
      simp at hds
      exact hf c (hds ▸ hc)
  · simp [decimal]
  · simp [decimal]

end

/-! ### Values -/

/-- A number the reader makes of a text. -/
def FromText (n : Float.Model) (raw : Option String) : Prop :=
  ∃ escapes t, Numeral.Loose t ∧ numberValue escapes false t.text = .ok (.num n raw)

/-- The `f64` with no sign on a zero. -/
def unsigned (n : Float.Model) : Float.Model :=
  match n.unpack with
  | .zero _ => Float.Model.ofInt64 0
  | _ => n

/-- What the text of a number reads back as. -/
def rewritten (n : Float.Model) (raw : Option String) : Json :=
  num (if raw.isSome then n else unsigned n) raw

/-- The values the kernel holds: its own integers and declared floats, the numbers it has read,
strings, booleans, null, arrays and objects. -/
inductive Held where
  | null
  | bool (b : Bool)
  | int (i : Int64)
  | float (n : Float.Model)
  | number (n : Float.Model) (raw : Option String) (read : FromText n raw)
  | str (s : String)
  | array (items : List Held)
  | object (fields : List (String × Held))

namespace Held

mutual

def json : Held → Json
  | null => .null
  | bool b => .bool b
  | int i => .int i
  | float n => .float n
  | number n raw _ => .num n raw
  | str s => .str s
  | array items => .array (jsons items)
  | object fields => .object (jsonFields fields)

def jsons : List Held → List Json
  | [] => []
  | x :: xs => x.json :: jsons xs

def jsonFields : List (String × Held) → List (String × Json)
  | [] => []
  | (k, x) :: fields => (k, x.json) :: jsonFields fields

end

mutual

/-- How deeply arrays and objects nest. -/
def depth : Held → Nat
  | array items => depths items + 1
  | object fields => depthFields fields + 1
  | _ => 0

def depths : List Held → Nat
  | [] => 0
  | x :: xs => max x.depth (depths xs)

def depthFields : List (String × Held) → Nat
  | [] => 0
  | (_, x) :: fields => max x.depth (depthFields fields)

end

mutual

/-- Every declared float is finite. -/
def Finite : Held → Prop
  | float n => n.isFinite = true
  | array items => FiniteItems items
  | object fields => FiniteFields fields
  | _ => True

def FiniteItems : List Held → Prop
  | [] => True
  | x :: xs => x.Finite ∧ FiniteItems xs

def FiniteFields : List (String × Held) → Prop
  | [] => True
  | (_, x) :: fields => x.Finite ∧ FiniteFields fields

end

mutual

/-- What the text of a value reads back as: a declared float is any number with a point. -/
def again : Held → Json
  | null => .null
  | bool b => .bool b
  | int i => reread i
  | float n => .num n none
  | number n raw _ => rewritten n raw
  | str s => .str s
  | array items => .array (agains items)
  | object fields => .object (againFields fields)

def agains : List Held → List Json
  | [] => []
  | x :: xs => x.again :: agains xs

def againFields : List (String × Held) → List (String × Json)
  | [] => []
  | (k, x) :: fields => (k, x.again) :: againFields fields

end

end Held

section

variable {escapes : Char → Bool} {rest : List Char}

theorem follows_closing {c : Char} (h : c ∈ [']', '\x7d', ',']) (rest : List Char) :
    Follows (c :: rest) := by
  apply follows_of_spaces (spaces_refl _)
  intro d head
  simp only [List.head?_cons, Option.some.injEq] at head
  exact head ▸ h

theorem follows_nil : Follows [] := by
  intro c head
  cases head

theorem skipWs_write {c : Char} (cs : List Char) (h : Text.isWhitespace c = false) :
    skipWs (c :: cs) = c :: cs := by
  simp [skipWs, h]

/-- A list whose loop reads is not closed at once. -/
theorem reads_parseArrayBody_of_items {d : Nat} {cs rest : List Char} {vs : List Json}
    (h : Reads (parseItems escapes false d cs) vs rest) :
    Reads (parseArrayBody escapes false d cs) vs rest := by
  refine reads_parseArrayBody.mpr (.inr ⟨?_, h⟩)
  intro body close
  obtain ⟨v, after, read, -⟩ := reads_parseItems.mp h
  have := ((reads_value close).mp read).first
  simp [isDigit, Text.digit?] at this

theorem reads_parseObjectBody_of_fields {d : Nat} {cs rest : List Char}
    {fs : List (String × Json)} (h : Reads (parseFields escapes false d cs) fs rest) :
    Reads (parseObjectBody escapes false d cs) fs rest := by
  refine reads_parseObjectBody.mpr (.inr ⟨?_, h⟩)
  intro body close
  obtain ⟨key, afterKey, _, v, after, readKey, -⟩ := reads_parseFields.mp h
  obtain ⟨_, _, quote, -⟩ := reads_parseString.mp readKey
  rw [close] at quote
  cases quote

/-- A key reads back up to its colon. -/
theorem reads_key (k : String) (body : List Char) :
    Reads (parseString escapes (skipWs (writeEscapedString k ++ ':' :: body))) k (':' :: body) ∧
      skipWs (':' :: body) = ':' :: body := by
  have quote : skipWs (writeEscapedString k ++ ':' :: body) =
      writeEscapedString k ++ ':' :: body := skipWs_write _ (by decide)
  rw [quote]
  exact ⟨reads_writeEscapedString k, skipWs_write _ (by decide)⟩

/-- A list of two items or more: the first one's text, a comma, and the text of the others. -/
theorem items_text (x y : Held) (ys : List Held) (rest : List Char) :
    writeItems true (Held.jsons (x :: y :: ys)) ++ ']' :: rest =
      write x.json ++ ',' :: (writeItems true (Held.jsons (y :: ys)) ++ ']' :: rest) := by
  simp [Held.jsons, writeItems]

theorem fields_text (k : String) (x : Held) (f : String × Held) (fs : List (String × Held))
    (rest : List Char) :
    writeFields true (Held.jsonFields ((k, x) :: f :: fs)) ++ '\x7d' :: rest =
      writeEscapedString k ++ ':' :: (write x.json ++
        ',' :: (writeFields true (Held.jsonFields (f :: fs)) ++ '\x7d' :: rest)) := by
  obtain ⟨l, y⟩ := f
  simp [Held.jsonFields, writeFields]

variable (escapes) in
/-- The text of a finite float is a number with a point. -/
theorem writeFloat_numeral {n : Float.Model} (finite : n.isFinite = true) :
    ∃ t : Numeral, t.Loose ∧ writeFloat n = t.text ∧
      numberValue escapes false t.text = .ok (.num n none) := by
  obtain ⟨neg, whole, fraction, text, digits, more, nonempty, parsed⟩ :=
    Decimal.display_numeral finite
  obtain ⟨lower, upper⟩ := Decimal.display_no_exponent finite
  have list : (Binary64.display n).toList = Decimal.signed neg (Decimal.numeral whole fraction) := by
    rw [text, String.toList_ofList]
  have noPoint : '.' ∉ whole := by
    intro mem
    have := digits '.' mem
    cases this
  have written : ∃ ds, (∀ c ∈ ds, c.isDigit) ∧
      writeFloat n = Decimal.signed neg (whole ++ '.' :: ds) ∧
        Binary64.parse (String.ofList (writeFloat n)) = some n := by
    by_cases point : '.' ∈ (Binary64.display n).toList
    · have same : writeFloat n = (Binary64.display n).toList := by simp [writeFloat, point]
      refine ⟨fraction, more, ?_, ?_⟩
      · rw [list] at point
        cases fraction with
        | nil => cases neg <;> simp [Decimal.signed, Decimal.numeral, noPoint] at point
        | cons c cs => rw [same, list, Decimal.numeral, if_neg (by simp)]
      · rw [same, String.ofList_toList, parsed]
    · have same : writeFloat n = (Binary64.display n).toList ++ ['.', '0'] := by
        simp [writeFloat, point, lower, upper]
      refine ⟨['0'], by simp, ?_, ?_⟩
      · rw [list] at point
        cases fraction with
        | nil =>
          rw [same, list, Decimal.numeral]
          cases neg <;> simp [Decimal.signed]
        | cons c cs => cases neg <;> simp [Decimal.signed, Decimal.numeral] at point
      · rw [same]
        exact Decimal.parse_display_point finite point
  obtain ⟨ds, digits', shape, value⟩ := written
  have wf : (Numeral.mk neg whole (some ds) none).Loose := by
    refine ⟨⟨?_, ?_, by simp⟩, .inr nonempty, .inl nonempty, by simp⟩
    · intro c hc
      rw [isDigit_eq]
      exact digits c hc
    · intro es hes c hc
      cases hes
      rw [isDigit_eq]
      exact digits' c hc
  have same : writeFloat n = (Numeral.mk neg whole (some ds) none).text := by
    rw [shape]
    cases neg <;> simp [Decimal.signed, Numeral.text, Numeral.fractionText, Numeral.exponentText]
  refine ⟨_, wf, same, ?_⟩
  have point : (Numeral.mk neg whole (some ds) none).text.contains '.' = true := by
    cases neg <;> simp [Numeral.text, Numeral.fractionText]
  rw [← same] at point ⊢
  simp only [numberValue, value, point, finite]
  rfl

theorem writeFloat_infinite {n : Float.Model} (infinite : n.isFinite = false) :
    writeFloat n = "NaN.0".toList ∨ writeFloat n = "inf.0".toList ∨
      writeFloat n = "-inf.0".toList := by
  unfold Float.Model.isFinite at infinite
  unfold writeFloat Binary64.display
  split <;> simp_all [Float.Model.UnpackedFloat.isFinite]

/-- The text of a float that is not finite is no value's. -/
theorem not_reads_writeFloat {n : Float.Model} (infinite : n.isFinite = false) {d : Nat} {v : Json}
    {after : List Char} : ¬ Reads (parseValue escapes false d (writeFloat n ++ rest)) v after := by
  intro read
  rcases writeFloat_infinite infinite with text | text | text
  · rw [text] at read
    have first := ((reads_value (skipWs_write _ (by decide))).mp read).first
    revert first
    decide
  · rw [text] at read
    have first := ((reads_value (skipWs_write _ (by decide))).mp read).first
    revert first
    decide
  · rw [text] at read
    have number := (starts_number (.inl rfl)).mp ((reads_value (skipWs_write _ (by decide))).mp read)
    obtain ⟨found, -⟩ := reads_parseNumber.mp number
    have sign : (numberText ('-' :: ("inf.0".toList ++ rest))).1 = ['-'] := rfl
    have refused : (numberValue escapes false ['-']).toOption = none := rfl
    have taken := (congrArg (numberValue escapes false) sign).symm.trans found
    rw [taken] at refused
    cases refused

/-- Which numbers the reader makes does not depend on how it words its refusals. -/
theorem numberValue_ok (other : Char → Bool) {s : List Char} {v : Json}
    (read : numberValue escapes false s = .ok v) : numberValue other false s = .ok v := by
  unfold numberValue at read ⊢
  cases parsed : Binary64.parse (String.ofList s) with
  | none =>
    rw [parsed] at read
    cases read
  | some value =>
    rw [parsed] at read
    dsimp only at read ⊢
    split at read
    · cases read
    next inRange =>
      rw [if_neg inRange]
      exact read

theorem zero_small {n : Float.Model} {s : Float.Model.UnpackedFloat.Sign} (eq : n.unpack = .zero s) :
    Binary64.isWhole n ∧ n.abs < Float.Model.ofScientific 1 15 := by
  constructor
  · simp [Binary64.isWhole, eq]
  · rw [Float.Model.abs, eq]
    cases s <;> decide

/-- The canonical digits of a finite number are read as it, a zero without its sign. -/
theorem canonical_numeral {n : Float.Model} (finite : n.isFinite = true) :
    ∃ t : Numeral, t.Loose ∧ (canonicalIntegerDigits n).toList = t.text ∧
      numberValue escapes false t.text = .ok (.num (unsigned n) none) := by
  by_cases small : Binary64.isWhole n ∧ n.abs < Float.Model.ofScientific 1 15
  · have digits : canonicalIntegerDigits n = toString n.toInt64.toInt := if_pos small
    have back : Float.Model.ofInt64 n.toInt64 = unsigned n ∧
        canonicalIntegerDigits (unsigned n) = toString n.toInt64.toInt := by
      cases eq : n.unpack with
      | notANumber => simp [Binary64.isWhole, eq] at small
      | infinity s => simp [Binary64.isWhole, eq] at small
      | zero s =>
        have zero : n.toInt64 = 0 := by
          rw [Float.Model.toInt64, eq]
          rfl
        have same : unsigned n = Float.Model.ofInt64 0 := by simp [unsigned, eq]
        rw [zero, same]
        exact ⟨rfl, by decide⟩
      | finite s m e hm =>
        have same : unsigned n = n := by simp [unsigned, eq]
        rw [same]
        exact ⟨Decimal.ofInt64_toInt64 eq small.1 small.2, digits⟩
    refine ⟨integer n.toInt64, integer_loose _, ?_, ?_⟩
    · rw [integer_text, digits]
    · rw [integer_text, numberValue_integer, reread, back.1, back.2]
      simp
  · have shown : canonicalIntegerDigits n = Binary64.display n := if_neg small
    have same : unsigned n = n := by
      cases eq : n.unpack with
      | zero s =>
        exact absurd (zero_small eq) small
      | _ => simp [unsigned, eq]
    obtain ⟨neg, whole, fraction, text, hw, hf, nonempty, parsed⟩ :=
      Decimal.display_numeral finite
    have spelled : (decimal neg whole fraction).text = (Binary64.display n).toList := by
      rw [decimal_text, text, String.toList_ofList]
    refine ⟨decimal neg whole fraction, decimal_loose hw hf nonempty, ?_, ?_⟩
    · rw [shown, spelled]
    · rw [spelled, same]
      simp [numberValue, String.ofList_toList, parsed, finite, shown]

/-- A number the reader keeps no text for is finite. -/
theorem finite_of_textless {s : List Char} {n : Float.Model}
    (read : numberValue escapes false s = .ok (.num n none)) : n.isFinite = true := by
  unfold numberValue at read
  cases parsed : Binary64.parse (String.ofList s) with
  | none =>
    rw [parsed] at read
    cases read
  | some f =>
    rw [parsed] at read
    dsimp only at read
    split at read
    · cases read
    next inRange =>
      split at read
      · cases read
      next noText =>
        cases read
        rw [Bool.eq_false_of_not_eq_true noText] at inRange
        simpa using inRange

variable (escapes) in
/-- A number the reader makes of a text is written as a text it makes the number of again, a
zero that kept no text without its sign. -/
theorem FromText.numeral {n : Float.Model} {raw : Option String} (read : FromText n raw) :
    ∃ t : Numeral, t.Loose ∧ write (.num n raw) = t.text ∧
      numberValue escapes false t.text = .ok (rewritten n raw) := by
  obtain ⟨other, t, loose, value⟩ := read
  have value := numberValue_ok escapes value
  have made := value
  unfold numberValue at made
  cases parsed : Binary64.parse (String.ofList t.text) with
  | none =>
    rw [parsed] at made
    cases made
  | some f =>
    rw [parsed] at made
    dsimp only at made
    split at made
    · cases made
    next inRange =>
      split at made
      · cases made
        refine ⟨t, loose, ?_, value⟩
        rw [write, String.toList_ofList]
      · cases made
        exact canonical_numeral (finite_of_textless value)

theorem reads_number {n : Float.Model} {raw : Option String} (read : FromText n raw) (d : Nat)
    (follows : Follows rest) :
    Reads (parseValue escapes false d (write (.num n raw) ++ rest)) (rewritten n raw) rest := by
  obtain ⟨t, loose, text, value⟩ := read.numeral escapes
  rw [text]
  exact reads_numeral loose value d follows

mutual

/-- The text of a value reads as what it comes back as, whatever follows it. -/
theorem Held.reads_write : (x : Held) → (d : Nat) → (rest : List Char) →
    d + x.depth ≤ maxDepth → x.Finite → Follows rest →
      Reads (parseValue escapes false d (write x.json ++ rest)) x.again rest
  | .null, d, rest, _, _, _ => by
    have skip := skipWs_write ('u' :: 'l' :: 'l' :: rest) (c := 'n') (by decide)
    exact (reads_value skip).mpr ((starts_word (.inr (.inr rfl))).mpr (.inr (.inr ⟨rfl, rfl⟩)))
  | .bool true, d, rest, _, _, _ => by
    have skip := skipWs_write ('r' :: 'u' :: 'e' :: rest) (c := 't') (by decide)
    exact (reads_value skip).mpr ((starts_word (.inl rfl)).mpr (.inl ⟨rfl, rfl⟩))
  | .bool false, d, rest, _, _, _ => by
    have skip := skipWs_write ('a' :: 'l' :: 's' :: 'e' :: rest) (c := 'f') (by decide)
    exact (reads_value skip).mpr
      ((starts_word (.inr (.inl rfl))).mpr (.inr (.inl ⟨rfl, rfl⟩)))
  | .int i, d, rest, _, _, follows => by
    simp only [Held.json, Held.again, Json.int, write]
    exact reads_integer d i follows
  | .float n, d, rest, _, finite, follows => by
    obtain ⟨t, loose, text, value⟩ := writeFloat_numeral escapes finite
    simp only [Held.json, Held.again, write]
    rw [text]
    exact reads_numeral loose value d follows
  | .number n raw read, d, rest, _, _, follows => reads_number read d follows
  | .str s, d, rest, _, _, _ => by
    have text : write (Held.str s).json ++ rest =
        '"' :: (s.toList.flatMap writeEscapedChar ++ '"' :: rest) := by
      simp [Held.json, write, writeEscapedString]
    rw [text]
    have skip := skipWs_write (s.toList.flatMap writeEscapedChar ++ '"' :: rest) (c := '"')
      (by decide)
    refine (reads_value skip).mpr (starts_quote.mpr ⟨s.toList, reads_escaped s.toList, ?_⟩)
    rw [String.ofList_toList]
    rfl
  | .array [], d, rest, deep, _, _ => by
    simp only [Held.depth] at deep
    have skip := skipWs_write (']' :: rest) (c := '[') (by decide)
    have close := skipWs_write rest (c := ']') (by decide)
    exact (reads_value skip).mpr (starts_bracket.mpr
      ⟨by omega, [], reads_parseArrayBody.mpr (.inl ⟨close, rfl⟩), rfl⟩)
  | .array (x :: xs), d, rest, deep, finite, _ => by
    simp only [Held.depth] at deep
    have text : write (Held.array (x :: xs)).json ++ rest =
        '[' :: (writeItems true (Held.jsons (x :: xs)) ++ ']' :: rest) := by
      simp [Held.json, write]
    rw [text]
    have skip := skipWs_write (writeItems true (Held.jsons (x :: xs)) ++ ']' :: rest)
      (c := '[') (by decide)
    have items := Held.reads_items (x :: xs) (d + 1) rest (by omega) finite (by simp)
    exact (reads_value skip).mpr (starts_bracket.mpr
      ⟨by omega, _, reads_parseArrayBody_of_items items, rfl⟩)
  | .object [], d, rest, deep, _, _ => by
    simp only [Held.depth] at deep
    have skip := skipWs_write ('\x7d' :: rest) (c := '\x7b') (by decide)
    have close := skipWs_write rest (c := '\x7d') (by decide)
    exact (reads_value skip).mpr (starts_brace.mpr
      ⟨by omega, [], reads_parseObjectBody.mpr (.inl ⟨close, rfl⟩), rfl⟩)
  | .object (f :: fs), d, rest, deep, finite, _ => by
    simp only [Held.depth] at deep
    have text : write (Held.object (f :: fs)).json ++ rest =
        '\x7b' :: (writeFields true (Held.jsonFields (f :: fs)) ++ '\x7d' :: rest) := by
      simp [Held.json, write]
    rw [text]
    have skip := skipWs_write (writeFields true (Held.jsonFields (f :: fs)) ++ '\x7d' :: rest)
      (c := '\x7b') (by decide)
    have fields := Held.reads_fields (f :: fs) (d + 1) rest (by omega) finite (by simp)
    exact (reads_value skip).mpr (starts_brace.mpr
      ⟨by omega, _, reads_parseObjectBody_of_fields fields, rfl⟩)

theorem Held.reads_items : (items : List Held) → (d : Nat) → (rest : List Char) →
    d + Held.depths items ≤ maxDepth → Held.FiniteItems items → items ≠ [] →
      Reads (parseItems escapes false d (writeItems true (Held.jsons items) ++ ']' :: rest))
        (Held.agains items) rest
  | [], _, _, _, _, nonempty => absurd rfl nonempty
  | [x], d, rest, deep, finite, _ => by
    simp only [Held.depths] at deep
    have value := Held.reads_write x d (']' :: rest) (by omega) finite.1
      (follows_closing (by simp) rest)
    have close := skipWs_write rest (c := ']') (by decide)
    have text : writeItems true (Held.jsons [x]) ++ ']' :: rest =
        write x.json ++ ']' :: rest := by
      simp [Held.jsons, writeItems]
    rw [text]
    exact reads_parseItems.mpr ⟨x.again, _, value, .inl ⟨close, rfl⟩⟩
  | x :: y :: ys, d, rest, deep, finite, _ => by
    rw [Held.depths] at deep
    have more := Held.reads_items (y :: ys) d rest (by omega) finite.2 (by simp)
    have value := Held.reads_write x d
      (',' :: (writeItems true (Held.jsons (y :: ys)) ++ ']' :: rest)) (by omega) finite.1
      (follows_closing (by simp) _)
    have comma := skipWs_write (writeItems true (Held.jsons (y :: ys)) ++ ']' :: rest)
      (c := ',') (by decide)
    rw [items_text]
    exact reads_parseItems.mpr ⟨x.again, _, value, .inr ⟨_, _, comma, more, rfl⟩⟩

theorem Held.reads_fields : (fields : List (String × Held)) → (d : Nat) → (rest : List Char) →
    d + Held.depthFields fields ≤ maxDepth → Held.FiniteFields fields → fields ≠ [] →
      Reads (parseFields escapes false d
        (writeFields true (Held.jsonFields fields) ++ '\x7d' :: rest))
        (Held.againFields fields) rest
  | [], _, _, _, _, nonempty => absurd rfl nonempty
  | [(k, x)], d, rest, deep, finite, _ => by
    simp only [Held.depthFields] at deep
    have value := Held.reads_write x d ('\x7d' :: rest) (by omega) finite.1
      (follows_closing (by simp) rest)
    have close := skipWs_write rest (c := '\x7d') (by decide)
    have text : writeFields true (Held.jsonFields [(k, x)]) ++ '\x7d' :: rest =
        writeEscapedString k ++ ':' :: (write x.json ++ '\x7d' :: rest) := by
      simp [Held.jsonFields, writeFields]
    obtain ⟨key, colon⟩ := reads_key k (write x.json ++ '\x7d' :: rest)
    rw [text]
    exact reads_parseFields.mpr ⟨k, _, _, x.again, _, key, colon, value, .inl ⟨close, rfl⟩⟩
  | (k, x) :: f :: fs, d, rest, deep, finite, _ => by
    rw [Held.depthFields] at deep
    have more := Held.reads_fields (f :: fs) d rest (by omega) finite.2 (by simp)
    have value := Held.reads_write x d
      (',' :: (writeFields true (Held.jsonFields (f :: fs)) ++ '\x7d' :: rest)) (by omega)
      finite.1 (follows_closing (by simp) _)
    have comma := skipWs_write (writeFields true (Held.jsonFields (f :: fs)) ++ '\x7d' :: rest)
      (c := ',') (by decide)
    obtain ⟨key, colon⟩ := reads_key k (write x.json ++
      ',' :: (writeFields true (Held.jsonFields (f :: fs)) ++ '\x7d' :: rest))
    rw [fields_text]
    exact reads_parseFields.mpr
      ⟨k, _, _, x.again, _, key, colon, value, .inr ⟨_, _, comma, more, rfl⟩⟩

end

/-- No text of a value starts with a space or with what closes a list. -/
theorem Held.write_first (x : Held) (rest : List Char) :
    ∃ c body, write x.json ++ rest = c :: body ∧ Text.isWhitespace c = false ∧ c ≠ ']' := by
  have numeral : ∀ t : Numeral, t.Loose →
      ∃ c body, t.text ++ rest = c :: body ∧ Text.isWhitespace c = false ∧ c ≠ ']' := by
    intro t loose
    obtain ⟨c, body, eq, first⟩ := loose.text_first rest
    refine ⟨c, body, eq, not_space_of_digit first, ?_⟩
    rintro rfl
    revert first
    decide
  cases x with
  | null => exact ⟨'n', _, rfl, by decide, by decide⟩
  | bool b =>
    cases b with
    | true => exact ⟨'t', _, rfl, by decide, by decide⟩
    | false => exact ⟨'f', _, rfl, by decide, by decide⟩
  | int i =>
    have text := numeral (integer i) (integer_loose i)
    rwa [integer_text] at text
  | float n =>
    cases finite : n.isFinite with
    | true =>
      obtain ⟨t, loose, text, -⟩ := writeFloat_numeral (fun _ => false) finite
      simp only [Held.json, write]
      rw [text]
      exact numeral t loose
    | false =>
      have texts := writeFloat_infinite finite
      simp only [Held.json, write]
      rcases texts with text | text | text
      · rw [text]
        exact ⟨'N', _, rfl, by decide, by decide⟩
      · rw [text]
        exact ⟨'i', _, rfl, by decide, by decide⟩
      · rw [text]
        exact ⟨'-', _, rfl, by decide, by decide⟩
  | number n raw read =>
    obtain ⟨t, loose, text, -⟩ := read.numeral fun _ => false
    simp only [Held.json]
    rw [text]
    exact numeral t loose
  | str s => exact ⟨'"', _, rfl, by decide, by decide⟩
  | array items => exact ⟨'[', _, rfl, by decide, by decide⟩
  | object fields => exact ⟨'\x7b', _, rfl, by decide, by decide⟩

/-- The text of a list starts with that of its first item. -/
theorem writeItems_head (x : Held) (xs : List Held) (rest : List Char) :
    ∃ tail, writeItems true (Held.jsons (x :: xs)) ++ rest = write x.json ++ tail :=
  ⟨writeItems false (Held.jsons xs) ++ rest, by simp [Held.jsons, writeItems]⟩

/-- Past its key, the first field of an object is a value and what goes on behind it. -/
theorem reads_first_field {d : Nat} {k : String} {text after : List Char}
    {gs : List (String × Json)}
    (read : Reads (parseFields escapes false d (writeEscapedString k ++ ':' :: text)) gs after) :
    ∃ v behind, Reads (parseValue escapes false d text) v behind ∧
      (skipWs behind = '\x7d' :: after ∨
        ∃ next hs, skipWs behind = ',' :: next ∧
          Reads (parseFields escapes false d next) hs after) := by
  obtain ⟨key, afterKey, body, v, behind, keyRead, colon, value, more⟩ :=
    reads_parseFields.mp read
  obtain ⟨keyText, colonText⟩ := @reads_key escapes k text
  obtain ⟨-, rfl⟩ := keyText.unique keyRead
  rw [colonText] at colon
  cases colon
  refine ⟨v, behind, value, ?_⟩
  rcases more with ⟨close, -⟩ | ⟨next, hs, comma, fields, -⟩
  · exact .inl close
  · exact .inr ⟨next, hs, comma, fields⟩

mutual

/-- What the reader takes has finite floats and nests no deeper than it allows. -/
theorem Held.limits_of_reads : (x : Held) → (d : Nat) → (rest : List Char) → d ≤ maxDepth →
    Follows rest → {v : Json} → {after : List Char} →
      Reads (parseValue escapes false d (write x.json ++ rest)) v after →
        x.Finite ∧ d + x.depth ≤ maxDepth
  | .null, d, rest, deep, _, _, _, _ => ⟨trivial, deep⟩
  | .bool _, d, rest, deep, _, _, _, _ => ⟨trivial, deep⟩
  | .int _, d, rest, deep, _, _, _, _ => ⟨trivial, deep⟩
  | .number _ _ _, d, rest, deep, _, _, _, _ => ⟨trivial, deep⟩
  | .str _, d, rest, deep, _, _, _, _ => ⟨trivial, deep⟩
  | .float n, d, rest, deep, _, _, _, read => by
    refine ⟨?_, deep⟩
    by_contra infinite
    exact not_reads_writeFloat (Bool.eq_false_of_not_eq_true infinite) read
  | .array items, d, rest, deep, _, _, _, read => by
    have text : write (Held.array items).json ++ rest =
        '[' :: (writeItems true (Held.jsons items) ++ ']' :: rest) := by
      simp [Held.json, write]
    rw [text] at read
    obtain ⟨shallow, _, body, -⟩ :=
      starts_bracket.mp ((reads_value (skipWs_write _ (by decide))).mp read)
    cases items with
    | nil => exact ⟨trivial, shallow⟩
    | cons x xs =>
      have loop : ∃ vs after, Reads (parseItems escapes false (d + 1)
          (writeItems true (Held.jsons (x :: xs)) ++ ']' :: rest)) vs after := by
        rcases reads_parseArrayBody.mp body with ⟨close, -⟩ | ⟨-, items⟩
        · obtain ⟨tail, head⟩ := writeItems_head x xs (']' :: rest)
          obtain ⟨c, cs, first, blank, bracket⟩ := x.write_first tail
          rw [head, first, skipWs_write _ blank, List.cons.injEq] at close
          exact absurd close.1 bracket
        · exact ⟨_, _, items⟩
      obtain ⟨vs, after, loop⟩ := loop
      obtain ⟨finite, depth⟩ := Held.limits_of_items (x :: xs) (d + 1) rest shallow loop
      exact ⟨finite, by rw [Held.depth]; omega⟩
  | .object fields, d, rest, deep, _, _, _, read => by
    have text : write (Held.object fields).json ++ rest =
        '\x7b' :: (writeFields true (Held.jsonFields fields) ++ '\x7d' :: rest) := by
      simp [Held.json, write]
    rw [text] at read
    obtain ⟨shallow, _, body, -⟩ :=
      starts_brace.mp ((reads_value (skipWs_write _ (by decide))).mp read)
    cases fields with
    | nil => exact ⟨trivial, shallow⟩
    | cons f fs =>
      have loop : ∃ gs after, Reads (parseFields escapes false (d + 1)
          (writeFields true (Held.jsonFields (f :: fs)) ++ '\x7d' :: rest)) gs after := by
        rcases reads_parseObjectBody.mp body with ⟨close, -⟩ | ⟨-, loop⟩
        · obtain ⟨k, x⟩ := f
          have quote : skipWs (writeFields true (Held.jsonFields ((k, x) :: fs)) ++
              '\x7d' :: rest) = writeFields true (Held.jsonFields ((k, x) :: fs)) ++
              '\x7d' :: rest := skipWs_write _ (by decide)
          rw [quote] at close
          cases close
        · exact ⟨_, _, loop⟩
      obtain ⟨gs, after, loop⟩ := loop
      obtain ⟨finite, depth⟩ := Held.limits_of_fields (f :: fs) (d + 1) rest shallow loop
      exact ⟨finite, by rw [Held.depth]; omega⟩

theorem Held.limits_of_items : (items : List Held) → (d : Nat) → (rest : List Char) →
    d ≤ maxDepth → {vs : List Json} → {after : List Char} →
      Reads (parseItems escapes false d (writeItems true (Held.jsons items) ++ ']' :: rest))
        vs after →
        Held.FiniteItems items ∧ d + Held.depths items ≤ maxDepth
  | [], d, rest, deep, _, _, _ => ⟨trivial, deep⟩
  | [x], d, rest, deep, _, _, read => by
    obtain ⟨v, after, value, -⟩ := reads_parseItems.mp read
    have text : writeItems true (Held.jsons [x]) ++ ']' :: rest = write x.json ++ ']' :: rest := by
      simp [Held.jsons, writeItems]
    rw [text] at value
    obtain ⟨finite, depth⟩ :=
      Held.limits_of_reads x d (']' :: rest) deep (follows_closing (by simp) rest) value
    exact ⟨⟨finite, trivial⟩, by simp only [Held.depths]; omega⟩
  | x :: y :: ys, d, rest, deep, _, _, read => by
    obtain ⟨v, after, value, more⟩ := reads_parseItems.mp read
    rw [items_text] at value
    have follows : Follows (',' :: (writeItems true (Held.jsons (y :: ys)) ++ ']' :: rest)) :=
      follows_closing (by simp) _
    obtain ⟨finite, depth⟩ := Held.limits_of_reads x d _ deep follows value
    obtain ⟨-, rfl⟩ := (Held.reads_write x d _ depth finite follows).unique value
    rw [skipWs_write _ (by decide)] at more
    rcases more with ⟨close, -⟩ | ⟨next, ws, comma, items, -⟩
    · cases close
    · cases comma
      obtain ⟨finites, depths⟩ := Held.limits_of_items (y :: ys) d rest deep items
      exact ⟨⟨finite, finites⟩, by rw [Held.depths]; omega⟩

theorem Held.limits_of_fields : (fields : List (String × Held)) → (d : Nat) →
    (rest : List Char) → d ≤ maxDepth → {gs : List (String × Json)} → {after : List Char} →
      Reads (parseFields escapes false d
        (writeFields true (Held.jsonFields fields) ++ '\x7d' :: rest)) gs after →
        Held.FiniteFields fields ∧ d + Held.depthFields fields ≤ maxDepth
  | [], d, rest, deep, _, _, _ => ⟨trivial, deep⟩
  | [(k, x)], d, rest, deep, _, _, read => by
    have text : writeFields true (Held.jsonFields [(k, x)]) ++ '\x7d' :: rest =
        writeEscapedString k ++ ':' :: (write x.json ++ '\x7d' :: rest) := by
      simp [Held.jsonFields, writeFields]
    rw [text] at read
    obtain ⟨v, after, value, -⟩ := reads_first_field read
    obtain ⟨finite, depth⟩ :=
      Held.limits_of_reads x d _ deep (follows_closing (by simp) rest) value
    exact ⟨⟨finite, trivial⟩, by simp only [Held.depthFields]; omega⟩
  | (k, x) :: f :: fs, d, rest, deep, _, _, read => by
    rw [fields_text] at read
    obtain ⟨v, after, value, more⟩ := reads_first_field read
    have follows : Follows (',' :: (writeFields true (Held.jsonFields (f :: fs)) ++
        '\x7d' :: rest)) := follows_closing (by simp) _
    obtain ⟨finite, depth⟩ := Held.limits_of_reads x d _ deep follows value
    obtain ⟨-, rfl⟩ := (Held.reads_write x d _ depth finite follows).unique value
    rw [skipWs_write _ (by decide)] at more
    rcases more with close | ⟨next, hs, comma, fields⟩
    · cases close
    · cases comma
      obtain ⟨finites, depths⟩ := Held.limits_of_fields (f :: fs) d rest deep fields
      exact ⟨⟨finite, finites⟩, by rw [Held.depthFields]; omega⟩

end

/-- A value with finite floats that nests no deeper than the reader allows is read back whole. -/
theorem Held.parse_toJsonString (x : Held) (shallow : x.depth ≤ maxDepth) (finite : x.Finite) :
    Json.parse escapes x.json.toJsonString = .ok x.again := by
  have whole : Reads (parseValue escapes false 0 (write x.json ++ [])) x.again [] :=
    x.reads_write 0 [] (by omega) finite follows_nil
  rw [List.append_nil] at whole
  obtain ⟨r, read, value, -⟩ := whole
  unfold Json.parse parseWith toJsonString
  rw [String.toList_ofList]
  exact bind_eq_ok.mpr ⟨r, read, congrArg Except.ok value⟩

/-- The reader takes no other value's text, and reads nothing else. -/
theorem Held.parse_eq_ok (x : Held) {w : Json} :
    Json.parse escapes x.json.toJsonString = .ok w ↔
      x.depth ≤ maxDepth ∧ x.Finite ∧ w = x.again := by
  constructor
  · intro h
    unfold Json.parse parseWith toJsonString at h
    rw [String.toList_ofList] at h
    obtain ⟨r, read, value⟩ := bind_eq_ok.mp h
    have reads : ∃ v after, Reads (parseValue escapes false 0 (write x.json)) v after :=
      ⟨_, _, r, read, rfl, rfl⟩
    obtain ⟨v, after, reads⟩ := reads
    rw [← List.append_nil (write x.json)] at reads
    obtain ⟨finite, shallow⟩ := x.limits_of_reads 0 [] (Nat.zero_le _) follows_nil reads
    rw [Nat.zero_add] at shallow
    have whole := @Held.parse_toJsonString escapes x shallow finite
    unfold Json.parse parseWith toJsonString at whole
    rw [String.toList_ofList, h] at whole
    cases whole
    exact ⟨shallow, finite, rfl⟩
  · rintro ⟨shallow, finite, rfl⟩
    exact x.parse_toJsonString shallow finite

end

end Hecks.Json
