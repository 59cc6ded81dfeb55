import Hecks.Json
import Hecks.Lib.Reading

/-! The kernel's JSON reader: recursive descent over the characters of a text. -/
namespace Hecks.Json.Parser

open Reading (Read)

/-- How deeply arrays and objects may nest before the reader refuses. -/
def maxDepth : Nat := 128

def skipWs (cs : List Char) : List Char := cs.dropWhile Text.isWhitespace

theorem length_skipWs_le (cs : List Char) : (skipWs cs).length ≤ cs.length :=
  (List.dropWhile_suffix _).length_le

def isDigit (c : Char) : Bool := (Text.digit? c).isSome

/-- The next character when it satisfies `pred`, and what is left. -/
def takeOne (pred : Char → Bool) : List Char → List Char × List Char
  | [] => ([], [])
  | c :: cs => if pred c then ([c], cs) else ([], c :: cs)

def takeDigits (cs : List Char) : List Char × List Char :=
  (cs.takeWhile isDigit, cs.dropWhile isDigit)

/-- The digits `write` prints for a number with no source text. -/
def canonicalIntegerDigits (n : Float.Model) : String :=
  if Binary64.isWhole n ∧ n.abs < Float.Model.ofScientific 1 15 then toString n.toInt64.toInt
  else Binary64.display n

def isMark (c : Char) : Bool := c = 'e' || c = 'E'

def isSign (c : Char) : Bool := c = '+' || c = '-'

/-- The point and the digits behind it, if there is a point. -/
def takeFraction (cs : List Char) : List Char × List Char :=
  match takeOne (· = '.') cs with
  | ([], cs) => ([], cs)
  | (point, cs) =>
      let (digits, cs) := takeDigits cs
      (point ++ digits, cs)

/-- The exponent with its sign, if there is one. -/
def takeExponent (cs : List Char) : List Char × List Char :=
  match takeOne isMark cs with
  | ([], cs) => ([], cs)
  | (mark, cs) =>
      let (sign, cs) := takeOne isSign cs
      let (digits, cs) := takeDigits cs
      (mark ++ sign ++ digits, cs)

/-- The text of a number: greedy, and not checked yet. -/
def numberText (cs : List Char) : List Char × List Char :=
  let (sign, cs) := takeOne (· = '-') cs
  let (whole, cs) := takeDigits cs
  let (fraction, cs) := takeFraction cs
  let (exponent, cs) := takeExponent cs
  (sign ++ whole ++ fraction ++ exponent, cs)

section

-- which characters outside ASCII an error text spells as `\u`
variable (escapes : Char → Bool)

def expect (ch : Char) : (cs : List Char) → Except String (Read Unit cs.length)
  | [] => .error ("expected '" ++ ch.toString ++ "', got None")
  | c :: cs =>
      if c = ch then .ok ⟨(), cs, Nat.le_succ _⟩
      else .error ("expected '" ++ ch.toString ++ "', got " ++ Text.debugOption escapes (some c))

/-- The escapes of one letter. -/
def shortEscape : Char → Option Char
  | '"' => some '"'
  | '\\' => some '\\'
  | '/' => some '/'
  | 'n' => some '\n'
  | 't' => some '\t'
  | 'r' => some '\r'
  | 'b' => some '\x08'
  | 'f' => some '\x0c'
  | _ => none

/-- The four characters after `\u`, a missing one read as `0`. -/
def hexText (cs : List Char) : List Char :=
  cs.take 4 ++ List.replicate (4 - cs.length) '0'

/-- `char::from_u32(code).unwrap_or('\u\x7bFFFD\x7d')`. -/
def scalarOr (code : Nat) : Char := if code.isValidChar then Char.ofNat code else '\uFFFD'

/-- The characters up to the closing quote. -/
def stringBody (cs : List Char) : Except String (Read (List Char) cs.length) :=
  match cs with
  | [] => .error "unterminated string"
  | '"' :: cs => .ok ⟨[], cs, Nat.le_succ _⟩
  | '\\' :: [] => .error "bad escape sequence \\None"
  | '\\' :: e :: cs =>
      if e = 'u' then
        match Text.fromStrRadix16 (hexText cs) with
        | none =>
            .error ("bad \\u escape " ++ Text.debugStr escapes (String.ofList (hexText cs)))
        | some code => do
            let r ← stringBody (cs.drop 4)
            return ⟨scalarOr code :: r.value, r.rest, by
              have := r.within
              simp only [List.length_drop, List.length_cons] at *
              omega⟩
      else
        match shortEscape e with
        | none => .error ("bad escape sequence \\" ++ Text.debugOption escapes (some e))
        | some c => do
            let r ← stringBody cs
            return ⟨c :: r.value, r.rest, by have := r.within; simp only [List.length_cons]; omega⟩
  | c :: cs => do
      let r ← stringBody cs
      return ⟨c :: r.value, r.rest, Nat.le_succ_of_le r.within⟩
termination_by cs.length

def parseString (cs : List Char) : Except String (Read String cs.length) := do
  let opened ← expect escapes '"' cs
  let r ← stringBody escapes opened.rest
  return ⟨String.ofList r.value, r.rest, Nat.le_trans r.within opened.within⟩

def consumeLiteral (lit : String) (cs : List Char) : Option (Read Unit cs.length) :=
  if lit.toList.isPrefixOf cs then
    some ⟨(), cs.drop lit.toList.length, by rw [List.length_drop]; exact Nat.sub_le _ _⟩
  else none

def parseBool (cs : List Char) : Except String (Read Json cs.length) :=
  match consumeLiteral "true" cs with
  | some r => .ok ⟨.bool true, r.rest, r.within⟩
  | none =>
      match consumeLiteral "false" cs with
      | some r => .ok ⟨.bool false, r.rest, r.within⟩
      | none => .error "expected true/false"

def parseNull (cs : List Char) : Except String (Read Json cs.length) :=
  match consumeLiteral "null" cs with
  | some r => .ok ⟨.null, r.rest, r.within⟩
  | none => .error "expected null"

/-- A scanning step splits its text in two. -/
theorem takeOne_append (pred : Char → Bool) (cs : List Char) :
    (takeOne pred cs).1 ++ (takeOne pred cs).2 = cs := by
  cases cs with
  | nil => rfl
  | cons c cs =>
    by_cases h : pred c
    · simp [takeOne, h]
    · simp [takeOne, h]

theorem takeDigits_append (cs : List Char) : (takeDigits cs).1 ++ (takeDigits cs).2 = cs :=
  List.takeWhile_append_dropWhile

theorem takeFraction_append (cs : List Char) : (takeFraction cs).1 ++ (takeFraction cs).2 = cs := by
  have one := takeOne_append (· = '.') cs
  unfold takeFraction
  split
  next rest eq =>
    rw [eq] at one
    exact one
  next point rest _ eq =>
    rw [eq] at one
    dsimp only
    rw [List.append_assoc, takeDigits_append, one]

theorem takeExponent_append (cs : List Char) : (takeExponent cs).1 ++ (takeExponent cs).2 = cs := by
  have one := takeOne_append isMark cs
  unfold takeExponent
  split
  next rest eq =>
    rw [eq] at one
    exact one
  next mark rest _ eq =>
    rw [eq] at one
    dsimp only
    rw [List.append_assoc, List.append_assoc, takeDigits_append, takeOne_append, one]

theorem numberText_append (cs : List Char) : (numberText cs).1 ++ (numberText cs).2 = cs := by
  unfold numberText
  dsimp only
  simp only [List.append_assoc, takeExponent_append, takeFraction_append, takeDigits_append,
    takeOne_append]

theorem length_numberText_le (cs : List Char) : (numberText cs).2.length ≤ cs.length := by
  have parts := congrArg List.length (numberText_append cs)
  rw [List.length_append] at parts
  omega

section

-- every number keeps its source text
variable (keepNumberText : Bool)

/-- What a number's text stands for. A plain integer keeps its digits when the `f64` would
not print them again; a number past the range of `f64` is refused unless its text is kept. -/
def numberValue (s : List Char) : Except String Json :=
  match Binary64.parse (String.ofList s) with
  | none =>
      .error ("bad number " ++ Text.debugStr escapes (String.ofList s) ++
        ": invalid float literal")
  | some value =>
      let isPlainInteger := !s.contains '.' && !s.contains 'e' && !s.contains 'E'
      let keepsSource :=
        keepNumberText || (isPlainInteger && canonicalIntegerDigits value != String.ofList s)
      if !value.isFinite && !keepsSource then
        .error ("number " ++ Text.debugStr escapes (String.ofList s) ++ " is out of range")
      else .ok (.num value (if keepsSource then some (String.ofList s) else none))

def parseNumber (cs : List Char) : Except String (Read Json cs.length) := do
  let value ← numberValue escapes keepNumberText (numberText cs).1
  return ⟨value, (numberText cs).2, length_numberText_le cs⟩

/-- One level of nesting for the duration of `body`. -/
def nested {α : Type} (depth : Nat) (body : Nat → Except String α) : Except String α :=
  if maxDepth ≤ depth then .error ("JSON nests deeper than " ++ toString maxDepth ++ " levels")
  else body (depth + 1)

mutual

def parseValue (depth : Nat) (cs : List Char) : Except String (Read Json cs.length) :=
  match h : skipWs cs with
  | [] => .error "unexpected None in JSON"
  | c :: rest =>
      have shorter : rest.length + 1 ≤ cs.length := by
        have := length_skipWs_le cs
        rwa [h] at this
      if c = '\x7b' then do
        let r ← nested depth fun depth => parseObjectBody depth rest
        return ⟨.object r.value, r.rest, by have := r.within; omega⟩
      else if c = '[' then do
        let r ← nested depth fun depth => parseArrayBody depth rest
        return ⟨.array r.value, r.rest, by have := r.within; omega⟩
      else if c = '"' then do
        let r ← parseString escapes (c :: rest)
        return ⟨.str r.value, r.rest, Nat.le_trans r.within shorter⟩
      else if c = 't' ∨ c = 'f' then do
        let r ← parseBool (c :: rest)
        return ⟨r.value, r.rest, Nat.le_trans r.within shorter⟩
      else if c = 'n' then do
        let r ← parseNull (c :: rest)
        return ⟨r.value, r.rest, Nat.le_trans r.within shorter⟩
      else if c = '-' ∨ isDigit c then do
        let r ← parseNumber escapes keepNumberText (c :: rest)
        return ⟨r.value, r.rest, Nat.le_trans r.within shorter⟩
      else .error ("unexpected " ++ Text.debugOption escapes (some c) ++ " in JSON")
termination_by 5 * cs.length

/-- `parse_object_body`, past the brace that `parse_value` peeked. -/
def parseObjectBody (depth : Nat) (cs : List Char) :
    Except String (Read (List (String × Json)) cs.length) :=
  match h : skipWs cs with
  | '\x7d' :: rest =>
      .ok ⟨[], rest, by have := length_skipWs_le cs; rw [h, List.length_cons] at this; omega⟩
  | _ => do
      let r ← parseFields depth cs
      return ⟨r.value, r.rest, r.within⟩
termination_by 5 * cs.length + 3

/-- The loop of `parse_object_body`: a key, its value, then a comma or the end. -/
def parseFields (depth : Nat) (cs : List Char) :
    Except String (Read (List (String × Json)) cs.length) := do
  let key ← parseString escapes (skipWs cs)
  let colon ← expect escapes ':' (skipWs key.rest)
  have before : colon.rest.length ≤ cs.length := by
    have := length_skipWs_le cs
    have := length_skipWs_le key.rest
    have := key.within
    have := colon.within
    omega
  let value ← parseValue depth colon.rest
  have after : (skipWs value.rest).length ≤ cs.length := by
    have := length_skipWs_le value.rest
    have := value.within
    omega
  match h : skipWs value.rest with
  | ',' :: rest =>
      have shorter : rest.length < cs.length := by rw [h, List.length_cons] at after; omega
      let more ← parseFields depth rest
      return ⟨(key.value, value.value) :: more.value, more.rest, by
        have := more.within
        omega⟩
  | '\x7d' :: rest =>
      return ⟨[(key.value, value.value)], rest, by rw [h, List.length_cons] at after; omega⟩
  | other =>
      .error ("expected ',' or '\x7d' in object, got " ++ Text.debugOption escapes other.head?)
termination_by 5 * cs.length + 2

/-- `parse_array_body`, past the bracket that `parse_value` peeked. -/
def parseArrayBody (depth : Nat) (cs : List Char) :
    Except String (Read (List Json) cs.length) :=
  match h : skipWs cs with
  | ']' :: rest =>
      .ok ⟨[], rest, by have := length_skipWs_le cs; rw [h, List.length_cons] at this; omega⟩
  | _ => do
      let r ← parseItems depth cs
      return ⟨r.value, r.rest, r.within⟩
termination_by 5 * cs.length + 3

/-- The loop of `parse_array_body`. -/
def parseItems (depth : Nat) (cs : List Char) : Except String (Read (List Json) cs.length) := do
  let value ← parseValue depth cs
  have after : (skipWs value.rest).length ≤ cs.length := by
    have := length_skipWs_le value.rest
    have := value.within
    omega
  match h : skipWs value.rest with
  | ',' :: rest =>
      have shorter : rest.length < cs.length := by rw [h, List.length_cons] at after; omega
      let more ← parseItems depth rest
      return ⟨value.value :: more.value, more.rest, by have := more.within; omega⟩
  | ']' :: rest =>
      return ⟨[value.value], rest, by rw [h, List.length_cons] at after; omega⟩
  | other =>
      .error ("expected ',' or ']' in array, got " ++ Text.debugOption escapes other.head?)
termination_by 5 * cs.length + 2

end

end

end

end Hecks.Json.Parser

namespace Hecks.Json

variable (escapes : Char → Bool)

/-- The value at the front of the text; what follows it is skipped over, not checked. -/
def parseWith (input : String) (keepNumberText : Bool) : Except String Json := do
  let r ← Parser.parseValue escapes keepNumberText 0 input.toList
  return r.value

def parse (input : String) : Except String Json := parseWith escapes input false

def parseKeepingNumberText (input : String) : Except String Json :=
  parseWith escapes input true

end Hecks.Json
