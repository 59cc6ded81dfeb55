import Mathlib
import Hecks.Lib.Slices

/-! The JSON reader of the sign-in tokens: it accepts only what two parsers could not disagree
about. Recursive descent over the bytes of a text that is known to be UTF-8; every step answers
nothing at the first fault. -/

namespace Hecks.Signin.StrictJson

open Slices (bytes)

/-- A parsed JSON value, reduced to the shapes a token check needs to tell apart. -/
inductive Json where
  | null
  | bool (b : Bool)
  /-- An integer; one beyond the `i128` range saturates. -/
  | int (n : Int)
  /-- Any number that is not an integer literal. -/
  | number
  | str (s : String)
  | array (items : List Json)
  /-- The members in the order they were read; their keys are distinct. -/
  | object (members : List (String × Json))

abbrev JsonObject := List (String × Json)

namespace JsonObject

def get (members : JsonObject) (name : String) : Option Json := members.lookup name

/-- A member that is a string. -/
def getStr (members : JsonObject) (name : String) : Option String :=
  match get members name with
  | some (.str text) => some text
  | _ => none

/-- The member exists and is not `null`. -/
def isPresent (members : JsonObject) (name : String) : Bool :=
  match get members name with
  | none => false
  | some .null => false
  | some _ => true

end JsonObject

/-- The deepest nesting accepted, counting the outer object as depth 1. -/
def maxDepth : Nat := 8

/-- What a step read, and the bytes it left: no more than `n`. -/
structure Took (α : Type) (n : Nat) where
  value : α
  rest : List UInt8
  within : rest.length ≤ n

/-- `std::str::from_utf8`. -/
def fromUtf8 (bs : List UInt8) : Option (List Char) := bs.toByteArray.utf8Decode?.map (·.toList)

def isWhitespace (b : UInt8) : Bool := b = 0x20 || b = 0x09 || b = 0x0a || b = 0x0d

def skipWhitespace (bs : List UInt8) : List UInt8 := bs.dropWhile isWhitespace

def isDigit (b : UInt8) : Bool := 0x30 ≤ b && b ≤ 0x39

/-- What follows the byte, if it comes first. -/
def expect (byte : UInt8) : (bs : List UInt8) → Option { rest : List UInt8 // rest.length < bs.length }
  | [] => none
  | b :: rest => if b = byte then some ⟨rest, Nat.lt_succ_self _⟩ else none

def literal (word : String) (value : Json) (bs : List UInt8) : Option (Took Json bs.length) :=
  if (bytes word.toList).isPrefixOf bs then
    some ⟨value, bs.drop (bytes word.toList).length, by rw [List.length_drop]; exact Nat.sub_le _ _⟩
  else none

/-! ### Strings -/

/-- The value of a hexadecimal digit, if it is one. -/
def hexDigit? (b : UInt8) : Option Nat :=
  if 0x30 ≤ b ∧ b ≤ 0x39 then some (b.toNat - 0x30)
  else if 0x61 ≤ b ∧ b ≤ 0x66 then some (b.toNat - 0x57)
  else if 0x41 ≤ b ∧ b ≤ 0x46 then some (b.toNat - 0x37)
  else none

/-- Four hexadecimal digits. Bytes that are such digits are UTF-8, so the check for that comes to
nothing here. -/
def hex4 : (bs : List UInt8) → Option (Took Nat bs.length)
  | a :: b :: c :: d :: rest =>
      (hexDigit? a).bind fun a => (hexDigit? b).bind fun b => (hexDigit? c).bind fun c =>
        (hexDigit? d).bind fun d =>
          some ⟨((a * 16 + b) * 16 + c) * 16 + d, rest, by simp only [List.length_cons]; omega⟩
  | _ => none

/-- `char::from_u32(code)?.encode_utf8(&mut buffer)`. -/
def encoded (code : Nat) : Option (List UInt8) :=
  if code.isValidChar then some (String.utf8EncodeChar (Char.ofNat code)) else none

/-- The bytes that a `\u` escape stands for: a surrogate counts only as the first of a pair. -/
def unicodeEscape (bs : List UInt8) : Option (Took (List UInt8) bs.length) := do
  let first ← hex4 bs
  if 0xD800 ≤ first.value ∧ first.value ≤ 0xDBFF then
    let slash ← expect 0x5c first.rest
    let u ← expect 0x75 slash.1
    let second ← hex4 u.1
    if 0xDC00 ≤ second.value ∧ second.value ≤ 0xDFFF then
      let out ← encoded (0x10000 + (first.value - 0xD800) * 0x400 + (second.value - 0xDC00))
      some ⟨out, second.rest, by
        have := first.within
        have := slash.2
        have := u.2
        have := second.within
        omega⟩
    else none
  else if 0xDC00 ≤ first.value ∧ first.value ≤ 0xDFFF then none
  else
    let out ← encoded first.value
    some ⟨out, first.rest, first.within⟩

/-- The escapes of one letter. -/
def simpleEscape (b : UInt8) : Option UInt8 :=
  if b = 0x22 then some 0x22
  else if b = 0x5c then some 0x5c
  else if b = 0x2f then some 0x2f
  else if b = 0x62 then some 0x08
  else if b = 0x66 then some 0x0c
  else if b = 0x6e then some 0x0a
  else if b = 0x72 then some 0x0d
  else if b = 0x74 then some 0x09
  else none

def escape : (bs : List UInt8) → Option (Took (List UInt8) bs.length)
  | [] => none
  | b :: rest =>
      if b = 0x75 then do
        let r ← unicodeEscape rest
        some ⟨r.value, r.rest, Nat.le_succ_of_le r.within⟩
      else (simpleEscape b).map fun out => ⟨[out], rest, Nat.le_succ _⟩

/-- The bytes up to the closing quote, with what the escapes stand for. -/
def stringBody (bs : List UInt8) : Option (Took (List UInt8) bs.length) :=
  match bs with
  | [] => none
  | b :: rest =>
      if b = 0x22 then some ⟨[], rest, Nat.le_succ _⟩
      else if b = 0x5c then do
        let out ← escape rest
        let more ← stringBody out.rest
        some ⟨out.value ++ more.value, more.rest,
          Nat.le_succ_of_le (Nat.le_trans more.within out.within)⟩
      else if b ≤ 0x1f then none
      else do
        let more ← stringBody rest
        some ⟨b :: more.value, more.rest, Nat.le_succ_of_le more.within⟩
termination_by bs.length
decreasing_by
  · have := out.within
    simp only [List.length_cons]
    omega
  · simp only [List.length_cons]
    omega

def string (bs : List UInt8) : Option (Took String bs.length) := do
  let quote ← expect 0x22 bs
  let body ← stringBody quote.1
  let text ← fromUtf8 body.value
  some ⟨String.ofList text, body.rest, Nat.le_trans body.within (Nat.le_of_lt quote.2)⟩

/-! ### Numbers -/

/-- One digit or more, and what follows them. -/
def digits (bs : List UInt8) : Option (List UInt8 × List UInt8) :=
  if bs.takeWhile isDigit = [] then none
  else some (bs.takeWhile isDigit, bs.dropWhile isDigit)

def digitsValue (ds : List UInt8) : Nat := ds.foldl (fun n d => n * 10 + (d.toNat - 0x30)) 0

/-- An integer literal's digits, saturating at the `i128` limits: `parse::<i128>` fails for a
magnitude above its greatest value. -/
def integerFrom (ds : List UInt8) (negative : Bool) : Int :=
  if digitsValue ds < 2 ^ 127 then if negative then -(digitsValue ds : Int) else digitsValue ds
  else if negative then -2 ^ 127
  else 2 ^ 127 - 1

/-- The first byte when it satisfies `pred`, and what is left. -/
def takeIf (pred : UInt8 → Bool) : List UInt8 → Bool × List UInt8
  | [] => (false, [])
  | b :: rest => if pred b then (true, rest) else (false, b :: rest)

def wholePart (bs : List UInt8) : Option (List UInt8 × List UInt8) :=
  let (zero, rest) := takeIf (· = 0x30) bs
  if zero then some ([0x30], rest) else digits bs

/-- Whether there is a fraction, and what follows it. -/
def fractionPart (bs : List UInt8) : Option (Bool × List UInt8) :=
  let (point, rest) := takeIf (· = 0x2e) bs
  if point then (digits rest).map fun r => (true, r.2) else some (false, bs)

/-- Whether there is an exponent, and what follows it. -/
def exponentPart (bs : List UInt8) : Option (Bool × List UInt8) :=
  let (mark, rest) := takeIf (fun b => b = 0x65 || b = 0x45) bs
  if mark then
    (digits (takeIf (fun b => b = 0x2b || b = 0x2d) rest).2).map fun r => (true, r.2)
  else some (false, bs)

def number (bs : List UInt8) : Option (Json × List UInt8) := do
  let (negative, rest) := takeIf (· = 0x2d) bs
  let (whole, rest) ← wholePart rest
  let (hasFraction, rest) ← fractionPart rest
  let (hasExponent, rest) ← exponentPart rest
  if hasFraction || hasExponent then some (.number, rest)
  else some (.int (integerFrom whole negative), rest)

theorem takeIf_length (pred : UInt8 → Bool) (bs : List UInt8) :
    (takeIf pred bs).2.length ≤ bs.length := by
  cases bs with
  | nil => exact Nat.le_refl _
  | cons b rest =>
    by_cases h : pred b
    · simp [takeIf, h]
    · simp [takeIf, h]

theorem digits_length {bs ds rest : List UInt8} (h : digits bs = some (ds, rest)) :
    rest.length ≤ bs.length := by
  unfold digits at h
  split at h
  · cases h
  · cases h
    exact (List.dropWhile_suffix _).length_le

theorem number_length {bs rest : List UInt8} {v : Json} (h : number bs = some (v, rest)) :
    rest.length ≤ bs.length := by
  unfold number at h
  dsimp only [Option.bind_eq_bind] at h
  obtain ⟨⟨whole, afterWhole⟩, hw, h⟩ := Option.bind_eq_some_iff.mp h
  obtain ⟨⟨f, afterFraction⟩, hf, h⟩ := Option.bind_eq_some_iff.mp h
  obtain ⟨⟨e, afterExponent⟩, he, h⟩ := Option.bind_eq_some_iff.mp h
  have sign := takeIf_length (· = 0x2d) bs
  have wholeShorter : afterWhole.length ≤ (takeIf (· = 0x2d) bs).2.length := by
    have zero := takeIf_length (· = 0x30) (takeIf (· = 0x2d) bs).2
    unfold wholePart at hw
    dsimp only at hw
    split at hw
    · cases hw
      exact zero
    · exact digits_length hw
  have fractionShorter : afterFraction.length ≤ afterWhole.length := by
    have point := takeIf_length (· = 0x2e) afterWhole
    unfold fractionPart at hf
    dsimp only at hf
    split at hf
    · obtain ⟨⟨ds, left⟩, found, same⟩ := Option.map_eq_some_iff.mp hf
      cases same
      exact Nat.le_trans (digits_length found) point
    · cases hf
      exact Nat.le_refl _
  have exponentShorter : afterExponent.length ≤ afterFraction.length := by
    have mark := takeIf_length (fun b => b = 0x65 || b = 0x45) afterFraction
    have plus := takeIf_length (fun b => b = 0x2b || b = 0x2d)
      (takeIf (fun b => b = 0x65 || b = 0x45) afterFraction).2
    unfold exponentPart at he
    dsimp only at he
    split at he
    · obtain ⟨⟨ds, left⟩, found, same⟩ := Option.map_eq_some_iff.mp he
      cases same
      exact Nat.le_trans (digits_length found) (Nat.le_trans plus mark)
    · cases he
      exact Nat.le_refl _
  dsimp only at h
  split at h
  · cases h
    omega
  · cases h
    omega

theorem skipWhitespace_length (bs : List UInt8) : (skipWhitespace bs).length ≤ bs.length :=
  (List.dropWhile_suffix _).length_le

/-! ### Values -/

mutual

def value (depth : Nat) (bs : List UInt8) : Option (Took Json bs.length) :=
  match bs with
  | [] => none
  | b :: rest =>
      if b = 0x7b then do
        let r ← object depth (b :: rest)
        some ⟨.object r.value, r.rest, r.within⟩
      else if b = 0x5b then array depth (b :: rest)
      else if b = 0x22 then do
        let r ← string (b :: rest)
        some ⟨.str r.value, r.rest, r.within⟩
      else if b = 0x74 then literal "true" (.bool true) (b :: rest)
      else if b = 0x66 then literal "false" (.bool false) (b :: rest)
      else if b = 0x6e then literal "null" .null (b :: rest)
      else if b = 0x2d ∨ isDigit b then
        match h : number (b :: rest) with
        | some (v, left) => some ⟨v, left, number_length h⟩
        | none => none
      else none
termination_by 4 * bs.length + 1

def object (depth : Nat) (bs : List UInt8) : Option (Took JsonObject bs.length) :=
  if maxDepth < depth + 1 then none
  else do
    let brace ← expect 0x7b bs
    match h : skipWhitespace brace.1 with
    | 0x7d :: rest =>
        some ⟨[], rest, by
          have := skipWhitespace_length brace.1
          have := brace.2
          rw [h, List.length_cons] at *
          omega⟩
    | _ => do
        let r ← members (depth + 1) [] brace.1
        some ⟨r.value, r.rest, Nat.le_trans r.within (Nat.le_of_lt brace.2)⟩
termination_by 4 * bs.length
decreasing_by
  have := brace.2
  omega

/-- The loop of `object`: a key, its value, then a comma or the end. -/
def members (depth : Nat) (read : JsonObject) (bs : List UInt8) :
    Option (Took JsonObject bs.length) := do
  let key ← string (skipWhitespace bs)
  let colon ← expect 0x3a (skipWhitespace key.rest)
  have before : (skipWhitespace colon.1).length ≤ bs.length := by
    have := skipWhitespace_length bs
    have := skipWhitespace_length key.rest
    have := skipWhitespace_length colon.1
    have := key.within
    have := colon.2
    omega
  let v ← value depth (skipWhitespace colon.1)
  have after : (skipWhitespace v.rest).length ≤ bs.length := by
    have := skipWhitespace_length v.rest
    have := v.within
    omega
  if (JsonObject.get read key.value).isSome then none
  else
    match h : skipWhitespace v.rest with
    | 0x2c :: rest =>
        have shorter : rest.length < bs.length := by rw [h, List.length_cons] at after; omega
        do
          let r ← members depth (read ++ [(key.value, v.value)]) rest
          some ⟨r.value, r.rest, Nat.le_trans r.within (Nat.le_of_lt shorter)⟩
    | 0x7d :: rest =>
        some ⟨read ++ [(key.value, v.value)], rest, by rw [h, List.length_cons] at after; omega⟩
    | _ => none
termination_by 4 * bs.length + 2

def array (depth : Nat) (bs : List UInt8) : Option (Took Json bs.length) :=
  if maxDepth < depth + 1 then none
  else do
    let bracket ← expect 0x5b bs
    match h : skipWhitespace bracket.1 with
    | 0x5d :: rest =>
        some ⟨.array [], rest, by
          have := skipWhitespace_length bracket.1
          have := bracket.2
          rw [h, List.length_cons] at *
          omega⟩
    | _ => do
        let r ← items (depth + 1) bracket.1
        some ⟨.array r.value, r.rest, Nat.le_trans r.within (Nat.le_of_lt bracket.2)⟩
termination_by 4 * bs.length
decreasing_by
  have := bracket.2
  omega

/-- The loop of `array`. -/
def items (depth : Nat) (bs : List UInt8) : Option (Took (List Json) bs.length) := do
  let v ← value depth (skipWhitespace bs)
  have after : (skipWhitespace v.rest).length ≤ bs.length := by
    have := skipWhitespace_length bs
    have := skipWhitespace_length v.rest
    have := v.within
    omega
  match h : skipWhitespace v.rest with
  | 0x2c :: rest =>
      have shorter : rest.length < bs.length := by rw [h, List.length_cons] at after; omega
      do
        let r ← items depth rest
        some ⟨v.value :: r.value, r.rest, Nat.le_trans r.within (Nat.le_of_lt shorter)⟩
  | 0x5d :: rest => some ⟨[v.value], rest, by rw [h, List.length_cons] at after; omega⟩
  | _ => none
termination_by 4 * bs.length + 2
decreasing_by
  · have := skipWhitespace_length bs
    omega
  · omega

end

/-- Parses the bytes as one JSON object and nothing else. -/
def parseObject (bs : List UInt8) : Option JsonObject := do
  let text ← fromUtf8 bs
  let r ← object 0 (skipWhitespace (bytes text))
  if skipWhitespace r.rest = [] then some r.value else none

end Hecks.Signin.StrictJson
