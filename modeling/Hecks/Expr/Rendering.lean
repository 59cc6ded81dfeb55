import Hecks.Expr
import Hecks.Lib.Panics
import Hecks.Lib.FloatOrder

/-! How a value is printed: a float as Ruby prints it, a value as an error message names it,
and Rust's own `Debug` text. -/
namespace Hecks

open Panics

/-- A step of an evaluation: an answer, a refusal, or a panic. -/
abbrev Eval := Run Refusal

namespace RubyFloat

def fixedMinExponent : Int := -4

def fixedMaxExponent : Int := 14

/-- The decimal point `exponent` digits after the first one, with zeros as needed. -/
def fixed (digits : List Char) (exponent : Int) : Eval (List Char) :=
  if exponent < 0 then do
    let zeros ← subSize exponent.natAbs 1
    return "0.".toList ++ List.replicate zeros '0' ++ digits
  else do
    let wholeLen := exponent.toNat + 1
    if digits.length ≤ wholeLen then
      let zeros ← subSize wholeLen digits.length
      return digits ++ List.replicate zeros '0' ++ ".0".toList
    else
      let (whole, fraction) ← splitAt digits wholeLen
      return whole ++ '.' :: fraction

/-- `exponent.abs()` of an `i32`. -/
def absI32 (i : Int) : Eval Nat :=
  if i = -2147483648 then abort "attempt to negate with overflow" else pure i.natAbs

/-- `\x7b:02\x7d`. -/
def twoDigits (n : Nat) : List Char :=
  List.replicate (2 - (Nat.toDigits 10 n).length) '0' ++ Nat.toDigits 10 n

/-- A finite float other than zero, off its `\x7b:e\x7d` text. -/
def ofScientific (sign scientific : List Char) : Eval String := do
  let (mantissa, exponent) := (Text.splitOnceChars ['e'] scientific).getD (scientific, ['0'])
  let exponent := (Text.parseI32 (String.ofList exponent)).getD 0
  let digits := mantissa.filter fun c => (Text.digit? c).isSome
  if fixedMinExponent ≤ exponent ∧ exponent ≤ fixedMaxExponent then
    let text ← fixed digits exponent
    return String.ofList (sign ++ text)
  else
    let (head, tail) ← splitAt digits 1
    let tail := if tail.isEmpty then ['0'] else tail
    let power ← absI32 exponent
    return String.ofList (sign ++ head ++ '.' :: tail ++
      'e' :: (if exponent < 0 then '-' else '+') :: twoDigits power)

/-- `Float#to_s`. -/
def toS (n : Float.Model) : Eval String :=
  if n.isNaN then pure "NaN"
  else if n.isInf then pure (if n < Float.Model.ofNat 0 then "-Infinity" else "Infinity")
  else
    let sign := if Binary64.isSignNegative n then ['-'] else []
    if n == Float.Model.ofNat 0 then pure (String.ofList (sign ++ "0.0".toList))
    else ofScientific sign (Binary64.lowerExp n.abs)

section

variable {P : Refusal → Prop}

theorem settles_fixed {digits : List Char} {exponent : Int} : Settles P (fixed digits exponent) := by
  unfold fixed
  apply settles_ite
  · intro negative
    apply settles_bind (settles_subSize (by omega))
    intro zeros _
    exact settles_pure _
  · intro _
    apply settles_ite
    · intro short
      apply settles_bind (settles_subSize short)
      intro zeros _
      exact settles_pure _
    · intro long
      apply settles_bind (settles_splitAt (by omega))
      intro parts _
      exact settles_pure _

/-- Digits, a point and an exponent: the text a finite float has. -/
theorem settles_ofScientific {sign : List Char} {d : Char} {ds : List Char} {i : Int}
    (digit : d.isDigit) (digits : ∀ c ∈ ds, c.isDigit) (low : -2000 ≤ i) (high : i ≤ 2000) :
    Settles P (ofScientific sign (d :: ((if ds = [] then [] else '.' :: ds) ++
      'e' :: (toString i).toList))) := by
  have split : ∀ cs rest : List Char, (∀ c ∈ cs, c ≠ 'e') →
      Text.splitOnceChars ['e'] (cs ++ 'e' :: rest) = some (cs, rest) := by
    intro cs rest clear
    induction cs with
    | nil => simp [Text.splitOnceChars]
    | cons c cs ih =>
      have ne := clear c List.mem_cons_self
      have later := ih fun c hc => clear c (List.mem_cons_of_mem _ hc)
      simp [Text.splitOnceChars, later, Ne.symm ne]
  have clear : ∀ c ∈ d :: (if ds = [] then [] else '.' :: ds), c ≠ 'e' := by
    intro c hc
    have cases : c.isDigit ∨ c = '.' := by
      rcases List.mem_cons.mp hc with rfl | tail
      · exact .inl digit
      · split at tail
        · cases tail
        · rcases List.mem_cons.mp tail with rfl | tail
          · exact .inr rfl
          · exact .inl (digits c tail)
    rintro rfl
    rcases cases with h | h
    · cases h
    · cases h
  have parts := split _ (toString i).toList clear
  have exponent : Text.parseI32 (String.ofList (toString i).toList) = some i := by
    rw [String.ofList_toList]
    exact Decimal.parseI32_toString (by omega) (by omega)
  have some : 1 ≤ ((d :: (if ds = [] then [] else '.' :: ds)).filter
      fun c => (Text.digit? c).isSome).length := by
    have kept : (Text.digit? d).isSome = true := by rw [Decimal.digit?_isSome, digit]
    rw [List.filter_cons, if_pos kept]
    simp
  unfold ofScientific
  rw [← List.cons_append, parts, Option.getD_some]
  dsimp only
  rw [exponent, Option.getD_some]
  apply settles_ite
  · intro _
    apply settles_bind settles_fixed
    intro text _
    exact settles_pure _
  · intro _
    apply settles_bind (settles_splitAt some)
    intro ends _
    have power : Settles P (absI32 i) := by
      unfold absI32
      rw [if_neg (by omega)]
      exact settles_pure _
    apply settles_bind power
    intro _ _
    exact settles_pure _

/-- Every float prints. -/
theorem settles_toS (n : Float.Model) : Settles P (toS n) := by
  unfold toS
  apply settles_ite
  · intro _
    exact settles_pure _
  intro number
  apply settles_ite
  · intro _
    exact settles_pure _
  intro finite
  apply settles_ite
  · intro _
    exact settles_pure _
  intro nonzero
  cases eq : n.unpack with
  | notANumber => simp [Float.Model.isNaN, eq, Float.Model.UnpackedFloat.isNaN] at number
  | infinity s => simp [Float.Model.isInf, eq, Float.Model.UnpackedFloat.isInf] at finite
  | zero s =>
    exfalso
    apply nonzero
    change Float.Model.UnpackedFloat.beq n.unpack _ = true
    rw [eq]
    rfl
  | finite s m e hm =>
    obtain ⟨d, ds, i, text, digit, digits, low, high⟩ :=
      Decimal.lowerExp_spec (Decimal.unpack_abs eq)
    rw [text]
    exact settles_ofScientific digit digits low high

end

end RubyFloat

namespace Rendering

def hexUpper (n : Nat) : List Char := (Text.hexDigits n).map Char.toUpper

/-- `\x7b:04X\x7d`. -/
def hex4Upper (n : Nat) : List Char :=
  List.replicate (4 - (hexUpper n).length) '0' ++ hexUpper n

/-- Ruby's `String#inspect`, past the opening quote. -/
def inspectChars : List Char → List Char
  | [] => ['"']
  | c :: cs =>
      let next := cs.head?
      (match c with
        | '"' => ['\\', '"']
        | '\\' => ['\\', '\\']
        | '\n' => ['\\', 'n']
        | '\t' => ['\\', 't']
        | '\r' => ['\\', 'r']
        | '\x07' => ['\\', 'a']
        | '\x08' => ['\\', 'b']
        | '\x0b' => ['\\', 'v']
        | '\x0c' => ['\\', 'f']
        | '\x1b' => ['\\', 'e']
        | c =>
            if c = '#' ∧ (next = some '\x7b' ∨ next = some '$' ∨ next = some '@') then ['\\', '#']
            else if c.toNat < 0x20 ∨ c.toNat = 0x7f then ['\\', 'u'] ++ hex4Upper c.toNat
            else [c]) ++ inspectChars cs

def rubyInspect (s : String) : String := String.ofList ('"' :: inspectChars s.toList)

/-- `\x7b:04x\x7d`. -/
def hex4Lower (n : Nat) : List Char :=
  List.replicate (4 - (Text.hexDigits n).length) '0' ++ Text.hexDigits n

def jsonChar (c : Char) : List Char :=
  match c with
  | '"' => ['\\', '"']
  | '\\' => ['\\', '\\']
  | '\n' => ['\\', 'n']
  | '\r' => ['\\', 'r']
  | '\t' => ['\\', 't']
  | c => if c.toNat < 0x20 then ['\\', 'u'] ++ hex4Lower c.toNat else [c]

/-- A JSON string literal. -/
def jsonString (s : String) : String :=
  String.ofList ('"' :: (s.toList.flatMap jsonChar ++ ['"']))

mutual

/-- Ruby's `JSON.generate` of a value. -/
def generate : Value → Eval String
  | .nil => pure "null"
  | .bool b => pure (toString b)
  | .int i => pure (toString i.toInt)
  | .float n => RubyFloat.toS n
  | .str s => pure (jsonString s)
  | .list _ => pure "[]"
  | .array items => do
      let parts ← generateItems items
      return "[" ++ Text.join "," parts ++ "]"
  | .object fields => do
      let parts ← generateFields fields
      return "\x7b" ++ Text.join "," parts ++ "\x7d"

def generateItems : List Value → Eval (List String)
  | [] => pure []
  | v :: vs => do
      let text ← generate v
      let rest ← generateItems vs
      return text :: rest

def generateFields : List (String × Value) → Eval (List String)
  | [] => pure []
  | (key, v) :: fields => do
      let text ← generate v
      let rest ← generateFields fields
      return (jsonString key ++ ":" ++ text) :: rest

end

section

variable {P : Refusal → Prop}

mutual

theorem settles_generate : (v : Value) → Settles P (generate v)
  | .nil => settles_pure _
  | .bool _ => settles_pure _
  | .int _ => settles_pure _
  | .float n => RubyFloat.settles_toS n
  | .str _ => settles_pure _
  | .list _ => settles_pure _
  | .array items => settles_bind (settles_generateItems items) fun _ _ => settles_pure _
  | .object fields => settles_bind (settles_generateFields fields) fun _ _ => settles_pure _

theorem settles_generateItems : (vs : List Value) → Settles P (generateItems vs)
  | [] => settles_pure _
  | v :: vs => settles_bind (settles_generate v) fun _ _ =>
      settles_bind (settles_generateItems vs) fun _ _ => settles_pure _

theorem settles_generateFields : (fs : List (String × Value)) → Settles P (generateFields fs)
  | [] => settles_pure _
  | (_, v) :: fs => settles_bind (settles_generate v) fun _ _ =>
      settles_bind (settles_generateFields fs) fun _ _ => settles_pure _

end

end

/-- Ruby's `Rendering.describe`: a value as an error message names it. -/
def describe : Value → Eval String
  | .nil => pure "nil"
  | .str s => pure (rubyInspect s)
  | other => generate other

theorem settles_describe {P : Refusal → Prop} (v : Value) : Settles P (describe v) := by
  unfold describe
  split
  · exact settles_pure _
  · exact settles_pure _
  · exact settles_generate v

/-- The Ruby class name of a value. -/
def classOf : Value → String
  | .nil => "nil"
  | .int _ => "Integer"
  | .float _ => "Float"
  | .str _ => "String"
  | .bool true => "TrueClass"
  | .bool false => "FalseClass"
  | .list _ | .array _ => "Array"
  | .object _ => "Hash"

section

variable (escapes : Char → Bool)

mutual

/-- The derived `Debug` text of a value. -/
def debugValue : Value → String
  | .int i => "Int(" ++ toString i.toInt ++ ")"
  | .float n => "Float(" ++ Binary64.debug n ++ ")"
  | .str s => "Str(" ++ Text.debugStr escapes s ++ ")"
  | .bool b => "Bool(" ++ toString b ++ ")"
  | .list n => "List(" ++ toString n ++ ")"
  | .nil => "Nil"
  | .array items => "Array([" ++ Text.join ", " (debugItems items) ++ "])"
  | .object fields => "Object(\x7b" ++ Text.join ", " (debugFields fields) ++ "\x7d)"

def debugItems : List Value → List String
  | [] => []
  | v :: vs => debugValue v :: debugItems vs

def debugFields : List (String × Value) → List String
  | [] => []
  | (key, v) :: fields =>
      (Text.debugStr escapes key ++ ": " ++ debugValue v) :: debugFields fields

end

end

end Rendering

end Hecks
