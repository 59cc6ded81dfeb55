import Hecks.Json.Reads
import Hecks.Lib.Decimal

/-! The texts that are JSON. One grammar, with the four things in which what the reader
takes and what RFC 8259 allows differ left open: spaces, numbers, the characters a string
holds as they are, and the digits behind `\u`. A production relates the text it starts from
to the text it leaves. -/
open Reading Hecks.Json.Parser

namespace Hecks.Json.Grammar

structure Dialect where
  space : Char → Prop
  number : List Char → List Char → Prop
  plain : Char → Prop
  unicode : List Char → Prop

section

variable (D : Dialect)

def Spaces (cs rest : List Char) : Prop := ∃ ws, (∀ c ∈ ws, D.space c) ∧ cs = ws ++ rest

/-- The rest of a string, its closing quote included. -/
inductive Chars : List Char → List Char → Prop
  | close {rest} : Chars ('"' :: rest) rest
  | plain {c cs rest} : D.plain c → Chars cs rest → Chars (c :: cs) rest
  | escape {e cs rest} : e ∈ ['"', '\\', '/', 'b', 'f', 'n', 'r', 't'] → Chars cs rest →
      Chars ('\\' :: e :: cs) rest
  | unicode {a b c d cs rest} : D.unicode [a, b, c, d] → Chars cs rest →
      Chars ('\\' :: 'u' :: a :: b :: c :: d :: cs) rest

mutual

/-- A value inside `depth` arrays and objects. -/
inductive Value : Nat → List Char → List Char → Prop
  | word {depth w rest} : w ∈ ["true", "false", "null"] → Value depth (w.toList ++ rest) rest
  | number {depth cs rest} : D.number cs rest → Value depth cs rest
  | string {depth cs rest} : Chars D cs rest → Value depth ('"' :: cs) rest
  | emptyObject {depth cs rest} : depth < maxDepth → Spaces D cs ('\x7d' :: rest) →
      Value depth ('\x7b' :: cs) rest
  | object {depth cs rest} : depth < maxDepth → Fields (depth + 1) cs rest →
      Value depth ('\x7b' :: cs) rest
  | emptyArray {depth cs rest} : depth < maxDepth → Spaces D cs (']' :: rest) →
      Value depth ('[' :: cs) rest
  | array {depth cs rest} : depth < maxDepth → Items (depth + 1) cs rest →
      Value depth ('[' :: cs) rest

/-- The values of an array, its closing bracket included. -/
inductive Items : Nat → List Char → List Char → Prop
  | last {depth cs value after rest} : Spaces D cs value → Value depth value after →
      Spaces D after (']' :: rest) → Items depth cs rest
  | more {depth cs value after next rest} : Spaces D cs value → Value depth value after →
      Spaces D after (',' :: next) → Items depth next rest → Items depth cs rest

/-- The fields of an object, its closing brace included. -/
inductive Fields : Nat → List Char → List Char → Prop
  | last {depth cs key colon body value after rest} : Spaces D cs ('"' :: key) →
      Chars D key colon → Spaces D colon (':' :: body) → Spaces D body value →
      Value depth value after → Spaces D after ('\x7d' :: rest) → Fields depth cs rest
  | more {depth cs key colon body value after next rest} : Spaces D cs ('"' :: key) →
      Chars D key colon → Spaces D colon (':' :: body) → Spaces D body value →
      Value depth value after → Spaces D after (',' :: next) → Fields depth next rest →
      Fields depth cs rest

end

/-- One value with spaces around it, and nothing else. -/
def Document (cs : List Char) : Prop :=
  ∃ value after, Spaces D cs value ∧ Value D 0 value after ∧ Spaces D after []

end

/-! ### Numbers -/

/-- A number taken apart. -/
structure Numeral where
  minus : Bool
  whole : List Char
  fraction : Option (List Char)
  /-- the letter with its sign, and the digits -/
  exponent : Option (List Char × List Char)

namespace Numeral

variable (n : Numeral)

def fractionText : List Char :=
  match n.fraction with
  | none => []
  | some ds => '.' :: ds

def exponentText : List Char :=
  match n.exponent with
  | none => []
  | some (mark, ds) => mark ++ ds

def text : List Char :=
  (if n.minus then ['-'] else []) ++ n.whole ++ n.fractionText ++ n.exponentText

def marks : List (List Char) :=
  [['e'], ['E'], ['e', '+'], ['E', '+'], ['e', '-'], ['E', '-']]

structure WellFormed : Prop where
  whole : ∀ c ∈ n.whole, isDigit c
  fraction : ∀ ds ∈ n.fraction, ∀ c ∈ ds, isDigit c
  exponent : ∀ e ∈ n.exponent, e.1 ∈ marks ∧ ∀ c ∈ e.2, isDigit c

/-- RFC 8259: no leading zero, and a digit at least wherever digits may stand. -/
structure Strict : Prop extends WellFormed n where
  someWhole : n.whole ≠ []
  noLeadingZero : n.whole.head? = some '0' → n.whole = ['0']
  someFraction : ∀ ds ∈ n.fraction, ds ≠ []
  someExponent : ∀ e ∈ n.exponent, e.2 ≠ []

/-- What the reader asks for: a sign or a digit first, a digit before or after the point, and
one in the exponent. -/
structure Loose : Prop extends WellFormed n where
  start : n.minus = true ∨ n.whole ≠ []
  someDigit : n.whole ≠ [] ∨ n.fraction.getD [] ≠ []
  someExponent : ∀ e ∈ n.exponent, e.2 ≠ []

/-- A plain integer of any size, or a number whose `f64` is finite. -/
def InRange : Prop :=
  (n.fraction = none ∧ n.exponent = none) ∨
    ∃ f, Binary64.parse (String.ofList n.text) = some f ∧ f.isFinite

/-- The text behind the number does not go on with it. -/
def Stops (rest : List Char) : Prop :=
  ∀ c, rest.head? = some c → isDigit c = false ∧
    (n.exponent = none → c ≠ 'e' ∧ c ≠ 'E' ∧ (n.fraction = none → c ≠ '.'))

end Numeral

/-! ### The dialects -/

def hexDigit (c : Char) : Prop := ('0' ≤ c ∧ c ≤ '9') ∨ ('a' ≤ c ∧ c ≤ 'f') ∨ ('A' ≤ c ∧ c ≤ 'F')

/-- RFC 8259. -/
def rfc8259 : Dialect where
  space c := c ∈ [' ', '\t', '\n', '\r']
  number cs rest := ∃ n : Numeral, n.Strict ∧ cs = n.text ++ rest
  plain c := 0x20 ≤ c.toNat ∧ c ≠ '"' ∧ c ≠ '\\'
  unicode ds := ∀ c ∈ ds, hexDigit c

/-- RFC 8259 with every number within the range of `f64`, or a plain integer. -/
def rfc8259InRange : Dialect :=
  { rfc8259 with
    number := fun cs rest => ∃ n : Numeral, n.Strict ∧ n.InRange ∧ cs = n.text ++ rest }

/-- What the reader takes: any Unicode space, numbers of any number of leading zeros and with
one side of the point empty, raw control characters, and a `+` for the first of the four
characters behind `\u`. -/
def loose : Dialect where
  space c := Text.isWhitespace c = true
  number cs rest := ∃ n : Numeral, n.Loose ∧ n.InRange ∧ n.Stops rest ∧ cs = n.text ++ rest
  plain c := c ≠ '"' ∧ c ≠ '\\'
  unicode ds := ∃ c cs, ds = c :: cs ∧ (c = '+' ∨ hexDigit c) ∧ ∀ c ∈ cs, hexDigit c

end Hecks.Json.Grammar
