import Mathlib
import Hecks.Signin.StrictJson
import Hecks.Lib.Utf8
import Hecks.Json.Accepts

/-! The texts that are one JSON object of a token, each with what it stands for: RFC 8259, with
surrogate escapes in pairs only, at most eight levels deep and no key twice in one object. A
production relates the text it starts from to what it stands for and the text it leaves. -/

namespace Hecks.Signin.Grammar

open Hecks.Json.Grammar (Numeral rfc8259 Spaces)
open StrictJson (JsonObject maxDepth)

/-- The escapes of one letter, and what they stand for. -/
def escapes : List (Char × Char) :=
  [('"', '"'), ('\\', '\\'), ('/', '/'), ('b', '\x08'), ('f', '\x0c'), ('n', '\n'), ('r', '\r'),
    ('t', '\t')]

/-- The rest of a string, its closing quote included, and the characters it stands for. -/
inductive Chars : List Char → List Char → List Char → Prop
  | close {rest} : Chars ('"' :: rest) [] rest
  | plain {c cs t rest} : rfc8259.plain c → Chars cs t rest → Chars (c :: cs) (c :: t) rest
  | escape {e c cs t rest} : (e, c) ∈ escapes → Chars cs t rest → Chars ('\\' :: e :: cs) (c :: t) rest
  | unicode {a b c d cs t rest} {code : Nat} : Text.hexValue [a, b, c, d] 0 = some code →
      code.isValidChar → Chars cs t rest →
      Chars ('\\' :: 'u' :: a :: b :: c :: d :: cs) (Char.ofNat code :: t) rest
  | pair {a b c d a' b' c' d' cs t rest} {high low : Nat} :
      Text.hexValue [a, b, c, d] 0 = some high → Text.hexValue [a', b', c', d'] 0 = some low →
      0xD800 ≤ high → high ≤ 0xDBFF → 0xDC00 ≤ low → low ≤ 0xDFFF → Chars cs t rest →
      Chars ('\\' :: 'u' :: a :: b :: c :: d :: '\\' :: 'u' :: a' :: b' :: c' :: d' :: cs)
        (Char.ofNat (0x10000 + (high - 0xD800) * 0x400 + (low - 0xDC00)) :: t) rest

/-- The integer a numeral without fraction and exponent spells. -/
def exact (n : Numeral) : Int :=
  let magnitude : Nat := n.whole.foldl (fun k c => k * 10 + (c.toNat - '0'.toNat)) 0
  if n.minus then -(magnitude : Int) else magnitude

/-- What a number stands for: an integer, saturated to 128 bits, or only the fact that it is no
integer literal. -/
def numeral (n : Numeral) : StrictJson.Json :=
  if n.fraction = none ∧ n.exponent = none then .int (max (-2 ^ 127) (min (exact n) (2 ^ 127 - 1)))
  else .number

mutual

/-- A value inside `depth` arrays and objects. -/
inductive Value : Nat → List Char → StrictJson.Json → List Char → Prop
  | null {depth rest} : Value depth ("null".toList ++ rest) .null rest
  | yes {depth rest} : Value depth ("true".toList ++ rest) (.bool true) rest
  | no {depth rest} : Value depth ("false".toList ++ rest) (.bool false) rest
  | number {depth rest} (n : Numeral) : n.Strict → Value depth (n.text ++ rest) (numeral n) rest
  | string {depth cs t rest} : Chars cs t rest → Value depth ('"' :: cs) (.str (String.ofList t)) rest
  | emptyArray {depth cs rest} : depth < maxDepth → Spaces rfc8259 cs (']' :: rest) →
      Value depth ('[' :: cs) (.array []) rest
  | array {depth cs vs rest} : depth < maxDepth → Items (depth + 1) cs vs rest →
      Value depth ('[' :: cs) (.array vs) rest
  | object {depth cs ms rest} : Object depth cs ms rest → Value depth cs (.object ms) rest

/-- An object inside `depth` arrays and objects. -/
inductive Object : Nat → List Char → JsonObject → List Char → Prop
  | empty {depth cs rest} : depth < maxDepth → Spaces rfc8259 cs ('\x7d' :: rest) →
      Object depth ('\x7b' :: cs) [] rest
  | some {depth cs ms rest} : depth < maxDepth → Members (depth + 1) cs ms rest →
      (ms.map Prod.fst).Nodup → Object depth ('\x7b' :: cs) ms rest

/-- The values of an array, its closing bracket included. -/
inductive Items : Nat → List Char → List StrictJson.Json → List Char → Prop
  | last {depth cs value v after rest} : Spaces rfc8259 cs value → Value depth value v after →
      Spaces rfc8259 after (']' :: rest) → Items depth cs [v] rest
  | more {depth cs value v vs after next rest} : Spaces rfc8259 cs value →
      Value depth value v after → Spaces rfc8259 after (',' :: next) → Items depth next vs rest →
      Items depth cs (v :: vs) rest

/-- The members of an object, its closing brace included. -/
inductive Members : Nat → List Char → JsonObject → List Char → Prop
  | last {depth cs key k colon body value v after rest} : Spaces rfc8259 cs ('"' :: key) →
      Chars key k colon → Spaces rfc8259 colon (':' :: body) → Spaces rfc8259 body value →
      Value depth value v after → Spaces rfc8259 after ('\x7d' :: rest) →
      Members depth cs [(String.ofList k, v)] rest
  | more {depth cs key k colon body value v ms after next rest} :
      Spaces rfc8259 cs ('"' :: key) → Chars key k colon → Spaces rfc8259 colon (':' :: body) →
      Spaces rfc8259 body value → Value depth value v after →
      Spaces rfc8259 after (',' :: next) → Members depth next ms rest →
      Members depth cs ((String.ofList k, v) :: ms) rest

end

/-- One object with spaces around it, and nothing else. -/
def Document (cs : List Char) (ms : JsonObject) : Prop :=
  ∃ value after, Spaces rfc8259 cs value ∧ Object 0 value ms after ∧ Spaces rfc8259 after []

end Hecks.Signin.Grammar
