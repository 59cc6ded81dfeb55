import Mathlib

/-! The string operations of Rust's standard library that the kernel uses, on the
characters of a string. Every one is structurally recursive, so a concrete text
evaluates in the kernel. -/
namespace Text

/-- `split_once`: the texts before and after the first occurrence of `sep`. -/
def splitOnceChars (sep : List Char) : List Char → Option (List Char × List Char)
  | [] => if sep = [] then some ([], []) else none
  | c :: cs =>
      if sep.isPrefixOf (c :: cs) then some ([], (c :: cs).drop sep.length)
      else (splitOnceChars sep cs).map fun (before, after) => (c :: before, after)

def splitOnce (sep s : String) : Option (String × String) :=
  (splitOnceChars sep.toList s.toList).map fun (before, after) =>
    (String.ofList before, String.ofList after)

/-- `rsplit_once`: the texts before and after the last occurrence of `sep`. -/
def rsplitOnce (sep s : String) : Option (String × String) :=
  (splitOnceChars sep.toList.reverse s.toList.reverse).map fun (after, before) =>
    (String.ofList before.reverse, String.ofList after.reverse)

/-- `split(sep).next()`. -/
def firstSegment (sep s : String) : String :=
  match splitOnce sep s with
  | some (before, _) => before
  | none => s

/-- `rsplit(sep).next()`. -/
def lastSegment (sep s : String) : String :=
  match rsplitOnce sep s with
  | some (_, after) => after
  | none => s

/-- `replacen(sep, by, 1)`. -/
def replaceFirst (sep new s : String) : String :=
  match splitOnce sep s with
  | some (before, after) => before ++ new ++ after
  | none => s

/-- `skip` characters of a match already replaced are still to be passed over. -/
def replaceAllChars (sep new : List Char) : Nat → List Char → List Char
  | _, [] => []
  | skip + 1, _ :: cs => replaceAllChars sep new skip cs
  | 0, c :: cs =>
      if sep.isPrefixOf (c :: cs) then new ++ replaceAllChars sep new (sep.length - 1) cs
      else c :: replaceAllChars sep new 0 cs

/-- `replace(sep, by)` for a `sep` that is not empty: every occurrence, left to right. -/
def replaceAll (sep new s : String) : String :=
  String.ofList (replaceAllChars sep.toList new.toList 0 s.toList)

def segmentsChars (sep : Char) : List Char → List (List Char)
  | [] => [[]]
  | c :: cs =>
      if c = sep then [] :: segmentsChars sep cs
      else
        match segmentsChars sep cs with
        | [] => [[c]]
        | s :: ss => (c :: s) :: ss

/-- `split(sep)` for one character: always at least one segment. -/
def segments (sep : Char) (s : String) : List String :=
  (segmentsChars sep s.toList).map String.ofList

/-- `skip` characters of a separator already met are still to be passed over. -/
def splitChars (sep : List Char) : Nat → List Char → List (List Char)
  | _, [] => [[]]
  | skip + 1, _ :: cs => splitChars sep skip cs
  | 0, c :: cs =>
      if sep.isPrefixOf (c :: cs) then [] :: splitChars sep (sep.length - 1) cs
      else
        match splitChars sep 0 cs with
        | [] => [[c]]
        | s :: ss => (c :: s) :: ss

/-- `split(sep)` for a text that is not empty. -/
def splitOn (sep s : String) : List String :=
  (splitChars sep.toList 0 s.toList).map String.ofList

/-- `split` at every character the test accepts. -/
def splitWhere (pred : Char → Bool) : List Char → List (List Char)
  | [] => [[]]
  | c :: cs =>
      if pred c then [] :: splitWhere pred cs
      else
        match splitWhere pred cs with
        | [] => [[c]]
        | s :: ss => (c :: s) :: ss

def startsWith (sub s : String) : Bool := sub.toList.isPrefixOf s.toList

def endsWith (sub s : String) : Bool := sub.toList.isSuffixOf s.toList

/-- `strip_prefix` for one character. -/
def stripPrefix (c : Char) (s : String) : Option String :=
  match s.toList with
  | d :: ds => if d = c then some (String.ofList ds) else none
  | [] => none

/-- `strip_suffix` for one character. -/
def stripSuffix (c : Char) (s : String) : Option String :=
  match s.toList.reverse with
  | d :: ds => if d = c then some (String.ofList ds.reverse) else none
  | [] => none

def containsChar (c : Char) (s : String) : Bool := s.toList.contains c

def digit? (c : Char) : Option Nat :=
  if '0' ≤ c ∧ c ≤ '9' then some (c.toNat - '0'.toNat) else none

/-- The value of a run of decimal digits, `none` on any other character. -/
def digitsValue : List Char → Nat → Option Nat
  | [], acc => some acc
  | c :: cs, acc => (digit? c).bind fun d => digitsValue cs (10 * acc + d)

/-- A sign, then the rest: `parse` reads both `+` and `-`. -/
def splitSign : List Char → Bool × List Char
  | '-' :: cs => (true, cs)
  | '+' :: cs => (false, cs)
  | cs => (false, cs)

/-- `parse::<i64>()`: an optional sign and at least one digit, within the 64-bit range. -/
def parseI64 (s : String) : Option Int64 :=
  match splitSign s.toList with
  | (_, []) => none
  | (neg, ds) =>
      (digitsValue ds 0).bind fun n =>
        let i : Int := if neg then -(n : Int) else n
        if Int64.minValue.toInt ≤ i ∧ i ≤ Int64.maxValue.toInt then some (Int64.ofInt i) else none

/-- `parse::<i32>()`. -/
def parseI32 (s : String) : Option Int :=
  match splitSign s.toList with
  | (_, []) => none
  | (neg, ds) =>
      (digitsValue ds 0).bind fun n =>
        let i : Int := if neg then -(n : Int) else n
        if -2147483648 ≤ i ∧ i ≤ 2147483647 then some i else none

def hexDigits (n : Nat) : List Char := Nat.toDigits 16 n

/-- One character as `{:?}` writes it inside a string. `escapes` says which characters
outside ASCII are written as `\u`: the standard library's Unicode tables decide it. -/
def debugChar (escapes : Char → Bool) (c : Char) : List Char :=
  match c with
  | '\x00' => ['\\', '0']
  | '\t' => ['\\', 't']
  | '\r' => ['\\', 'r']
  | '\n' => ['\\', 'n']
  | '\\' => ['\\', '\\']
  | '"' => ['\\', '"']
  | c =>
      if c.toNat < 32 ∨ c.toNat = 127 ∨ (128 ≤ c.toNat ∧ escapes c) then
        ['\\', 'u', '\x7b'] ++ hexDigits c.toNat ++ ['\x7d']
      else [c]

/-- `format!("{s:?}")`. -/
def debugStr (escapes : Char → Bool) (s : String) : String :=
  String.ofList ('"' :: s.toList.flatMap (debugChar escapes) ++ ['"'])

/-- `format!("{c:?}")` for an optional character: quoted as a character is, not as text is. -/
def debugOption (escapes : Char → Bool) : Option Char → String
  | none => "None"
  | some '\'' => "Some('\\'')"
  | some '"' => "Some('\"')"
  | some c => String.ofList ("Some('".toList ++ debugChar escapes c ++ "')".toList)

/-- `char::is_whitespace`: the `White_Space` property of Unicode. -/
def isWhitespace (c : Char) : Bool :=
  (9 ≤ c.toNat && c.toNat ≤ 13) || c.toNat == 0x20 || c.toNat == 0x85 || c.toNat == 0xA0 ||
    c.toNat == 0x1680 || (0x2000 ≤ c.toNat && c.toNat ≤ 0x200A) || c.toNat == 0x2028 ||
    c.toNat == 0x2029 || c.toNat == 0x202F || c.toNat == 0x205F || c.toNat == 0x3000

/-- `trim`. -/
def trim (s : String) : String :=
  String.ofList ((s.toList.dropWhile isWhitespace).rdropWhile isWhitespace)

/-- `contains` for a text: it occurs somewhere. -/
def containsText (sub s : String) : Bool := (splitOnceChars sub.toList s.toList).isSome

def hexDigit? (c : Char) : Option Nat :=
  if '0' ≤ c ∧ c ≤ '9' then some (c.toNat - '0'.toNat)
  else if 'a' ≤ c ∧ c ≤ 'f' then some (c.toNat - 'a'.toNat + 10)
  else if 'A' ≤ c ∧ c ≤ 'F' then some (c.toNat - 'A'.toNat + 10)
  else none

def hexValue : List Char → Nat → Option Nat
  | [], acc => some acc
  | c :: cs, acc => (hexDigit? c).bind fun d => hexValue cs (16 * acc + d)

/-- `u32::from_str_radix(_, 16)` of a text too short to overflow: a `+` may stand before
the digits. -/
def fromStrRadix16 : List Char → Option Nat
  | [] => none
  | ['+'] => none
  | '+' :: cs => hexValue cs 0
  | cs => hexValue cs 0

/-- `join`: the texts with `sep` between them. -/
def join (sep : String) : List String → String
  | [] => ""
  | [s] => s
  | s :: ss => s ++ sep ++ join sep ss

example : rsplitOnce "." "Shop::Order.Line.Add" = some ("Shop::Order.Line", "Add") := by decide
example : replaceAll "ab" "c" "xabab" = "xcc" := by decide
example : segments '.' "a..b" = ["a", "", "b"] := by decide
example : parseI64 "-9223372036854775808" = some Int64.minValue := by decide

end Text
