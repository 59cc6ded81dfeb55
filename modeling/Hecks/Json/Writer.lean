import Hecks.Json.Parser

/-! The kernel's JSON writer, and the equality of JSON values. -/
namespace Hecks.Json

/-- `\x7b:04x\x7d`. -/
def hex4 (n : Nat) : List Char :=
  List.replicate (4 - (Text.hexDigits n).length) '0' ++ Text.hexDigits n

def writeEscapedChar (c : Char) : List Char :=
  match c with
  | '"' => ['\\', '"']
  | '\\' => ['\\', '\\']
  | '\n' => ['\\', 'n']
  | '\t' => ['\\', 't']
  | '\r' => ['\\', 'r']
  | '\x08' => ['\\', 'b']
  | '\x0c' => ['\\', 'f']
  | c => if c.toNat < 0x20 then '\\' :: 'u' :: hex4 c.toNat else [c]

def writeEscapedString (s : String) : List Char :=
  '"' :: (s.toList.flatMap writeEscapedChar ++ ['"'])

/-- A declared Float always carries a decimal point. -/
def writeFloat (n : Float.Model) : List Char :=
  let rendered := (Binary64.display n).toList
  if !rendered.contains '.' && !rendered.contains 'e' && !rendered.contains 'E' then
    rendered ++ ['.', '0']
  else rendered

mutual

def write : Json → List Char
  | object fields => '\x7b' :: (writeFields true fields ++ ['\x7d'])
  | array items => '[' :: (writeItems true items ++ [']'])
  | str s => writeEscapedString s
  | num _ (some raw) => raw.toList
  | num n none => (Parser.canonicalIntegerDigits n).toList
  | float n => writeFloat n
  | bool b => if b then "true".toList else "false".toList
  | null => "null".toList

/-- The fields with commas between them. -/
def writeFields (first : Bool) : List (String × Json) → List Char
  | [] => []
  | (k, v) :: fields =>
      (if first then [] else [',']) ++ (writeEscapedString k ++ (':' :: write v)) ++
        writeFields false fields

def writeItems (first : Bool) : List Json → List Char
  | [] => []
  | v :: items => (if first then [] else [',']) ++ write v ++ writeItems false items

end

def toJsonString (j : Json) : String := String.ofList (write j)

/-- The source text of a number decides only where both sides carry one. -/
def eqNum (a : Float.Model) (rawA : Option String) (b : Float.Model) (rawB : Option String) :
    Bool :=
  match rawA, rawB with
  | some x, some y => x == y
  | _, _ => a == b

mutual

/-- `PartialEq`. -/
def eq : Json → Json → Bool
  | object a, object b => eqFields a b
  | array a, array b => eqItems a b
  | str a, str b => a == b
  | num a rawA, num b rawB => eqNum a rawA b rawB
  | float a, float b => a == b
  | bool a, bool b => a == b
  | null, null => true
  | _, _ => false

def eqFields : List (String × Json) → List (String × Json) → Bool
  | [], [] => true
  | (k, v) :: a, (l, w) :: b => k == l && eq v w && eqFields a b
  | _, _ => false

def eqItems : List Json → List Json → Bool
  | [], [] => true
  | v :: a, w :: b => eq v w && eqItems a b
  | _, _ => false

end

end Hecks.Json
