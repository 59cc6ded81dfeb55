import Hecks.Expr.Lookup

/-! The operators on values: arithmetic, comparison, text, patterns and presence. -/
namespace Hecks.Operators

open Panics

/-- `scalar::numeric`: integers and floats mix freely, nothing else is a number. -/
def numeric : Value → Option Float.Model
  | .int i => some (Float.Model.ofInt64 i)
  | .float n => some n
  | _ => none

def zero : Float.Model := Float.Model.ofNat 0

def requireNumber (v : Value) (operation : String) : Eval Float.Model :=
  match numeric v with
  | some n => pure n
  | none => do
      let text ← Rendering.describe v
      evalError (operation ++ " expects a number, got " ++ text)

section

variable (escapes : Char → Bool)

/-! ### Arithmetic -/

/-- An operand as Ruby prints it. -/
def quoted : Value → Eval String
  | .int i => pure (toString i.toInt)
  | .float n => RubyFloat.toS n
  | other => pure (Rendering.debugValue escapes other)

/-- A float result passes only where it is finite. -/
def finite (name symbol : String) (lhs rhs : Value) (result : Float.Model) : Eval Value :=
  if result.isFinite then pure (.float result)
  else do
    let l ← quoted escapes lhs
    let r ← quoted escapes rhs
    evalError (name ++ " overflowed: " ++ l ++ " " ++ symbol ++ " " ++ r ++
      " is not a finite number")

/-- An integer result that must fit 64 bits. -/
def fitting (name symbol : String) (l r : Int64) (result : Option Int64) : Eval Value :=
  match result with
  | some n => pure (.int n)
  | none =>
      evalError (name ++ " overflowed: " ++ toString l.toInt ++ " " ++ symbol ++ " " ++
        toString r.toInt ++ " does not fit in a 64-bit integer")

/-- Integers by the checked operation, everything else as floats. -/
def checkedOp (name symbol : String) (lhs rhs : Value) (intOp : Int64 → Int64 → Option Int64)
    (floatOp : Float.Model → Float.Model → Float.Model) : Eval Value :=
  match lhs, rhs with
  | .int l, .int r => fitting name symbol l r (intOp l r)
  | lhs, rhs => do
      let l ← requireNumber lhs name
      let r ← requireNumber rhs name
      finite escapes name symbol lhs rhs (floatOp l r)

/-- `sum`: what `+` and the `sum` block add with. -/
def sum (lhs rhs : Value) : Eval Value :=
  checkedOp escapes "addition" "+" lhs rhs checkedAdd (· + ·)

/-- `None` only for a quotient that does not fit; floored, where Rust's `/` truncates. -/
def flooredDiv (l r : Int64) : Eval (Option Int64) :=
  match checkedDiv l r with
  | none => pure none
  | some quotient => do
      let rest ← rem l r
      if rest ≠ 0 ∧ decide (l < 0) ≠ decide (r < 0) then
        let lower ← exactly (quotient.toInt - 1)
        return some lower
      else return some quotient

def divide (lhs rhs : Value) : Eval Value := do
  let r ← requireNumber rhs "division"
  if r == zero then evalError "divided by 0"
  else
    match lhs, rhs with
    | .int l, .int r => do
        let quotient ← flooredDiv l r
        fitting "division" "/" l r quotient
    | lhs, rhs => do
        let l ← requireNumber lhs "division"
        finite escapes "division" "/" lhs rhs (l / r)

/-- Floored; `i64::MIN % -1` is answered before Rust's `%` would overflow. -/
def flooredMod (r d : Int64) : Eval Int64 :=
  if d = -1 then pure 0
  else do
    let raw ← rem r d
    if raw ≠ 0 ∧ decide (raw < 0) ≠ decide (d < 0) then exactly (raw.toInt + d.toInt)
    else return raw

/-- Ruby's `Float#%`: the divisor's sign, and an infinite divisor leaves a finite receiver. -/
def floatMod (x y : Float.Model) : Float.Model :=
  let remainder := if y.isInf && !x.isInf then x else Binary64.remainder x y
  if y * remainder < zero then remainder + y else remainder

def modulo (receiver divisor : Value) : Eval Value := do
  let x ← requireNumber receiver "modulo"
  let y ← requireNumber divisor "modulo"
  if y == zero then evalError "divided by 0"
  else
    match receiver, divisor with
    | .int r, .int d => do
        let rest ← flooredMod r d
        return .int rest
    | _, _ => return .float (floatMod x y)

/-! ### Comparison -/

/-- `-9.223_372_036_854_776e18..9.223_372_036_854_776e18`: the whole floats `i64` reaches. -/
def intEqualsFloat (i : Int64) (f : Float.Model) : Bool :=
  let bound := Float.Model.ofScientific 9223372036854776 3
  f.isFinite && Binary64.isWhole f && decide (bound.neg ≤ f) && decide (f < bound) &&
    f.toInt64 == i

mutual

/-- Ruby's `==`: numbers across kinds exactly, lists and objects element by element. -/
def valuesEqual : Value → Value → Bool
  | .int a, .int b => a == b
  | .int i, .float f => intEqualsFloat i f
  | .float f, .int i => intEqualsFloat i f
  | .float a, .float b => a == b
  | .array a, .array b => itemsEqual a b
  | .object a, .object b => a.length == b.length && fieldsEqual a b
  | .str a, .str b => a == b
  | .bool a, .bool b => a == b
  | .list a, .list b => a == b
  | .nil, .nil => true
  | _, _ => false

def itemsEqual : List Value → List Value → Bool
  | [], [] => true
  | x :: xs, y :: ys => valuesEqual x y && itemsEqual xs ys
  | _, _ => false

/-- Every field is in the other object, and equal there. -/
def fieldsEqual : List (String × Value) → List (String × Value) → Bool
  | [], _ => true
  | (key, x) :: fields, b =>
      (match b.find? fun f => f.1 = key with
        | some (_, y) => valuesEqual x y
        | none => false) && fieldsEqual fields b

end

mutual

/-- The text a failed comparison gives its right side. -/
def describeOperand : Value → Eval String
  | .nil => pure "nil"
  | .int n => pure (toString n.toInt)
  | .bool b => pure (toString b)
  | .float n => RubyFloat.toS n
  | .str s => pure (Text.debugStr escapes s)
  | .list _ => pure "[]"
  | .array items => do
      let parts ← describeItems items
      return "[" ++ Text.join "," parts ++ "]"
  | .object fields => do
      let parts ← describeFields fields
      return "\x7b" ++ Text.join "," parts ++ "\x7d"

/-- `describe_json`: nil is `null` inside a list. -/
def describeItems : List Value → Eval (List String)
  | [] => pure []
  | .nil :: vs => do
      let rest ← describeItems vs
      return "null" :: rest
  | v :: vs => do
      let text ← describeOperand v
      let rest ← describeItems vs
      return text :: rest

def describeFields : List (String × Value) → Eval (List String)
  | [] => pure []
  | (key, .nil) :: fields => do
      let rest ← describeFields fields
      return (Text.debugStr escapes key ++ ":null") :: rest
  | (key, v) :: fields => do
      let text ← describeOperand v
      let rest ← describeFields fields
      return (Text.debugStr escapes key ++ ":" ++ text) :: rest

end

def lessThan (lhs rhs : Value) : Eval Bool :=
  match numeric lhs, numeric rhs with
  | some l, some r => pure (decide (l < r))
  | _, _ =>
      match lhs, rhs with
      | .str l, .str r => pure (decide (l < r))
      | lhs, rhs => do
          let text ← describeOperand escapes rhs
          evalError ("comparison of " ++ Rendering.classOf lhs ++ " with " ++ text ++ " failed")

/-- `comparison::apply`. -/
def compare (op : Comparison) (lhs rhs : Value) : Eval Bool := do
  let lt ← (if op.lessThan then lessThan escapes lhs rhs else pure false : Eval Bool)
  let eq := op.equal && valuesEqual lhs rhs
  return if op.negated then !(lt || eq) else lt || eq

def signTestName (op : Comparison) : String :=
  match op.lessThan, op.equal with
  | true, true => "positive?"
  | true, false => "negative?"
  | _, _ => "zero?"

def signTest (op : Comparison) (v : Value) : Eval Value := do
  let _ ← requireNumber v (signTestName op)
  let held ← compare escapes op v (.int 0)
  return .bool held

/-! ### Membership, size and text -/

def includes (haystack wanted : Value) : Eval Value :=
  match haystack with
  | .array items => pure (.bool (items.any fun item => valuesEqual item wanted))
  | .str text =>
      match wanted with
      | .str part => pure (.bool (Text.containsText part text))
      | other =>
          evalError ("no implicit conversion of " ++ Rendering.classOf other ++ " into String")
  | _ => pure (.bool false)

def unsized (op : String) (v : Value) : Eval Value := do
  let text ← Rendering.describe v
  evalError (op ++ " expects a list or string, got " ++ text)

def empty (v : Value) : Eval Value :=
  match v with
  | .str s => pure (.bool s.isEmpty)
  | .list n => pure (.bool (n == 0))
  | .array items => pure (.bool items.isEmpty)
  | v => unsized "empty?" v

def size (v : Value) : Eval Value :=
  match v with
  | .str s => pure (.int (Int64.ofNat s.toList.length))
  | .list n => pure (.int (Int64.ofNat n))
  | .array items => pure (.int (Int64.ofNat items.length))
  | v => unsized "size" v

def toS (v : Value) : Eval Value :=
  match v with
  | .str s => pure (.str s)
  | .int i => pure (.str (toString i.toInt))
  | .float n => do
      let text ← RubyFloat.toS n
      return .str text
  | .bool b => pure (.str (toString b))
  | .nil => pure (.str "")
  | v => do
      let text ← Rendering.describe v
      evalError ("to_s expects a scalar, got " ++ text)

def requireStr (v : Value) (op : String) : Eval String :=
  match v with
  | .str s => pure s
  | other => do
      let text ← Rendering.describe other
      evalError (op ++ " expects a string, got " ++ text)

/-- Ruby's `String#split`: `" "` on runs of whitespace, `""` on characters, anything else on
the text itself; trailing empty parts are dropped. -/
def split (text separator : String) : List Value :=
  let parts :=
    if separator = " " then
      (Text.splitWhere (fun c => c ∈ [' ', '\t', '\n', '\x0b', '\x0c', '\r']) text.toList).filter
        fun p => !p.isEmpty
    else if separator = "" then text.toList.map fun c => [c]
    else Text.splitChars separator.toList 0 text.toList
  (parts.rdropWhile List.isEmpty).map fun p => .str (String.ofList p)

/-- Ruby's whitespace for `strip`: no Unicode space. -/
def isStripped (c : Char) : Bool := c ∈ ['\x00', '\t', '\n', '\x0b', '\x0c', '\r', ' ']

def trim (side : StripSide) (text : String) : String :=
  String.ofList (match side with
    | .both => (text.toList.dropWhile isStripped).rdropWhile isStripped
    | .left => text.toList.dropWhile isStripped
    | .right => text.toList.rdropWhile isStripped)

/-! ### Patterns -/

/-- The ASCII classes Ruby's escapes stand for: inside brackets, and negated. -/
def shorthand (next : Char) : Option (String × String) :=
  match next.toLower with
  | 'd' => some ("0-9", "[^0-9]")
  | 'w' => some ("A-Za-z0-9_", "[^A-Za-z0-9_]")
  | 's' => some ("\\x20\\t\\r\\n\\f\\x0B", "[^\\x20\\t\\r\\n\\f\\x0B]")
  | 'h' => some ("0-9a-fA-F", "[^0-9a-fA-F]")
  | _ => none

/-- What an escape becomes in the source. -/
def escapeSource (next : Char) (inClass : Bool) : List Char :=
  match shorthand next with
  | some (positive, negative) =>
      if next.isUpper then negative.toList
      else if inClass then positive.toList
      else '[' :: positive.toList ++ [']']
  | none => if next = 'Z' ∧ !inClass then "(?:\\n?\\z)".toList else ['\\', next]

/-- The loop of `ruby_regex` over the characters left, `index` of them passed: Ruby's escapes
and anchors rewritten. -/
def rubySource : List Char → (index : Nat) → (inClass : Bool) → (classStart : Nat) → List Char
  | [], _, _, _ => []
  | ['\\'], _, _, _ => ['\\']
  | '\\' :: next :: cs, index, inClass, classStart =>
      escapeSource next inClass ++ rubySource cs (index + 2) inClass classStart
  | c :: cs, index, inClass, classStart =>
      if inClass then
        c :: rubySource cs (index + 1) (!(c = ']' && index ≠ classStart)) classStart
      else if c = '[' then
        let classStart := if cs.head? = some '^' then index + 2 else index + 1
        c :: rubySource cs (index + 1) true classStart
      else if c = '^' then "(?m:^)".toList ++ rubySource cs (index + 1) inClass classStart
      else if c = '$' then "(?m:$)".toList ++ rubySource cs (index + 1) inClass classStart
      else c :: rubySource cs (index + 1) inClass classStart

/-- The `regex` crate's builder: a source with its case, dot and whitespace flags compiles to a
matcher, or is refused with a text. -/
abbrev RegexBuilder := String → Bool → Bool → Bool → Except String (String → Bool)

def coerceText (v : Value) : Eval String :=
  match v with
  | .str s => pure s
  | .int i => pure (toString i.toInt)
  | .float n => RubyFloat.toS n
  | .nil => pure ""
  | v => evalError ("match? expects a scalar, got " ++ Rendering.classOf v)

def rubyRegex (regex : RegexBuilder) (pattern flags : String) : Eval (String → Bool) :=
  let source := String.ofList (rubySource pattern.toList 0 false 0)
  match regex source (Text.containsChar 'i' flags) (Text.containsChar 'm' flags)
      (Text.containsChar 'x' flags) with
  | .ok matcher => pure matcher
  | .error e =>
      evalError ("match? given an invalid pattern " ++ Rendering.rubyInspect pattern ++ " — " ++ e)

def matchesRegex (regex : RegexBuilder) (v : Value) (pattern flags : String) : Eval Value := do
  let text ← coerceText v
  let re ← rubyRegex regex pattern flags
  return .bool (re text)

/-! ### Presence and position -/

/-- Rails-style blankness: nil, false, and an empty text, list or object. -/
def blank : Value → Bool
  | .nil => true
  | .bool b => !b
  | .str s => s.isEmpty
  | .array items => items.isEmpty
  | .object fields => fields.isEmpty
  | _ => false

/-- The element a list field answered; an empty list is nil. -/
def fieldValue (item : Option Field) (op : String) : Eval Value :=
  match item with
  | none => pure .nil
  | some (.value v) => pure v
  | some (.nested _) =>
      evalError (op ++ " on a list of objects is not generated yet — only scalar-element lists are")

def atEnd {α : Type} (takeFirst : Bool) (items : List α) : Option α :=
  if takeFirst then items.head? else items.getLast?

def positionOf (op : String) (takeFirst : Bool) (v : Value) : Eval Value :=
  match v with
  | .array items => pure ((atEnd takeFirst items).getD .nil)
  | v => do
      let text ← Rendering.describe v
      evalError (op ++ " expects a list, got " ++ text)

/-- A found element, walked on as a dotted lookup is. -/
def project (item : Field) (path : List String) : Eval Value := do
  let current ← Composite.walk escapes item "find" path
  Composite.finish current ("find \x7b \x7d." ++ Text.join "." path)

end

end Hecks.Operators
