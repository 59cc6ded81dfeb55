import Hecks.Expr.Interpret
import Hecks.Host.Serde

/-! The host's JSON door to the evaluator: an expression read off its JSON form, and an
instance read as JSON. -/
namespace Hecks.Host

open Panics

/-! ### The expression -/

/-- The field of an object by its name, with what it takes to read on inside it. -/
def part : (fields : List (String × Serde)) → String →
    Option {value : Serde // sizeOf value < sizeOf fields}
  | [], _ => none
  | (key, value) :: fields, name =>
      if key = name then some ⟨value, by simp; omega⟩
      else (part fields name).map fun p => ⟨p.1, by
        have := p.2
        simp; omega⟩

section

-- `display` is the text `serde_json` writes a value with
variable (escapes : Char → Bool) (display : Serde → String)

def Serde.fieldOf (json : Serde) (op name : String) : Except String Serde :=
  match json.get name with
  | some value => .ok value
  | none =>
      .error (op ++ " node has no " ++ Text.debugStr escapes name ++ " field: " ++ display json)

/-- The reading of the parts of a node. -/
abbrev Reading (json : Serde) :=
  (part : Serde) → sizeOf part < sizeOf json → Except String Expr

def orError {α : Type} (x : Option α) (message : String) : Except String α :=
  match x with
  | some a => .ok a
  | none => .error message

def Serde.strField (json : Serde) (op name : String) : Except String String := do
  let value ← json.fieldOf escapes display op name
  orError value.asStr
    (op ++ "'s " ++ Text.debugStr escapes name ++ " isn't a string: " ++ display json)

def Serde.boolField (json : Serde) (op name : String) : Except String Bool := do
  let value ← json.fieldOf escapes display op name
  orError value.asBool
    (op ++ "'s " ++ Text.debugStr escapes name ++ " isn't a boolean: " ++ display json)

/-- A path is an array of segments, never a dotted text. -/
def Serde.pathField (json : Serde) (op name : String) : Except String (List String) := do
  let value ← json.fieldOf escapes display op name
  let items ← orError value.asArray
    (op ++ "'s " ++ Text.debugStr escapes name ++ " isn't an array: " ++ display json)
  items.mapM fun item => orError item.asStr
    (op ++ "'s " ++ Text.debugStr escapes name ++ " has a non-string element: " ++ display json)

def Serde.comparison (json : Serde) (op : String) : Except String Comparison := do
  let cmp ← json.fieldOf escapes display op "cmp"
  let flag := fun name => orError ((cmp.get name).bind Serde.asBool)
    (op ++ "'s cmp has no " ++ name ++ ": " ++ display json)
  let lessThan ← flag "less_than"
  let equal ← flag "equal"
  let negated ← flag "negated"
  return ⟨lessThan, equal, negated⟩

/-- A field that is itself a node. -/
def Serde.exprField (json : Serde) (read : Reading json) (op name : String) :
    Except String Expr :=
  match json with
  | .object fields =>
      match part fields name with
      | some value => read value.1 (by
          have := value.2
          simp; omega)
      | none => .error (op ++ " node has no " ++ Text.debugStr escapes name ++ " field: " ++
          display (.object fields))
  | json =>
      .error (op ++ " node has no " ++ Text.debugStr escapes name ++ " field: " ++ display json)

/-- The elements of a written-out list, each a node. -/
def Serde.exprItems (json : Serde) (read : Reading json) (op name : String) :
    Except String (List Expr) :=
  match json with
  | .object fields =>
      match part fields name with
      | some ⟨.array items, smaller⟩ => items.attach.mapM fun ⟨item, mem⟩ =>
          read item (by
            have := List.sizeOf_lt_of_mem mem
            simp at smaller ⊢
            omega)
      | some _ => .error (op ++ "'s " ++ name ++ " isn't an array: " ++ display (.object fields))
      | none => .error (op ++ " node has no " ++ Text.debugStr escapes name ++ " field: " ++
          display (.object fields))
  | json =>
      .error (op ++ " node has no " ++ Text.debugStr escapes name ++ " field: " ++ display json)

def blockMode (mode : String) (json : Serde) : Except String BlockMode :=
  match mode with
  | "all" => .ok .all
  | "any" => .ok .any
  | "none" => .ok .none
  | other => .error ("block_predicate's mode " ++ Text.debugStr escapes other ++
      " is none of all/any/none: " ++ display json)

def stripSide (side : String) (json : Serde) : Except String StripSide :=
  match side with
  | "both" => .ok .both
  | "left" => .ok .left
  | "right" => .ok .right
  | other => .error ("strip's side " ++ Text.debugStr escapes other ++
      " is none of both/left/right: " ++ display json)

/-- One node, by its `op`. -/
def parseNode (json : Serde) (read : Reading json) (op : String) : Except String Expr :=
  let expr := json.exprField escapes display read op
  let strField := json.strField escapes display op
  let boolField := json.boolField escapes display op
  let pathField := json.pathField escapes display op
  let comparison := json.comparison escapes display op
  match op with
  | "or" => return .or (← expr "left") (← expr "right")
  | "and" => return .and (← expr "left") (← expr "right")
  | "not" => return .not (← expr "expr")
  | "compare" => return .compare (← comparison) (← expr "left") (← expr "right")
  | "include" => return .include (← expr "haystack") (← expr "needle")
  | "int" => do
      let value ← json.fieldOf escapes display op "value"
      let i ← orError value.asI64 ("int's value isn't an integer: " ++ display json)
      return .int i
  | "float" => do
      let value ← json.fieldOf escapes display op "value"
      let n ← orError value.asF64 ("float's value isn't a number: " ++ display json)
      return .float n
  | "str" => return .str (← strField "value")
  | "bool" => return .bool (← boolField "value")
  | "nil" => return .nil
  | "add" => return .add (← expr "left") (← expr "right")
  | "sub" => return .sub (← expr "left") (← expr "right")
  | "mul" => return .mul (← expr "left") (← expr "right")
  | "div" => return .div (← expr "left") (← expr "right")
  | "sign_test" => return .signTest (← comparison) (← expr "receiver")
  | "empty" => return .empty (← expr "receiver")
  | "to_s" => return .toS (← expr "receiver")
  | "modulo" => return .modulo (← expr "receiver") (← expr "divisor")
  | "size" => return .size (← expr "receiver")
  | "lookup" => return .lookup (Text.join "." (← pathField "path"))
  | "block_predicate" => do
      let mode ← blockMode escapes display (← strField "mode") json
      return .blockPredicate mode (← expr "receiver") (← strField "param") (← expr "predicate")
  | "find" =>
      return .find (← expr "receiver") (← strField "param") (← expr "predicate")
        (← pathField "path")
  | "sum" => return .sum (← expr "receiver") (← strField "param") (← expr "predicate")
  | "array" => return .array (← json.exprItems escapes display read op "elements")
  | "matches_regex" =>
      return .matchesRegex (← expr "receiver") (← strField "pattern") (← strField "flags")
  | "presence" => return .presence (← expr "receiver") (← boolField "negated")
  | "assignment" => return .assignment (← expr "receiver") (← boolField "negated")
  | "split" => return .split (← expr "receiver") (← strField "separator")
  | "strip" => do
      let receiver ← expr "receiver"
      let side ← stripSide escapes display (← strField "side") json
      return .strip receiver side
  | "starts_with" => return .startsWith (← expr "receiver") (← strField "substring")
  | "ends_with" => return .endsWith (← expr "receiver") (← strField "substring")
  | "first" => return .first (← expr "receiver")
  | "last" => return .last (← expr "receiver")
  | other => .error ("unrecognized expression op " ++ Text.debugStr escapes other ++ ": " ++
      display json)

/-- `expr_json::parse`. -/
def parse (json : Serde) : Except String Expr := do
  let op ← orError ((json.get "op").bind Serde.asStr)
    (display json ++ " has no string \"op\" field")
  parseNode escapes display json (fun part _ => parse part) op
termination_by sizeOf json

end

/-! ### The instance -/

/-- One field of an instance, read the way the evaluator walks it. An object's fields are a
`BTreeMap`: in the order of their keys, each key once. -/
inductive Slot where
  | scalar (v : Value)
  | object (fields : List (String × Slot))
  | list (items : List Slot)

/-- `BTreeMap::insert`. -/
def insertSorted {α : Type} (key : String) (value : α) : List (String × α) → List (String × α)
  | [] => [(key, value)]
  | f :: fields =>
      if key < f.1 then (key, value) :: f :: fields
      else if key = f.1 then (key, value) :: fields
      else f :: insertSorted key value fields

def collect {α : Type} (fields : List (String × α)) : List (String × α) :=
  fields.foldl (fun map f => insertSorted f.1 f.2 map) []

/-- `value_of` of a number. -/
def numberValue (text : String) : Except String Value :=
  match Serde.asI64 (.number text) with
  | some i => .ok (.int i)
  | none =>
      match Serde.asF64 (.number text) with
      | some f => .ok (.float f)
      | none => .error (text ++ " is a number this interpreter cannot represent")

namespace Slot

mutual

def fromJson : Serde → Except String Slot
  | .object fields => do
      let fields ← fromFields fields
      return object (collect fields)
  | .array items => do
      let items ← fromItems items
      return list items
  | .null => .ok (scalar .nil)
  | .bool b => .ok (scalar (.bool b))
  | .number text => do
      let v ← numberValue text
      return scalar v
  | .string s => .ok (scalar (.str s))

def fromFields : List (String × Serde) → Except String (List (String × Slot))
  | [] => .ok []
  | (key, field) :: fields => do
      let slot ← fromJson field
      let rest ← fromFields fields
      return (key, slot) :: rest

def fromItems : List Serde → Except String (List Slot)
  | [] => .ok []
  | item :: items => do
      let slot ← fromJson item
      let rest ← fromItems items
      return slot :: rest

end

mutual

/-- The slot as a plain value. -/
def value : Slot → Value
  | scalar v => v
  | object fields => .object (valueFields fields)
  | list items => .array (valueItems items)

def valueFields : List (String × Slot) → List (String × Value)
  | [] => []
  | (key, slot) :: fields => (key, value slot) :: valueFields fields

def valueItems : List Slot → List Value
  | [] => []
  | slot :: items => value slot :: valueItems items

end

end Slot

/-- One field of a node: as the evaluator walks it, as a list, and as a value. -/
structure Member where
  key : String
  field : Field
  items : Option (List Field)
  value : Value

/-- `impl Fielded for Node`: the head of a lookup must exist, but a nested object answers nil
for a field it lacks. -/
def nodeOf (root : Bool) (members : List Member) : Fielded :=
  .mk
    (fun name =>
      match members.find? fun m => m.key = name with
      | some m => some m.field
      | none => if root then none else some (.value .nil))
    (fun name => (members.find? fun m => m.key = name).bind (·.items))
    (match members with
      | [m] => some m.value
      | _ => none)
    (some (.object (members.map fun m => (m.key, m.value))))

namespace Slot

mutual

def field : Slot → Field
  | object fields => .nested (nodeOf false (members fields))
  | scalar v => .value v
  | list items => .value (.array (valueItems items))

def members : List (String × Slot) → List Member
  | [] => []
  | (key, slot) :: fields => ⟨key, field slot, elements slot, value slot⟩ :: members fields

def elements : Slot → Option (List Field)
  | list items => some (fieldItems items)
  | _ => none

def fieldItems : List Slot → List Field
  | [] => []
  | slot :: items => field slot :: fieldItems items

end

end Slot

/-- `Node::from_json` of the whole instance. -/
def rootOf (instance' : Serde) : Except String Fielded :=
  match instance' with
  | .object fields => do
      let fields ← Slot.fromFields fields
      return nodeOf true (Slot.members (collect fields))
  | _ => .ok (nodeOf true [])

section

variable (escapes : Char → Bool) (regex : Operators.RegexBuilder) (debugExpr : Expr → String)

/-- `expr_json::interpret`: a panic of the evaluator would be a panic here. -/
def interpret (expr : Expr) (instance' : Serde) : Run String Value :=
  match rootOf instance' with
  | .error e => refuse e
  | .ok node =>
      match Hecks.interpret escapes regex debugExpr expr ⟨node, Fielded.noFields⟩ with
      | .ok v => .ok v
      | .error (.refused r) => refuse r.message
      | .error (.panicked reason) => abort reason

end

end Hecks.Host
