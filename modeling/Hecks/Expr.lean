import Hecks.Json

/-! The data an expression is evaluated over: runtime values, the lookup surface every
record and argument object offers, and the syntax of the expressions themselves. -/
namespace Hecks

/-- What an expression evaluates to; `list` is the length of a list field. -/
inductive Value where
  | int (i : Int64)
  | float (n : Float.Model)
  | str (s : String)
  | bool (b : Bool)
  | list (length : Nat)
  | nil
  | array (items : List Value)
  | object (fields : List (String × Value))
deriving Inhabited

def Value.truthy : Value → Bool
  | nil | bool false => false
  | _ => true

mutual

/-- What a lookup resolves to: a plain value, or an object to keep walking. -/
inductive Field where
  | value (v : Value)
  | nested (object : Fielded)

/-- The lookup surface of a record: a trait object, so its methods are its contents. -/
inductive Fielded where
  | mk (field : String → Option Field) (items : String → Option (List Field))
      (asScalar : Option Value) (toValue : Option Value)

end

namespace Fielded

def field : Fielded → String → Option Field
  | mk f _ _ _ => f

def items : Fielded → String → Option (List Field)
  | mk _ is _ _ => is

def asScalar : Fielded → Option Value
  | mk _ _ scalar _ => scalar

def toValue : Fielded → Option Value
  | mk _ _ _ value => value

/-- `NoFields`. -/
def noFields : Fielded := mk (fun _ => none) (fun _ => none) none none

/-- A block's own parameter, found before the rest; one member, never itself a list. -/
def bound (name : String) (value : Field) (rest : Fielded) : Fielded :=
  mk (fun n => if n = name then some value else rest.field n)
    (fun n => if n = name then none else rest.items n) none none

/-- `old` bound over the arguments, as an `ensures` reads it. -/
def withOld (args old : Fielded) : Fielded :=
  mk (fun name => if name = "old" then some (.nested old) else args.field name)
    (fun name => if name = "old" then none else args.items name) none none

/-- Inside an `ensures` the settled state wins over an argument of the same name. -/
def stateFirst (args settled : Fielded) : Fielded :=
  mk (fun name => if (settled.field name).isSome then none else args.field name)
    (fun name => if (settled.field name).isSome then none else args.items name) none none

/-- An entity command's owning record, bound as `parent` over the arguments. -/
def withParent (args parent : Fielded) : Fielded :=
  mk (fun name => if name = "parent" then some (.nested parent) else args.field name)
    (fun name => if name = "parent" then none else args.items name) none none

end Fielded

namespace Json

/-- One member found by name: its field reading and its element reading. -/
structure Member where
  key : String
  field : Field
  items : Option (List Field)

def ofMembers (members : List Member) : Fielded :=
  .mk (fun name => (members.find? fun m => m.key = name).map (·.field))
    (fun name => (members.find? fun m => m.key = name).bind (·.items))
    (match members with
      | [m] => match m.field with
        | .value v => some v
        | .nested _ => none
      | _ => none)
    none

mutual

/-- A `Json` as a `Field`: an object to keep walking, a list's length, or a scalar. -/
def toField : Json → Field
  | object fields => .nested (ofMembers (toMembers fields))
  | array items => .value (.list items.length)
  | str s => .value (.str s)
  | num n raw => .value ((exactI64 n raw).elim (.float n) .int)
  | float n => .value (.float n)
  | bool b => .value (.bool b)
  | null => .value .nil

def toMembers : List (String × Json) → List Member
  | [] => []
  | (key, value) :: rest => ⟨key, toField value, elements value⟩ :: toMembers rest

def elements : Json → Option (List Field)
  | array items => some (toFieldList items)
  | _ => none

def toFieldList : List Json → List Field
  | [] => []
  | item :: rest => toField item :: toFieldList rest

end

/-- `impl Fielded for Json`. -/
def toFielded : Json → Fielded
  | object fields => ofMembers (toMembers fields)
  | _ => ofMembers []

end Json

/-- The comparison algebra: `lessThan` and `equal` or'd together, then negated. -/
structure Comparison where
  lessThan : Bool
  equal : Bool
  negated : Bool
deriving DecidableEq, Inhabited

inductive BlockMode where
  | all | any | none
deriving DecidableEq

inductive StripSide where
  | both | left | right
deriving DecidableEq

/-- The expression syntax, one constructor for each node of the language. -/
inductive Expr where
  | or (left right : Expr)
  | and (left right : Expr)
  | not (operand : Expr)
  | compare (op : Comparison) (left right : Expr)
  | «include» (haystack needle : Expr)
  | int (i : Int64)
  | float (n : Float.Model)
  | str (s : String)
  | bool (b : Bool)
  | nil
  | add (left right : Expr)
  | sub (left right : Expr)
  | mul (left right : Expr)
  | div (left right : Expr)
  | signTest (op : Comparison) (receiver : Expr)
  | empty (receiver : Expr)
  | toS (receiver : Expr)
  | modulo (receiver divisor : Expr)
  | size (receiver : Expr)
  | lookup (path : String)
  | blockPredicate (mode : BlockMode) (receiver : Expr) (param : String) (predicate : Expr)
  | find (receiver : Expr) (param : String) (predicate : Expr) (path : List String)
  | sum (receiver : Expr) (param : String) (predicate : Expr)
  | array (items : List Expr)
  | matchesRegex (receiver : Expr) (pattern flags : String)
  | presence (receiver : Expr) (negated : Bool)
  | assignment (receiver : Expr) (negated : Bool)
  | split (receiver : Expr) (separator : String)
  | strip (receiver : Expr) (side : StripSide)
  | startsWith (receiver : Expr) (substring : String)
  | endsWith (receiver : Expr) (substring : String)
  | first (receiver : Expr)
  | last (receiver : Expr)
deriving Inhabited

/-- What a lookup reads: the arguments first, then the instance. -/
structure EvalContext where
  args : Fielded
  instance' : Fielded

/-- The evaluator of expressions, `interpret`. -/
abbrev Interpreter := Expr → EvalContext → Except Refusal Value

end Hecks
