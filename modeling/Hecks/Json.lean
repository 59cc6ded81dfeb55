import Hecks.Lib.Binary64

/-! The JSON value the kernel's boundary speaks, and the refusals and records a dispatch
answers with. -/
namespace Hecks

/-- A JSON value. `num` carries the source text of a number whose `f64` would not reproduce
it; `float` is a declared Float, written with a decimal point. -/
inductive Json where
  | object (fields : List (String × Json))
  | array (items : List Json)
  | str (s : String)
  | num (n : Float.Model) (raw : Option String)
  | float (n : Float.Model)
  | bool (b : Bool)
  | null
deriving Inhabited

/-- Why a command dispatch was refused; each variant carries its message. -/
inductive Refusal where
  | givenNotMet (msg : String)
  | ensuresNotMet (msg : String)
  | invariantViolation (msg : String)
  | lifecycleRefused (msg : String)
  | alreadyExists (msg : String)
  | notFound (msg : String)
  | typeMismatch (msg : String)
  | absentArgument (msg : String)
  | unknownArgument (msg : String)
  | unauthorized (msg : String)
  | fault (msg : String)
  | nothingToCorrect (msg : String)
deriving DecidableEq, Inhabited

namespace Refusal

def kind : Refusal → String
  | givenNotMet _ => "GivenNotMet"
  | ensuresNotMet _ => "EnsuresNotMet"
  | invariantViolation _ => "InvariantViolation"
  | lifecycleRefused _ => "LifecycleRefused"
  | alreadyExists _ => "AlreadyExists"
  | notFound _ => "NotFound"
  | typeMismatch _ => "TypeMismatch"
  | absentArgument _ => "AbsentArgument"
  | unknownArgument _ => "UnknownArgument"
  | unauthorized _ => "Unauthorized"
  | fault _ => "Fault"
  | nothingToCorrect _ => "NothingToCorrect"

/-- `to_string()`: the message alone. -/
def message : Refusal → String
  | givenNotMet msg | ensuresNotMet msg | invariantViolation msg | lifecycleRefused msg
  | alreadyExists msg | notFound msg | typeMismatch msg | absentArgument msg
  | unknownArgument msg | unauthorized msg | fault msg | nothingToCorrect msg => msg

end Refusal

/-- A domain event raised by a successful command dispatch. `correlation` is the saga
bookkeeping a leg's dispatch stamps: one value for each correlation field. -/
structure Event where
  name : String
  aggregate : String
  id : String
  payload : Json
  occurredAt : Option String
  correlation : Option (List (String × String))
deriving Inhabited

/-- One aggregate record saved by a dispatch. `operation` is always `"save"`. -/
structure MutationRecord where
  aggregate : String
  id : String
  operation : String
  state : Json

namespace Json

/-- `integral_i64`: the whole numbers within `i64`, the upper end excluded because
`i64::MAX as f64` rounds up to `2 ^ 63`. -/
def integralI64 (n : Float.Model) : Option Int64 :=
  if Binary64.isWhole n ∧ Float.Model.ofInt64 Int64.minValue ≤ n ∧
      n < Float.Model.ofInt64 Int64.maxValue then
    some n.toInt64
  else none

/-- `exact_i64`: the source text first, then the `f64`. -/
def exactI64 (n : Float.Model) (raw : Option String) : Option Int64 :=
  (raw.bind Text.parseI64).or (integralI64 n)

def int (i : Int64) : Json := num (Float.Model.ofInt64 i) (some (toString i.toInt))

def get (j : Json) (key : String) : Option Json :=
  match j with
  | object fields => (fields.find? fun f => f.1 = key).map (·.2)
  | _ => none

/-- The dotted-path walk: a non-object reached before the end of the path is the answer. -/
def digSegments : List String → Json → Option Json
  | [], j => some j
  | s :: ss, object fields => (get (object fields) s).bind (digSegments ss)
  | _ :: _, j => some j

def dig (j : Json) (path : String) : Option Json := digSegments (Text.segments '.' path) j

def asStr : Json → Option String
  | str s => some s
  | _ => none

/-- `to_id_component().ok()`: every reader modelled here drops the refusal's text. -/
def toIdComponent : Json → Option String
  | str s => if s.isEmpty then none else some s
  | num n raw =>
      match exactI64 n raw with
      | some i => some (toString i.toInt)
      | none => some (raw.getD (Binary64.display n))
  | bool b => some (toString b)
  | _ => none

/-- The fields of an object, none for any other value. -/
def pairs : Json → List (String × Json)
  | object fields => fields
  | _ => []

end Json

end Hecks
