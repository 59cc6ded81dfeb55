import Hecks.Host.Serde
import Hecks.Parser.Tree

/-! The JSON form of a predicate. The parser's `JsonValue` and the host's JSON value have one
shape, a number being its text, so one type stands for both. -/
namespace Hecks.Parser

open Host

def obj (pairs : List (String × Serde)) : Serde := .object pairs

def opTag (name : String) : String × Serde := ("op", .string name)

def emitComparison (operator : Operator) : Serde :=
  obj [("less_than", .bool operator.comparesLessThan), ("equal", .bool operator.comparesEqual),
    ("negated", .bool operator.negated)]

/-- Ruby's `Float#to_s`: always carries a decimal point. -/
def rubyFloat (n : Float.Model) : String :=
  let text := Binary64.display n
  if Text.containsChar '.' text || Text.containsChar 'e' text || Text.containsChar 'E' text then
    text
  else text ++ ".0"

/-- `json_name`. -/
def jsonName : BlockMode → String
  | .all => "all"
  | .any => "any"
  | .none => "none"

def sideName : StripSide → String
  | .both => "both"
  | .left => "left"
  | .right => "right"

/-- The comparison an inclusion in a written-out list makes with each element. -/
def equality : Operator := ⟨"==", false, true, false⟩

/-- `reduce(or)`, or false for no element at all. -/
def emitEither : List Serde → Serde
  | [] => obj [opTag "bool", ("value", .bool false)]
  | first :: rest =>
      rest.foldl (fun left right => obj [opTag "or", ("left", left), ("right", right)]) first

mutual

def emitBool : Evaluator → Serde
  | .or left right => obj [opTag "or", ("left", emitBool left), ("right", emitBool right)]
  | .and left right => obj [opTag "and", ("left", emitBool left), ("right", emitBool right)]
  | .not inner => obj [opTag "not", ("expr", emitBool inner)]
  | .compare operator left right =>
      obj [opTag "compare", ("cmp", emitComparison operator), ("left", emitResolver left),
        ("right", emitResolver right)]
  -- `emit_include`: an array literal is compared with element by element
  | .include (.arrayLiteral elements) needle =>
      emitEither ((emitElements elements).map fun element =>
        obj [opTag "compare", ("cmp", emitComparison equality), ("left", emitResolver needle),
          ("right", element)])
  | .include haystack needle =>
      obj [opTag "include", ("haystack", emitResolver haystack), ("needle", emitResolver needle)]
  | .resolve expr => emitResolver expr

def emitResolver : Resolver → Serde
  | .integerLiteral v => obj [opTag "int", ("value", .number (toString v.toInt))]
  | .floatLiteral v => obj [opTag "float", ("value", .number (rubyFloat v))]
  | .stringLiteral v => obj [opTag "str", ("value", .string v)]
  | .boolLiteral v => obj [opTag "bool", ("value", .bool v)]
  | .nilLiteral => obj [opTag "nil"]
  | .lookup path => obj [opTag "lookup", ("path", .array ((Text.segments '.' path).map .string))]
  | .addition left right =>
      obj [opTag "add", ("left", emitResolver left), ("right", emitResolver right)]
  | .subtraction left right =>
      obj [opTag "sub", ("left", emitResolver left), ("right", emitResolver right)]
  | .multiplication left right =>
      obj [opTag "mul", ("left", emitResolver left), ("right", emitResolver right)]
  | .division left right =>
      obj [opTag "div", ("left", emitResolver left), ("right", emitResolver right)]
  | .signTest operator receiver =>
      obj [opTag "sign_test", ("cmp", emitComparison operator), ("receiver", emitResolver receiver)]
  | .empty receiver => obj [opTag "empty", ("receiver", emitResolver receiver)]
  | .toS receiver => obj [opTag "to_s", ("receiver", emitResolver receiver)]
  | .modulo receiver divisor =>
      obj [opTag "modulo", ("receiver", emitResolver receiver), ("divisor", emitResolver divisor)]
  | .size receiver => obj [opTag "size", ("receiver", emitResolver receiver)]
  | .matchesRegex receiver pattern flags =>
      obj [opTag "matches_regex", ("receiver", emitResolver receiver), ("pattern", .string pattern),
        ("flags", .string flags)]
  | .presence receiver negated =>
      obj [opTag "presence", ("receiver", emitResolver receiver), ("negated", .bool negated)]
  | .assignment receiver negated =>
      obj [opTag "assignment", ("receiver", emitResolver receiver), ("negated", .bool negated)]
  | .split receiver separator =>
      obj [opTag "split", ("receiver", emitResolver receiver), ("separator", .string separator)]
  | .strip receiver side =>
      obj [opTag "strip", ("receiver", emitResolver receiver), ("side", .string (sideName side))]
  | .startsWith receiver substring =>
      obj [opTag "starts_with", ("receiver", emitResolver receiver),
        ("substring", .string substring)]
  | .endsWith receiver substring =>
      obj [opTag "ends_with", ("receiver", emitResolver receiver), ("substring", .string substring)]
  | .first receiver => obj [opTag "first", ("receiver", emitResolver receiver)]
  | .last receiver => obj [opTag "last", ("receiver", emitResolver receiver)]
  | .blockPredicate mode receiver param predicate =>
      obj [opTag "block_predicate", ("mode", .string (jsonName mode)),
        ("receiver", emitResolver receiver), ("param", .string param),
        ("predicate", emitBool predicate)]
  | .find receiver param predicate path =>
      obj [opTag "find", ("receiver", emitResolver receiver), ("param", .string param),
        ("predicate", emitBool predicate), ("path", .array (path.map .string))]
  | .sum receiver param predicate =>
      obj [opTag "sum", ("receiver", emitResolver receiver), ("param", .string param),
        ("predicate", emitBool predicate)]
  | .arrayLiteral elements => obj [opTag "array", ("elements", .array (emitElements elements))]

def emitElements : List Resolver → List Serde
  | [] => []
  | element :: elements => emitResolver element :: emitElements elements

end

end Hecks.Parser
