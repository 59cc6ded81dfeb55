import Hecks.Expr

/-! The trees the predicate parser builds: predicates over values, and the values themselves. -/
namespace Hecks.Parser

/-- A comparison operator. -/
structure Operator where
  symbol : String
  comparesLessThan : Bool
  comparesEqual : Bool
  negated : Bool
deriving DecidableEq, Inhabited

/-- The first match wins, so `>=` and `<=` stand before `>` and `<`. -/
def operators : List Operator := [
  ⟨">=", true, false, true⟩,
  ⟨"<=", true, true, false⟩,
  ⟨"<", true, false, false⟩,
  ⟨">", true, true, true⟩,
  ⟨"==", false, true, false⟩,
  ⟨"!=", false, true, true⟩]

def findOperator (symbol : String) : Option Operator :=
  operators.find? fun op => op.symbol = symbol

mutual

inductive Evaluator where
  | or (left right : Evaluator)
  | and (left right : Evaluator)
  | not (inner : Evaluator)
  | compare (operator : Operator) (left right : Resolver)
  | «include» (haystack needle : Resolver)
  | resolve (expr : Resolver)

inductive Resolver where
  | integerLiteral (v : Int64)
  | floatLiteral (v : Float.Model)
  | stringLiteral (v : String)
  | boolLiteral (v : Bool)
  | nilLiteral
  | addition (left right : Resolver)
  | subtraction (left right : Resolver)
  | multiplication (left right : Resolver)
  | division (left right : Resolver)
  | signTest (operator : Operator) (receiver : Resolver)
  | empty (receiver : Resolver)
  | toS (receiver : Resolver)
  | modulo (receiver divisor : Resolver)
  | size (receiver : Resolver)
  | lookup (path : String)
  | arrayLiteral (elements : List Resolver)
  | blockPredicate (mode : BlockMode) (receiver : Resolver) (param : String)
      (predicate : Evaluator)
  | matchesRegex (receiver : Resolver) (pattern flags : String)
  | presence (receiver : Resolver) (negated : Bool)
  | assignment (receiver : Resolver) (negated : Bool)
  | split (receiver : Resolver) (separator : String)
  | strip (receiver : Resolver) (side : StripSide)
  | first (receiver : Resolver)
  | last (receiver : Resolver)
  | startsWith (receiver : Resolver) (substring : String)
  | endsWith (receiver : Resolver) (substring : String)
  | find (receiver : Resolver) (param : String) (predicate : Evaluator) (path : List String)
  | sum (receiver : Resolver) (param : String) (predicate : Evaluator)

end

instance : Inhabited Resolver := ⟨.nilLiteral⟩

instance : Inhabited Evaluator := ⟨.resolve .nilLiteral⟩

end Hecks.Parser
