import Hecks.Lib.Grouping
import Hecks.Lib.Reading
import Hecks.Dispatch.Rules
import Hecks.Query.Comparators

/-! The grouping of a report's rows: one level of nesting for each declared field. -/
namespace Hecks.Query

open Grouping (group Recognised firsts)

/-- Whether a leaf is checked for a second row. -/
inductive LeafCheck where
  /-- The key path covers the identity of the rows, so none is checked. -/
  | identityCovered
  | refuseCollision (readModel : String)

/-- What a leaf answers: the one row its key path reached, or its rows reduced. -/
inductive Leaf where
  | row (check : LeafCheck)
  | reduce (reduction : List (String × Json) → Json)

/-- A row's own value of a field; a missing one reads as null. -/
def fieldOf (row : Json) (field : String) : Json := (row.get field).getD .null

/-- A row without a field. -/
def stripped (field : String) : Json → Json
  | .object pairs => .object (pairs.filter fun p => p.1 ≠ field)
  | other => other

/-- The rows by their values of a field, which they lose. -/
def grouped (field : String) (rows : List Json) : List (Json × List Json) :=
  (group (fieldOf · field) Json.eq rows).map fun g => (g.1, g.2.map (stripped field))

def idOf (row : Json) : String := ((row.get "id").map toS).getD ""

/-- A leaf's rows as a reduction reads them. -/
def leafPairs (rows : List Json) : List (String × Json) := rows.map fun row => (idOf row, row)

def invariantViolationGroupByCollision (escapes : Char → Bool) (readModel : String)
    (fields ids : List String) (key : String) : String :=
  RefusalSite.render
    ("{read_model} groups by {fields}, but rows {ids} share {key} — a group_by leaf holds one " ++
      "row; add a field that tells them apart")
    [("read_model", readModel), ("fields", Text.join ", " fields),
      ("ids", Text.join ", " ((ids.insertionSort (· ≤ ·)).map (Text.debugStr escapes))),
      ("key", key)]

section

variable (escapes : Char → Bool) (allFields : List String)

def leaf (rows : List Json) (check : LeafCheck) (path : List (String × Json)) :
    Except Refusal Json :=
  match check with
  | .identityCovered => .ok (rows.head?.getD .null)
  | .refuseCollision readModel =>
      if 1 < rows.length then
        .error (.invariantViolation (invariantViolationGroupByCollision escapes readModel allFields
          (rows.map idOf)
          (Text.join ", " (path.map fun step => step.1 ++ " = " ++ toS step.2))))
      else .ok (rows.head?.getD .null)

/-- The answer of the rows a whole key path reached. -/
def leafAnswer (answer : Leaf) (rows : List Json) (path : List (String × Json)) :
    Except Refusal Json :=
  match answer with
  | .row check => leaf escapes allFields rows check path
  | .reduce reduction => .ok (reduction (leafPairs rows))

/-- One level of nesting; `reached` is the key path walked so far. -/
def nestLevel (answer : Leaf) :
    List String → List (String × Json) → List Json → Except Refusal Json
  | [], _, _ =>
      .error (.fault ("nest called with empty fields — read_model_skip_reason should refuse a " ++
        "group_by with none"))
  | field :: rest, reached, rows => do
      let out ← (grouped field rows).mapM fun (key, rows) => do
        let path := reached ++ [(field, key)]
        let value ← (if rest.isEmpty then leafAnswer escapes allFields answer rows path
          else nestLevel answer rest path rows)
        return (toS key, value)
      return .object out

end

/-! ### Where the rows of a leaf come from -/

/-- The value a level groups by: the fields above are gone. -/
def valueAt (done : List String) (field : String) (row : Json) : Json :=
  if field ∈ done then .null else fieldOf row field

def strippedOf (done : List String) (row : Json) : Json :=
  done.foldl (fun row field => stripped field row) row

/-- The leaves a list of rows is nested in: each with its key path and the rows that reach it. -/
def leavesOf (done : List String) : List String → List Json → List (List Json × List Json)
  | [], rows => [([], rows)]
  | field :: rest, rows =>
      (group (valueAt done field) Json.eq rows).flatMap fun g =>
        (leavesOf (done ++ [field]) rest g.2).map fun l => (g.1 :: l.1, l.2)

def answerOf (answer : Leaf) (rows : List Json) : Json :=
  match answer with
  | .row _ => rows.head?.getD .null
  | .reduce reduction => reduction (leafPairs rows)

/-- The leaves of a tree of so many levels, with their key paths. -/
def treeLeaves : Nat → Json → List (List String × Json)
  | 0, tree => [([], tree)]
  | n + 1, .object pairs => pairs.flatMap fun p => (treeLeaves n p.2).map fun l => (p.1 :: l.1, l.2)
  | _ + 1, _ => []

/-- No two keys of a level are one text. -/
def DistinctKeys : Nat → Json → Prop
  | 0, _ => True
  | n + 1, .object pairs => (pairs.map (·.1)).Nodup ∧ ∀ p ∈ pairs, DistinctKeys n p.2
  | _ + 1, _ => False

/-- A row's own values as the texts of a key path. -/
def textsOf (fields : List String) (row : Json) : List String :=
  fields.map fun field => toS (fieldOf row field)

/-- The tree has distinct keys at each level, every row is in the leaf under its own values, the
rows of a leaf have the same values, and a leaf that holds one row was reached by no other. -/
structure Placed (answer : Leaf) (fields : List String) (rows : List Json) (tree : Json) :
    Prop where
  distinct : DistinctKeys fields.length tree
  own : ∀ l ∈ leavesOf [] fields rows, ∀ row ∈ l.2, textsOf fields row = l.1.map toS
  unmerged : ∀ l ∈ leavesOf [] fields rows, l.2.Pairwise fun r s =>
    ∀ field ∈ fields, Json.eq (fieldOf r field) (fieldOf s field) = true
  shown : (∃ check, answer = .row check) → ∀ l ∈ leavesOf [] fields rows, l.2.length ≤ 1

/-! ### Where values and texts tell the same apart -/

/-- At this level a row equals an earlier one just where their texts are the same. A field grouped
by before reads as null, so its own text has to be blank. -/
def LevelTold (done : List String) (field : String) (rows : List Json) : Prop :=
  if field ∈ done then ∀ row ∈ rows, toS (fieldOf row field) = ""
  else Recognised (fieldOf · field) Json.eq toS rows

/-- So it is at every level, among rows of one text path. -/
def Told (done : List String) : List String → List Json → Prop
  | [], _ => True
  | field :: rest, rows => LevelTold done field rows ∧
      ∀ r ∈ rows, Told (done ++ [field]) rest
        (rows.filter fun s => toS (fieldOf s field) = toS (fieldOf r field))

structure Tellable (answer : Leaf) (fields : List String) (rows : List Json) : Prop where
  told : Told [] fields rows
  equal : rows.Pairwise fun r s => textsOf fields r = textsOf fields s →
    ∀ field ∈ fields, Json.eq (fieldOf r field) (fieldOf s field) = true
  single : answer = .row .identityCovered →
    rows.Pairwise fun r s => textsOf fields r ≠ textsOf fields s

end Hecks.Query
