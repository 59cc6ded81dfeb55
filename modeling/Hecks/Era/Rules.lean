import Hecks.Host.Serde
import Hecks.Lib.Renaming

/-! The rules of a translation edge and the states they rewrite. -/
namespace Hecks.Era

open Hecks.Host (Serde)

/-- A stored state, read by its top-level keys. -/
abbrev State := Renaming.Store String Serde

/-- A path of a rule, which the translation language refuses to leave empty. -/
structure Path where
  text : String
  filled : text ≠ ""
deriving DecidableEq

/-- `split(".", 2)`: the top-level key and the member under it. -/
def Path.split (path : Path) : String × Option String :=
  match Text.splitOnce "." path.text with
  | some (top, member) => (top, some member)
  | none => (path.text, none)

/-- `[a-z_][a-z0-9_]*`. -/
def isWord (s : String) : Bool :=
  match s.toList with
  | [] => false
  | c :: cs => (c.isLower || c = '_') && cs.all fun d => d.isLower || d = '_' || d.isDigit

/-- The dotted name of a field, as the expression parser accepts it. -/
structure FieldName where
  text : String
  words : (Text.segments '.' text).all isWord

def FieldName.split (name : FieldName) : List String := Text.segments '.' name.text

/-- The parsed form of a derive's expression. -/
inductive Tree where
  | lit (text : String)
  | null
  | ref (path : FieldName)
  | lower (argument : Tree)
  | upper (argument : Tree)
  | concat (arguments : List Tree)
  | replace (target : Tree) (find put : String)
  | lookup (key : Tree) (table : List (String × String)) (fallback : Option String)

structure TranslationMove where
  source : Path
  target : Path

/-- `values` are the pairs of the table, in the order they were written. -/
structure TranslationConvert where
  source : Path
  target : Path
  values : List (Serde × Serde)

structure TranslationDerive where
  target : Path
  expression : String
  tree : Tree

structure TranslationBackfill where
  name : Path
  default : Serde

/-- One aggregate's field rules. -/
structure FieldRules where
  renames : List (String × String)
  moves : List TranslationMove
  converts : List TranslationConvert
  drops : List Path
  derives : List TranslationDerive
  backfills : List TranslationBackfill
  /-- The renames are the entries of a Hash. -/
  distinct : (renames.map Prod.fst).Nodup

/-- The top-level keys of an object, as a state. -/
def stateOf (object : Serde) : State := object.get

/-- The fields of an object that are left when one of them is removed. -/
def erase (key : String) (fields : List (String × Serde)) : List (String × Serde) :=
  fields.filter fun f => f.1 ≠ key

theorem erase_of_get_none {key : String} {fields : List (String × Serde)}
    (h : (Serde.object fields).get key = none) : erase key fields = fields := by
  unfold erase
  rw [List.filter_eq_self]
  intro f hf
  simp only [Serde.get, Option.map_eq_none_iff, List.find?_eq_none, decide_eq_true_eq] at h
  simpa using h f hf

/-! ### Equal values -/

mutual

/-- Equality of values, given that of number literals: objects are compared key by key. -/
def same (number : String → String → Bool) : Serde → Serde → Bool
  | .null, .null => true
  | .bool a, .bool b => a = b
  | .number a, .number b => number a b
  | .string a, .string b => a = b
  | .array a, .array b => sameItems number a b
  | .object a, .object b => a.length = b.length && sameFields number a (.object b)
  | _, _ => false

def sameItems (number : String → String → Bool) : List Serde → List Serde → Bool
  | [], [] => true
  | a :: as, b :: bs => same number a b && sameItems number as bs
  | _, _ => false

def sameFields (number : String → String → Bool) : List (String × Serde) → Serde → Bool
  | [], _ => true
  | (key, value) :: fields, other =>
      (other.get key).any (same number value) && sameFields number fields other

end

/-- The first answer of a convert's table for a value. -/
def answerOf (number : String → String → Bool) (values : List (Serde × Serde)) (raw : Serde) :
    Option Serde :=
  (values.find? fun pair => same number pair.1 raw).map (·.2)

end Hecks.Era
