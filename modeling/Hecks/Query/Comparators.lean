import Mathlib
import Hecks.Json.Writer

/-! How a query tests one record: the values its conditions are compared through, the
comparators, and the store they read. -/
namespace Hecks.Query

/-- What a query sees of a store: one record under an id, for each aggregate it knows. -/
structure Store where
  scan : String → Option (List (String × Json))
  distinct : ∀ aggregate rows, scan aggregate = some rows → (rows.map Prod.fst).Nodup

inductive QueryComparator where
  | eq
  | ne
  | gt
  | gte
  | lt
  | lte
  | in
  | contains
  | noneInState
deriving DecidableEq

def isNumber : Json → Bool
  | .num _ _ => true
  | .float _ => true
  | _ => false

/-- gt/gte/lt/lte are numeric only; anything else is silently false. -/
def ordered (held want : Json) : Bool := isNumber held && isNumber want

def asF64 : Json → Float.Model
  | .num n _ => n
  | .float n => n
  | _ => .pack .notANumber

/-- Reduces a value object one level, to its numeric member or its only member. -/
def comparable : Json → Json
  | .object fields =>
      match fields.find? fun f => isNumber f.2 with
      | some (_, numeric) => numeric
      | none =>
          match fields with
          | [(_, only)] => only
          | _ => .object fields
  | value => value

/-- Ruby's `to_s` of a value already reduced. -/
def toS : Json → String
  | .str s => s
  | .bool b => toString b
  | .null => ""
  | value => value.toJsonString

/-- The elements `in` and `contains` test: those of a list, or comma-separated text. -/
def members : Json → List String
  | .array items => items.map fun item => toS (comparable item)
  | value => (Text.segments ',' (toS value)).map Text.trim

/-- Element membership for a list, substring match for anything else. -/
def contains (held want : Json) : Bool :=
  match held with
  | .array items => (members (.array items)).any (· = toS want)
  | held => Text.containsText (toS want) (toS held)

/-- `Comparison#holds?`; both sides arrive reduced. -/
def QueryComparator.matches (c : QueryComparator) (held want : Json) : Bool :=
  match c with
  | .eq => Json.eq held want
  | .ne => !Json.eq held want
  | .gt => ordered held want && decide (asF64 want < asF64 held)
  | .gte => ordered held want && decide (asF64 want ≤ asF64 held)
  | .lt => ordered held want && decide (asF64 held < asF64 want)
  | .lte => ordered held want && decide (asF64 held ≤ asF64 want)
  | .in => (members want).any (· = toS held)
  | .contains => Query.contains held want
  -- needs a repository: `entry_matches` asks `none_in_state_matches` first
  | .noneInState => true

/-- `want` is `Aggregate:state`, `held` the referring key. The first domain that knows the
aggregate answers; a record it does not hold, or no domain at all, excludes nothing. -/
def noneInStateMatches (crossDomain : List (String × Store)) (held want : Json) : Bool :=
  match Text.splitOnce ":" (toS want) with
  | none => true
  | some (aggregate, state) =>
      let search := crossDomain.findSome? fun d => d.2.scan (d.1 ++ "::" ++ aggregate)
      match search with
      | none => true
      | some entries =>
          match entries.find? fun e => e.1 = toS held with
          | none => true
          | some (_, record) => toS (comparable ((record.dig "state").getD .null)) != state

/-- A missing field reads as null; `want` arrives reduced. -/
def entryMatches (record : Json) (field : String) (comparator : QueryComparator) (want : Json)
    (crossDomain : List (String × Store)) : Bool :=
  let held := comparable ((record.dig field).getD .null)
  if comparator = .noneInState then noneInStateMatches crossDomain held want
  else comparator.matches held want

abbrev Rows := List (String × Json)

/-- The stable sort by id every query starts from. -/
def sortById (rows : Rows) : Rows := rows.insertionSort fun a b => a.1 ≤ b.1

def filterEntries (entries : Rows) (field : String) (comparator : QueryComparator) (want : Json) :
    Rows :=
  sortById (entries.filter fun e => entryMatches e.2 field comparator (comparable want) [])

end Hecks.Query
