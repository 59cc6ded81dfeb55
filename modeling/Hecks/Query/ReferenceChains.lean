import Hecks.Lib.Hops
import Hecks.Query.Pages

/-! Which rows a filter through references keeps: those whose references, read as text, lead to a
record the inner clause accepts. -/
namespace Hecks.Query

/-- What a record holds in a reference field, as a condition reads it. -/
def heldBy (record : Json) (field : String) : Json := comparable ((record.dig field).getD .null)

section

variable (store : Store)

/-- A record linked through the field to one stored under the aggregate. -/
def Linked (link : Json → String → Prop) (hop : String × String) (record next : Json) : Prop :=
  ∃ entries, store.scan hop.2 = some entries ∧
    ∃ id, (id, next) ∈ entries ∧ link (heldBy record hop.1) id

/-- The reference fields of a clause, each with the aggregate it leads to. -/
def ReferenceHopCondition.chain (hop : ReferenceHopCondition) : List (String × String) :=
  (hop.viaField, hop.targetAggregate) ::
    hop.through.map fun step => (step.viaField, step.targetAggregate)

/-- The inner clause holds of the final target. -/
def ReferenceHopCondition.accepts (hop : ReferenceHopCondition) (args record : Json) : Prop :=
  entryMatches record hop.innerField hop.innerComparator
    (comparable (hop.innerValue.resolve args)) [] = true

end

section

variable {escapes : Char → Bool} {store : Store} {held : Json} {id : String}

end

/-! ### Where texts and references part -/

section

variable (store : Store)

variable {store} {hop : ReferenceHopCondition} {args record : Json}

end

end Hecks.Query
