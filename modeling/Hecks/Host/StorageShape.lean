import Hecks.Host.Serde
import Hecks.Lib.Unfolding

/-! The canonical text of a bluebook's storage shape, whose digest names the era. -/
namespace Hecks.Host.StorageShape

/-- `serde_json` escapes a text as the kernel does. -/
def jsonString (s : String) : List Char := Json.writeEscapedString s

def joinArray (items : List (List Char)) : List Char :=
  '[' :: (List.intercalate [','] items ++ [']'])

/-- `sort_by` keeps entries of one name in their order. -/
def sortByName {α : Type} (entries : List (String × α)) : List (String × α) :=
  entries.mergeSort fun a b => !decide (b.1 < a.1)

/-- The value object of that name, else the entity, as far as the aggregate declares them. -/
def nestedType (aggregate : Serde) (typeName : String) : Option Serde :=
  let inList := fun key => (aggregate.itemsAt key).find? fun entry => entry.isNamed typeName
  (inList "value_objects").or (inList "entities")

/-- The names of the types the aggregate declares. -/
def localNames (aggregate : Serde) : List String :=
  (aggregate.itemsAt "value_objects" ++ aggregate.itemsAt "entities").filterMap fun entry =>
    (entry.get "name").bind Serde.asStr

theorem mem_localNames {aggregate container : Serde} {typeName : String}
    (found : nestedType aggregate typeName = some container) :
    typeName ∈ localNames aggregate := by
  have named : ∀ key,
      (aggregate.itemsAt key).find? (fun entry => entry.isNamed typeName) = some container →
      container ∈ aggregate.itemsAt key ∧
        (container.get "name").bind Serde.asStr = some typeName := by
    intro key h
    have holds := List.find?_some h
    exact ⟨List.mem_of_find?_eq_some h, of_decide_eq_true holds⟩
  apply List.mem_filterMap.mpr
  rcases Option.or_eq_some_iff.mp found with h | ⟨-, h⟩
  · obtain ⟨mem, name⟩ := named "value_objects" h
    exact ⟨container, List.mem_append_left _ mem, name⟩
  · obtain ⟨mem, name⟩ := named "entities" h
    exact ⟨container, List.mem_append_right _ mem, name⟩

/-- What an attribute says of itself: its name and whether it is a list. -/
abbrev Label := String × Bool

def labelOf (attr : Serde) : Label :=
  (attr.textAt "name", attr.flagAt "list")

def flagText (b : Bool) : List Char := if b then "true".toList else "false".toList

/-- An attribute around the text of its type. -/
def attributeText (label : Label) (typeJson : List Char) : List Char :=
  "\x7b\"name\":".toList ++ jsonString label.1 ++ ",\"list\":".toList ++
    flagText label.2 ++ ",\"type\":".toList ++ typeJson ++ "\x7d".toList

mutual

def projectAttribute (aggregate attr : Serde) (seen : List String) : List Char :=
  attributeText (labelOf attr) (typeSignature aggregate (attr.textAt "type") seen)
termination_by (Unfolding.unseen (localNames aggregate) seen, 1)

/-- A primitive is its type name; a value object or entity adds its members' signatures. -/
def typeSignature (aggregate : Serde) (typeName : String) (seen : List String) : List Char :=
  match found : nestedType aggregate typeName with
  | none => jsonString typeName
  | some container =>
      if already : seen.contains typeName = true then jsonString typeName
      else
        let members := sortByName ((container.itemsAt "attributes").map fun member =>
          (member.textAt "name", projectAttribute aggregate member (seen ++ [typeName])))
        "\x7b\"type\":".toList ++ jsonString typeName ++ ",\"members\":".toList ++
          joinArray (members.map (·.2)) ++ "\x7d".toList
termination_by (Unfolding.unseen (localNames aggregate) seen, 0)
decreasing_by
  exact Prod.Lex.left _ _ (Unfolding.unseen_lt (mem_localNames found) already)

end

section

variable {aggregate container : Serde} {t : String} {seen : List String}

theorem typeSignature_undeclared (h : nestedType aggregate t = none) :
    typeSignature aggregate t seen = jsonString t := by
  unfold typeSignature
  split
  · rfl
  · rename_i found
    rw [h] at found
    cases found

theorem typeSignature_seen (h : t ∈ seen) : typeSignature aggregate t seen = jsonString t := by
  unfold typeSignature
  split
  · rfl
  · rw [dif_pos (by simpa using h)]

theorem typeSignature_declared (h : nestedType aggregate t = some container) (fresh : t ∉ seen) :
    typeSignature aggregate t seen =
      "\x7b\"type\":".toList ++ jsonString t ++ ",\"members\":".toList ++
        joinArray ((sortByName ((container.itemsAt "attributes").map fun member =>
          (member.textAt "name", projectAttribute aggregate member (seen ++ [t])))).map (·.2)) ++
        "\x7d".toList := by
  rw [typeSignature]
  split
  · rename_i found
    rw [h] at found
    cases found
  · rename_i found
    cases h.symm.trans found
    rw [dif_neg (by simpa using fresh)]

end

/-- Absent or null is no identity, a text is one. -/
def identityOf (aggregate : Serde) : List String :=
  match aggregate.get "identified_by" with
  | some (.array items) => items.filterMap Serde.asStr
  | some (.string s) => [s]
  | _ => []

def lifecycleField (aggregate : Serde) : Option String :=
  ((aggregate.get "lifecycle").bind (·.get "field")).bind Serde.asStr

def projectAggregate (aggregate : Serde) : List Char :=
  let identityJson := joinArray ((identityOf aggregate).map jsonString)
  let lifecycleJson := (lifecycleField aggregate).elim "null".toList jsonString
  let attributes := sortByName ((aggregate.itemsAt "attributes").map fun attr =>
    (attr.textAt "name", projectAttribute aggregate attr []))
  "\x7b\"name\":".toList ++ jsonString (aggregate.textAt "name") ++ ",\"identity\":".toList ++
    identityJson ++ ",\"lifecycle_field\":".toList ++ lifecycleJson ++
    ",\"attributes\":".toList ++ joinArray (attributes.map (·.2)) ++ "\x7d".toList

def project (ir : Serde) : List Char :=
  let aggregates := sortByName ((ir.itemsAt "aggregates").map fun aggregate =>
    (aggregate.textAt "name", projectAggregate aggregate))
  "\x7b\"name\":".toList ++ jsonString (ir.textAt "name") ++ ",\"aggregates\":".toList ++
    joinArray (aggregates.map (·.2)) ++ "\x7d".toList

def canonical (ir : Serde) : List Char := project ir

end Hecks.Host.StorageShape
