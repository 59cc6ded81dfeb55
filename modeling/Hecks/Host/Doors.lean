import Hecks.Expr.Doors
import Hecks.Host.ExprJson
import Hecks.Lib.FloatOrder

/-! The kernel's door to a document and the host's. -/
namespace Hecks

open Panics

namespace Json

mutual

/-- No object of the document names a field twice, and each number is the same value to both
readers: the kernel takes a number it has no text for off its float, the host off its digits. -/
def Agrees : Json → Prop
  | object fields => (fields.map (·.1)).Nodup ∧ AllAgree fields
  | array items => EachAgrees items
  | num n raw =>
      Host.numberValue (String.ofList (write (num n raw))) =
        .ok ((exactI64 n raw).elim (.float n) .int)
  | float n => n.isFinite = true
  | str _ | bool _ | null => True

def AllAgree : List (String × Json) → Prop
  | [] => True
  | (_, value) :: fields => value.Agrees ∧ AllAgree fields

def EachAgrees : List Json → Prop
  | [] => True
  | item :: items => item.Agrees ∧ EachAgrees items

end

end Json

namespace Host

/-! ### Finite floats -/

theorem parseI64_point {cs : List Char} (point : '.' ∈ cs) :
    Text.parseI64 (String.ofList cs) = none := by
  have fails : ∀ (ds : List Char) (acc : ℕ), '.' ∈ ds → Text.digitsValue ds acc = none := by
    intro ds
    induction ds with
    | nil => exact fun acc mem => absurd mem List.not_mem_nil
    | cons d ds ih =>
      intro acc mem
      rcases List.mem_cons.mp mem with rfl | mem
      · rfl
      · rw [Text.digitsValue]
        cases Text.digit? d with
        | none => rfl
        | some n => exact ih _ mem
  unfold Text.parseI64
  rw [String.toList_ofList]
  have inside : '.' ∈ (Text.splitSign cs).2 := by
    unfold Text.splitSign
    split
    · simpa using point
    · simpa using point
    · exact point
  generalize Text.splitSign cs = signed at inside
  obtain ⟨neg, ds⟩ := signed
  cases ds with
  | nil => rfl
  | cons d ds =>
    dsimp only
    rw [fails (d :: ds) 0 inside]
    rfl

theorem numberValue_float {n : Float.Model} (finite : n.isFinite = true) :
    numberValue (String.ofList (Json.writeFloat n)) = .ok (.float n) := by
  have text : '.' ∈ Json.writeFloat n ∧
      Binary64.parse (String.ofList (Json.writeFloat n)) = some n := by
    obtain ⟨lower, upper⟩ := Decimal.display_no_exponent finite
    unfold Json.writeFloat
    by_cases point : '.' ∈ (Binary64.display n).toList
    · obtain ⟨-, -, -, -, -, -, -, parsed⟩ := Decimal.display_numeral finite
      simpa [point] using parsed
    · have parsed := Decimal.parse_display_point finite point
      rw [String.ofList_append, String.ofList_toList] at parsed
      simpa [point, lower, upper] using parsed
  rw [numberValue, Serde.asI64, parseI64_point text.1]
  dsimp only
  rw [Serde.asF64, text.2, Option.filter_some, if_pos finite]

/-! ### A document as the host reads it -/

section

variable {α : Type}

theorem insert_new {key : String} {value : Serde} {map : List (String × Serde)}
    (new : key ∉ map.map (·.1)) : Serde.insert key value map = map ++ [(key, value)] := by
  induction map with
  | nil => rfl
  | cons f fields ih =>
    simp only [List.map_cons, List.mem_cons, not_or] at new
    rw [Serde.insert, if_neg (Ne.symm new.1), ih new.2]
    rfl

/-- An object that names each field once is read as it stands. -/
theorem foldl_insert (fields map : List (String × Serde))
    (nodup : ((map ++ fields).map (·.1)).Nodup) :
    fields.foldl (fun map f => Serde.insert f.1 f.2 map) map = map ++ fields := by
  induction fields generalizing map with
  | nil => simp
  | cons f fields ih =>
    have new : f.1 ∉ map.map (·.1) := by
      rw [List.map_append, List.nodup_append] at nodup
      intro mem
      exact nodup.2.2 _ mem _ (by simp) rfl
    rw [List.foldl_cons, insert_new new, ih _ (by simpa using nodup)]
    simp

theorem find_insertSorted (key name : String) (value : α) (map : List (String × α)) :
    (insertSorted key value map).find? (fun f => f.1 = name) =
      if key = name then some (key, value) else map.find? (fun f => f.1 = name) := by
  induction map with
  | nil => by_cases same : key = name <;> simp [insertSorted, same]
  | cons f fields ih =>
    unfold insertSorted
    by_cases before : key < f.1
    · rw [if_pos before]
      by_cases same : key = name <;> simp [List.find?_cons, same]
    · rw [if_neg before]
      by_cases here : key = f.1
      · rw [if_pos here]
        by_cases same : key = name
        · simp [same]
        · have other : f.1 ≠ name := by rw [← here]; exact same
          simp [same, other]
      · rw [if_neg here]
        by_cases same : f.1 = name
        · have other : key ≠ name := by rw [← same]; exact here
          simp [same, other]
        · simp [same, ih]

/-- The fields of a `BTreeMap` are found as those of the object it was collected from. -/
theorem find_collect (name : String) (fields map : List (String × α))
    (nodup : (fields.map (·.1)).Nodup) :
    (fields.foldl (fun map f => insertSorted f.1 f.2 map) map).find? (fun f => f.1 = name) =
      (fields.find? fun f => f.1 = name).or (map.find? fun f => f.1 = name) := by
  induction fields generalizing map with
  | nil => rfl
  | cons f fields ih =>
    rw [List.map_cons, List.nodup_cons] at nodup
    rw [List.foldl_cons, ih _ nodup.2, find_insertSorted, List.find?_cons]
    by_cases same : f.1 = name
    · have absent : fields.find? (fun g => g.1 = name) = none := by
        rw [List.find?_eq_none]
        intro g mem
        have distinct : g.1 ≠ f.1 := by
          intro eq
          exact nodup.1 (eq ▸ List.mem_map_of_mem mem)
        simpa [← same] using distinct
      rw [absent, Option.none_or, if_pos same]
      simp only [same, decide_true]
      rw [← same]
      rfl
    · simp [same]

end

mutual

/-- The slot the host builds of a document. -/
def slotOf : Json → Slot
  | .object fields => .object (collect (slotFields fields))
  | .array items => .list (slotItems items)
  | .str s => .scalar (.str s)
  | .num n raw => .scalar ((Json.exactI64 n raw).elim (.float n) .int)
  | .float n => .scalar (.float n)
  | .bool b => .scalar (.bool b)
  | .null => .scalar .nil

def slotFields : List (String × Json) → List (String × Slot)
  | [] => []
  | (key, value) :: fields => (key, slotOf value) :: slotFields fields

def slotItems : List Json → List Slot
  | [] => []
  | item :: items => slotOf item :: slotItems items

end

theorem keys_ofFields (fields : List (String × Json)) :
    (Serde.ofFields fields).map (·.1) = fields.map (·.1) := by
  induction fields with
  | nil => rfl
  | cons f fields ih => rw [Serde.ofFields, List.map_cons, List.map_cons, ih]

theorem keys_slotFields (fields : List (String × Json)) :
    (slotFields fields).map (·.1) = fields.map (·.1) := by
  induction fields with
  | nil => rfl
  | cons f fields ih => rw [slotFields, List.map_cons, List.map_cons, ih]

theorem ofJson_object {fields : List (String × Json)} (nodup : (fields.map (·.1)).Nodup) :
    Serde.ofJson (.object fields) = .object (Serde.ofFields fields) := by
  rw [Serde.ofJson, foldl_insert _ _ (by simpa [keys_ofFields] using nodup), List.nil_append]

mutual

theorem fromJson_ofJson : (j : Json) → j.Agrees → Slot.fromJson (Serde.ofJson j) = .ok (slotOf j)
  | .object fields, ⟨nodup, agree⟩ => by
    rw [ofJson_object nodup, Slot.fromJson, fromFields_ofFields fields agree]
    rfl
  | .array items, agree => by
    rw [Serde.ofJson, Slot.fromJson, fromItems_ofItems items agree]
    rfl
  | .str s, _ => rfl
  | .num n raw, agree => by
    rw [Serde.ofJson, Slot.fromJson, agree]
    rfl
  | .float n, finite => by
    rw [Serde.ofJson, Slot.fromJson, numberValue_float finite]
    rfl
  | .bool b, _ => rfl
  | .null, _ => rfl

theorem fromFields_ofFields : (fields : List (String × Json)) → Json.AllAgree fields →
    Slot.fromFields (Serde.ofFields fields) = .ok (slotFields fields)
  | [], _ => rfl
  | (key, value) :: fields, ⟨first, rest⟩ => by
    rw [Serde.ofFields, Slot.fromFields, fromJson_ofJson value first,
      fromFields_ofFields fields rest]
    rfl

theorem fromItems_ofItems : (items : List Json) → Json.EachAgrees items →
    Slot.fromItems (Serde.ofItems items) = .ok (slotItems items)
  | [], _ => rfl
  | item :: items, ⟨first, rest⟩ => by
    rw [Serde.ofItems, Slot.fromItems, fromJson_ofJson item first, fromItems_ofItems items rest]
    rfl

end

/-! ### The two surfaces -/

/-- The field of an object by its name. -/
def entry (fields : List (String × Json)) (name : String) : Option Json :=
  (fields.find? fun f => f.1 = name).map (·.2)

theorem find_members (fields : List (String × Slot)) (name : String) :
    (Slot.members fields).find? (fun m => m.key = name) =
      (fields.find? fun f => f.1 = name).map fun f =>
        ⟨f.1, f.2.field, f.2.elements, f.2.value⟩ := by
  induction fields with
  | nil => rfl
  | cons f fields ih =>
    rw [Slot.members, List.find?_cons, List.find?_cons]
    by_cases same : f.1 = name <;> simp [same, ih]

theorem find_toMembers (fields : List (String × Json)) (name : String) :
    (Json.toMembers fields).find? (fun m => m.key = name) =
      (fields.find? fun f => f.1 = name).map fun f =>
        ⟨f.1, f.2.toField, f.2.elements⟩ := by
  induction fields with
  | nil => rfl
  | cons f fields ih =>
    rw [Json.toMembers, List.find?_cons, List.find?_cons]
    by_cases same : f.1 = name <;> simp [same, ih]

theorem find_slotFields (fields : List (String × Json)) (name : String) :
    (slotFields fields).find? (fun f => f.1 = name) =
      (fields.find? fun f => f.1 = name).map fun f => (f.1, slotOf f.2) := by
  induction fields with
  | nil => rfl
  | cons f fields ih =>
    rw [slotFields, List.find?_cons, List.find?_cons]
    by_cases same : f.1 = name <;> simp [same, ih]

theorem kernel_field (fields : List (String × Json)) (name : String) :
    (Json.ofMembers (Json.toMembers fields)).field name = (entry fields name).map Json.toField := by
  show ((Json.toMembers fields).find? fun m => m.key = name).map (·.field) = _
  rw [find_toMembers, entry, Option.map_map, Option.map_map]
  rfl

theorem kernel_items (fields : List (String × Json)) (name : String) :
    (Json.ofMembers (Json.toMembers fields)).items name =
      (entry fields name).bind Json.elements := by
  show ((Json.toMembers fields).find? fun m => m.key = name).bind (·.items) = _
  rw [find_toMembers, entry, Option.bind_map, Option.bind_map]
  rfl

theorem nodeOf_field (root : Bool) (members : List Member) (name : String) :
    (nodeOf root members).field name =
      (members.find? fun m => m.key = name).elim (if root then none else some (.value .nil))
        fun m => some m.field := by
  simp only [nodeOf, Fielded.field]
  cases members.find? fun m => m.key = name <;> rfl

section

variable {fields : List (String × Json)} (nodup : (fields.map (·.1)).Nodup) (root : Bool)

include nodup

theorem host_member (name : String) :
    (Slot.members (collect (slotFields fields))).find? (fun m => m.key = name) =
      (fields.find? fun f => f.1 = name).map fun f =>
        ⟨f.1, (slotOf f.2).field, (slotOf f.2).elements, (slotOf f.2).value⟩ := by
  rw [find_members, collect, find_collect _ _ _ (by rw [keys_slotFields]; exact nodup),
    find_slotFields]
  cases fields.find? fun f => f.1 = name <;> rfl

theorem host_field (name : String) :
    (nodeOf root (Slot.members (collect (slotFields fields)))).field name =
      (entry fields name).elim (if root then none else some (.value .nil))
        fun j => some (slotOf j).field := by
  rw [nodeOf_field, host_member nodup, entry]
  cases fields.find? fun f => f.1 = name <;> rfl

theorem host_items (name : String) :
    (nodeOf root (Slot.members (collect (slotFields fields)))).items name =
      (entry fields name).bind fun j => (slotOf j).elements := by
  show ((Slot.members (collect (slotFields fields))).find? fun m => m.key = name).bind
    (·.items) = _
  rw [host_member nodup, entry, Option.bind_map, Option.bind_map]
  rfl

end

theorem length_slotItems (items : List Json) :
    (Slot.valueItems (slotItems items)).length = items.length := by
  induction items with
  | nil => rfl
  | cons item items ih => rw [slotItems, Slot.valueItems, List.length_cons, List.length_cons, ih]

theorem mem_entry {fields : List (String × Json)} {name : String} {j : Json}
    (found : entry fields name = some j) : ∃ key, (key, j) ∈ fields := by
  obtain ⟨f, first, rfl⟩ := Option.map_eq_some_iff.mp found
  exact ⟨f.1, List.mem_of_find?_eq_some first⟩

/-- What the kernel reads as a plain value, the host reads as one like it. -/
theorem like_value {j : Json} {v : Value} (read : j.toField = .value v) :
    Value.Like v (slotOf j).value := by
  cases j with
  | object fields => cases read
  | array items =>
    cases read
    have values := Value.Like.list (Slot.valueItems (slotItems items))
    rw [length_slotItems] at values
    exact values
  | _ =>
    cases read
    exact .same _

/-- The object through the two doors, from its fields through them. -/
theorem like_object {fields : List (String × Json)} (nodup : (fields.map (·.1)).Nodup)
    (root : Bool)
    (each : ∀ f ∈ fields, Field.Like f.2.toField (slotOf f.2).field ∧
      (f.2.elements = none ∧ (slotOf f.2).elements = none ∨
        ∃ xs ys, f.2.elements = some xs ∧ (slotOf f.2).elements = some ys ∧
          List.Forall₂ Field.Like xs ys)) :
    Fielded.Like (Json.ofMembers (Json.toMembers fields))
      (nodeOf root (Slot.members (collect (slotFields fields)))) := by
  refine .mk (fun name => ((entry fields name).map fun j => (slotOf j).field).getD (.value .nil))
    (fun name => ((entry fields name).bind fun j => (slotOf j).elements).getD [])
    ?_ ?_ ?_ ?_ ?_ ?_ ?_
  · intro name f found
    rw [kernel_field, Option.map_eq_some_iff] at found
    obtain ⟨j, found, -⟩ := found
    rw [host_field nodup, found]
    rfl
  · intro name f found
    rw [kernel_field, Option.map_eq_some_iff] at found
    obtain ⟨j, found, rfl⟩ := found
    obtain ⟨key, mem⟩ := mem_entry found
    rw [found]
    exact (each _ mem).1
  · intro name absent
    rw [kernel_field, Option.map_eq_none_iff] at absent
    rw [host_field nodup, absent]
    cases root
    · exact .inr rfl
    · exact .inl rfl
  · intro name items found
    rw [kernel_items, Option.bind_eq_some_iff] at found
    obtain ⟨j, found, list⟩ := found
    obtain ⟨key, mem⟩ := mem_entry found
    rcases (each _ mem).2 with ⟨first, -⟩ | ⟨xs, ys, first, second, -⟩
    · rw [list] at first
      cases first
    · rw [host_items nodup, found, Option.bind_some, second]
      rfl
  · intro name items found
    rw [kernel_items, Option.bind_eq_some_iff] at found
    obtain ⟨j, found, list⟩ := found
    obtain ⟨key, mem⟩ := mem_entry found
    rcases (each _ mem).2 with ⟨first, -⟩ | ⟨xs, ys, first, second, both⟩
    · rw [list] at first
      cases first
    · rw [list] at first
      cases first
      rw [found, Option.bind_some, second]
      exact both
  · intro name absent
    rw [kernel_items] at absent
    rw [host_items nodup]
    cases found : entry fields name with
    | none => rfl
    | some j =>
      obtain ⟨key, mem⟩ := mem_entry found
      rw [found, Option.bind_some] at absent
      rcases (each _ mem).2 with ⟨-, second⟩ | ⟨xs, ys, first, -, -⟩
      · exact second
      · rw [absent] at first
        cases first
  · intro v read
    match fields, read with
    | [(key, j)], read =>
      have plain : j.toField = .value v := by
        cases h : j.toField with
        | value w =>
          simp only [Json.ofMembers, Json.toMembers, Fielded.asScalar, h] at read
          cases read
          rfl
        | nested obj =>
          simp only [Json.ofMembers, Json.toMembers, Fielded.asScalar, h] at read
          cases read
      exact ⟨(slotOf j).value, rfl, like_value plain⟩
    | [], read => cases read
    | _ :: _ :: _, read => cases read

mutual

theorem like_field : (j : Json) → j.Agrees → Field.Like j.toField (slotOf j).field
  | .object fields, ⟨nodup, agree⟩ =>
    .nested (like_object nodup false fun f mem => like_fields fields agree f mem)
  | .array items, _ => .value (@like_value (.array items) _ rfl)
  | .str _, _ => .value (.same _)
  | .num _ _, _ => .value (.same _)
  | .float _, _ => .value (.same _)
  | .bool _, _ => .value (.same _)
  | .null, _ => .value (.same _)

theorem like_elements : (j : Json) → j.Agrees →
    j.elements = none ∧ (slotOf j).elements = none ∨
      ∃ xs ys, j.elements = some xs ∧ (slotOf j).elements = some ys ∧ List.Forall₂ Field.Like xs ys
  | .array items, agree => .inr ⟨_, _, rfl, rfl, like_items items agree⟩
  | .object _, _ | .str _, _ | .num _ _, _ | .float _, _ | .bool _, _ | .null, _ => .inl ⟨rfl, rfl⟩

theorem like_fields : (fields : List (String × Json)) → Json.AllAgree fields → ∀ f ∈ fields,
    Field.Like f.2.toField (slotOf f.2).field ∧
      (f.2.elements = none ∧ (slotOf f.2).elements = none ∨
        ∃ xs ys, f.2.elements = some xs ∧ (slotOf f.2).elements = some ys ∧
          List.Forall₂ Field.Like xs ys)
  | [], _, _, mem => absurd mem List.not_mem_nil
  | (key, value) :: fields, ⟨first, rest⟩, f, mem => by
    rcases List.mem_cons.mp mem with rfl | mem
    · exact ⟨like_field value first, like_elements value first⟩
    · exact like_fields fields rest f mem

theorem like_items : (items : List Json) → Json.EachAgrees items →
    List.Forall₂ Field.Like (Json.toFieldList items) (Slot.fieldItems (slotItems items))
  | [], _ => .nil
  | item :: items, ⟨first, rest⟩ => .cons (like_field item first) (like_items items rest)

end

/-! ### One expression, two doors -/

section

variable {escapes : Char → Bool} {regex : Operators.RegexBuilder} {debugExpr : Expr → String}

end

end Host

end Hecks
