import Hecks.Host.ReferenceValidate
import Hecks.Host.StorageShape
import Hecks.Json.Rereading
import Hecks.Lib.Delimited

/-! Which edits of the stored shape the canonical text shows. -/

namespace Hecks.Host.StorageShape

open Unfolding

/-! ### The shape of a record -/

/-- The nodes in the order of their names. -/
def byName (nodes : List Serde) : List Serde :=
  nodes.mergeSort fun a b => !decide (b.textAt "name" < a.textAt "name")

/-- The members of a container: what each says of itself, and the type it names. -/
def membersOf (container : Serde) : List (Label × String) :=
  (byName (container.itemsAt "attributes")).map fun attr => (labelOf attr, attr.textAt "type")

/-- An entry of a list under a key is smaller than the node. -/
theorem sizeOf_item_lt {fields : List (String × Serde)} {items : List Serde} {item : Serde}
    (smaller : sizeOf (Serde.array items) < sizeOf fields) (mem : item ∈ items) :
    sizeOf item < sizeOf (Serde.object fields) := by
  have inner := List.sizeOf_lt_of_mem mem
  simp only [Serde.array.sizeOf_spec, Serde.object.sizeOf_spec] at smaller ⊢
  omega

/-- The entities under a node, those within other entities included. -/
def entitiesWithin (node : Serde) : List Serde :=
  match node with
  | .object fields =>
      match part fields "entities" with
      | some ⟨.array items, _⟩ => items.attach.flatMap fun item => item.1 :: entitiesWithin item.1
      | _ => []
  | _ => []
termination_by sizeOf node
decreasing_by exact sizeOf_item_lt (by assumption) item.2

/-- The value object the runtime reads for a type, declared on the aggregate or on another one,
else the entity of that name anywhere within the aggregate. -/
def declaredType (ir aggregate : Serde) (typeName : String) : Option Serde :=
  (ReferenceValidate.valueObject ir aggregate typeName).or
    ((entitiesWithin aggregate).find? fun entity => entity.isNamed typeName)

section

-- how an aggregate's types are found
variable (find : Serde → String → Option Serde)

/-- What a record of the aggregate holds, down to this depth. -/
def recordShape (n : Nat) (aggregate : Serde) : String × List (Label × Tree String Label) :=
  (aggregate.textAt "name", (membersOf aggregate).map fun m =>
    (m.1, unfold (fun t => (find aggregate t).map membersOf) n m.2))

def recordShapes (n : Nat) (ir : Serde) : List (String × List (Label × Tree String Label)) :=
  (byName (ir.itemsAt "aggregates")).map (recordShape find n)

end

/-- At some depth the stored records differ in the name, the type or the list-ness of a member. -/
def RecordsDiffer (a b : Serde) : Prop :=
  ∃ n, recordShapes (declaredType a) n a ≠ recordShapes (declaredType b) n b

def headOf (aggregate : Serde) : String × List String × Option String :=
  (aggregate.textAt "name", identityOf aggregate, lifecycleField aggregate)

/-- What else the canonical text holds: the domain's name, and the aggregates' names, identities
and lifecycle fields. -/
def heads (ir : Serde) : String × List (String × List String × Option String) :=
  (ir.textAt "name", (byName (ir.itemsAt "aggregates")).map headOf)

/-- The two differ in a name, an identity or a lifecycle field, or in what the records hold as
far as the types each aggregate declares itself lead. -/
def DifferInSight (a b : Serde) : Prop :=
  heads a ≠ heads b ∨ ∃ n, recordShapes nestedType n a ≠ recordShapes nestedType n b

/-! ### The text of a shape -/

mutual

def treeText : Tree String Label → List Char
  | .leaf t => jsonString t
  | .node t ms => "\x7b\"type\":".toList ++ jsonString t ++ ",\"members\":".toList ++
      joinArray (memberTexts ms) ++ "\x7d".toList

def memberTexts : List (Label × Tree String Label) → List (List Char)
  | [] => []
  | (label, child) :: ms => attributeText label (treeText child) :: memberTexts ms

end

def memberText (m : Label × Tree String Label) : List Char := attributeText m.1 (treeText m.2)

theorem memberTexts_eq (ms : List (Label × Tree String Label)) :
    memberTexts ms = ms.map memberText := by
  induction ms with
  | nil => rfl
  | cons m ms ih =>
    rw [memberTexts, ih]
    rfl

/-- Sorting pairs by their names is sorting by the names. -/
theorem sortByName_map {α : Type} (nodes : List Serde) (f : Serde → α) :
    (sortByName (nodes.map fun x => (x.textAt "name", f x))).map (·.2) = (byName nodes).map f := by
  unfold sortByName byName
  rw [← List.map_mergeSort (r := fun a b => !decide (b.textAt "name" < a.textAt "name"))]
  · rw [List.map_map]
    rfl
  · intro a _ b _
    rfl

def declarations (aggregate : Serde) : Declarations String Label where
  names := localNames aggregate
  members t := (nestedType aggregate t).map membersOf
  named h := by
    obtain ⟨container, found, -⟩ := Option.map_eq_some_iff.mp h
    exact mem_localNames found

/-- The signature of a type is the text of what it is written out as. -/
theorem typeSignature_eq (aggregate : Serde) (t : String) (seen : List String) :
    typeSignature aggregate t seen = treeText (written (declarations aggregate) seen t) := by
  induction size : unseen (localNames aggregate) seen using Nat.strong_induction_on
    generalizing seen t with
  | _ left ih =>
    by_cases already : t ∈ seen
    · rw [typeSignature_seen already, written_seen already]
      rfl
    cases found : nestedType aggregate t with
    | none =>
      have undeclared : (declarations aggregate).members t = none := by simp [declarations, found]
      rw [typeSignature_undeclared found, written_undeclared undeclared]
      rfl
    | some container =>
      have declared : (declarations aggregate).members t = some (membersOf container) := by
        simp [declarations, found]
      have smaller : unseen (localNames aggregate) (seen ++ [t]) < left := by
        rw [← size]
        exact unseen_lt (mem_localNames found) (by simpa using already)
      have members : (sortByName ((container.itemsAt "attributes").map fun member =>
            (member.textAt "name", projectAttribute aggregate member (seen ++ [t])))).map (·.2) =
          memberTexts ((membersOf container).map fun m =>
            (m.1, written (declarations aggregate) (seen ++ [t]) m.2)) := by
        rw [sortByName_map, memberTexts_eq, membersOf, List.map_map, List.map_map]
        apply List.map_congr_left
        intro member _
        rw [projectAttribute, ih _ smaller _ _ rfl]
        rfl
      rw [typeSignature_declared found already, written_declared declared already, members]
      rfl

/-! ### Reading the text back -/

theorem jsonString_at (s : String) : Delimited.At jsonString s := Json.writeEscapedString_at s

theorem joinArray_map {α : Type} (text : α → List Char) (xs : List α) :
    joinArray (xs.map text) = Delimited.listed text '[' ',' ']' xs := rfl

theorem brace_text : "\x7d".toList = ['\x7d'] := rfl

theorem flagText_at (b : Bool) : Delimited.At flagText b := by
  have yes : flagText true = ['t', 'r', 'u', 'e'] := rfl
  have no : flagText false = ['f', 'a', 'l', 's', 'e'] := rfl
  intro b' rest rest' same
  cases b with
  | false =>
    cases b' with
    | false => exact ⟨rfl, List.append_cancel_left same⟩
    | true => simp [yes, no] at same
  | true =>
    cases b' with
    | false => simp [yes, no] at same
    | true => exact ⟨rfl, List.append_cancel_left same⟩

/-- An attribute is read back once the text of its type is. -/
theorem attributeText_at {label label' : Label} {type type' rest rest' : List Char}
    (same : attributeText label type ++ rest = attributeText label' type' ++ rest') :
    label = label' ∧ type ++ '\x7d' :: rest = type' ++ '\x7d' :: rest' := by
  delta attributeText at same
  simp only [List.append_assoc, brace_text, List.singleton_append] at same
  have same := List.append_cancel_left same
  obtain ⟨names, same⟩ := jsonString_at label.1 label'.1 _ _ same
  have same := List.append_cancel_left same
  obtain ⟨lists, same⟩ := flagText_at label.2 label'.2 _ _ same
  exact ⟨Prod.ext names lists, List.append_cancel_left same⟩

theorem treeText_node (t : String) (ms : List (Label × Tree String Label)) :
    treeText (.node t ms) = "\x7b\"type\":".toList ++ jsonString t ++ ",\"members\":".toList ++
      Delimited.listed memberText '[' ',' ']' ms ++ "\x7d".toList := by
  rw [← joinArray_map, ← memberTexts_eq]
  rfl

theorem memberText_at {m : Label × Tree String Label} (child : Delimited.At treeText m.2) :
    Delimited.At memberText m := by
  intro m' rest rest' same
  obtain ⟨labels, types⟩ := attributeText_at same
  obtain ⟨trees, ends⟩ := child _ _ _ types
  exact ⟨Prod.ext labels trees, (List.cons.inj ends).2⟩

theorem memberText_starts (m : Label × Tree String Label) :
    ∃ c cs, memberText m = c :: cs ∧ c ≠ ']' := ⟨'\x7b', _, rfl, by decide⟩

theorem treeText_leaf_ne (t : String) (rest : List Char) (u : String)
    (ms : List (Label × Tree String Label)) (rest' : List Char) :
    treeText (.leaf t) ++ rest ≠ treeText (.node u ms) ++ rest' := by
  intro same
  exact absurd (List.cons.inj same).1 (by decide)

mutual

theorem treeText_at : ∀ tree, Delimited.At treeText tree
  | .leaf t => by
    intro tree rest rest' same
    cases tree with
    | leaf u =>
      obtain ⟨names, ends⟩ := jsonString_at t u rest rest' same
      exact ⟨congrArg Tree.leaf names, ends⟩
    | node u ms => exact absurd same (treeText_leaf_ne t rest u ms rest')
  | .node t ms => by
    intro tree rest rest' same
    cases tree with
    | leaf u => exact absurd same.symm (treeText_leaf_ne u rest' t ms rest)
    | node u ns =>
      rw [treeText_node, treeText_node] at same
      simp only [List.append_assoc] at same
      have same := List.append_cancel_left same
      obtain ⟨names, same⟩ := jsonString_at t u _ _ same
      have same := List.append_cancel_left same
      have each : Delimited.At (Delimited.listed memberText '[' ',' ']') ms :=
        Delimited.At.listed (by decide) (memberTexts_at ms) memberText_starts
      obtain ⟨members, ends⟩ := each ns _ _ same
      exact ⟨by rw [names, members], List.append_cancel_left ends⟩

theorem memberTexts_at : ∀ ms : List (Label × Tree String Label),
    ∀ m ∈ ms, Delimited.At memberText m
  | [] => fun m mem => absurd mem List.not_mem_nil
  | (label, child) :: ms => by
    intro m mem
    rcases List.mem_cons.mp mem with rfl | mem
    · exact memberText_at (treeText_at child)
    · exact memberTexts_at ms m mem

end

/-- What the text holds of an aggregate. -/
abbrev Portrait := (String × List String × Option String) × List (Label × Tree String Label)

def portrait (aggregate : Serde) : Portrait :=
  (headOf aggregate, (membersOf aggregate).map fun m =>
    (m.1, written (declarations aggregate) [] m.2))

def lifecycleText (field : Option String) : List Char := field.elim "null".toList jsonString

def portraitText (p : Portrait) : List Char :=
  "\x7b\"name\":".toList ++ (jsonString p.1.1 ++ (",\"identity\":".toList ++
    (Delimited.listed jsonString '[' ',' ']' p.1.2.1 ++ (",\"lifecycle_field\":".toList ++
      (lifecycleText p.1.2.2 ++ (",\"attributes\":".toList ++
        (Delimited.listed memberText '[' ',' ']' p.2 ++ "\x7d".toList)))))))

theorem projectAggregate_eq (aggregate : Serde) :
    projectAggregate aggregate = portraitText (portrait aggregate) := by
  have members : (sortByName ((aggregate.itemsAt "attributes").map fun attr =>
        (attr.textAt "name", projectAttribute aggregate attr []))).map (·.2) =
      (portrait aggregate).2.map memberText := by
    rw [sortByName_map, portrait, membersOf, List.map_map, List.map_map]
    apply List.map_congr_left
    intro attr _
    rw [projectAttribute, typeSignature_eq]
    rfl
  delta projectAggregate portraitText
  simp only [members, List.append_assoc, joinArray_map]
  rfl

theorem lifecycleText_at (field : Option String) : Delimited.At lifecycleText field := by
  have absent : lifecycleText none = ['n', 'u', 'l', 'l'] := rfl
  have present : ∀ s, ∃ cs, lifecycleText (some s) = '"' :: cs := fun s => ⟨_, rfl⟩
  intro field' rest rest' same
  cases field with
  | none =>
    cases field' with
    | none => exact ⟨rfl, List.append_cancel_left same⟩
    | some t =>
      obtain ⟨cs, text⟩ := present t
      rw [absent, text] at same
      exact absurd (List.cons.inj same).1 (by decide)
  | some s =>
    cases field' with
    | none =>
      obtain ⟨cs, text⟩ := present s
      rw [absent, text] at same
      exact absurd (List.cons.inj same).1 (by decide)
    | some t =>
      obtain ⟨texts, ends⟩ := jsonString_at s t rest rest' same
      exact ⟨congrArg some texts, ends⟩

theorem portraitText_at (p : Portrait) : Delimited.At portraitText p := by
  have texts : Delimited.At (Delimited.listed jsonString '[' ',' ']') p.1.2.1 :=
    Delimited.At.listed (by decide) (fun s _ => jsonString_at s)
      (fun s => ⟨'"', _, rfl, by decide⟩)
  have members : Delimited.At (Delimited.listed memberText '[' ',' ']') p.2 :=
    Delimited.At.listed (by decide) (fun m _ => memberText_at (treeText_at m.2))
      memberText_starts
  intro q rest rest' same
  delta portraitText at same
  simp only [List.append_assoc] at same
  have same := List.append_cancel_left same
  obtain ⟨names, same⟩ := jsonString_at p.1.1 q.1.1 _ _ same
  have same := List.append_cancel_left same
  obtain ⟨identities, same⟩ := texts q.1.2.1 _ _ same
  have same := List.append_cancel_left same
  obtain ⟨lifecycles, same⟩ := lifecycleText_at p.1.2.2 q.1.2.2 _ _ same
  have same := List.append_cancel_left same
  obtain ⟨attributes, same⟩ := members q.2 _ _ same
  exact ⟨Prod.ext (Prod.ext names (Prod.ext identities lifecycles)) attributes,
    List.append_cancel_left same⟩

theorem canonical_eq (ir : Serde) :
    canonical ir = "\x7b\"name\":".toList ++ (jsonString (ir.textAt "name") ++
      (",\"aggregates\":".toList ++ (Delimited.listed portraitText '[' ',' ']'
        ((byName (ir.itemsAt "aggregates")).map portrait) ++ "\x7d".toList))) := by
  have texts : projectAggregate = portraitText ∘ portrait := funext projectAggregate_eq
  delta canonical project
  simp only [sortByName_map, texts, List.append_assoc, ← joinArray_map, List.map_map]

/-- The text tells apart whatever the portraits do. -/
theorem canonical_eq_iff (a b : Serde) :
    canonical a = canonical b ↔ a.textAt "name" = b.textAt "name" ∧
      (byName (a.itemsAt "aggregates")).map portrait =
        (byName (b.itemsAt "aggregates")).map portrait := by
  rw [canonical_eq, canonical_eq]
  constructor
  · intro same
    have each : Delimited.At (Delimited.listed portraitText '[' ',' ']')
        ((byName (a.itemsAt "aggregates")).map portrait) :=
      Delimited.At.listed (by decide) (fun p _ => portraitText_at p)
        (fun p => ⟨'\x7b', _, rfl, by decide⟩)
    have same := List.append_cancel_left same
    obtain ⟨names, same⟩ := jsonString_at (a.textAt "name") (b.textAt "name") _ _ same
    have same := List.append_cancel_left same
    exact ⟨names, (each _ _ _ same).1⟩
  · rintro ⟨names, portraits⟩
    rw [names, portraits]

/-! ### What the text shows -/

/-- Two aggregates have one portrait when their heads and their records at every depth agree. -/
theorem portrait_eq_iff (x y : Serde) :
    portrait x = portrait y ↔
      headOf x = headOf y ∧ ∀ n, recordShape nestedType n x = recordShape nestedType n y := by
  constructor
  · intro same
    obtain ⟨heads, members⟩ := Prod.mk.inj same
    refine ⟨heads, fun n => Prod.ext (congrArg (·.1) heads) ?_⟩
    refine map_eq_of_map_eq ?_ fun _ : Unit => members
    intro m _ m' equal
    obtain ⟨labels, trees⟩ := Prod.mk.inj (equal ())
    exact Prod.ext labels (written_eq_iff.mp trees n)
  · rintro ⟨heads, shapes⟩
    apply Prod.ext heads
    refine map_eq_of_map_eq ?_ fun n => (Prod.mk.inj (shapes n)).2
    intro m _ m' equal
    have labels := (Prod.mk.inj (equal 0)).1
    have trees : ∀ n, unfold (declarations x).members n m.2 =
        unfold (declarations y).members n m'.2 := fun n => (Prod.mk.inj (equal n)).2
    exact Prod.ext labels (written_eq_iff.mpr trees)

/-- The text shows what is in sight, and nothing else. -/
theorem canonical_ne_iff (a b : Serde) : canonical a ≠ canonical b ↔ DifferInSight a b := by
  rw [Ne, canonical_eq_iff, DifferInSight, ← not_iff_not, not_not, not_or, not_not, not_exists]
  simp only [not_not]
  constructor
  · rintro ⟨names, portraits⟩
    constructor
    · apply Prod.ext names
      refine map_eq_of_map_eq ?_ fun _ : Unit => portraits
      intro x _ y equal
      exact ((portrait_eq_iff x y).mp (equal ())).1
    · intro n
      refine map_eq_of_map_eq ?_ fun _ : Unit => portraits
      intro x _ y equal
      exact ((portrait_eq_iff x y).mp (equal ())).2 n
  · rintro ⟨heads, shapes⟩
    obtain ⟨names, each⟩ := Prod.mk.inj heads
    refine ⟨names, ?_⟩
    -- both readings of an aggregate at once: its head, or its record at a depth
    let reading : Option ℕ → Serde → (String × List String × Option String) ⊕
        (String × List (Label × Tree String Label)) := fun i x =>
      i.elim (.inl (headOf x)) fun n => .inr (recordShape nestedType n x)
    apply map_eq_of_map_eq (f := reading) (g := reading)
    · intro x _ y equal
      exact (portrait_eq_iff x y).mpr
        ⟨Sum.inl.inj (equal none), fun n => Sum.inr.inj (equal (some n))⟩
    · intro i
      cases i with
      | none =>
        refine map_eq_of_map_eq ?_ fun _ : Unit => each
        intro x _ y equal
        exact congrArg Sum.inl (equal ())
      | some n =>
        refine map_eq_of_map_eq ?_ fun _ : Unit => shapes n
        intro x _ y equal
        exact congrArg Sum.inr (equal ())

/-- An edit of the stored records changes the text exactly when it is in sight. -/
theorem shape_edit_shows (a b : Serde) :
    (RecordsDiffer a b → canonical a ≠ canonical b) ↔ (RecordsDiffer a b → DifferInSight a b) :=
  forall_congr' fun _ => canonical_ne_iff a b

/-- The site that declares the tier, as a text or a number, and does not hold one itself. -/
def managedSite (level : String) : Serde :=
  let attr := fun name type : String => Serde.object [("name", .string name), ("type", .string type)]
  let declared := fun (name : String) (attrs : List Serde) =>
    Serde.object [("name", .string name), ("attributes", .array attrs)]
  .object [("name", .string "ManagedSite"), ("attributes", .array [attr "title" "SiteTitle"]),
    ("value_objects", .array
      [declared "SiteTitle" [attr "value" "String"], declared "Tier" [attr "level" level]])]

/-- A booking of a tier that another aggregate declares. -/
def siteBooking (level : String) : Serde :=
  let tier := Serde.object [("name", .string "tier"), ("type", .string "Tier")]
  .object [("name", .string "Sites"), ("aggregates", .array
    [.object [("name", .string "Booking"), ("attributes", .array [tier])], managedSite level])]

theorem byName_siteBooking (level : String) :
    byName ((siteBooking level).itemsAt "aggregates") = (siteBooking level).itemsAt "aggregates" :=
  List.mergeSort_of_pairwise (List.pairwise_pair.mpr
    (show (!decide ("ManagedSite" < "Booking")) = true by decide))

theorem membersOf_managedSite (level : String) :
    membersOf (managedSite level) = [(("title", false), "SiteTitle")] ∧
      (nestedType (managedSite level) "SiteTitle").map membersOf =
        some [(("value", false), "String")] ∧
      nestedType (managedSite level) "String" = none := by
  simp [membersOf, byName, nestedType, managedSite, Serde.itemsAt, Serde.get, Serde.asArray,
    Serde.isNamed, Serde.asStr, Serde.textAt, labelOf, Serde.flagAt]

theorem foreign_type_unseen :
    RecordsDiffer (siteBooking "Integer") (siteBooking "String") ∧
      canonical (siteBooking "Integer") = canonical (siteBooking "String") := by
  constructor
  · refine ⟨1, fun same => ?_⟩
    rw [recordShapes, recordShapes, byName_siteBooking, byName_siteBooking] at same
    simp [recordShape, unfold, declaredType, ReferenceValidate.valueObject,
      ReferenceValidate.indexByName, ReferenceValidate.sameShape, siteBooking, managedSite,
      Serde.itemsAt, Serde.get, membersOf, byName, Serde.asArray, Serde.isNamed, Serde.asStr,
      Serde.textAt] at same
  · have sites : portrait (managedSite "Integer") = portrait (managedSite "String") := by
      apply (portrait_eq_iff _ _).mpr
      refine ⟨rfl, fun n => ?_⟩
      obtain ⟨held, title, value⟩ := membersOf_managedSite "Integer"
      obtain ⟨held', title', value'⟩ := membersOf_managedSite "String"
      rw [recordShape, recordShape, held, held']
      apply congrArg (Prod.mk "ManagedSite")
      cases n with
      | zero => rfl
      | succ n =>
        cases n with
        | zero => simp [unfold, title, title']
        | succ n => simp [unfold, title, title', value, value']
    rw [canonical_eq_iff, byName_siteBooking, byName_siteBooking]
    exact ⟨rfl, congrArg (fun p => [_, p]) sites⟩

end Hecks.Host.StorageShape
