import Hecks.Expr.Safety
import Hecks.Host.Audit
import Hecks.Lib.Loops

/-! Where the structural layer of the mint audit comes to an end. The checks read on inside values,
but a scalar that stands for a value object's one field and a default that fills a slot are read on
without the state getting smaller: the checks end unless a value object holds itself that way. -/
namespace Hecks.Host.ReferenceValidate

open Panics

section

variable (display : Serde → String)

/-! ### What is checked inside a place -/

/-- The slots of a value object are checked once it declares what it holds, lacks nothing required
and is one of its set's members. -/
def Place.Opens (c : Checker) : Place → Prop
  | record _ _ _ => True
  | value _ typeName vo raw => ∃ given, fieldsOf (declaredAttributes vo) raw = some given ∧
      (∀ field ∈ given, ∃ attr ∈ declaredAttributes vo, attributeName attr = field.1) ∧
      missingField (declaredAttributes vo) (withDefaults (declaredAttributes vo) given) = none ∧
      (vo.flagAt "closed_set" = true → memberRows vo ≠ [] →
        checkMember display c typeName vo (withDefaults (declaredAttributes vo) given) = [])

/-- The check of a place checks this one inside it. -/
inductive Descends (c : Checker) : Place → Place → Prop
  | held {place next : Place} {attr raw value : Serde} (opens : place.Opens display c)
      (slot : place.Slot attr raw) (filled : raw.isNull = false) (held : Held attr raw value)
      (leads : c.place attr value = some next) : Descends c place next
  | null {ownerName : String} {attributes : List Serde} {holder attr raw vo : Serde}
      (slot : (Place.record ownerName attributes holder).Slot attr raw) (null : raw.isNull = true)
      (required : Required attr) (found : c.valueObject (attr.textAt "type") = some vo) :
      Descends c (.record ownerName attributes holder)
        (.value (attributeName attr) (attr.textAt "type") vo (.object []))

/-- The record the audit is given. -/
def Checker.root (c : Checker) (state : Serde) : Place :=
  .record c.aggregateName (declaredAttributes c.aggregate) state

end

section

variable (escapes : Char → Bool) (display : Serde → String)
variable (pattern : String → Option (String → Bool))
variable (regex : Operators.RegexBuilder) (debugExpr : Expr → String) (c : Checker)

def Place.check (fuel : Nat) : Place → Option (List String)
  | record ownerName attributes state =>
      checkAttributes escapes display pattern regex debugExpr c fuel ownerName .record state
        attributes
  | value attrName typeName vo raw =>
      checkValueObject escapes display pattern regex debugExpr c fuel attrName typeName vo raw

end

/-! ### One check -/

theorem gather_isSome {α : Type} {xs : List α} {check : α → Option (List String)} :
    (gather xs check).isSome ↔ ∀ x ∈ xs, (check x).isSome := by
  unfold gather
  rw [Option.isSome_map]
  induction xs with
  | nil => simp
  | cons x xs ih =>
    rw [List.forall_mem_cons, ← ih, List.mapM_cons]
    cases check x with
    | none => simp
    | some first => cases xs.mapM check <;> simp

section

variable {escapes : Char → Bool} {display : Serde → String}
variable {pattern : String → Option (String → Bool)}
variable {regex : Operators.RegexBuilder} {debugExpr : Expr → String}
variable {c : Checker} {fuel : Nat} {ownerName attrName typeName : String} {attr raw : Serde}

theorem interpret_ne_panicked {expr : Expr} {known : Serde} {reason : String} :
    interpret escapes regex debugExpr expr known ≠ .error (.panicked reason) := by
  unfold interpret
  cases rootOf known with
  | error e => exact nofun
  | ok node =>
    simp only
    obtain ⟨v, answered⟩ | ⟨message, refused⟩ :=
      @interpret_answers_or_faults escapes regex debugExpr expr ⟨node, Fielded.noFields⟩
    · rw [answered]
      exact nofun
    · rw [refused]
      exact nofun

/-- The evaluator does not panic, so every invariant is judged. -/
theorem checkInvariant_isSome {known rule : Serde} :
    (checkInvariant escapes display regex debugExpr c attrName typeName known rule).isSome := by
  unfold checkInvariant
  cases rule.get "ast" with
  | none => rfl
  | some ast =>
    simp only
    cases parse escapes display ast with
    | error e => rfl
    | ok expr =>
      simp only
      cases ran : interpret escapes regex debugExpr expr known with
      | ok result =>
        simp only
        split <;> rfl
      | error halt =>
        cases halt with
        | refused e => rfl
        | panicked reason => exact absurd ran interpret_ne_panicked

theorem checkInvariants_isSome {value vo : Serde} :
    (checkInvariants escapes display regex debugExpr c attrName typeName value vo).isSome := by
  unfold checkInvariants
  rw [gather_isSome]
  intro rule _
  exact checkInvariant_isSome

theorem checkAttributes_isSome {owner : Owner} {state : Serde} {attributes : List Serde} :
    (checkAttributes escapes display pattern regex debugExpr c (fuel + 1) ownerName owner state
        attributes).isSome ↔
      (state.asObject.isNone = false → ∀ attr ∈ attributes, ∀ raw,
        state.get (attributeName attr) = some raw →
          (raw.isNull = true → owner = .record → Required attr →
            (refuseNull escapes display pattern regex debugExpr c fuel ownerName
              (attributeName attr) (attr.textAt "type")).isSome) ∧
          (raw.isNull = false → ∀ value, Held attr raw value →
            (checkValue escapes display pattern regex debugExpr c fuel ownerName
              (attributeName attr) (attr.textAt "type") value attr).isSome)) := by
  rw [checkAttributes]
  cases object : state.asObject.isNone with
  | true => simp
  | false =>
    simp only [Bool.false_eq_true, if_false, true_implies]
    rw [gather_isSome]
    refine forall₂_congr fun attr _ => ?_
    cases held : state.get (attributeName attr) with
    | none => simp
    | some raw =>
      simp only [Option.some.injEq, forall_eq']
      cases null : raw.isNull with
      | true =>
        simp only [if_true, true_implies, Bool.true_eq_false, false_implies, and_true]
        by_cases required : owner = .record ∧ Required attr
        · obtain ⟨rfl, optional, single⟩ := required
          simp [optional, single, Required]
        · have skipped : (owner == .record && !attr.flagAt "optional" && !attr.flagAt "list") =
              false := by
            apply Bool.eq_false_iff.mpr
            intro asked
            simp only [Bool.and_eq_true, beq_iff_eq, Bool.not_eq_true'] at asked
            exact required ⟨asked.1.1, asked.1.2, asked.2⟩
          simp only [skipped]
          simp only [Bool.false_eq_true, if_false, Option.isSome_some, true_iff]
          intro record needed
          exact absurd ⟨record, needed⟩ required
      | false =>
        simp only [Bool.false_eq_true, if_false, false_implies, true_and, true_implies]
        cases many : attr.flagAt "list" with
        | false =>
          simp only [Bool.false_eq_true, if_false, Option.isSome_map]
          constructor
          · intro one value held
            cases held with
            | one _ => exact one
            | item list _ _ => simp [many] at list
          · intro each
            exact each raw (.one many)
        | true =>
          simp only [if_true]
          cases items : raw.asArray with
          | none =>
            simp only [Option.isSome_some, true_iff]
            intro value held
            cases held with
            | one single => simp [many] at single
            | item _ list _ => simp [items] at list
          | some xs =>
            simp only [gather_isSome]
            constructor
            · intro each value held
              cases held with
              | one single => simp [many] at single
              | item _ list mem =>
                cases items.symm.trans list
                exact each value mem
            · intro each item mem
              exact each item (.item many items mem)

theorem refuseNull_isSome :
    (refuseNull escapes display pattern regex debugExpr c (fuel + 1) ownerName attrName
        typeName).isSome ↔
      ∀ vo, c.valueObject typeName = some vo →
        ((Place.value attrName typeName vo (.object [])).check escapes display pattern regex
          debugExpr c fuel).isSome := by
  rw [refuseNull]
  cases c.valueObject typeName with
  | none => simp
  | some vo => simp [Place.check]

theorem checkValue_isSome {value : Serde} :
    (checkValue escapes display pattern regex debugExpr c (fuel + 1) ownerName
        (attributeName attr) (attr.textAt "type") value attr).isSome ↔
      ∀ next, c.place attr value = some next →
        (next.check escapes display pattern regex debugExpr c fuel).isSome := by
  rw [checkValue, Checker.place]
  cases c.valueObject (attr.textAt "type") with
  | some vo => simp [Place.check]
  | none =>
    cases c.entity (attr.textAt "type") with
    | some entity => simp [Place.check]
    | none => simp

theorem unknown_isEmpty {declared : List Serde} {given : List (String × Serde)} :
    ((given.map (·.1)).filter fun key =>
        !declared.any fun attr => attributeName attr == key).isEmpty = true ↔
      ∀ field ∈ given, ∃ attr ∈ declared, attributeName attr = field.1 := by
  rw [List.isEmpty_iff, List.filter_eq_nil_iff, List.forall_mem_map]
  refine forall₂_congr fun field _ => ?_
  simp

theorem checkValueObject_isSome {vo : Serde} :
    (checkValueObject escapes display pattern regex debugExpr c (fuel + 1) attrName typeName vo
        raw).isSome ↔
      ((Place.value attrName typeName vo raw).Opens display c →
        ∀ given, fieldsOf (declaredAttributes vo) raw = some given →
          (checkAttributes escapes display pattern regex debugExpr c fuel typeName .valueObject
            (.object (withDefaults (declaredAttributes vo) given))
            (declaredAttributes vo)).isSome) := by
  rw [checkValueObject]
  simp only [Place.Opens]
  cases fieldsOf (declaredAttributes vo) raw with
  | none => simp
  | some given =>
    simp only [Option.some.injEq, exists_eq_left', forall_eq']
    by_cases known : ∀ field ∈ given, ∃ attr ∈ declaredAttributes vo, attributeName attr = field.1
    · rw [if_neg (by simp [unknown_isEmpty.mpr known])]
      cases missing : missingField (declaredAttributes vo)
          (withDefaults (declaredAttributes vo) given) with
      | some attr => simp
      | none =>
        simp only [true_and]
        generalize refused : (if (vo.flagAt "closed_set" && !(memberRows vo).isEmpty) = true then
          checkMember display c typeName vo (withDefaults (declaredAttributes vo) given)
          else []) = members
        have admitted : members = [] ↔ (vo.flagAt "closed_set" = true → memberRows vo ≠ [] →
            checkMember display c typeName vo (withDefaults (declaredAttributes vo) given) = []) := by
          rw [← refused]
          by_cases closed : vo.flagAt "closed_set" = true ∧ memberRows vo ≠ []
          · simp [closed.1, closed.2]
          · rw [if_neg (by simpa using closed)]
            simp only [true_iff]
            intro flagged members
            exact absurd ⟨flagged, members⟩ closed
        cases members with
        | cons refusal others =>
          simp only [List.isEmpty_cons, Bool.not_false, if_true, Option.isSome_some, true_iff]
          rintro ⟨-, opens⟩
          exact absurd (admitted.mpr opens) (List.cons_ne_nil _ _)
        | nil =>
          simp only [List.isEmpty_nil, Bool.not_true, Bool.false_eq_true, if_false]
          constructor
          · rintro checked -
            cases inner : checkAttributes escapes display pattern regex debugExpr c fuel typeName
                .valueObject (.object (withDefaults (declaredAttributes vo) given))
                (declaredAttributes vo) with
            | none => simp [inner] at checked
            | some violations => rfl
          · intro checked
            obtain ⟨violations, inner⟩ :=
              Option.isSome_iff_exists.mp (checked ⟨known, admitted.mp rfl⟩)
            rw [inner, Option.bind_some]
            split
            · exact checkInvariants_isSome
            · rfl
    · rw [if_pos (by simpa using mt unknown_isEmpty.mp known)]
      simp only [Option.isSome_some, true_iff]
      rintro ⟨declared, -⟩
      exact absurd declared known

/-! ### Fuel -/

variable (escapes display pattern regex debugExpr c) in
/-- More fuel does not stop a check that ends, in any of the four functions. -/
structure More (fuel : Nat) : Prop where
  attributes (ownerName : String) (owner : Owner) (state : Serde) (attributes : List Serde) :
    (checkAttributes escapes display pattern regex debugExpr c fuel ownerName owner state
        attributes).isSome →
      (checkAttributes escapes display pattern regex debugExpr c (fuel + 1) ownerName owner state
        attributes).isSome
  null (ownerName attrName typeName : String) :
    (refuseNull escapes display pattern regex debugExpr c fuel ownerName attrName
        typeName).isSome →
      (refuseNull escapes display pattern regex debugExpr c (fuel + 1) ownerName attrName
        typeName).isSome
  value (ownerName : String) (value attr : Serde) :
    (checkValue escapes display pattern regex debugExpr c fuel ownerName (attributeName attr)
        (attr.textAt "type") value attr).isSome →
      (checkValue escapes display pattern regex debugExpr c (fuel + 1) ownerName
        (attributeName attr) (attr.textAt "type") value attr).isSome
  place (place : Place) :
    (place.check escapes display pattern regex debugExpr c fuel).isSome →
      (place.check escapes display pattern regex debugExpr c (fuel + 1)).isSome

theorem more (fuel : Nat) : More escapes display pattern regex debugExpr c fuel := by
  induction fuel with
  | zero =>
    refine ⟨?_, ?_, ?_, ?_⟩
    · intro _ _ _ _ h
      rw [checkAttributes] at h
      cases h
    · intro _ _ _ h
      rw [refuseNull] at h
      cases h
    · intro _ _ _ h
      rw [checkValue] at h
      cases h
    · intro place h
      cases place with
      | record ownerName attributes state =>
        rw [Place.check, checkAttributes] at h
        cases h
      | value attrName typeName vo raw =>
        rw [Place.check, checkValueObject] at h
        cases h
  | succ fuel ih =>
    have attributes : ∀ ownerName owner state attributes,
        (checkAttributes escapes display pattern regex debugExpr c (fuel + 1) ownerName owner state
            attributes).isSome →
          (checkAttributes escapes display pattern regex debugExpr c (fuel + 2) ownerName owner
            state attributes).isSome := by
      intro ownerName owner state attributes h
      rw [checkAttributes_isSome] at h ⊢
      intro object attr mem raw held
      obtain ⟨null, filled⟩ := h object attr mem raw held
      refine ⟨fun isNull record required => ih.null _ _ _ (null isNull record required), ?_⟩
      intro notNull value held
      exact ih.value _ _ _ (filled notNull value held)
    refine ⟨attributes, ?_, ?_, ?_⟩
    · intro ownerName attrName typeName h
      rw [refuseNull_isSome] at h ⊢
      intro vo found
      exact ih.place _ (h vo found)
    · intro ownerName value attr h
      rw [checkValue_isSome] at h ⊢
      intro next leads
      exact ih.place _ (h next leads)
    · intro place h
      cases place with
      | record ownerName attributes' state => exact attributes _ _ _ _ h
      | value attrName typeName vo raw =>
        rw [Place.check, checkValueObject_isSome] at h ⊢
        intro opens given fields
        exact ih.attributes _ _ _ _ (h opens given fields)

theorem slot_down {owner : Owner} {state : Serde} {attributes : List Serde} {value : Serde}
    {next : Place}
    (h : (checkAttributes escapes display pattern regex debugExpr c fuel ownerName owner state
      attributes).isSome)
    (object : state.asObject.isNone = false) (mem : attr ∈ attributes)
    (found : state.get (attributeName attr) = some raw) (filled : raw.isNull = false)
    (held : Held attr raw value) (leads : c.place attr value = some next) :
    ∃ less < fuel, (next.check escapes display pattern regex debugExpr c less).isSome := by
  cases fuel with
  | zero =>
    rw [checkAttributes] at h
    cases h
  | succ fuel =>
    have inner := (checkAttributes_isSome.mp h object attr mem raw found).2 filled value held
    cases fuel with
    | zero =>
      rw [checkValue] at inner
      cases inner
    | succ fuel => exact ⟨fuel, by omega, checkValue_isSome.mp inner next leads⟩

/-- A check that ends has checked what it opens. -/
theorem check_down {place next : Place}
    (h : (place.check escapes display pattern regex debugExpr c fuel).isSome)
    (step : Descends display c place next) :
    ∃ less < fuel, (next.check escapes display pattern regex debugExpr c less).isSome := by
  cases step with
  | held opens slot filled held leads =>
    cases place with
    | record ownerName attributes state =>
      obtain ⟨mem, object, found⟩ := slot
      exact slot_down h object mem found filled held leads
    | value attrName typeName vo whole =>
      obtain ⟨mem, given, fields, found⟩ := slot
      cases fuel with
      | zero =>
        rw [Place.check, checkValueObject] at h
        cases h
      | succ fuel =>
        have inner := checkValueObject_isSome.mp h opens given fields
        obtain ⟨less, lt, ends⟩ := slot_down inner rfl mem found filled held leads
        exact ⟨less, by omega, ends⟩
  | @null ownerName attributes holder attr raw vo slot null required found =>
    obtain ⟨mem, object, held⟩ := slot
    cases fuel with
    | zero =>
      rw [Place.check, checkAttributes] at h
      cases h
    | succ fuel =>
      have inner := (checkAttributes_isSome.mp h object attr mem raw held).1 null rfl required
      cases fuel with
      | zero =>
        rw [refuseNull] at inner
        cases inner
      | succ fuel => exact ⟨fuel, by omega, refuseNull_isSome.mp inner vo found⟩

/-- A check ends where all it opens do. -/
theorem check_up {place : Place}
    (h : ∀ next, Descends display c place next →
      (next.check escapes display pattern regex debugExpr c fuel).isSome) :
    ∃ more, (place.check escapes display pattern regex debugExpr c more).isSome := by
  cases place with
  | record ownerName attributes state =>
    refine ⟨fuel + 2, checkAttributes_isSome.mpr ?_⟩
    intro object attr mem raw found
    have slot : (Place.record ownerName attributes state).Slot attr raw := ⟨mem, object, found⟩
    constructor
    · intro null _ required
      rw [refuseNull_isSome]
      intro vo declared
      exact h _ (.null slot null required declared)
    · intro filled value held
      rw [checkValue_isSome]
      intro next leads
      exact h next (.held trivial slot filled held leads)
  | value attrName typeName vo raw =>
    refine ⟨fuel + 3, checkValueObject_isSome.mpr ?_⟩
    intro opens given fields
    rw [checkAttributes_isSome]
    intro _ attr mem raw' found
    constructor
    · intro _ record
      cases record
    · intro filled value held
      rw [checkValue_isSome]
      intro next leads
      exact h next (.held opens ⟨mem, given, fields, found⟩ filled held leads)

variable (escapes display pattern regex debugExpr c) in
/-- The audit is a run with fuel along the places it opens. -/
theorem check_fueled : Loops.Fueled
    (fun fuel place => (place.check escapes display pattern regex debugExpr c fuel).isSome)
    (Descends display c) where
  more := (more _).place _
  down := check_down
  up := check_up

end

/-! ### The values inside a value -/

mutual

def inside : Serde → List Serde
  | .array items => .array items :: insideItems items
  | .object fields => .object fields :: insideFields fields
  | .null => [.null]
  | .bool b => [.bool b]
  | .number text => [.number text]
  | .string s => [.string s]

def insideItems : List Serde → List Serde
  | [] => []
  | item :: items => inside item ++ insideItems items

def insideFields : List (String × Serde) → List Serde
  | [] => []
  | field :: fields => inside field.2 ++ insideFields fields

end

@[simp] theorem self_mem_inside (value : Serde) : value ∈ inside value := by
  cases value <;> simp [inside]

theorem mem_insideItems {value : Serde} {items : List Serde} :
    value ∈ insideItems items ↔ ∃ item ∈ items, value ∈ inside item := by
  induction items with
  | nil => simp [insideItems]
  | cons item items ih => simp [insideItems, ih]

theorem mem_insideFields {value : Serde} {fields : List (String × Serde)} :
    value ∈ insideFields fields ↔ ∃ field ∈ fields, value ∈ inside field.2 := by
  induction fields with
  | nil => simp [insideFields]
  | cons field fields ih => simp [insideFields, ih]

theorem inside_trans {value middle whole : Serde} (inner : value ∈ inside middle)
    (outer : middle ∈ inside whole) : value ∈ inside whole := by
  induction size : sizeOf whole using Nat.strong_induction_on generalizing whole with
  | h n ih =>
    subst size
    cases whole with
    | array items =>
      rw [inside, List.mem_cons, mem_insideItems] at outer
      obtain rfl | ⟨item, mem, outer⟩ := outer
      · exact inner
      · have smaller := List.sizeOf_lt_of_mem mem
        have held := ih (sizeOf item) (by simp; omega) outer rfl
        rw [inside, List.mem_cons, mem_insideItems]
        exact .inr ⟨item, mem, held⟩
    | object fields =>
      rw [inside, List.mem_cons, mem_insideFields] at outer
      obtain rfl | ⟨field, mem, outer⟩ := outer
      · exact inner
      · have smaller := List.sizeOf_lt_of_mem mem
        have second : sizeOf field.2 < sizeOf field := by
          cases field
          simp
        have held := ih (sizeOf field.2) (by simp; omega) outer rfl
        rw [inside, List.mem_cons, mem_insideFields]
        exact .inr ⟨field, mem, held⟩
    | null | bool | number | string =>
      obtain rfl := List.mem_singleton.mp outer
      exact inner

theorem get_mem_inside {whole value : Serde} {key : String} (found : whole.get key = some value) :
    value ∈ inside whole := by
  cases whole with
  | object fields =>
    obtain ⟨field, at', rfl⟩ := Option.map_eq_some_iff.mp found
    rw [inside, List.mem_cons, mem_insideFields]
    exact .inr ⟨field, List.mem_of_find?_eq_some at', self_mem_inside _⟩
  | null | bool | number | string | array => cases found

theorem Held.mem_inside {attr raw value : Serde} (held : Held attr raw value) :
    value ∈ inside raw := by
  cases held with
  | one _ => exact self_mem_inside raw
  | item _ list mem =>
    cases raw with
    | array items =>
      cases list
      rw [inside, List.mem_cons, mem_insideItems]
      exact .inr ⟨value, mem, self_mem_inside value⟩
    | null | bool | number | string | object => cases list

/-! ### The places an audit can reach -/

namespace Checker

variable (c : Checker)

/-- Where attributes are declared: the aggregate, its entities, and all value objects. -/
def nodes : List Serde :=
  c.aggregate :: (c.aggregate.itemsAt "entities" ++ c.aggregate.itemsAt "value_objects" ++
    (c.domain.itemsAt "aggregates").flatMap (·.itemsAt "value_objects"))

def slots : List Serde := c.nodes.flatMap declaredAttributes

/-- The values inside the state and inside the defaults, and the two that stand for nothing. -/
def values (state : Serde) : List Serde :=
  (state :: .object [] :: .array [] :: c.slots.filterMap (·.get "default")).flatMap inside

def places (state : Serde) : List Place :=
  (c.nodes.flatMap fun node =>
      (c.aggregateName :: c.slots.map (·.textAt "type")).flatMap fun ownerName =>
        (c.values state).map (Place.record ownerName (declaredAttributes node))) ++
    c.slots.flatMap fun attr => c.nodes.flatMap fun vo =>
      (c.values state).map (Place.value (attributeName attr) (attr.textAt "type") vo)

end Checker

theorem indexByName_mem {node item : Serde} {key name : String}
    (found : indexByName node key name = some item) : item ∈ node.itemsAt key :=
  (List.mem_filter.mp (List.mem_of_getLast? found)).1

section

variable {display : Serde → String} {c : Checker} {state : Serde}

theorem valueObject_mem {typeName : String} {vo : Serde}
    (found : c.valueObject typeName = some vo) : vo ∈ c.nodes := by
  unfold Checker.valueObject valueObject at found
  unfold Checker.nodes
  cases own : indexByName c.aggregate "value_objects" typeName with
  | some vo' =>
    rw [own] at found
    cases found
    simp [indexByName_mem own]
  | none =>
    simp only [own] at found
    obtain ⟨first, head, agreed⟩ := Option.bind_eq_some_iff.mp found
    have same : first = vo := by
      split at agreed
      · exact Option.some.inj agreed
      · cases agreed
    subst same
    obtain ⟨aggregate, mem, declared⟩ := List.mem_filterMap.mp (List.mem_of_head? head)
    simp only [List.mem_cons, List.mem_append, List.mem_flatMap]
    exact .inr (.inr ⟨aggregate, mem, indexByName_mem declared⟩)

theorem entity_mem {typeName : String} {entity : Serde}
    (found : c.entity typeName = some entity) : entity ∈ c.nodes := by
  have mem := indexByName_mem found
  simp [Checker.nodes, mem]

theorem slots_mem {node attr : Serde} (mem : node ∈ c.nodes) (slot : attr ∈ declaredAttributes node) :
    attr ∈ c.slots := List.mem_flatMap.mpr ⟨node, mem, slot⟩

theorem values_inside {value whole : Serde} (inner : value ∈ inside whole)
    (mem : whole ∈ c.values state) : value ∈ c.values state := by
  obtain ⟨root, listed, outer⟩ := List.mem_flatMap.mp mem
  exact List.mem_flatMap.mpr ⟨root, listed, inside_trans inner outer⟩

theorem default_mem {attr default : Serde} (slot : attr ∈ c.slots)
    (declared : attr.get "default" = some default) : default ∈ c.values state := by
  refine List.mem_flatMap.mpr ⟨default, ?_, self_mem_inside default⟩
  have listed : default ∈ c.slots.filterMap (·.get "default") :=
    List.mem_filterMap.mpr ⟨attr, slot, declared⟩
  simp [listed]

theorem insert_mem {key : String} {value : Serde} {fields : List (String × Serde)}
    {field : String × Serde} (mem : field ∈ Serde.insert key value fields) :
    field = (key, value) ∨ field ∈ fields := by
  induction fields with
  | nil => exact .inl (List.mem_singleton.mp mem)
  | cons first fields ih =>
    rw [Serde.insert] at mem
    split at mem
    · obtain same | mem := List.mem_cons.mp mem
      · exact .inl same
      · exact .inr (List.mem_cons_of_mem _ mem)
    · obtain rfl | mem := List.mem_cons.mp mem
      · exact .inr List.mem_cons_self
      · exact (ih mem).imp_right (List.mem_cons_of_mem _)

/-- What fills a value object's slots: its own fields, defaults, and empty lists. -/
theorem withDefaults_mem {declared : List Serde} {given : List (String × Serde)}
    {field : String × Serde} (mem : field ∈ withDefaults declared given) :
    field ∈ given ∨ (∃ attr ∈ declared, attr.get "default" = some field.2) ∨
      field.2 = .array [] := by
  unfold withDefaults at mem
  induction declared generalizing given with
  | nil => exact .inl mem
  | cons attr declared ih =>
    obtain held | ⟨other, listed, default⟩ | empty := ih mem
    · simp only at held
      split at held
      · exact .inl held
      · split at held
        · split at held
          · obtain rfl | held := insert_mem held
            · exact .inr (.inr rfl)
            · exact .inl held
          · exact .inl held
        · split at held
          · obtain rfl | held := insert_mem held
            · exact .inr (.inr rfl)
            · exact .inl held
          · exact .inl held
        · rename_i default found
          obtain rfl | held := insert_mem held
          · exact .inr (.inl ⟨attr, List.mem_cons_self, found⟩)
          · exact .inl held
    · exact .inr (.inl ⟨other, List.mem_cons_of_mem _ listed, default⟩)
    · exact .inr (.inr empty)

theorem fieldsOf_mem {declared : List Serde} {raw : Serde} {given : List (String × Serde)}
    {field : String × Serde} (fields : fieldsOf declared raw = some given) (mem : field ∈ given) :
    field.2 ∈ inside raw := by
  cases raw with
  | object fields' =>
    cases fields
    rw [inside, List.mem_cons, mem_insideFields]
    exact .inr ⟨field, mem, self_mem_inside _⟩
  | null | bool | number | string | array =>
    obtain _ | ⟨attr, _ | ⟨other, declared⟩⟩ := declared
    · cases fields
    · cases fields
      cases List.mem_singleton.mp mem
      exact self_mem_inside _
    · cases fields

theorem Place.Slot.mem {place : Place} {attr raw : Serde} (slot : place.Slot attr raw)
    (mem : place ∈ c.places state) : attr ∈ c.slots ∧ raw ∈ c.values state := by
  cases place with
  | record ownerName attributes holder =>
    obtain ⟨declared, -, found⟩ := slot
    obtain listed | listed := List.mem_append.mp mem
    · obtain ⟨node, node_mem, listed⟩ := List.mem_flatMap.mp listed
      obtain ⟨owner, -, listed⟩ := List.mem_flatMap.mp listed
      obtain ⟨value, value_mem, same⟩ := List.mem_map.mp listed
      cases same
      exact ⟨slots_mem node_mem declared, values_inside (get_mem_inside found) value_mem⟩
    · obtain ⟨attr, -, listed⟩ := List.mem_flatMap.mp listed
      obtain ⟨vo, -, listed⟩ := List.mem_flatMap.mp listed
      obtain ⟨value, -, same⟩ := List.mem_map.mp listed
      cases same
  | value attrName typeName vo whole =>
    obtain ⟨declared, given, fields, found⟩ := slot
    obtain listed | listed := List.mem_append.mp mem
    · obtain ⟨node, -, listed⟩ := List.mem_flatMap.mp listed
      obtain ⟨owner, -, listed⟩ := List.mem_flatMap.mp listed
      obtain ⟨value, -, same⟩ := List.mem_map.mp listed
      cases same
    · obtain ⟨_, -, listed⟩ := List.mem_flatMap.mp listed
      obtain ⟨_, vo_mem, listed⟩ := List.mem_flatMap.mp listed
      obtain ⟨_, value_mem, same⟩ := List.mem_map.mp listed
      cases same
      refine ⟨slots_mem vo_mem declared, ?_⟩
      obtain ⟨field, at', rfl⟩ := Option.map_eq_some_iff.mp found
      obtain held | ⟨other, listed, default⟩ | empty :=
        withDefaults_mem (List.mem_of_find?_eq_some at')
      · exact values_inside (fieldsOf_mem fields held) value_mem
      · exact default_mem (slots_mem vo_mem listed) default
      · rw [empty]
        exact List.mem_flatMap.mpr ⟨.array [], by simp, self_mem_inside _⟩

theorem value_mem {attr vo raw : Serde} (slot : attr ∈ c.slots) (node : vo ∈ c.nodes)
    (value : raw ∈ c.values state) :
    Place.value (attributeName attr) (attr.textAt "type") vo raw ∈ c.places state := by
  refine List.mem_append.mpr (.inr (List.mem_flatMap.mpr ⟨attr, slot, ?_⟩))
  exact List.mem_flatMap.mpr ⟨vo, node, List.mem_map.mpr ⟨raw, value, rfl⟩⟩

theorem record_mem {node raw : Serde} {ownerName : String} (mem : node ∈ c.nodes)
    (owner : ownerName ∈ c.aggregateName :: c.slots.map (·.textAt "type"))
    (value : raw ∈ c.values state) :
    Place.record ownerName (declaredAttributes node) raw ∈ c.places state := by
  refine List.mem_append.mpr (.inl (List.mem_flatMap.mpr ⟨node, mem, ?_⟩))
  exact List.mem_flatMap.mpr ⟨ownerName, owner, List.mem_map.mpr ⟨raw, value, rfl⟩⟩

theorem Descends.mem {place next : Place} (step : Descends display c place next)
    (mem : place ∈ c.places state) : next ∈ c.places state := by
  cases step with
  | @held _ _ attr raw value opens slot filled held leads =>
    obtain ⟨slot_mem, raw_mem⟩ := slot.mem mem
    have inner := values_inside held.mem_inside raw_mem
    unfold Checker.place at leads
    cases vo : c.valueObject (attr.textAt "type") with
    | some vo' =>
      rw [vo] at leads
      cases leads
      exact value_mem slot_mem (valueObject_mem vo) inner
    | none =>
      simp only [vo] at leads
      cases entity : c.entity (attr.textAt "type") with
      | none => simp [entity] at leads
      | some entity' =>
        simp only [entity, Option.some.injEq] at leads
        subst leads
        refine record_mem (entity_mem entity) ?_ inner
        exact List.mem_cons_of_mem _ (List.mem_map.mpr ⟨attr, slot_mem, rfl⟩)
  | null slot null required found =>
    refine value_mem (slot.mem mem).1 (valueObject_mem found) ?_
    exact List.mem_flatMap.mpr ⟨.object [], by simp, self_mem_inside _⟩

open Relation

/-- An audit reaches finitely many places. -/
theorem reached_finite :
    {place | ReflTransGen (Descends display c) (c.root state) place}.Finite := by
  refine (c.places state).finite_toSet.subset ?_
  intro place reached
  have root : c.root state ∈ c.places state := by
    refine record_mem List.mem_cons_self List.mem_cons_self ?_
    exact List.mem_flatMap.mpr ⟨state, by simp, self_mem_inside _⟩
  induction reached with
  | refl => exact root
  | tail _ step ih => exact step.mem ih

end

section

open Relation

variable (escapes : Char → Bool) (display : Serde → String)
variable (pattern : String → Option (String → Bool))
variable (regex : Operators.RegexBuilder) (debugExpr : Expr → String)

theorem validate_isSome {fuel : Nat} {domain aggregate state : Serde} {id : String} :
    (validate escapes display pattern regex debugExpr fuel domain aggregate id state).isSome =
      ((Checker.root ⟨domain, aggregate, id⟩ state).check escapes display pattern regex debugExpr
        ⟨domain, aggregate, id⟩ fuel).isSome := by
  unfold validate
  rw [Option.isSome_map]
  rfl

/-- Where a place reached holds itself, no fuel is enough. -/
theorem never_ends {domain aggregate state : Serde} {id : String} {place : Place}
    (reached : ReflTransGen (Descends display ⟨domain, aggregate, id⟩)
      (Checker.root ⟨domain, aggregate, id⟩ state) place)
    (loop : Descends display ⟨domain, aggregate, id⟩ place place) (fuel : Nat) :
    validate escapes display pattern regex debugExpr fuel domain aggregate id state = none := by
  rw [← Option.not_isSome_iff_eq_none, validate_isSome]
  intro ends
  have acc := (check_fueled escapes display pattern regex debugExpr _).acc_of_ends ends
  exact Loops.no_loop_of_acc acc reached (.single loop)

/-- The audit ends, with fuel enough, exactly when no place it opens is opened again inside
itself. -/
theorem validate_ends_iff (domain aggregate : Serde) (id : String) (state : Serde) :
    (∃ fuel violations, validate escapes display pattern regex debugExpr fuel domain aggregate id
        state = some violations) ↔
      ∀ place, ReflTransGen (Descends display ⟨domain, aggregate, id⟩)
          (Checker.root ⟨domain, aggregate, id⟩ state) place →
        ¬TransGen (Descends display ⟨domain, aggregate, id⟩) place place := by
  rw [← (check_fueled escapes display pattern regex debugExpr _).ends_iff_no_loop reached_finite]
  refine exists_congr fun fuel => ?_
  rw [← Option.isSome_iff_exists, validate_isSome]

end

/-- A label whose one field is a label. -/
def label : Serde :=
  .object [("name", .string "Label"), ("attributes", .array
    [.object [("name", .string "label"), ("type", .string "Label")]])]

/-- A step whose next step is filled in where it is left out. -/
def step : Serde :=
  .object [("name", .string "Step"), ("attributes", .array
    [.object [("name", .string "next"), ("type", .string "Step"), ("default", .object [])]])]

def recipe : Serde :=
  .object [("name", .string "Recipe"), ("attributes", .array
      [.object [("name", .string "label"), ("type", .string "Label"), ("optional", .bool true)],
        .object [("name", .string "first"), ("type", .string "Step"), ("optional", .bool true)]]),
    ("value_objects", .array [label, step])]

def recipes : Checker := ⟨.object [("aggregates", .array [recipe])], recipe, "1"⟩

def bareLabel : Place := .value "label" "Label" label (.string "x")

def bareStep : Place := .value "next" "Step" step (.object [])

theorem bareLabel_descends : Descends (fun _ => "") recipes bareLabel bareLabel := by
  have opens : bareLabel.Opens (fun _ => "") recipes := by
    refine ⟨_, rfl, ?_, rfl, nofun⟩
    intro field mem
    cases List.mem_singleton.mp mem
    exact ⟨_, List.mem_cons_self, rfl⟩
  exact .held opens ⟨List.mem_cons_self, _, rfl, rfl⟩ rfl (.one rfl) rfl

theorem bareStep_descends : Descends (fun _ => "") recipes bareStep bareStep := by
  have opens : bareStep.Opens (fun _ => "") recipes := ⟨[], rfl, nofun, rfl, nofun⟩
  exact .held opens ⟨List.mem_cons_self, _, rfl, rfl⟩ rfl (.one rfl) rfl

/-- A bare text is read as the label in the label, and a step left out as a step with one left
out. -/
theorem recipe_never_ends :
    (¬∃ fuel violations, validate (fun _ => false) (fun _ => "") (fun _ => none)
        (fun _ _ _ _ => .error "") (fun _ => "") fuel (.object [("aggregates", .array [recipe])])
        recipe "1" (.object [("label", .string "x")]) = some violations) ∧
      ¬∃ fuel violations, validate (fun _ => false) (fun _ => "") (fun _ => none)
        (fun _ _ _ _ => .error "") (fun _ => "") fuel (.object [("aggregates", .array [recipe])])
        recipe "1" (.object [("first", .object [])]) = some violations := by
  constructor
  · rintro ⟨fuel, violations, ends⟩
    have reached : Relation.ReflTransGen (Descends (fun _ => "") recipes)
        (recipes.root (.object [("label", .string "x")])) bareLabel :=
      .single (.held trivial ⟨List.mem_cons_self, rfl, rfl⟩ rfl (.one rfl) rfl)
    exact absurd ends (by simp [never_ends _ _ _ _ _ reached bareLabel_descends fuel])
  · rintro ⟨fuel, violations, ends⟩
    have first : Descends (fun _ => "") recipes (recipes.root (.object [("first", .object [])]))
        (.value "first" "Step" step (.object [])) :=
      .held trivial ⟨List.mem_cons_of_mem _ List.mem_cons_self, rfl, rfl⟩ rfl (.one rfl) rfl
    have next : Descends (fun _ => "") recipes (.value "first" "Step" step (.object [])) bareStep :=
      .held ⟨[], rfl, nofun, rfl, nofun⟩ ⟨List.mem_cons_self, _, rfl, rfl⟩ rfl (.one rfl) rfl
    have reached := (Relation.ReflTransGen.single first).tail next
    exact absurd ends (by simp [never_ends _ _ _ _ _ reached bareStep_descends fuel])

end Hecks.Host.ReferenceValidate
