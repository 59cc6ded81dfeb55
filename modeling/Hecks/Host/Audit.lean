import Hecks.Host.ReferenceValidate

/-! What a record without violations holds: every record and value object the checks reach in it
fits its declaration. -/
namespace Hecks.Host.ReferenceValidate

/-! ### What is reached -/

/-- A record (the aggregate's or an entity's) or a value object, with the declarations it is read
under. -/
inductive Place where
  | record (ownerName : String) (attributes : List Serde) (state : Serde)
  | value (attrName typeName : String) (vo raw : Serde)

/-- The place holds this in the slot of one of its attributes, with a value object's defaults
filled in. -/
def Place.Slot (attr raw : Serde) : Place → Prop
  | record _ attributes state => attr ∈ attributes ∧ state.asObject.isNone = false ∧
      state.get (attributeName attr) = some raw
  | value _ _ vo whole => attr ∈ declaredAttributes vo ∧
      ∃ given, fieldsOf (declaredAttributes vo) whole = some given ∧
        (Serde.object (withDefaults (declaredAttributes vo) given)).get (attributeName attr) =
          some raw

/-- A slot holds its value, or each element of its list. -/
inductive Held (attr raw : Serde) : Serde → Prop
  | one (single : attr.flagAt "list" = false) : Held attr raw raw
  | item {items : List Serde} {item : Serde} (many : attr.flagAt "list" = true)
      (list : raw.asArray = some items) (mem : item ∈ items) : Held attr raw item

/-- What a value is read as by the type of its attribute; nothing where it is a leaf. -/
def Checker.place (c : Checker) (attr value : Serde) : Option Place :=
  match c.valueObject (attr.textAt "type") with
  | some vo => some (.value (attributeName attr) (attr.textAt "type") vo value)
  | none =>
      match c.entity (attr.textAt "type") with
      | some entity => some (.record (attr.textAt "type") (declaredAttributes entity) value)
      | none => none

/-- An absent slot of a record may stay so; a null one is refused where a value is required. -/
def Required (attr : Serde) : Prop := attr.flagAt "optional" = false ∧ attr.flagAt "list" = false

/-- The places in a state. A required slot holding null reads as a value object of no fields. -/
inductive Reached (c : Checker) (state : Serde) : Place → Prop
  | root : Reached c state (.record c.aggregateName (declaredAttributes c.aggregate) state)
  | held {place next : Place} {attr raw value : Serde} (before : Reached c state place)
      (slot : place.Slot attr raw) (filled : raw.isNull = false) (held : Held attr raw value)
      (leads : c.place attr value = some next) : Reached c state next
  | null {ownerName : String} {attributes : List Serde} {holder attr raw vo : Serde}
      (before : Reached c state (.record ownerName attributes holder))
      (slot : (Place.record ownerName attributes holder).Slot attr raw) (null : raw.isNull = true)
      (required : Required attr) (found : c.valueObject (attr.textAt "type") = some vo) :
      Reached c state (.value (attributeName attr) (attr.textAt "type") vo (.object []))

section

variable (escapes : Char → Bool) (display : Serde → String)
variable (pattern : String → Option (String → Bool))
variable (regex : Operators.RegexBuilder) (debugExpr : Expr → String)

/-! ### Fitting a declaration -/

def ScalarFits (typeName : String) (value : Serde) : Prop :=
  (typeName = "String" → ∃ s, value.asStr = some s) ∧
    (typeName = "Integer" → ∃ i, value.asI64 = some i) ∧
    (typeName = "Float" → isNumber value = true) ∧
    (typeName = "Boolean" → ∃ b, value.asBool = some b)

def PatternFits (attr value : Serde) : Prop :=
  ∀ source text isMatch, (attr.get "pattern").bind Serde.asStr = some source →
    value.asStr = some text → pattern source = some isMatch → isMatch text = true

/-- The declared set an attribute admits exists and has the value among its members. -/
def AdmitsFit (c : Checker) (attr raw : Serde) : Prop :=
  ∀ admits, (attr.get "admits").bind Serde.asStr = some admits →
    ∃ admitted, admittedMembers display c admits = some admitted ∧
      rubyToS display (offeredOf raw) ∈ admitted

structure SlotFits (c : Checker) (attr raw : Serde) : Prop where
  list : attr.flagAt "list" = true → ∃ items, raw.asArray = some items
  admits : attr.flagAt "list" = false → AdmitsFit display c attr raw
  leaves : ∀ value, Held attr raw value → c.place attr value = none →
    ScalarFits (attr.textAt "type") value ∧ PatternFits pattern attr value

/-- A value object has only declared fields and all its required ones, is one of its set's
members, and satisfies each of its invariants that carries an ast. -/
structure ValueFits (vo : Serde) (given : List (String × Serde)) : Prop where
  declared : ∀ field ∈ given, ∃ attr ∈ declaredAttributes vo, attributeName attr = field.1
  required : ∀ attr ∈ declaredAttributes vo, Required attr → ∃ value,
    (Serde.object (withDefaults (declaredAttributes vo) given)).get (attributeName attr) =
      some value ∧ value.isNull = false
  admitted : vo.flagAt "closed_set" = true → memberRows vo ≠ [] → declaredAttributes vo ≠ [] →
    ∃ row ∈ memberRows vo,
      matchesRow display (withDefaults (declaredAttributes vo) given) row = true
  invariants : ∀ rule ∈ vo.itemsAt "invariants", ∀ ast, rule.get "ast" = some ast →
    ∃ expr result, parse escapes display ast = .ok expr ∧
      interpret escapes regex debugExpr expr
        (withAbsentOptionals vo (.object (withDefaults (declaredAttributes vo) given))) =
          .ok result ∧ result.truthy = true

def Place.Fits (c : Checker) : Place → Prop
  | record _ attributes state => ∀ attr raw, (record "" attributes state).Slot attr raw →
      (raw.isNull = true → Required attr → ∃ vo, c.valueObject (attr.textAt "type") = some vo) ∧
        (raw.isNull = false → SlotFits display pattern c attr raw)
  | value _ _ vo raw => ∃ given, fieldsOf (declaredAttributes vo) raw = some given ∧
      ValueFits escapes display regex debugExpr vo given ∧
      ∀ attr held, (value "" "" vo raw).Slot attr held → held.isNull = false →
        SlotFits display pattern c attr held

end

/-! ### Checks without violations -/

theorem gather_nil {α : Type} {xs : List α} {check : α → Option (List String)}
    (h : gather xs check = some []) : ∀ x ∈ xs, check x = some [] := by
  unfold gather at h
  induction xs with
  | nil => exact fun x mem => absurd mem List.not_mem_nil
  | cons y ys ih =>
    obtain ⟨all, found, flat⟩ := Option.map_eq_some_iff.mp h
    rw [List.mapM_cons] at found
    obtain ⟨first, hfirst, found⟩ := Option.bind_eq_some_iff.mp found
    obtain ⟨others, hothers, done⟩ := Option.bind_eq_some_iff.mp found
    cases done
    obtain ⟨none, rest⟩ := List.append_eq_nil_iff.mp flat
    intro x mem
    rcases List.mem_cons.mp mem with rfl | mem
    · rw [hfirst, none]
    · exact ih (Option.map_eq_some_iff.mpr ⟨others, hothers, rest⟩) x mem

section

variable {escapes : Char → Bool} {display : Serde → String}
variable {pattern : String → Option (String → Bool)}
variable {regex : Operators.RegexBuilder} {debugExpr : Expr → String}
variable {c : Checker} {fuel : Nat} {ownerName attrName typeName : String} {attr raw : Serde}

theorem checkAdmits_nil (h : checkAdmits display c attr raw = []) : AdmitsFit display c attr raw := by
  intro admits named
  unfold checkAdmits at h
  rw [named] at h
  cases found : admittedMembers display c admits with
  | none =>
    simp only [found] at h
    cases h
  | some admitted =>
    refine ⟨admitted, rfl, ?_⟩
    simp only [found] at h
    by_cases mem : admitted.contains (rubyToS display (offeredOf raw)) = true
    · simpa using mem
    · rw [if_neg mem] at h
      cases h

theorem scalarRefusal_none {value : Serde}
    (h : scalarRefusal display ownerName attrName typeName value = none) :
    ScalarFits typeName value := by
  refine ⟨?_, ?_, ?_, ?_⟩
  · rintro rfl
    simp only [scalarRefusal] at h
    by_cases fits : value.asStr.isSome = true
    · exact Option.isSome_iff_exists.mp fits
    · simp [fits] at h
  · rintro rfl
    simp only [scalarRefusal] at h
    by_cases fits : value.asI64.isSome = true
    · exact Option.isSome_iff_exists.mp fits
    · by_cases wide : isU64 value = true
      · simp [fits, wide] at h
      · simp [fits, wide] at h
  · rintro rfl
    simp only [scalarRefusal] at h
    by_cases fits : isNumber value = true
    · exact fits
    · simp [fits] at h
  · rintro rfl
    simp only [scalarRefusal] at h
    by_cases fits : value.asBool.isSome = true
    · exact Option.isSome_iff_exists.mp fits
    · simp [fits] at h

theorem checkLeaf_nil {value : Serde}
    (h : checkLeaf display pattern c ownerName attrName typeName value attr = []) :
    ScalarFits typeName value ∧ PatternFits pattern attr value := by
  unfold checkLeaf at h
  cases refused : scalarRefusal display ownerName attrName typeName value with
  | some refusal =>
    rw [refused] at h
    cases h
  | none =>
    rw [refused] at h
    refine ⟨scalarRefusal_none refused, ?_⟩
    intro source text isMatch declared held compiled
    simp only [declared, held, compiled, Option.any_some] at h
    by_cases matched : isMatch text = true
    · exact matched
    · simp [matched] at h

theorem checkMember_nil {vo : Serde} {fields : List (String × Serde)}
    (h : checkMember display c typeName vo fields = []) (columns : declaredAttributes vo ≠ []) :
    ∃ row ∈ memberRows vo, matchesRow display fields row = true := by
  unfold checkMember at h
  by_cases some' : (memberRows vo).any (matchesRow display fields) = true
  · exact List.any_eq_true.mp some'
  · obtain ⟨first, rest, eq⟩ := List.exists_cons_of_ne_nil columns
    simp [some', eq] at h

theorem checkInvariant_nil {known rule ast : Serde}
    (h : checkInvariant escapes display regex debugExpr c attrName typeName known rule = some [])
    (carried : rule.get "ast" = some ast) :
    ∃ expr result, parse escapes display ast = .ok expr ∧
      interpret escapes regex debugExpr expr known = .ok result ∧ result.truthy = true := by
  unfold checkInvariant at h
  simp only [carried] at h
  cases parsed : parse escapes display ast with
  | error e =>
    simp only [parsed] at h
    cases h
  | ok expr =>
    simp only [parsed] at h
    cases ran : interpret escapes regex debugExpr expr known with
    | error halt =>
      cases halt with
      | refused e =>
        simp only [ran] at h
        cases h
      | panicked reason =>
        simp only [ran] at h
        cases h
    | ok result =>
      simp only [ran] at h
      by_cases holds : result.truthy = true
      · exact ⟨expr, result, rfl, ran, holds⟩
      · rw [if_neg holds] at h
        cases h

theorem missingField_none {declared : List Serde} {filled : List (String × Serde)}
    (h : missingField declared filled = none) (mem : attr ∈ declared) (required : Required attr) :
    ∃ value, (Serde.object filled).get (attributeName attr) = some value ∧
      value.isNull = false := by
  have holds := List.find?_eq_none.mp h attr mem
  simp only [required.1, required.2, Bool.not_false, Bool.and_true, Bool.not_eq_true',
    Bool.not_eq_false] at holds
  obtain ⟨value, found, filled⟩ := (Option.any_eq_true _ _).mp holds
  exact ⟨value, found, by simpa using filled⟩

/-! ### What a check without violations has checked -/

/-- A slot of a record or value object without violations. -/
theorem checkAttributes_nil {owner : Owner} {state : Serde} {attributes : List Serde}
    (h : checkAttributes escapes display pattern regex debugExpr c fuel ownerName owner state
      attributes = some [])
    (object : state.asObject.isNone = false) (mem : attr ∈ attributes)
    (held : state.get (attributeName attr) = some raw) :
    ∃ left, (raw.isNull = true → owner = .record → Required attr →
        refuseNull escapes display pattern regex debugExpr c left ownerName (attributeName attr)
          (attr.textAt "type") = some []) ∧
      (raw.isNull = false → attr.flagAt "list" = true → ∃ items, raw.asArray = some items ∧
        ∀ item ∈ items, checkValue escapes display pattern regex debugExpr c left ownerName
          (attributeName attr) (attr.textAt "type") item attr = some []) ∧
      (raw.isNull = false → attr.flagAt "list" = false →
        checkAdmits display c attr raw = [] ∧
          checkValue escapes display pattern regex debugExpr c left ownerName (attributeName attr)
            (attr.textAt "type") raw attr = some []) := by
  cases fuel with
  | zero =>
    rw [checkAttributes] at h
    cases h
  | succ left =>
    rw [checkAttributes, if_neg (by simp [object])] at h
    have slot := gather_nil h attr mem
    simp only [held] at slot
    refine ⟨left, ?_, ?_, ?_⟩
    · rintro null rfl ⟨needed, single⟩
      simpa [null, needed, single] using slot
    · intro filled many
      cases items : raw.asArray with
      | none => simp [filled, many, items] at slot
      | some xs =>
        simp only [filled, many, items] at slot
        exact ⟨xs, rfl, gather_nil slot⟩
    · intro filled single
      simp only [filled, single, Bool.false_eq_true, if_false] at slot
      obtain ⟨violations, checked, none⟩ := Option.map_eq_some_iff.mp slot
      obtain ⟨first, last⟩ := List.append_eq_nil_iff.mp none
      exact ⟨last, by rw [checked, first]⟩

/-- A value object without violations. -/
theorem checkValueObject_nil {vo : Serde}
    (h : checkValueObject escapes display pattern regex debugExpr c fuel attrName typeName vo raw =
      some []) :
    ∃ given, fieldsOf (declaredAttributes vo) raw = some given ∧
      ValueFits escapes display regex debugExpr vo given ∧
      ∃ left, checkAttributes escapes display pattern regex debugExpr c left typeName .valueObject
        (.object (withDefaults (declaredAttributes vo) given)) (declaredAttributes vo) =
          some [] := by
  cases fuel with
  | zero =>
    rw [checkValueObject] at h
    cases h
  | succ left =>
    rw [checkValueObject] at h
    cases fields : fieldsOf (declaredAttributes vo) raw with
    | none =>
      simp only [fields] at h
      cases h
    | some given =>
      simp only [fields] at h
      split at h
      · cases h
      · rename_i known
        cases missing : missingField (declaredAttributes vo)
            (withDefaults (declaredAttributes vo) given) with
        | some attr =>
          simp only [missing] at h
          cases h
        | none =>
          simp only [missing] at h
          generalize refused : (if (vo.flagAt "closed_set" && !(memberRows vo).isEmpty) = true then
            checkMember display c typeName vo (withDefaults (declaredAttributes vo) given)
            else []) = members at h
          cases members with
          | cons refusal others => cases h
          | nil =>
            obtain ⟨violations, checked, h⟩ := Option.bind_eq_some_iff.mp h
            cases violations with
            | cons violation others => cases h
            | nil =>
              refine ⟨given, rfl, ⟨?_, ?_, ?_, ?_⟩, left, checked⟩
              · intro field mem
                by_contra undeclared
                apply known
                simp only [Bool.not_eq_true', List.isEmpty_eq_false_iff]
                intro all
                have key := List.filter_eq_nil_iff.mp all field.1 (List.mem_map_of_mem mem)
                simp only [Bool.not_eq_true', Bool.not_eq_false, List.any_eq_true,
                  beq_iff_eq] at key
                exact undeclared key
              · intro attr mem required
                exact missingField_none missing mem required
              · intro closed rows columns
                have empty : (memberRows vo).isEmpty = false := by simpa using rows
                rw [if_pos (by rw [closed, empty]; rfl)] at refused
                exact checkMember_nil refused columns
              · intro rule mem ast carried
                exact checkInvariant_nil (gather_nil h rule mem) carried

variable (escapes display pattern regex debugExpr c) in
/-- The check of a place ends without violations. -/
def Place.Passes : Place → Prop
  | record ownerName attributes state => ∃ fuel, checkAttributes escapes display pattern regex
      debugExpr c fuel ownerName .record state attributes = some []
  | value attrName typeName vo raw => ∃ fuel, checkValueObject escapes display pattern regex
      debugExpr c fuel attrName typeName vo raw = some []

/-- A value without violations is a leaf that fits, or a place that passes. -/
theorem checkValue_nil {value : Serde}
    (h : checkValue escapes display pattern regex debugExpr c fuel ownerName (attributeName attr)
      (attr.textAt "type") value attr = some []) :
    (∀ next, c.place attr value = some next →
        next.Passes escapes display pattern regex debugExpr c) ∧
      (c.place attr value = none →
        ScalarFits (attr.textAt "type") value ∧ PatternFits pattern attr value) := by
  cases fuel with
  | zero =>
    rw [checkValue] at h
    cases h
  | succ left =>
    rw [checkValue] at h
    cases vo : c.valueObject (attr.textAt "type") with
    | some vo' =>
      have leads : c.place attr value =
          some (.value (attributeName attr) (attr.textAt "type") vo' value) := by
        simp only [Checker.place, vo]
      rw [vo] at h
      constructor
      · intro next same
        cases leads.symm.trans same
        exact ⟨left, h⟩
      · intro same
        cases leads.symm.trans same
    | none =>
      cases entity : c.entity (attr.textAt "type") with
      | some entity' =>
        have leads : c.place attr value =
            some (.record (attr.textAt "type") (declaredAttributes entity') value) := by
          simp only [Checker.place, vo, entity]
        simp only [vo, entity] at h
        constructor
        · intro next same
          cases leads.symm.trans same
          exact ⟨left, h⟩
        · intro same
          cases leads.symm.trans same
      | none =>
        have leaf : c.place attr value = none := by simp only [Checker.place, vo, entity]
        simp only [vo, entity] at h
        constructor
        · intro next same
          cases leaf.symm.trans same
        · intro _
          exact checkLeaf_nil (Option.some.inj h)

theorem refuseNull_nil
    (h : refuseNull escapes display pattern regex debugExpr c fuel ownerName attrName typeName =
      some []) :
    ∃ vo, c.valueObject typeName = some vo ∧
      (Place.value attrName typeName vo (.object [])).Passes escapes display pattern regex
        debugExpr c := by
  cases fuel with
  | zero =>
    rw [refuseNull] at h
    cases h
  | succ left =>
    rw [refuseNull] at h
    cases found : c.valueObject typeName with
    | none =>
      simp only [found] at h
      cases h
    | some vo =>
      simp only [found] at h
      exact ⟨vo, rfl, left, h⟩

/-- The slots of a place that passes were checked, under some owner's name. -/
theorem Place.Passes.checked {place : Place}
    (passes : place.Passes escapes display pattern regex debugExpr c) (slot : place.Slot attr raw) :
    ∃ fuel ownerName owner state attributes,
      checkAttributes escapes display pattern regex debugExpr c fuel ownerName owner state
        attributes = some [] ∧ state.asObject.isNone = false ∧ attr ∈ attributes ∧
        state.get (attributeName attr) = some raw := by
  cases place with
  | record ownerName attributes state =>
    obtain ⟨fuel, checked⟩ := passes
    obtain ⟨mem, object, held⟩ := slot
    exact ⟨fuel, ownerName, .record, state, attributes, checked, object, mem, held⟩
  | value attrName typeName vo whole =>
    obtain ⟨fuel, checked⟩ := passes
    obtain ⟨mem, given, fields, held⟩ := slot
    obtain ⟨given', fields', -, left, inner⟩ := checkValueObject_nil checked
    cases fields.symm.trans fields'
    exact ⟨left, typeName, .valueObject, _, _, inner, rfl, mem, held⟩

theorem Place.Passes.held {place : Place} {value : Serde}
    (passes : place.Passes escapes display pattern regex debugExpr c) (slot : place.Slot attr raw)
    (filled : raw.isNull = false) (held : Held attr raw value) :
    ∃ fuel ownerName, checkValue escapes display pattern regex debugExpr c fuel ownerName
      (attributeName attr) (attr.textAt "type") value attr = some [] := by
  obtain ⟨fuel, ownerName, owner, state, attributes, checked, object, mem, found⟩ :=
    passes.checked slot
  obtain ⟨left, -, many, one⟩ := checkAttributes_nil checked object mem found
  cases held with
  | one single => exact ⟨left, ownerName, (one filled single).2⟩
  | item list items mem =>
    obtain ⟨xs, same, each⟩ := many filled list
    cases items.symm.trans same
    exact ⟨left, ownerName, each _ mem⟩

theorem Place.Passes.slotFits {place : Place}
    (passes : place.Passes escapes display pattern regex debugExpr c) (slot : place.Slot attr raw)
    (filled : raw.isNull = false) : SlotFits display pattern c attr raw := by
  obtain ⟨fuel, ownerName, owner, state, attributes, checked, object, mem, found⟩ :=
    passes.checked slot
  obtain ⟨left, -, many, one⟩ := checkAttributes_nil checked object mem found
  constructor
  · intro list
    obtain ⟨items, same, -⟩ := many filled list
    exact ⟨items, same⟩
  · intro single
    exact checkAdmits_nil (one filled single).1
  · intro value held leaf
    obtain ⟨fuel, ownerName, valueChecked⟩ := passes.held slot filled held
    exact (checkValue_nil valueChecked).2 leaf

/-- A required slot of a record that holds null is typed by a value object. -/
theorem Place.Passes.null {attributes : List Serde} {holder : Serde}
    (passes : (Place.record ownerName attributes holder).Passes escapes display pattern regex
      debugExpr c)
    (slot : (Place.record ownerName attributes holder).Slot attr raw) (null : raw.isNull = true)
    (required : Required attr) :
    ∃ vo, c.valueObject (attr.textAt "type") = some vo ∧
      (Place.value (attributeName attr) (attr.textAt "type") vo (.object [])).Passes escapes
        display pattern regex debugExpr c := by
  obtain ⟨fuel, checked⟩ := passes
  obtain ⟨mem, object, held⟩ := slot
  obtain ⟨left, refused, -, -⟩ := checkAttributes_nil checked object mem held
  exact refuseNull_nil (refused null rfl required)

/-! ### Every place that is reached -/

theorem Reached.passes {state : Serde} {place : Place}
    (root : (Place.record c.aggregateName (declaredAttributes c.aggregate) state).Passes escapes
      display pattern regex debugExpr c)
    (reached : Reached c state place) :
    place.Passes escapes display pattern regex debugExpr c := by
  induction reached with
  | root => exact root
  | held before slot filled held leads ih =>
    obtain ⟨fuel, ownerName, checked⟩ := ih.held slot filled held
    exact (checkValue_nil checked).1 _ leads
  | null before slot null required found ih =>
    obtain ⟨vo, same, passes⟩ := ih.null slot null required
    cases found.symm.trans same
    exact passes

theorem Place.Passes.fits {place : Place}
    (passes : place.Passes escapes display pattern regex debugExpr c) :
    place.Fits escapes display pattern regex debugExpr c := by
  cases place with
  | record ownerName attributes state =>
    intro attr raw slot
    constructor
    · intro null required
      obtain ⟨vo, found, -⟩ := passes.null slot null required
      exact ⟨vo, found⟩
    · intro filled
      exact passes.slotFits slot filled
  | value attrName typeName vo raw =>
    obtain ⟨fuel, checked⟩ := passes
    obtain ⟨given, fields, fits, -⟩ := checkValueObject_nil checked
    have whole : (Place.value attrName typeName vo raw).Passes escapes display pattern regex
        debugExpr c := ⟨fuel, checked⟩
    refine ⟨given, fields, fits, ?_⟩
    intro attr held slot filled
    exact whole.slotFits slot filled

end

section

variable (escapes : Char → Bool) (display : Serde → String)
variable (pattern : String → Option (String → Bool))
variable (regex : Operators.RegexBuilder) (debugExpr : Expr → String)

/-- The audit finds nothing only where everything it reaches fits its declaration. -/
theorem validate_sound (fuel : Nat) (domain aggregate : Serde) (id : String) (state : Serde)
    (clean : validate escapes display pattern regex debugExpr fuel domain aggregate id state =
      some []) :
    ∀ place, Reached ⟨domain, aggregate, id⟩ state place →
      place.Fits escapes display pattern regex debugExpr ⟨domain, aggregate, id⟩ := by
  intro place reached
  obtain ⟨violations, checked, none⟩ := Option.map_eq_some_iff.mp clean
  have quiet : violations = [] := by
    cases lifecycle : aggregate.get "lifecycle" with
    | none => simpa only [lifecycle] using none
    | some lifecycle' =>
      simp only [lifecycle] at none
      exact (List.append_eq_nil_iff.mp none).1
  rw [quiet] at checked
  exact (reached.passes ⟨fuel, checked⟩).fits

end

def price : Serde :=
  .object [("name", .string "Price"), ("attributes", .array
    [.object [("name", .string "cents"), ("type", .string "Integer")]])]

def order : Serde :=
  .object [("name", .string "Order"), ("attributes", .array
      [.object [("name", .string "price"), ("type", .string "Price")]]),
    ("value_objects", .array [price])]

/-- A price of whole cents, in an order without violations, fits. -/
theorem price_fits :
    (Place.value "price" "Price" price (.object [("cents", .number "5")])).Fits (fun _ => false)
      (fun _ => "") (fun _ => none) (fun _ _ _ _ => .error "") (fun _ => "")
      ⟨.object [("aggregates", .array [order])], order, "1"⟩ := by
  apply validate_sound (fun _ => false) (fun _ => "") (fun _ => none) (fun _ _ _ _ => .error "")
    (fun _ => "") 6 (.object [("aggregates", .array [order])]) order "1"
    (.object [("price", .object [("cents", .number "5")])]) rfl
  exact .held .root ⟨List.mem_cons_self, rfl, rfl⟩ rfl (.one rfl) rfl

/-- A basket whose tags are required and many. -/
def basket : Serde :=
  .object [("name", .string "Basket"), ("attributes", .array
    [.object [("name", .string "tags"), ("type", .string "String"), ("list", .bool true)]])]

theorem null_list_accepted :
    validate (fun _ => false) (fun _ => "") (fun _ => none) (fun _ _ _ _ => .error "")
        (fun _ => "") 2 (.object [("aggregates", .array [basket])]) basket "1"
        (.object [("tags", .null)]) = some [] ∧
      ∃ attr ∈ declaredAttributes basket, attr.flagAt "optional" = false ∧
        (Serde.object [("tags", .null)]).get (attributeName attr) = some .null :=
  ⟨rfl, _, List.mem_cons_self, rfl, rfl⟩

end Hecks.Host.ReferenceValidate
