import Hecks.Sentence.Ir

/-! What each phrase means: the blocks of a sentence file lowered to a bluebook. -/
namespace Hecks.Sentence

/-! ### What a file says before its names are resolved -/

/-- A type phrase written in the file. -/
structure TypeUse where
  line : Nat
  col : Nat
  words : Text
  reference : Bool
  variants : Option (List Text)

structure Identity where
  line : Nat
  col : Nat
  fields : List Text

structure Transition where
  line : Nat
  col : Nat
  command : Text
  fromState : Text
  toState : Text

structure LifecycleSpec where
  field : Text
  default : Text
  transitions : List Transition := []
  marks : List (Text × List Text) := []

/-- A field a sentence names, with where it named it. -/
structure FieldUse where
  name : Text
  line : Nat
  col : Nat

/-- Where a change takes its value from. -/
inductive Source where
  | argument (field : FieldUse)
  | literal (value : Value)
  | state (field : FieldUse)
  | expression (text : Text)

/-- Where one field of a row gets its value. -/
inductive Origin where
  | argument (field : FieldUse)
  | literal (text : Text)

/-- One change a command makes. -/
inductive Change where
  | append (target : FieldUse) (fields : List (Text × Origin))
  | delegate (target : Text) (fields : List (Text × Origin))
  | correction (target : Text) (fields : List (Text × Origin))
  | setSame (field : FieldUse)
  | op (target : FieldUse) (op sign : String) (source : Source)

structure CommandSpec where
  name : Text
  role : Option Text := none
  roles : List Text := []
  goal : Option Text := none
  references : Option Text := none
  args : List FieldUse := []
  takes : List (Attribute × TypeUse) := []
  givens : List Given := []
  ensures : List Given := []
  source : Option CommandFrom := none
  provenance : Option Value := none
  idempotent : Bool := false
  changes : List Change := []
  emits : List Text := []

/-- A condition read from a rule, a given or a where. -/
structure Cond where
  canonical : Text
  field : Option FieldUse
  value : Option Text

/-- What a policy does when its event is announced. -/
inductive Reaction where
  | run (command : Text)
  | ask (need : Text)
  | tell (command : Text)

/-- The event announced, the aggregate it is said to come from, and where it was written. -/
structure EventUse where
  event : Text
  owner : Option Text
  line : Nat
  col : Nat

/-- A field a policy passes on, and the value as the IR spells it. -/
abbrev PassedField := FieldUse × Text

structure ReactionUse where
  reaction : Reaction
  fields : List PassedField
  line : Nat
  col : Nat

structure PolicySpec where
  name : Text
  line : Nat
  col : Nat
  event : Option EventUse := none
  outside : Bool := false
  forEach : Option Text := none
  onlyWhen : Option Text := none
  undelivered : Bool := false
  across : Option Text := none
  withLines : List PassedField := []
  reaction : Option ReactionUse := none

/-- Everything read of one aggregate. -/
structure AggState where
  agg : Aggregate
  attrTypes : List TypeUse := []
  queryArgs : List (Nat × List (Attribute × TypeUse)) := []
  voTypes : List (Nat × Nat × TypeUse) := []
  identity : Option Identity := none
  lifecycle : Option LifecycleSpec := none
  commands : List CommandSpec := []
  checks : List FieldUse := []

/-- What a tail of options said. -/
structure Options where
  optional : Bool := false
  default : Option Value := none
  pattern : Option Text := none
  admits : Option Text := none

def Options.onto (options : Options) (attr : Attribute) : Attribute :=
  { attr with
    optional := attr.optional || options.optional
    default := options.default.or attr.default
    pattern := options.pattern.or attr.pattern
    admits := options.admits.or attr.admits }

/-- What the readers take from elsewhere: how a sentence's own words are read, and how the names of
an aggregate and of its policies are resolved once all are known. -/
structure Meanings where
  cases : Cases
  readValue : Text → Value
  renderValue : Value → Text
  canonical : Text → Text
  namingSnake : Text → Text
  plural : Text → Text
  attributeOptions : Parser → Matched → ParseResult Options
  memberCells : Parser → Matched → ParseResult (List (Text × Value))
  changesOf : Parser → Matched → ParseResult (Option (List Change))
  withPairs : Parser → Matched → ParseResult (List (Text × Text))
  whereClause : Parser → Matched → List Text → ParseResult WhereClause
  whereClauses : List (Text × Text) → List WhereClause
  finish : Parser → List ValueObject → List Text → AggState → Matched → ParseResult Aggregate
  policiesOf : Parser → Bluebook → List PolicySpec → ParseResult (List Policy)

/-! ### Steps -/

section

variable {σ : Type}

/-- One turn of a block's loop, prose and phrases read apart. -/
def takeStep (describe : σ → Text → σ) (say : σ → Matched → List Line → ParseResult (σ × List Line))
    (state : σ) (step : Step) (rest : List Line) : ParseResult (σ × List Line) :=
  match step with
  | .prose text => .ok (describe state text, rest)
  | .phrase m => say state m rest

/-- A block that describes nothing. -/
def undescribed (state : σ) (_ : Text) : σ := state

/-- A sentence that heads no block of its own. -/
def flat (said : ParseResult σ) (rest : List Line) : ParseResult (σ × List Line) :=
  said.map (·, rest)

end

namespace Parser

variable (p : Parser) (M : Meanings)

/-- A phrase the table admits that has no meaning here. -/
def unmeant (m : Matched) : Diagnostic :=
  p.error m.line m.baseCol
    s!"the phrase '{m.id}' is admitted but the parser does not read it yet"

/-- The literal a `rest` slot holds. -/
def literal (m : Matched) (slot : String) : ParseResult Value :=
  match M.readValue (m.textOf slot) with
  | .bare _ =>
      .error (p.error m.line (m.colOf slot)
        (s!"'{String.ofList (m.textOf slot)}' is not a value: write a number, quoted text, " ++
          "true, false or nothing"))
  | value => .ok value

def fieldUses (m : Matched) (slot : String) : List FieldUse :=
  (m.capture slot).items.map fun item => ⟨snake M.cases item, m.line, m.colOf slot⟩

/-- The condition a sentence carries in its `condition` slot. -/
def condition (m : Matched) : ParseResult Cond :=
  let text := m.textOf "condition"
  let base := m.colOf "condition"
  match matchText p.grammar .condition text base with
  | .error unmatched =>
      .error { p.error m.line unmatched.column
        s!"this is not a condition I know: \"{String.ofList text}\"" with
        expected := unmatched.suggestions }
  | .ok (phrase, found) =>
      let slot := fun name => captureOf found name
      let field : FieldUse :=
        ⟨snake M.cases (slot "field").value, m.line, columnAt base text (slot "field").offset⟩
      if phrase.id = "expression" then .ok ⟨M.canonical (slot "code").value, none, none⟩
      else if phrase.id = "not_empty" then
        .ok ⟨M.canonical ('!' :: field.name ++ ".to_s.empty?".toList), some field, none⟩
      else if phrase.id = "at_least" then
        .ok ⟨M.canonical (field.name ++ " >= ".toList ++ (slot "n").value), some field, none⟩
      else if phrase.id = "equals" then
        let value := (slot "value").value
        .ok ⟨M.canonical (field.name ++ " == \"".toList ++ value ++ ['"']), some field, some value⟩
      else
        .error (p.error m.line base
          s!"the condition '{phrase.id}' is admitted but the parser does not read it yet")

def given (m : Matched) (cond : Cond) : Given := ⟨some (m.textOf "description"), cond.canonical⟩

def unknownField (field : FieldUse) (inScope : List Text) : Diagnostic :=
  let known := ", ".intercalate (inScope.map fun name => String.ofList (spoken M.cases name))
  p.error field.line field.col
    (s!"'{String.ofList (spoken M.cases field.name)}' is not a field here. " ++
      s!"The fields in scope are: {known}")

/-- Refuses a sentence about some other aggregate than the one it stands in. -/
def sameOwner (m : Matched) (owner : String) (st : AggState) : ParseResult Unit :=
  if camel M.cases (m.textOf owner) = st.agg.name then .ok ()
  else
    .error (p.error m.line (m.colOf owner)
      (s!"this is about '{String.ofList (m.textOf owner)}', but it stands in the aggregate " ++
        s!"'{String.ofList (spoken M.cases st.agg.name)}'"))

end Parser

/-! ### Attributes and value objects -/

/-- What the words of a type say beyond the type: a list, or a link to another aggregate. -/
structure Shape where
  words : Text
  list : Bool := false
  relationship : Option String := none
  reference : Bool := false
  variants : Option (List Text) := none

def Shape.apply (shape : Shape) (attr : Attribute) : Attribute :=
  { attr with list := shape.list, relationship := shape.relationship }

/-- The text after these first words, if it starts with them. -/
def after (lead : String) (text : Text) : Option Text :=
  if lead.toList.isPrefixOf text then some (text.drop lead.toList.length) else none

def trim (text : Text) : Text := trimEnd (text.dropWhile isWhitespace)

/-- `split(" or ")`, of no more characters than `fuel`. -/
def splitOr : (fuel : Nat) → (word text : Text) → List Text
  | 0, word, _ => [word]
  | _ + 1, word, [] => [word]
  | fuel + 1, word, c :: cs =>
      match after " or " (c :: cs) with
      | some rest => word :: splitOr fuel [] rest
      | none => splitOr fuel (word ++ [c]) cs

/-- Each form of a type phrase, by what it starts with. -/
def shapeForms : List (String × Shape) := [
  ("list of ", { words := [], list := true }),
  ("reference to ", { words := [], relationship := some "reference_to", reference := true }),
  ("link to ", { words := [], reference := true }),
  ("has many ", { words := [], list := true, relationship := some "has_many", reference := true }),
  ("has one ", { words := [], relationship := some "has_one", reference := true }),
  ("belongs to ", { words := [], relationship := some "belongs_to", reference := true })]

/-- Reads `list of …`, `reference to …` and `has many …` off the front of a type phrase. -/
def shapeOf (u : Cases) (words : Text) : Shape :=
  match shapeForms.findSome? fun form => (after form.1 words).map fun inner =>
      { form.2 with words := trim inner } with
  | some shape => shape
  | none =>
      match after "one of " words with
      | some inner =>
          { words := trim inner, relationship := some "one_of",
            variants := some ((splitOr inner.length [] inner).map fun name => camel u (trim name)) }
      | none => { words }

namespace Parser

variable (p : Parser) (M : Meanings)

def typeUse (m : Matched) (shape : Shape) (variants : Option (List Text)) : TypeUse :=
  ⟨m.line, m.colOf "type", shape.words, shape.reference, variants⟩

/-- An attribute with its options, where its phrase says any. -/
def optioned (m : Matched) (withOptions : String) (attr : Attribute) : ParseResult Attribute :=
  if m.id = withOptions then do
    let options ← M.attributeOptions p m
    return options.onto attr
  else .ok attr

def attributeLine (held : List (Attribute × TypeUse)) (m : Matched) (rest : List Line) :
    ParseResult (List (Attribute × TypeUse) × List Line) :=
  flat (do
    if m.id ≠ "attribute" ∧ m.id ≠ "attribute_with" then throw (p.unmeant m)
    let attr ← p.optioned M m "attribute_with" { name := snake M.cases (m.textOf "name") }
    let shape := shapeOf M.cases (m.textOf "type")
    return held ++ [(shape.apply attr, typeUse m shape shape.variants)]) rest

/-- The attributes an `It has:` or `It takes:` block lists. -/
def attributeLines (header : Matched) (lines : List Line) :
    ParseResult (List (Attribute × TypeUse) × List Line) :=
  p.block .has false header.indent (takeStep undescribed (p.attributeLine M)) [] lines

def has (header : Matched) (st : AggState) (lines : List Line) :
    ParseResult (AggState × List Line) := do
  let (read, rest) ← p.attributeLines M header lines
  return ({ st with agg.attributes := st.agg.attributes ++ read.map (·.1),
                    attrTypes := st.attrTypes ++ read.map (·.2) }, rest)

def valueRule (held : ValueObject) (m : Matched) (rest : List Line) :
    ParseResult (ValueObject × List Line) :=
  flat (do
    if m.id ≠ "rule" then throw (p.unmeant m)
    let cond ← p.condition M m
    match cond.field with
    | some field =>
        if field.name ≠ "value".toList then throw (p.unknownField M field ["value".toList])
    | none => pure ()
    return { held with invariants := held.invariants ++ [given m cond] }) rest

/-- The value object with the rules under a one-value block, each about `value`. -/
def valueRules (header : Matched) (held : ValueObject) (st : AggState) (lines : List Line) :
    ParseResult (AggState × List Line) := do
  let (read, rest) ←
    p.block .valueObject false header.indent (takeStep undescribed (p.valueRule M)) held lines
  return ({ st with agg.valueObjects := st.agg.valueObjects ++ [read] }, rest)

def valueObject (header : Matched) (st : AggState) (lines : List Line) :
    ParseResult (AggState × List Line) := do
  let shape := shapeOf M.cases (header.textOf "type")
  let attr ← p.optioned M header "value_object_with" { name := "value".toList }
  let held : ValueObject :=
    { name := camel M.cases (header.textOf "name"), attributes := [shape.apply attr] }
  p.valueRules M header held
    { st with voTypes := st.voTypes ++ [(st.agg.valueObjects.length, 0,
                typeUse header shape none)] } lines

/-- A closed set of these values in this column. -/
def synthesize (name column : Text) (values : List Text) : ValueObject :=
  { name, attributes := [{ name := column, typeName := "String".toList }], closedSet := true,
    members := values.map fun value => [(column, .str value)] }

def closedSet (header : Matched) (st : AggState) (lines : List Line) :
    ParseResult (AggState × List Line) :=
  let column := if header.id = "closed_set_named" then snake M.cases (header.textOf "attr")
    else "value".toList
  p.valueRules M header
    (synthesize (camel M.cases (header.textOf "name")) column (header.capture "values").items)
    st lines

/-- The value object of an `A … has:` block so far, with where its types and rules were written. -/
structure FieldsRead where
  held : ValueObject
  types : List TypeUse := []
  checks : List FieldUse := []

def fieldLine (read : FieldsRead) (m : Matched) (rest : List Line) :
    ParseResult (FieldsRead × List Line) :=
  flat (do
    if m.id = "field" ∨ m.id = "field_with" then
      let attr ← p.optioned M m "field_with" { name := snake M.cases (m.textOf "name") }
      let shape := shapeOf M.cases (m.textOf "type")
      return { read with
        held.attributes := read.held.attributes ++ [shape.apply attr]
        types := read.types ++ [typeUse m shape none] }
    else if m.id = "field_member" then
      let member ← M.memberCells p m
      return { read with held.members := read.held.members ++ [member], held.closedSet := true }
    else if m.id = "field_rule" then
      let cond ← p.condition M m
      return { read with
        checks := read.checks ++ cond.field.toList
        held.invariants := read.held.invariants ++ [given m cond] }
    else throw (p.unmeant m)) rest

/-- `A money has:` with one attribute per line and the rules about them. -/
def valueFields (header : Matched) (st : AggState) (lines : List Line) :
    ParseResult (AggState × List Line) := do
  let (read, rest) ← p.block .fields false header.indent (takeStep undescribed (p.fieldLine M))
    { held := { name := camel M.cases (header.textOf "name") } } lines
  let index := st.agg.valueObjects.length
  let names := read.held.attributes.map (·.name)
  match read.checks.find? fun check => !names.contains check.name with
  | some unknown => throw (p.unknownField M unknown names)
  | none => pure ()
  return ({ st with
    agg.valueObjects := st.agg.valueObjects ++ [read.held]
    voTypes := st.voTypes ++ read.types.mapIdx fun at' used => (index, at', used) }, rest)

end Parser

end Hecks.Sentence
