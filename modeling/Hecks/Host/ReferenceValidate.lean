import Hecks.Host.ExprJson

/-! The structural layer of the mint audit: a translated record must fit its aggregate's
declarations. -/
namespace Hecks.Host.ReferenceValidate

/-! ### The declarations -/

/-- Of two entries of one name the map of them keeps the last. -/
def indexByName (node : Serde) (key name : String) : Option Serde :=
  ((node.itemsAt key).filter fun item => item.isNamed name).getLast?

def declaredAttributes (node : Serde) : List Serde := node.itemsAt "attributes"

def attributeName (attr : Serde) : String := attr.textAt "name"

/-- Whether two declarations of one value object name agree on every attribute's name, type, list
and optional flags. -/
def sameShape (left right : Serde) : Bool :=
  let shape := fun vo => (declaredAttributes vo).map fun attr =>
    (attributeName attr, attr.textAt "type", attr.flagAt "list", attr.flagAt "optional")
  shape left == shape right

/-- The aggregate's own value object of that name, else the one every aggregate of the bluebook
that declares it agrees on. -/
def valueObject (domain aggregate : Serde) (typeName : String) : Option Serde :=
  match indexByName aggregate "value_objects" typeName with
  | some vo => some vo
  | none =>
      let declared := (domain.itemsAt "aggregates").filterMap fun aggregate =>
        indexByName aggregate "value_objects" typeName
      declared.head?.bind fun first =>
        if declared.all fun other => sameShape other first then some first else none

/-- A closed set's member rows, each written as a list of `[field, value]` pairs. -/
def memberRows (vo : Serde) : List (List (String × Serde)) :=
  (vo.itemsAt "members").map fun row =>
    let pairs := ((row.asArray.getD []).filterMap Serde.asArray).filterMap fun pair => do
      let field ← pair[0]?.bind Serde.asStr
      let member ← pair[1]?
      return (field, member)
    pairs.foldl (fun map pair => Serde.insert pair.1 pair.2 map) []

/-- What an attribute's owner is: a record (the aggregate or one of its entities), whose absent
slots are skipped, or a value object, which is held to its declared names and required fields. -/
inductive Owner where
  | record
  | valueObject
deriving DecidableEq

structure Checker where
  domain : Serde
  aggregate : Serde
  id : String

namespace Checker

def aggregateName (c : Checker) : String := c.aggregate.textAt "name"

def valueObject (c : Checker) (typeName : String) : Option Serde :=
  ReferenceValidate.valueObject c.domain c.aggregate typeName

def entity (c : Checker) (typeName : String) : Option Serde :=
  indexByName c.aggregate "entities" typeName

def refusal (c : Checker) (message : String) : String :=
  c.aggregateName ++ "#" ++ c.id ++ ": " ++ message

end Checker

/-! ### The value an invariant reads -/

/-- Every declared attribute missing from `given` takes its own default, and every required list
reads as empty. -/
def withDefaults (declared : List Serde) (given : List (String × Serde)) :
    List (String × Serde) :=
  declared.foldl (fun filled attr =>
    let name := attributeName attr
    if filled.any fun f => f.1 == name then filled
    else
      match attr.get "default" with
      | none | some .null =>
          if attr.flagAt "list" && !attr.flagAt "optional" then
            Serde.insert name (.array []) filled
          else filled
      | some default => Serde.insert name default filled) given

/-- A declared optional slot the value lacks reads as null. -/
def withAbsentOptionals (vo value : Serde) : Serde :=
  match value with
  | .object fields =>
      .object ((declaredAttributes vo).foldl (fun known attr =>
        match (attr.get "name").bind Serde.asStr with
        | none => known
        | some name =>
            if attr.flagAt "optional" && !known.any fun f => f.1 == name then
              Serde.insert name .null known
            else known) fields)
  | value => value

/-! ### The checks -/

section

-- `display` is the text `serde_json` writes a value with, `pattern` the regex crate's compiler
variable (escapes : Char → Bool) (display : Serde → String)
variable (pattern : String → Option (String → Bool))
variable (regex : Operators.RegexBuilder) (debugExpr : Expr → String)

/-- Text compares by this. -/
def rubyToS : Serde → String
  | .string text => text
  | .null => ""
  | other => display other

mutual

def rubyInspect : Serde → String
  | .null => "nil"
  | .array items => "[" ++ Text.join ", " (inspectItems items) ++ "]"
  | other => display other

def inspectItems : List Serde → List String
  | [] => []
  | item :: items => rubyInspect item :: inspectItems items

end

/-- `parse::<u64>()` of a number's text. -/
def isU64 : Serde → Bool
  | .number text =>
      match Text.splitSign text.toList with
      | (false, d :: ds) => (Text.digitsValue (d :: ds) 0).any fun n => n < 2 ^ 64
      | _ => false
  | _ => false

def isNumber : Serde → Bool
  | .number _ => true
  | _ => false

/-- A scalar that does not fit its declared type; none where the type is not a plain scalar. -/
def scalarRefusal (ownerName attrName typeName : String) (value : Serde) : Option String :=
  let mismatch := ownerName ++ "." ++ attrName ++ " expects " ++ typeName ++ ", got " ++
    rubyInspect display value
  match typeName with
  | "String" => if value.asStr.isSome then none else some mismatch
  | "Integer" =>
      if value.asI64.isSome then none
      else if isU64 value then
        some (ownerName ++ "." ++ attrName ++ " must fit in a 64-bit integer, got " ++
          rubyInspect display value)
      else some mismatch
  | "Float" => if isNumber value then none else some mismatch
  | "Boolean" => if value.asBool.isSome then none else some mismatch
  | _ => none

variable (c : Checker)

/-- The first column of each member row of the set `"Aggregate::Set"` names, as text. -/
def admittedMembers (admits : String) : Option (List String) := do
  let (aggregateName, setName) ← Text.splitOnce "::" admits
  let aggregate ← (c.domain.itemsAt "aggregates").find? fun a => a.isNamed aggregateName
  let set ← indexByName aggregate "value_objects" setName
  let first ← (declaredAttributes set).head?
  return (memberRows set).map fun row =>
    rubyToS display (((Serde.object row).get (attributeName first)).getD .null)

/-- The one field of an object of one field stands for it. -/
def offeredOf (raw : Serde) : Serde :=
  match raw with
  | .object [(_, value)] => value
  | raw => raw

def checkAdmits (attr raw : Serde) : List String :=
  match (attr.get "admits").bind Serde.asStr with
  | none => []
  | some admits =>
      let name := attributeName attr
      match admittedMembers display c admits with
      | none =>
          [c.refusal (name ++ " admits " ++ admits ++ ", which this bluebook does not declare — " ++
            "a closed set is named Aggregate::SetName, and it must be one the bluebook actually " ++
            "holds")]
      | some admitted =>
          if admitted.contains (rubyToS display (offeredOf raw)) then []
          else
            let listed := Text.join ", " (admitted.map fun member => display (.string member))
            [c.refusal (name ++ " admits " ++ admits ++ " — " ++ listed ++ " — got " ++
              rubyInspect display (offeredOf raw))]

/-- A scalar leaf. Unrecognized type names are unconstrained. -/
def checkLeaf (ownerName attrName typeName : String) (value attr : Serde) : List String :=
  match scalarRefusal display ownerName attrName typeName value with
  | some refusal => [c.refusal refusal]
  | none =>
      match (attr.get "pattern").bind Serde.asStr, value.asStr with
      | some source, some text =>
          if (pattern source).any fun isMatch => !isMatch text then
            [c.refusal (ownerName ++ "." ++ attrName ++ " must match " ++ source ++ ", got " ++
              rubyInspect display value)]
          else []
      | _, _ => []

/-- A row matches on every field it names, compared as text. -/
def matchesRow (fields : List (String × Serde)) (row : List (String × Serde)) : Bool :=
  row.all fun entry =>
    rubyToS display (((Serde.object fields).get entry.1).getD .null) == rubyToS display entry.2

/-- Some member row matches. The refusal quotes the first column only. -/
def checkMember (typeName : String) (vo : Serde) (fields : List (String × Serde)) : List String :=
  let rows := memberRows vo
  if rows.any (matchesRow display fields) then []
  else
    match (declaredAttributes vo).head?.map attributeName with
    | none => []
    | some first =>
        let admitted := Text.join ", " (rows.map fun row =>
          rubyInspect display (((Serde.object row).get first).getD .null))
        let offered := rubyInspect display (((Serde.object fields).get first).getD .null)
        [c.refusal (typeName ++ " admits " ++ admitted ++ " — got " ++ offered)]

/-- Nothing comes back of an evaluator that panics. -/
def checkInvariant (attrName typeName : String) (known rule : Serde) : Option (List String) :=
  let description := rule.textAt "description"
  let owner := attrName ++ " (" ++ typeName ++ ")"
  match rule.get "ast" with
  | none => some []
  | some ast =>
      match parse escapes display ast with
      | .error e =>
          some [c.refusal (owner ++ "'s own invariant " ++ Text.debugStr escapes description ++
            " has a malformed ast — " ++ e)]
      | .ok expr =>
          match interpret escapes regex debugExpr expr known with
          | .ok result =>
              if result.truthy then some []
              else some [c.refusal (owner ++ " violates its own invariant — " ++ description)]
          | .error (.refused e) =>
              some [c.refusal (owner ++ "'s own invariant " ++ Text.debugStr escapes description ++
                " could not be checked — " ++ e)]
          | .error (.panicked _) => none

/-- What the checks of these come to, unless one of them does not come to an end. -/
def gather {α : Type} (xs : List α) (check : α → Option (List String)) : Option (List String) :=
  (xs.mapM check).map List.flatten

def checkInvariants (attrName typeName : String) (value vo : Serde) : Option (List String) :=
  let known := withAbsentOptionals vo value
  gather (vo.itemsAt "invariants") (checkInvariant escapes display regex debugExpr c attrName
    typeName known)

/-- A bare scalar stands in for a single-field value object's one field. -/
def fieldsOf (declared : List Serde) (raw : Serde) : Option (List (String × Serde)) :=
  match raw, declared with
  | .object fields, _ => some fields
  | raw, [attr] => some [(attributeName attr, raw)]
  | _, _ => none

/-- The first required field left out. -/
def missingField (declared : List Serde) (filled : List (String × Serde)) : Option Serde :=
  declared.find? fun attr =>
    let present := ((Serde.object filled).get (attributeName attr)).any fun value =>
      !value.isNull
    !present && !attr.flagAt "optional" && !attr.flagAt "list"

mutual

/-- The checks read on inside values and inside defaults: `fuel` bounds how deep. -/
def checkAttributes (fuel : Nat) (ownerName : String) (owner : Owner) (state : Serde)
    (attributes : List Serde) : Option (List String) :=
  match fuel with
  | 0 => none
  | fuel + 1 =>
      if state.asObject.isNone then some []
      else
        gather attributes fun attr =>
          let attrName := attributeName attr
          let typeName := attr.textAt "type"
          let list := attr.flagAt "list"
          match state.get attrName with
          | none => some []
          | some raw =>
              if raw.isNull then
                if owner == .record && !attr.flagAt "optional" && !list then
                  refuseNull fuel ownerName attrName typeName
                else some []
              else if list then
                match raw.asArray with
                | some items => gather items fun item =>
                    checkValue fuel ownerName attrName typeName item attr
                | none => some [c.refusal (ownerName ++ "." ++ attrName ++ " expects list_of(" ++
                    typeName ++ "), got " ++ rubyInspect display raw)]
              else
                (checkValue fuel ownerName attrName typeName raw attr).map fun violations =>
                  violations ++ checkAdmits display c attr raw

/-- A required slot holding null: a value object reads as built from no fields at all. -/
def refuseNull (fuel : Nat) (ownerName attrName typeName : String) : Option (List String) :=
  match fuel with
  | 0 => none
  | fuel + 1 =>
      match c.valueObject typeName with
      | some vo => checkValueObject fuel attrName typeName vo (.object [])
      | none => some [c.refusal (ownerName ++ "." ++ attrName ++ " expects " ++ typeName ++
          ", got nil")]

def checkValue (fuel : Nat) (ownerName attrName typeName : String) (value attr : Serde) :
    Option (List String) :=
  match fuel with
  | 0 => none
  | fuel + 1 =>
      match c.valueObject typeName with
      | some vo => checkValueObject fuel attrName typeName vo value
      | none =>
          match c.entity typeName with
          | some entity =>
              checkAttributes fuel typeName .record value (declaredAttributes entity)
          | none => some (checkLeaf display pattern c ownerName attrName typeName value attr)

/-- One stored value object, held to what dispatch holds an offered one to. -/
def checkValueObject (fuel : Nat) (attrName typeName : String) (vo raw : Serde) :
    Option (List String) :=
  match fuel with
  | 0 => none
  | fuel + 1 =>
      let declared := declaredAttributes vo
      match fieldsOf declared raw with
      | none => some [c.refusal (attrName ++ " is a " ++ typeName ++
          " — pass its fields as an object, not " ++ rubyInspect display raw)]
      | some given =>
          let unknown := (given.map (·.1)).filter fun key =>
            !declared.any fun attr => attributeName attr == key
          if !unknown.isEmpty then
            let sorted := unknown.mergeSort fun a b => !decide (b < a)
            some [c.refusal (typeName ++ " does not declare " ++ Text.join ", " sorted ++
              " — it takes " ++ Text.join ", " (declared.map attributeName))]
          else
            let filled := withDefaults declared given
            match missingField declared filled with
            | some attr => some [c.refusal (typeName ++ "." ++ attributeName attr ++ " expects " ++
                attr.textAt "type" ++ ", got nil")]
            | none =>
                let members :=
                  if vo.flagAt "closed_set" && !(memberRows vo).isEmpty then
                    checkMember display c typeName vo filled
                  else []
                if !members.isEmpty then some members
                else
                  (checkAttributes fuel typeName .valueObject (.object filled) declared).bind
                    fun violations =>
                      if violations.isEmpty then
                        checkInvariants escapes display regex debugExpr c attrName typeName
                          (.object filled) vo
                      else some violations

end

def checkLifecycle (state lifecycle : Serde) : List String :=
  let field := lifecycle.textAt "field"
  if field == "" then []
  else
    match state.get field with
    | none => []
    | some held =>
        if held.isNull then []
        else
          let allowed := ((lifecycle.itemsAt "transitions").filterMap fun t =>
              (t.get "to_state").bind Serde.asStr) ++
            ((lifecycle.get "default").bind Serde.asStr).toList
          if held.asStr.any fun h => allowed.contains h then []
          else [c.aggregateName ++ "#" ++ c.id ++ ": " ++ field ++ " is " ++ display held ++
            ", a state this era's lifecycle never reaches"]

end

section

variable (escapes : Char → Bool) (display : Serde → String)
variable (pattern : String → Option (String → Bool))
variable (regex : Operators.RegexBuilder) (debugExpr : Expr → String)

/-- Every structural violation in one translated record; empty means it satisfies its
aggregate. -/
def validate (fuel : Nat) (domain aggregate : Serde) (id : String) (state : Serde) :
    Option (List String) :=
  let c : Checker := ⟨domain, aggregate, id⟩
  (checkAttributes escapes display pattern regex debugExpr c fuel c.aggregateName .record state
    (declaredAttributes aggregate)).map fun violations =>
      match aggregate.get "lifecycle" with
      | some lifecycle => violations ++ checkLifecycle display c state lifecycle
      | none => violations

end

end Hecks.Host.ReferenceValidate
