import Hecks.Expr

/-! The tables an orchestration runs over (policies, process managers, declared queries) and
the arguments each reaction, leg and compensation is dispatched with. -/
namespace Hecks

/-- How deep a chain of reactions may re-enter the dispatch. -/
def maxReactionDepth : Nat := 5

/-- The depth a reaction's own dispatch runs at: back at zero for a root reaction. -/
def reactionDepth (root : Bool) (depth : Nat) : Nat := if root then 0 else depth + 1

/-- One `policy` block whose target lives in this domain. -/
structure PolicyRule where
  policyName : String
  eventName : String
  eventQualifier : Option String
  targetVerb : String
  whereExpr : Option Expr
  forEach : Option String
  forEachKey : Option String
  root : Bool
  withSpec : List (String × String)

/-- A policy block with `across`: matched here, delivered by the host. -/
structure CrossDomainPolicyRule where
  policyName : String
  eventName : String
  eventQualifier : Option String
  whereExpr : Option Expr
  targetDomain : String
  targetVerb : String
  withSpec : List (String × String)

/-- A matched cross-domain reaction the host must deliver. -/
structure PendingCrossDomainReaction where
  policyName : String
  eventName : String
  targetDomain : String
  targetVerb : String
  payload : Json

/-- A `with:` binding of a saga leg: a field to read, or a literal. -/
inductive WithValue where
  | ref (name : String)
  | literal (value : Json)

/-- The command that undoes a dispatch. A compensation is never itself compensated, so the
nested specification the source allows is cut here. -/
structure CompensationSpec where
  commandName : String
  withs : List (String × WithValue)

/-- One dispatch of a leg. -/
structure DispatchSpec where
  commandName : String
  withs : List (String × WithValue)
  compensates : Option CompensationSpec

/-- One leg of a process manager. -/
structure Handler where
  eventType : String
  fromState : String
  toState : String
  dispatches : List DispatchSpec

/-- One `process_manager` block. -/
structure ProcessManagerDef where
  name : String
  correlatesBy : String
  startsOn : String
  endsOn : String
  initialState : String
  handlers : List Handler

/-- The event type a compensating leg (`on :refused`) is declared under. -/
def REFUSED : String := "refused"

/-- A compensation ledger entry; its arguments are resolved when it is pushed. -/
structure CompletedCompensation where
  commandName : String
  args : Json

/-- A live process-manager instance. `completedCompensations` is oldest first. -/
structure SagaInstance where
  state : String
  memory : Json
  completedCompensations : List CompletedCompensation

/-- What a declared query's condition compares a row with. -/
inductive QueryConditionValue where
  | literal (text : String)
  | numericLiteral (n : Float.Model)
  | arg (name : String)
  | null

structure QueryCondition where
  field : String
  value : QueryConditionValue

/-- One declared query, as far as a fan-out reads it. -/
structure QueryDef where
  verb : String
  conditions : List QueryCondition

structure Tables where
  policies : List PolicyRule
  crossDomainPolicies : List CrossDomainPolicyRule
  processManagers : List ProcessManagerDef
  referenceKeyFn : String → Option String
  queries : List QueryDef
  commandCreatesFn : String → Bool
  identityHeadFn : String → Option String
  commandAttributesFn : String → List String
  entityIdentityHeadFn : String → Option String

namespace ProcessManagerDef

variable (pm : ProcessManagerDef)

/-- `select_leg`: the first handler declared for the event in the state. -/
def selectLeg (event state : String) : Option Handler :=
  pm.handlers.find? fun h => h.eventType = event ∧ h.fromState = state

/-- `handlers.iter().any(|h| h.event_type == event)`. -/
def answers (event : String) : Bool := pm.handlers.any fun h => h.eventType = event

/-- The states the event is answered from, each quoted once, in declaration order. -/
def expectedStates (escapes : Char → Bool) (event : String) : List String :=
  (pm.handlers.filter fun h => h.eventType = event).foldl
    (fun expected h =>
      let spelled := Text.debugStr escapes h.fromState
      if spelled ∈ expected then expected else expected ++ [spelled])
    []

def legMismatch (escapes : Char → Bool) (event state : String) : String :=
  "in " ++ Text.debugStr escapes state ++ ", not " ++
    Text.join " or " (pm.expectedStates escapes event)

def correlationHead : String := Text.firstSegment "." pm.correlatesBy

/-- `correlation_of`: a path into the payload, then the stamp of an earlier leg's dispatch,
then the aggregate's reference key. An empty correlation counts as absent. -/
def correlationOf (event : Event) (referenceKeyFn : String → Option String) : Option String :=
  let nonempty := fun (id : String) => if id.isEmpty then none else some id
  let fromPayload := (event.payload.dig pm.correlatesBy).bind fun v =>
    v.toIdComponent.bind nonempty
  let fromStamp := event.correlation.bind fun stamp =>
    ((stamp.find? fun e => e.1 = pm.correlationHead).map (·.2)).bind nonempty
  let fromReference := (referenceKeyFn event.aggregate).bind fun key =>
    (event.payload.get key).bind fun v => v.toIdComponent.bind nonempty
  (fromPayload.or fromStamp).or fromReference

def resolveWith (value : WithValue) (event : Event) (correlation : String) (memory : Json) :
    Json :=
  match value with
  | .literal json => json
  | .ref name =>
      if name = pm.correlationHead then .str correlation
      else ((event.payload.get name).or (memory.get name)).getD .null

end ProcessManagerDef

/-- Reads one escaped character of a rendered string literal at a time. -/
def unescape : List Char → List Char
  | [] => []
  | ['\\'] => ['\\']
  | '\\' :: next :: rest => next :: unescape rest
  | c :: rest => c :: unescape rest

/-- `read_literal_wire`: a rendered `with:` literal as the value it spells. -/
def readLiteralWire (binding : String) : Json :=
  if binding = "nil" then .null
  else if binding = "true" then .bool true
  else if binding = "false" then .bool false
  else
    match Text.parseI64 binding, Binary64.parse binding with
    | some i, _ => Json.int i
    | none, some f => .float f
    | none, none =>
        match binding.toList with
        | '"' :: rest =>
            match rest.reverse with
            | '"' :: inner => .str (String.ofList (unescape inner.reverse))
            | _ => .str binding
        | _ => .str binding

/-- Whether a projection's source already holds the name. -/
def holds (source : List (String × Json)) (name : String) : Bool :=
  source.any fun f => f.1 = name

/-- A fan-out row's fields, and its `id`, below the names the source already holds. -/
def offerRowFields (source : List (String × Json)) (rowId : String) (record : Json) :
    List (String × Json) :=
  let fields := record.pairs
  let fields := if holds fields "id" then fields else fields ++ [("id", .str rowId)]
  fields.foldl (fun source f => if holds source f.1 then source else source ++ [f]) source

/-- The emitting record's identity under its aggregate's identity head. -/
def offerEmitterHead (tables : Tables) (source : List (String × Json)) (event : Event) :
    List (String × Json) :=
  match tables.identityHeadFn event.aggregate with
  | some head =>
      if !event.id.isEmpty && !holds source head then source ++ [(head, .str event.id)]
      else source
  | none => source

/-- The emitting record's whole identity as `id`. -/
def offerEmitterId (source : List (String × Json)) (event : Event) : List (String × Json) :=
  if !event.id.isEmpty && !holds source "id" then source ++ [("id", .str event.id)] else source

/-- Reads a `with:` against a source: a binding that starts with `:` names a field. -/
def resolveWithSpec (withSpec : List (String × String)) (source : List (String × Json)) :
    List (String × Json) :=
  withSpec.map fun (name, binding) =>
    match Text.stripPrefix ':' binding with
    | none => (name, readLiteralWire binding)
    | some field => (name, ((source.find? fun f => f.1 = field).map (·.2)).getD .null)

def crossDomainPayload (tables : Tables) (policy : CrossDomainPolicyRule) (event : Event) : Json :=
  if policy.withSpec.isEmpty then event.payload
  else
    .object (resolveWithSpec policy.withSpec
      (offerEmitterId (offerEmitterHead tables event.payload.pairs event) event))

/-- A value as an identity, bare or wrapped as `{"value": ...}`. -/
def resolvedIdComponent (v : Json) : Option String :=
  (v.toIdComponent.or ((v.get "value").bind Json.toIdComponent)).bind fun id =>
    if id.isEmpty then none else some id

/-- `target_verb.rsplit_once('.')`, its aggregate half. -/
def aggregateOf (targetVerb : String) : Option String :=
  (Text.rsplitOnce "." targetVerb).map (·.1)

/-- The first of the candidate keys whose value among `pairs` is an identity. -/
def candidateIdentity (pairs : List (String × Json)) (keys : List (Option String)) :
    Option String :=
  (keys.filterMap id).findSome? fun key =>
    (pairs.find? fun f => f.1 = key).bind fun f => resolvedIdComponent f.2

/-- `split_routed_args`: a projection as `{to:, with:}` for a target that exists already. -/
def splitRoutedArgs (tables : Tables) (projected : Json) (targetVerb : String) : Json :=
  match projected with
  | .object pairs =>
      let declared := tables.commandAttributesFn targetVerb
      let facts := Json.object (pairs.filter fun f => f.1 ∈ declared)
      if tables.commandCreatesFn targetVerb then facts
      else
        match aggregateOf targetVerb with
        | none => facts
        | some aggregate =>
            match candidateIdentity pairs
                [tables.identityHeadFn aggregate, tables.referenceKeyFn aggregate] with
            | some id => .object [("to", .str id), ("with", facts)]
            | none => facts
  | other => other

/-- `entity_command_paths`: the aggregate and entity paths of a one-level entity command. -/
def entityCommandPaths (targetVerb : String) : Option (String × String) := do
  let (aggregate, rest) ← Text.splitOnce "." targetVerb
  let (entity, command) ← Text.splitOnce "." rest
  if Text.containsChar '.' command then none else some (aggregate, aggregate ++ "." ++ entity)

/-- `route_dispatch_args`: routes the entity command that `splitRoutedArgs` cannot. -/
def routeDispatchArgs (tables : Tables) (projected : Json) (targetVerb : String) (event : Event) :
    Json :=
  let routed := splitRoutedArgs tables projected targetVerb
  if holds routed.pairs "to" then routed
  else
    let entityRouted : Option Json := do
      let (aggregate, entity) ← entityCommandPaths targetVerb
      let pairs : List (String × Json) ← match projected with
        | .object pairs => some pairs
        | _ => none
      let head ← tables.entityIdentityHeadFn entity
      let entityId ← (pairs.find? fun f => f.1 = head).bind fun f => resolvedIdComponent f.2
      let aggregateId ← (candidateIdentity pairs
          [tables.identityHeadFn aggregate, tables.referenceKeyFn aggregate]).or
        (if event.aggregate = aggregate ∧ ¬ event.id.isEmpty then some event.id else none)
      let declared := tables.commandAttributesFn targetVerb
      some (Json.object
        [("to", .object [("aggregate", .str aggregateId), ("entities", .array [.str entityId])]),
          ("with", .object (pairs.filter fun f => f.1 ∈ declared))])
    entityRouted.getD routed

/-- `trigger_args_with_row`; `extra` is a fan-out's row key, `row` its id and record. -/
def triggerArgsWithRow (tables : Tables) (policy : PolicyRule) (event : Event)
    (extra : Option (String × String)) (row : Option (String × Json)) (targetVerb : String) :
    Json :=
  let source := event.payload.pairs
  let source := match extra with
    | some (key, id) => (source.filter fun f => f.1 ≠ key) ++ [(key, .str id)]
    | none => source
  -- the receiver lifted from the event: a target that exists already, on the same aggregate
  let lifts : Bool := extra.isNone && !tables.commandCreatesFn targetVerb &&
    aggregateOf targetVerb == some event.aggregate
  if policy.withSpec.isEmpty then
    if lifts then
      .object [("to", .str event.id), ("with", .object (source.filter fun f => f.1 ≠ "to"))]
    else .object source
  else
    let source := offerEmitterHead tables source event
    let source := match row with
      | some (rowId, record) => offerRowFields source rowId record
      | none => source
    let source := offerEmitterId source event
    let routed :=
      splitRoutedArgs tables (.object (resolveWithSpec policy.withSpec source)) targetVerb
    if lifts && !(holds routed.pairs "to" && holds routed.pairs "with") then
      .object [("to", .str event.id), ("with", routed)]
    else routed

def triggerArgs (tables : Tables) (policy : PolicyRule) (event : Event)
    (extra : Option (String × String)) (targetVerb : String) : Json :=
  triggerArgsWithRow tables policy event extra none targetVerb

/-- `for_each_query_args`: the payload, with the emitter's id lent under its identity head
when the query reads that name. -/
def forEachQueryArgs (tables : Tables) (query : QueryDef) (event : Event) : Json :=
  let args := event.payload.pairs
  let reads := fun head => query.conditions.any fun c =>
    match c.value with
    | .arg name => name = head
    | _ => false
  match tables.identityHeadFn event.aggregate with
  | some head =>
      if !event.id.isEmpty && reads head && !holds args head then
        .object (args ++ [(head, .str event.id)])
      else .object args
  | none => .object args

/-- `qualify_saga_command_name`. -/
def qualifySagaCommandName (domain command : String) : String :=
  domain ++ "::" ++ Text.replaceFirst "::" "." command

/-- `build_dispatch_args`, for a dispatch or a compensation of the leg. -/
def buildDispatchArgs (tables : Tables) (pm : ProcessManagerDef) (command : String)
    (withs : List (String × WithValue)) (event : Event) (correlation : String) (memory : Json)
    (domain : String) : Json :=
  routeDispatchArgs tables
    (.object (withs.map fun (key, value) =>
      (key, pm.resolveWith value event correlation memory)))
    (qualifySagaCommandName domain command) event

end Hecks
