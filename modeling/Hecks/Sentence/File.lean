import Hecks.Sentence.Reader

/-! The blocks of an aggregate, of a policy, a process and a report, and the file that holds
them. -/
namespace Hecks.Sentence

/-- What follows the first underscore of a phrase's name. -/
def afterUnderscore (id : String) : Option Text :=
  match id.toList.dropWhile (· ≠ '_') with
  | [] => none
  | _ :: kind => some kind

namespace Parser

variable (p : Parser) (M : Meanings)

/-! ### Queries -/

/-- Reads a paging or access sentence into the options; `none` for any other. -/
def pagingOption (m : Matched) (options : QueryOptions) : ParseResult (Option QueryOptions) :=
  match afterUnderscore m.id with
  | none => .ok none
  | some kind =>
      if kind = "skip".toList then .ok (some { options with offset := some ⟨m.textOf "n", none⟩ })
      else if kind = "nulls".toList then
        let position := M.cases.lowercase (m.textOf "position")
        if position = "first".toList ∨ position = "last".toList then
          .ok (some { options with nullSemantics := some position })
        else
          .error (p.error m.line (m.colOf "position") "empty values come first or last")
      else if kind = "access".toList ∨ kind = "access_for".toList then
        .ok (some { options with
          authorization := some ⟨snake M.cases (m.textOf "policy"),
            if kind = "access_for".toList then some (snake M.cases (m.textOf "tenant"))
            else none⟩ })
      else if kind = "inspect".toList then
        .ok (some { options with inspection := some (m.textOf "mode") })
      else if kind = "cursor".toList then
        .ok (some { options with cursor := some (':' :: snake M.cases (m.textOf "field")) })
      else .ok none

def orderOf (m : Matched) : ParseResult OrderBy :=
  let direction := M.cases.lowercase (m.textOf "direction")
  if direction = "ascending".toList ∨ direction = "asc".toList then
    .ok ⟨m.textOf "path", "asc", none⟩
  else if direction = "descending".toList ∨ direction = "desc".toList then
    .ok ⟨m.textOf "path", "desc", none⟩
  else
    .error (p.error m.line (m.colOf "direction")
      s!"'{String.ofList direction}' is not a direction; use ascending or descending")

structure QueryRead where
  query : Query
  takes : List (Attribute × TypeUse) := []
  whereLines : List Matched := []

def queryLine (read : QueryRead) (m : Matched) (rest : List Line) :
    ParseResult (QueryRead × List Line) :=
  if m.id = "query_takes" then do
    let (more, rest) ← p.attributeLines M m rest
    return ({ read with takes := read.takes ++ more }, rest)
  else flat (
    if (after "where_" m.id.toList).isSome then
      .ok { read with whereLines := read.whereLines ++ [m] }
    else if m.id = "order" then do
      let order ← p.orderOf M m
      return { read with query.orderBy := some order }
    else if m.id = "query_limit" then
      .ok { read with query.limit := some ⟨m.textOf "n", none⟩ }
    else do
      match ← p.pagingOption M m read.query.options with
      | some options => return { read with query.options := options }
      | none =>
          if m.id = "query_returns" then
            return { read with query.returns := some (camel M.cases (m.textOf "type")) }
          else if m.id = "query_returns_list" then
            let type := "list_of(".toList ++ camel M.cases (m.textOf "type") ++ [')']
            return { read with query.returns := some type }
          else throw (p.unmeant m)) rest

/-- The field a `Where` line checks, unless it is a path. -/
def whereCheck (m : Matched) : List FieldUse :=
  let named := snake M.cases (m.textOf "field")
  if named.contains '/' || named.contains '.' then []
  else [⟨named, m.line, m.colOf "field"⟩]

/-- Reads one `Query:` block into the query it describes, filing its arguments to be typed. -/
def query (header : Matched) (st : AggState) (lines : List Line) :
    ParseResult (AggState × List Line) := do
  let (read, rest) ← p.block .query true header.indent
    (takeStep (fun read text => { read with query.description := some text }) (p.queryLine M))
    { query := { name := camel M.cases (header.textOf "name") } } lines
  let wheres ← read.whereLines.mapM fun m => M.whereClause p m (read.takes.map (·.1.name))
  return ({ st with
    checks := st.checks ++ read.whereLines.flatMap (whereCheck M)
    queryArgs := st.queryArgs ++ [(st.agg.queries.length, read.takes)]
    agg.queries := st.agg.queries ++ [{ read.query with wheres }] }, rest)

/-! ### Lifecycles and commands -/

def lifecycleLine (st : AggState) (spec : LifecycleSpec) (m : Matched) (rest : List Line) :
    ParseResult (LifecycleSpec × List Line) :=
  flat (do
    if m.id = "marks" then
      return { spec with marks := spec.marks ++ [(m.textOf "mark", (m.capture "states").items)] }
    else if m.id = "transition" then
      p.sameOwner M m "owner" st
      return { spec with transitions := spec.transitions ++ [⟨m.line, m.colOf "command",
        camel M.cases (m.textOf "command"), m.textOf "from", m.textOf "to"⟩] }
    else throw (p.unmeant m)) rest

def lifecycle (header : Matched) (st : AggState) (lines : List Line) :
    ParseResult (AggState × List Line) :=
  if st.lifecycle.isSome then
    .error (p.error header.line header.baseCol "an aggregate has one lifecycle; this is a second")
  else do
    let (spec, rest) ← p.block .lifecycle false header.indent
      (takeStep undescribed (p.lifecycleLine M st))
      { field := snake M.cases (header.textOf "field"), default := header.textOf "state" } lines
    return ({ st with lifecycle := some spec }, rest)

/-- The roles so far and the words of the one being read, after another word. -/
def roleWord (m : Matched) (held : List Text × List Text) (word : Text) :
    ParseResult (List Text × List Text) :=
  if !sameWord word "or".toList then .ok (held.1, held.2 ++ [word])
  else if held.2.isEmpty then
    .error (p.error m.line (m.colOf "role") "an 'or' needs a role before it")
  else .ok (held.1 ++ [joinWith [' '] held.2], [])

/-- The roles a `Who:` line names: one, or any one of several. -/
def rolesOf (m : Matched) : ParseResult (List Text) := do
  let held ← (wordsOf (m.textOf "role")).foldlM (p.roleWord m) ([], [])
  if held.2.isEmpty then
    throw (p.error m.line (m.colOf "role") "an 'or' needs a role after it")
  let roles := held.1 ++ [joinWith [' '] held.2]
  if roles.dedup.length ≠ roles.length then
    throw (p.error m.line (m.colOf "role") "a role is named twice; name each once")
  return roles

def fromStates (states : List Text) : CommandFrom :=
  match states with
  | [state] => .single state
  | _ => .multiple states

/-- The command of the block being read, in its aggregate. -/
structure CommandRead where
  spec : CommandSpec
  st : AggState

/-- A sentence of a command that heads no block. -/
def commandSentence (read : CommandRead) (m : Matched) : ParseResult CommandRead := do
  let spec := read.spec
  if m.id = "goal" then return { read with spec := { spec with goal := some (m.textOf "goal") } }
  else if m.id = "role" then
    let roles ← p.rolesOf m
    let several := if 1 < roles.length then roles else spec.roles
    return { read with spec := { spec with role := roles.head?, roles := several } }
  else if m.id = "acts_on" then
    p.sameOwner M m "owner" read.st
    return { read with spec := { spec with references := some read.st.agg.name } }
  else if m.id = "arguments" then
    return { read with spec := { spec with args := spec.args ++ fieldUses M m "names" } }
  else if m.id = "from_states" then
    let states := fromStates (m.capture "states").items
    return { read with spec := { spec with source := some states } }
  else if m.id = "idempotent" then return { read with spec := { spec with idempotent := true } }
  else if m.id = "command_provenance" then
    let value ← p.literal M m "value"
    return { read with spec := { spec with provenance := some value } }
  else if m.id = "ensures" then
    let cond ← p.condition M m
    return { read with spec := { spec with ensures := spec.ensures ++ [given m cond] } }
  else if m.id = "announces" then
    return { read with spec := { spec with emits := spec.emits ++ [m.textOf "event"] } }
  else if m.id = "given" then
    let cond ← p.condition M m
    let st := { read.st with checks := read.st.checks ++ cond.field.toList }
    return ⟨{ spec with givens := spec.givens ++ [given m cond] }, st⟩
  else
    match ← M.changesOf p m with
    | some changes =>
        return { read with spec := { spec with changes := spec.changes ++ changes } }
    | none => throw (p.unmeant m)

def commandLine (read : CommandRead) (m : Matched) (rest : List Line) :
    ParseResult (CommandRead × List Line) :=
  if m.id = "takes" then do
    let (more, rest) ← p.attributeLines M m rest
    return ({ read with spec.takes := read.spec.takes ++ more }, rest)
  else flat (p.commandSentence M read m) rest

def command (header : Matched) (st : AggState) (lines : List Line) :
    ParseResult (AggState × List Line) := do
  let (read, rest) ← p.block .command false header.indent
    (takeStep undescribed (p.commandLine M))
    ⟨{ name := camel M.cases (header.textOf "name") }, st⟩ lines
  return ({ read.st with commands := read.st.commands ++ [read.spec] }, rest)

/-! ### Aggregates -/

def identity (m : Matched) (st : AggState) : ParseResult AggState := do
  p.sameOwner M m "owner" st
  if st.identity.isSome then
    throw (p.error m.line m.baseCol
      "an aggregate is identified by one thing; this says it twice")
  return { st with identity := some ⟨m.line, m.colOf "fields",
    (m.capture "fields").items.map (snake M.cases)⟩ }

/-- An aggregate's own blocks so far, and the headers of its entities with what follows each. -/
structure AggRead where
  st : AggState
  entities : List (Matched × List Line) := []

/-- A block of the aggregate read into its state. -/
def filed (read : AggRead) (said : ParseResult (AggState × List Line)) :
    ParseResult (AggRead × List Line) := do
  let (st, rest) ← said
  return ({ read with st }, rest)

def ruleLine (m : Matched) (st : AggState) : ParseResult AggState := do
  let cond ← p.condition M m
  let checked := { st with checks := st.checks ++ cond.field.toList }
  if m.id = "precondition" then
    return { checked with agg.preconditions := st.agg.preconditions ++ [given m cond] }
  else
    return { checked with agg.invariants := st.agg.invariants ++ [given m cond] }

def aggregateLine (read : AggRead) (m : Matched) (rest : List Line) :
    ParseResult (AggRead × List Line) :=
  if m.id = "identity" then filed read (flat (p.identity M m read.st) rest)
  else if m.id = "has" then filed read (p.has M m read.st rest)
  else if m.id = "value_object" ∨ m.id = "value_object_with" then
    filed read (p.valueObject M m read.st rest)
  else if m.id = "closed_set" ∨ m.id = "closed_set_named" then
    filed read (p.closedSet M m read.st rest)
  else if m.id = "value_fields" then filed read (p.valueFields M m read.st rest)
  else if m.id = "lifecycle" then filed read (p.lifecycle M m read.st rest)
  else if m.id = "command" then filed read (p.command M m read.st rest)
  else if m.id = "query" then filed read (p.query M m read.st rest)
  else if m.id = "aggregate_rule" ∨ m.id = "precondition" then
    filed read (flat (p.ruleLine M m read.st) rest)
  else if m.id = "aggregate_provenance" then
    filed read (flat (do
      let value ← p.literal M m "value"
      return { read.st with agg.provenance := some value }) rest)
  else if m.id = "projected" then
    .ok ({ read with st.agg.projectedFields := read.st.agg.projectedFields ++
      [⟨snake M.cases (m.textOf "name"), snake M.cases (m.textOf "reference"),
        snake M.cases (m.textOf "remote")⟩] }, rest)
  else if m.id = "entity" then
    -- read after the aggregate's own blocks
    .ok ({ read with entities := read.entities ++ [(m, rest)] },
      Layout.skip Line.indent m.indent rest)
  else .error (p.unmeant m)

/-- The entity a block read as an aggregate stands for. -/
def intoEntity (inner : Aggregate) : Except String Entity :=
  if inner.valueObjects.isEmpty then
    .ok (.mk inner.name inner.description inner.identifiedBy inner.attributes inner.commands
      inner.queries inner.entities inner.preconditions inner.invariants inner.lifecycle)
  else
    .error "an entity holds no value objects of its own; declare them in the aggregate"

/-- The entity under one of these headers, with these value objects in reach. -/
def readEntity
    (nested : List ValueObject → Matched → List Line → ParseResult (Aggregate × List Line))
    (reach : List ValueObject) (place : Matched × List Line) : ParseResult Entity := do
  let (inner, _) ← nested reach place.1 place.2
  match intoEntity inner with
  | .ok entity => return entity
  | .error refused => throw (p.error place.1.line place.1.baseCol refused)

/-- An aggregate's block, its entities read by `nested`. -/
def aggregateWith (types : List Text)
    (nested : List ValueObject → Matched → List Line → ParseResult (Aggregate × List Line))
    (outer : List ValueObject) (header : Matched) (lines : List Line) :
    ParseResult (Aggregate × List Line) := do
  let (read, rest) ← p.block .aggregate true header.indent
    (takeStep (fun read text => { read with st.agg.description := some text })
      (p.aggregateLine M))
    { st := { agg := { name := camel M.cases (header.textOf "name") } } } lines
  let entities ← read.entities.mapM (p.readEntity nested (outer ++ read.st.agg.valueObjects))
  let aggregate ← M.finish p outer types
    { read.st with agg.entities := entities } header
  return (aggregate, rest)

/-- An aggregate's block. An entity's lines are fewer than its aggregate's, so entities are nested
no deeper than there are lines. -/
def aggregate (types : List Text) : (depth : Nat) → List ValueObject → Matched → List Line →
    ParseResult (Aggregate × List Line)
  | 0 => p.aggregateWith M types fun _ m _ => .error (p.unmeant m)
  | depth + 1 => p.aggregateWith M types (aggregate types depth)

/-! ### Policies, processes and reports -/

/-- `split_once(" from the ")`, of no more characters than `fuel`. -/
def splitFrom : (fuel : Nat) → (key text : Text) → Option (Text × Text)
  | 0, _, _ => none
  | _ + 1, _, [] => none
  | fuel + 1, key, c :: cs =>
      match after " from the " (c :: cs) with
      | some rest => some (key, rest)
      | none => splitFrom fuel (key ++ [c]) cs

/-- The fields a `runs with` line passes. -/
def passedFields (m : Matched) : List PassedField :=
  (m.capture "fields").items.map fun item =>
    let pair := (splitFrom item.length [] item).getD (item, item)
    (⟨snake M.cases pair.1, m.line, m.colOf "fields"⟩, ':' :: snake M.cases pair.2)

/-- The field a `With` line passes. -/
def withLine (m : Matched) : ParseResult PassedField := do
  let key : FieldUse := ⟨snake M.cases (m.textOf "key"), m.line, m.colOf "key"⟩
  if m.id = "with_same" then return (key, ':' :: key.name)
  else if m.id = "with_from" then return (key, ':' :: snake M.cases (m.textOf "from"))
  else
    let value ← p.literal M m "value"
    return (key, M.renderValue value)

def qualified (owner name : Text) : Text := owner ++ '.' :: name

def eventIds : List String := ["whenever", "whenever_by", "whenever_outside"]

def reactionIds : List String := ["runs", "runs_with", "asked", "asked_with", "policy_tell"]

def reactionUse (m : Matched) : ReactionUse :=
  let fields := if m.id = "runs_with" ∨ m.id = "asked_with" then passedFields M m else []
  let name := fun slot => camel M.cases (m.textOf slot)
  if m.id = "policy_tell" then
    ⟨.tell (qualified (name "owner") (name "command")), fields, m.line, m.colOf "command"⟩
  else if m.id = "runs" ∨ m.id = "runs_with" then
    ⟨.run (name "command"), fields, m.line, m.colOf "command"⟩
  else ⟨.ask (snake M.cases (m.textOf "need")), fields, m.line, m.colOf "need"⟩

def policyLine (spec : PolicySpec) (m : Matched) (rest : List Line) :
    ParseResult (PolicySpec × List Line) :=
  flat (do
    if m.id = "policy_undelivered" then return { spec with undelivered := true }
    else if m.id = "policy_across" then
      return { spec with across := some (camel M.cases (m.textOf "domain")) }
    else if m.id = "only_when" then
      let cond ← p.condition M m
      return { spec with onlyWhen := some cond.canonical }
    else if m.id = "with_same" ∨ m.id = "with_from" ∨ m.id = "with_as" then
      let passed ← p.withLine M m
      return { spec with withLines := spec.withLines ++ [passed] }
    else if m.id = "for_each" then
      return { spec with forEach := some (qualified (camel M.cases (m.textOf "owner"))
        (camel M.cases (m.textOf "query"))) }
    else if eventIds.contains m.id then
      if spec.event.isSome then
        throw (p.error m.line m.baseCol
          "a policy waits for one event; this is a second `Whenever`")
      return { spec with
        outside := m.id = "whenever_outside"
        event := some ⟨m.textOf "event",
          if m.id = "whenever_by" then some (m.textOf "owner") else none, m.line,
          m.colOf "event"⟩ }
    else if reactionIds.contains m.id then
      if spec.reaction.isSome then
        throw (p.error m.line m.baseCol "a policy does one thing; this is a second `Then`")
      return { spec with reaction := some (reactionUse M m) }
    else throw (p.unmeant m)) rest

/-- Reads one `Policy:` block: the event it waits for and what it does then. -/
def policy (header : Matched) (lines : List Line) : ParseResult (PolicySpec × List Line) :=
  p.block .policy false header.indent (takeStep undescribed (p.policyLine M))
    { name := camel M.cases (header.textOf "name"), line := header.line,
      col := header.baseCol } lines

def undoing : DispatchSpec → DispatchSpec → DispatchSpec
  | .mk command fields _, undo => .mk command fields (some undo)

def handlerLine (handler : ProcessManagerHandler) (m : Matched) (rest : List Line) :
    ParseResult (ProcessManagerHandler × List Line) :=
  flat (do
    let fields ← if m.id = "process_tell_with" ∨ m.id = "process_undo_with" then M.withPairs p m
      else pure []
    let command := qualified (camel M.cases (m.textOf "owner")) (camel M.cases (m.textOf "command"))
    let spec := DispatchSpec.mk command fields none
    if m.id = "process_tell" ∨ m.id = "process_tell_with" then
      return { handler with dispatches := handler.dispatches ++ [spec] }
    else if m.id = "process_undo" ∨ m.id = "process_undo_with" then
      match handler.dispatches.getLast? with
      | none =>
          throw (p.error m.line m.baseCol
            "`If that is refused` follows a `Then … is told to …` line")
      | some last =>
          return { handler with
            dispatches := handler.dispatches.dropLast ++ [undoing last spec] }
    else throw (p.unmeant m)) rest

/-- One step: the event and states it answers, and the commands it tells aggregates to run. -/
def handler (header : Matched) (lines : List Line) :
    ParseResult (ProcessManagerHandler × List Line) :=
  p.block .handler false header.indent (takeStep undescribed (p.handlerLine M))
    { eventType := if header.id = "process_when" then header.textOf "event" else "refused".toList
      fromState := header.textOf "from"
      toState := header.textOf "to" } lines

def processLine (pm : ProcessManager) (m : Matched) (rest : List Line) :
    ParseResult (ProcessManager × List Line) :=
  if m.id = "process_when" ∨ m.id = "process_when_refused" then do
    let (handler, rest) ← p.handler M m rest
    match pm.handlers.find? fun h =>
        h.eventType = handler.eventType ∧ h.fromState = handler.fromState with
    | some earlier =>
        throw (p.error m.line m.baseCol
          (s!"{String.ofList (spoken M.cases pm.name)} answers " ++
            s!"{String.ofList handler.eventType} twice from {String.ofList handler.fromState} " ++
            s!"(to {String.ofList earlier.toState} and to {String.ofList handler.toState}); " ++
            "a step is chosen by the event and the state, so only one may answer"))
    | none => return ({ pm with handlers := pm.handlers ++ [handler] }, rest)
  else flat (
    if m.id = "process_matched" then .ok { pm with correlatesBy := m.textOf "path" }
    else if m.id = "process_starts" then .ok { pm with startsOn := some (m.textOf "event") }
    else if m.id = "process_ends" then
      .ok { pm with
        endsOn := pm.endsOn.or (some (m.textOf "event"))
        endings := pm.endings ++ [m.textOf "event"] }
    else .error (p.unmeant m)) rest

/-- The states the steps name, each once. -/
def derivedStates (handlers : List ProcessManagerHandler) : List Text :=
  (handlers.flatMap fun h => [h.fromState, h.toState]).foldl (fun states state =>
    if state.isEmpty || states.contains state then states else states ++ [state]) []

/-- Reads one `Process:` block into the process manager it describes. -/
def process (header : Matched) (lines : List Line) : ParseResult (ProcessManager × List Line) := do
  let (pm, rest) ← p.block .process false header.indent (takeStep undescribed (p.processLine M))
    { name := camel M.cases (header.textOf "name") } lines
  if pm.correlatesBy.isEmpty then
    throw (p.error header.line header.baseCol
      ("a process says what it is matched up by, like " ++
        "`It is matched up by reference.value`"))
  return ({ pm with states := derivedStates pm.handlers }, rest)

structure ReportRead where
  model : ReadModel
  includes : List (Text × Option Text) := []

def reportLine (read : ReportRead) (m : Matched) (rest : List Line) :
    ParseResult (ReportRead × List Line) :=
  let field := fun slot => snake M.cases (m.textOf slot)
  flat (
    if m.id = "includes" ∨ m.id = "includes_as" then
      .ok { read with includes := read.includes ++ [(camel M.cases (m.textOf "name"),
        if m.id = "includes_as" then some (field "as") else none)] }
    else if m.id = "about" ∨ m.id = "about_as" then
      let target := camel M.cases (m.textOf "target")
      .ok { read with
        model.referenceName := some (if m.id = "about_as" then field "as"
          else M.namingSnake target)
        model.referenceTarget := some target }
    else if m.id = "groups" then
      .ok { read with model.groupBy := (m.capture "fields").items.map (snake M.cases) }
    else if m.id = "counts" then .ok { read with model.count := true }
    else if m.id = "sums" then .ok { read with model.sumField := some (field "field") }
    else if m.id = "averages" then .ok { read with model.avgField := some (field "field") }
    else if m.id = "lowest" then .ok { read with model.minField := some (field "field") }
    else if m.id = "highest" then .ok { read with model.maxField := some (field "field") }
    else if m.id = "median" then .ok { read with model.medianField := some (field "field") }
    else if m.id = "percentile" then
      .ok { read with
        model.percentileField := some (field "field")
        model.percentileAt := some (m.textOf "at") }
    else if m.id = "any_holds" then .ok { read with model.anyField := some (field "field") }
    else if m.id = "all_hold" then .ok { read with model.allField := some (field "field") }
    else if m.id = "report_where" then do
      let cond ← p.condition M m
      match cond.field, cond.value with
      | some held, some value =>
          let wheres := M.whereClauses [(held.name, '"' :: value ++ ['"'])]
          return { read with model.wheres := read.model.wheres ++ wheres }
      | _, _ =>
          throw (p.error m.line (m.colOf "condition")
            "a Where compares a field with a value, like `Where the status is paid`")
    else if m.id = "report_order" then do
      let order ← p.orderOf M m
      return { read with model.orderBy := some order }
    else if m.id = "report_limit" then
      .ok { read with model.limit := some ⟨m.textOf "n", none⟩ }
    else do
      match ← p.pagingOption M m read.model.options with
      | some options => return { read with model.options := options }
      | none => throw (p.unmeant m)) rest

/-- The heads of a report after one more include. -/
def aggregateHead (name : Text) (referenceTarget : Option Text) (heads : List AggregateHead)
    (include' : Text × Option Text) : Except String (List AggregateHead) :=
  let many := some include'.1 ≠ referenceTarget
  let output := include'.2.getD
    (if many then M.plural (M.namingSnake include'.1) else M.namingSnake include'.1)
  if heads.any (·.asName = output) then
    .error s!"{String.ofList name} already projects {String.ofList output}"
  else .ok (heads ++ [⟨include'.1, output, many⟩])

/-- Reads one `Report:` block into the read model it describes. -/
def report (header : Matched) (lines : List Line) : ParseResult (ReadModel × List Line) := do
  let name := camel M.cases (header.textOf "name")
  let (read, rest) ← p.block .report true header.indent
    (takeStep (fun read text => { read with model.description := some text }) (p.reportLine M))
    { model := { name, queryName := M.namingSnake name } } lines
  if read.includes.isEmpty && read.model.referenceTarget.isNone then
    throw (p.error header.line header.baseCol
      (s!"{String.ofList (spoken M.cases name)} needs something to report on: add " ++
        "`It includes a <thing>` or `It is about a <thing>`"))
  match read.includes.foldlM (aggregateHead M name read.model.referenceTarget) [] with
  | .error refused => throw (p.error header.line header.baseCol refused)
  | .ok aggregateHeads => return ({ read.model with aggregateHeads }, rest)

/-! ### Files -/

/-- The names of the value objects and entities any aggregate of the file declares. -/
def declaredTypes (lines : List Line) : List Text :=
  lines.filterMap fun line =>
    match matchText p.grammar .aggregate line.text 1 with
    | .error _ => none
    | .ok (phrase, found) =>
        if ["value_object", "value_object_with", "closed_set", "value_fields",
            "entity"].contains phrase.id then
          some (camel M.cases (captureOf found "name").value)
        else none

def provisionLine (capability : Text) (held : List Provision) (m : Matched) (rest : List Line) :
    ParseResult (List Provision × List Line) :=
  .ok (held ++ [⟨capability, m.textOf "key", m.textOf "verb"⟩], rest)

def visionLine (declaration : Bluebook) (m : Matched) (rest : List Line) :
    ParseResult (Bluebook × List Line) :=
  if m.id = "provides" then do
    let (rows, rest) ← p.block .provides false m.indent
      (takeStep undescribed (provisionLine (m.textOf "capability"))) [] rest
    return ({ declaration with provides := declaration.provides ++ rows }, rest)
  else flat (
    if m.id = "classification" then
      let kind := M.cases.lowercase (m.textOf "kind")
      if ["core".toList, "supporting".toList, "generic".toList].contains kind then
        .ok { declaration with classification := some kind }
      else
        .error (p.error m.line (m.colOf "kind")
          (s!"'{String.ofList kind}' is not a kind of domain; it is core, supporting or " ++
            "generic"))
    else if m.id = "namespace" then
      .ok { declaration with «namespace» := some (m.textOf "name") }
    else if m.id = "version" then
      .ok { declaration with version := some (m.textOf "version") }
    else if m.id = "attaches" then
      .ok { declaration with attachesTo := (m.capture "contexts").items.map (camel M.cases) }
    else .error (p.unmeant m)) rest

structure FileRead where
  declaration : Bluebook
  policies : List PolicySpec := []

def domainLine (types : List Text) (read : FileRead) (m : Matched) (rest : List Line) :
    ParseResult (FileRead × List Line) :=
  if m.id = "aggregate" then do
    let (held, rest) ← p.aggregate M types rest.length [] m rest
    return ({ read with declaration.aggregates := read.declaration.aggregates ++ [held] }, rest)
  else if m.id = "policy" then do
    let (held, rest) ← p.policy M m rest
    return ({ read with policies := read.policies ++ [held] }, rest)
  else if m.id = "process" then do
    let (held, rest) ← p.process M m rest
    return ({ read with
      declaration.processManagers := read.declaration.processManagers ++ [held] }, rest)
  else if m.id = "report" then do
    let (held, rest) ← p.report M m rest
    return ({ read with declaration.readModels := read.declaration.readModels ++ [held] }, rest)
  else .error (p.unmeant m)

/-- The block under the `Domain:` line. -/
def visionBlock (header : Matched) (lines : List Line) : ParseResult (Bluebook × List Line) :=
  p.block .vision true header.indent
    (takeStep (fun held text => { held with vision := some text }) (p.visionLine M))
    { name := camel M.cases (header.textOf "name") } lines

/-- What follows at the top level, as flat as the `Domain:` line. -/
def domainBlock (types : List Text) (declaration : Bluebook) (lines : List Line) :
    ParseResult (FileRead × List Line) :=
  p.readBlock .domain false (takeStep undescribed (p.domainLine M types)) lines.length
    ⟨none, some 0, false⟩ ⟨declaration, []⟩ lines

/-- Reads the whole file: one `Domain:` and the aggregates under it. -/
def readFile (lines : List Line) : ParseResult Bluebook := do
  match ← p.step .top .file false lines with
  | some (.phrase header, _, rest) =>
      let (declaration, rest) ← p.visionBlock M header rest
      let (read, rest) ← p.domainBlock M (p.declaredTypes M lines) declaration rest
      let policies ← M.policiesOf p read.declaration read.policies
      match rest with
      | [] => return { read.declaration with policies }
      | line :: _ =>
          throw (p.error line.number 1
            ("a file holds one domain; this line is outside it. Start another file for " ++
              "another domain"))
  | _ => throw (p.error 1 1 "this file is empty; it starts with `Domain: <name>`")

end Parser

end Hecks.Sentence
