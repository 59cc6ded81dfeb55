import Mathlib
import Hecks.Lib.Act
import Hecks.Needs
import Hecks.Orchestrate.Tables

/-! Reactions to dispatched events: `orchestrate::run`. A dispatch's events trigger policies and
saga legs whose own dispatches re-enter `run`. The recursion is open (every function takes the
`run` it re-enters as `self`) and tied by fuel at the end of the file; a run that is out of fuel
keeps the state it reached.

The state carries one field the source does not have: `journal`, the history of what the run
did, in order. Every function appends to it and none reads it. -/
namespace Hecks

/-- A saga instance's name: the process manager and the correlation value. -/
abbrev SagaKey := String × String

/-- One process-manager instance's leg of a cascade. -/
structure SagaLeg where
  pm : ProcessManagerDef
  correlation : String
  domainName : String

def SagaLeg.key (leg : SagaLeg) : SagaKey := (leg.pm.name, leg.correlation)

/-- The correlation every event of the leg's dispatches is stamped with. -/
def SagaLeg.stamp (leg : SagaLeg) : List (String × String) :=
  [(leg.pm.correlationHead, leg.correlation)]

/-- What asks for a dispatch inside a cascade. -/
inductive Cause where
  | policy (rule : PolicyRule) (event : Event)
  | leg (leg : SagaLeg) (spec : DispatchSpec)
  | compensation (leg : SagaLeg) (entry : CompletedCompensation)

/-- One line of the history of a run. -/
inductive Mark where
  /-- A reaction, leg dispatch or compensation came up at `depth`, and was withheld or not. -/
  | attempted (depth : Nat) (cause : Cause) (withheld : Bool)
  /-- The dispatch function was called at `depth` and answered with these stamped events. -/
  | called (depth : Nat) (verb : String) (args : Json) (answer : Except Refusal (List Event))
  /-- The policies of an event are about to run, then its sagas, then it is settled. -/
  | policiesOf (event : Event)
  | sagasOf (event : Event)
  | settled (event : Event)
  | began (pm : ProcessManagerDef) (event : Event) (correlation : String)
  | moved (pm : ProcessManagerDef) (event : Event) (correlation : String) (trigger : String)
      (handler : Handler)
  | ended (pm : ProcessManagerDef) (event : Event) (correlation : String)
  /-- A compensation was recorded ahead of its forward dispatch, or taken back after it. -/
  | pushed (key : SagaKey) (entry : CompletedCompensation)
  | unrecorded (key : SagaKey)
  /-- The drain of a ledger started, fired its newest entry, logged that entry's refusal, or
  found nothing left. -/
  | draining (key : SagaKey)
  | fired (key : SagaKey) (entry : CompletedCompensation)
  | failed (key : SagaKey) (entry : CompletedCompensation)
  | drained (key : SagaKey)

/-- What one cascade threads through every reaction it triggers. -/
structure Cascade (S H : Type) where
  store : S
  host : H
  sagas : AList fun _ : SagaKey => SagaInstance
  allEvents : List Event
  mutations : List MutationRecord
  crossDomain : List PendingCrossDomainReaction
  reactionLog : List Json
  sagaLog : List Json
  journal : List Mark

/-- What a cascade runs against: the tables, the generated dispatch, the declared needs and
the host behind them, the evaluator and the query runner, the one moment of the whole cascade,
and the characters `{:?}` escapes. -/
structure Env (S H : Type) where
  tables : Tables
  dispatchFn : S → String → Json → Option String → Option String → List MutationRecord →
    Except Refusal (List Event) × S × List MutationRecord
  needs : Needs
  host : Host H
  interpret : Interpreter
  runQuery : S → QueryDef → Json → Except Refusal (List (String × Json))
  occurredAt : Option String
  escapes : Char → Bool

/-- A step of a cascade. -/
abbrev Job (S H : Type) := Act (Cascade S H)

/-- `Cascade::run`: verb, arguments, caller role and actor, the stamp, the depth. -/
abbrev RunFn (S H : Type) :=
  String → Json → Option String → Option String → Option (List (String × String)) → Nat →
    Job S H (Except Refusal Unit)

variable {S H : Type}

namespace Cascade

def noted (c : Cascade S H) (m : Mark) : Cascade S H := { c with journal := c.journal ++ [m] }

def note (m : Mark) : Job S H Unit := Act.modify fun c => c.noted m

def logReaction (record : Json) : Job S H Unit :=
  Act.modify fun c => { c with reactionLog := c.reactionLog ++ [record] }

def logSaga (record : Json) : Job S H Unit :=
  Act.modify fun c => { c with sagaLog := c.sagaLog ++ [record] }

/-- `sagas.insert(key, instance)`, with the line of the history that says why. -/
def withSaga (c : Cascade S H) (key : SagaKey) (inst : SagaInstance) (m : Mark) : Cascade S H :=
  { c with sagas := c.sagas.insert key inst }.noted m

/-- `sagas.get_mut(&key)`, nothing when the instance is gone. -/
def updateSaga (key : SagaKey) (f : SagaInstance → SagaInstance) (m : Mark) : Job S H Unit :=
  Act.modify fun c =>
    match c.sagas.lookup key with
    | some inst => c.withSaga key (f inst) m
    | none => c

/-- `completed_compensations.pop()` of an instance that may be gone. -/
def popLedger (key : SagaKey) : Job S H (Option CompletedCompensation) := fun c =>
  match c.sagas.lookup key with
  | some inst =>
      match inst.completedCompensations.getLast? with
      | some entry =>
          (some (some entry),
            c.withSaga key
              { inst with completedCompensations := inst.completedCompensations.dropLast }
              (.fired key entry))
      | none => (some none, c)
  | none => (some none, c)

end Cascade

open Cascade

/-- `HashMap::extend` of an event's correlation by a stamp. -/
def extendCorrelation (held stamp : List (String × String)) : List (String × String) :=
  stamp.foldl (fun held e => held.filter (fun f => f.1 ≠ e.1) ++ [e]) held

/-- An event as `run` stamps it: the leg's correlation, then the cascade's moment. -/
def stampEvent (stamp : Option (List (String × String))) (occurredAt : Option String)
    (event : Event) : Event :=
  let event := match stamp with
    | some stamp =>
        { event with correlation := some (extendCorrelation (event.correlation.getD []) stamp) }
    | none => event
  match occurredAt with
  | some ts => { event with occurredAt := some ts }
  | none => event

def depthReached : String := "reaction depth " ++ toString maxReactionDepth ++ " reached"

/-- The fields every record of a policy's outcome starts with. -/
def policyRecord (policy : PolicyRule) (event : Event) (extra : List (String × Json)) : Json :=
  .object ([("policy", .str policy.policyName), ("on", .str event.name),
    ("trigger", .str policy.targetVerb)] ++ extra)

/-- The fields every record of a saga's begin, advance or end starts with. -/
def sagaRecord (pm : ProcessManagerDef) (trigger correlation : String)
    (extra : List (String × Json)) : Json :=
  .object ([("process_manager", .str pm.name), ("on", .str trigger),
    ("instance", .str correlation)] ++ extra)

/-- The fields every record of a leg's dispatch or compensation starts with. -/
def dispatchRecord (leg : SagaLeg) (command : String) (extra : List (String × Json)) : Json :=
  .object ([("process_manager", .str leg.pm.name), ("instance", .str leg.correlation),
    ("dispatch", .str command)] ++ extra)

def undelivered (reason : String) : List (String × Json) :=
  [("delivered", .bool false), ("reason", .str reason)]

def compensationFailed (reason : String) : List (String × Json) :=
  undelivered reason ++ [("compensation", .bool true), ("compensation_failed", .bool true)]

section Run

variable (env : Env S H)

/-- `where_holds`: an evaluation fault counts as no match. -/
def whereHolds (whereExpr : Option Expr) (event : Event) : Bool :=
  match whereExpr with
  | none => true
  | some expr =>
      match env.interpret expr ⟨event.payload.toFielded, .noFields⟩ with
      | .ok v => v.truthy
      | .error _ => false

/-- The three tests both kinds of policy make of an event. -/
def matchesEvent (eventName : String) (qualifier : Option String) (whereExpr : Option Expr)
    (event : Event) : Bool :=
  eventName == event.name && qualifier.all (· == Text.lastSegment "::" event.aggregate) &&
    whereHolds env whereExpr event

/-- The first half of `run`: the needs are answered, the dispatch called, its events stamped and
the whole batch logged before any reaction runs. -/
def callDispatch (verb : String) (args : Json) (callerRole callerActorId : Option String)
    (stamp : Option (List (String × String))) (depth : Nat) :
    Job S H (Except Refusal (List Event)) := fun c =>
  let (enriched, host) := env.needs.enrich env.host verb args env.occurredAt c.host
  let args := enriched.getD args
  let (answer, store, mutations) :=
    env.dispatchFn c.store verb args callerRole callerActorId c.mutations
  let answer := answer.map fun events => events.map (stampEvent stamp env.occurredAt)
  let allEvents := c.allEvents ++ answer.toOption.getD []
  (some answer,
    { c with host, store, mutations, allEvents }.noted (.called depth verb args answer))

variable (self : RunFn S H)

def outcomeRecord (record : List (String × Json) → Json) : Except Refusal Unit → Json
  | .ok () => record [("delivered", .bool true)]
  | .error refusal => record (undelivered refusal.message)

/-- One row of a fan-out. -/
def reactRow (policy : PolicyRule) (event : Event) (depth : Nat) (row : String × Json) :
    Job S H Unit := do
  let extra := policy.forEachKey.map fun key => (key, row.1)
  let args := triggerArgsWithRow env.tables policy event extra (some row) policy.targetVerb
  let outcome ← self policy.targetVerb args none none none (reactionDepth policy.root depth)
  logReaction
    (outcomeRecord (fun fields => policyRecord policy event (("for_row", .str row.1) :: fields))
      outcome)

def reactPolicy (event : Event) (depth : Nat) (policy : PolicyRule) : Job S H Unit :=
  if !matchesEvent env policy.eventName policy.eventQualifier policy.whereExpr event then pure ()
  else if maxReactionDepth ≤ depth ∧ ¬ policy.root then do
    logReaction (policyRecord policy event (undelivered depthReached))
    note (.attempted depth (.policy policy event) true)
  else do
    note (.attempted depth (.policy policy event) false)
    match policy.forEach with
    | some query =>
        match env.tables.queries.find? fun q => q.verb = query with
        | none => logReaction (policyRecord policy event (undelivered ("no query " ++ query)))
        | some query => do
            let store ← Act.read Cascade.store
            match env.runQuery store query (forEachQueryArgs env.tables query event) with
            | .error refusal =>
                logReaction (policyRecord policy event (undelivered refusal.message))
            | .ok rows => Act.forEach rows (reactRow env self policy event depth)
    | none => do
        let args := triggerArgs env.tables policy event none policy.targetVerb
        let outcome ← self policy.targetVerb args none none none (reactionDepth policy.root depth)
        logReaction (outcomeRecord (policyRecord policy event) outcome)

/-- A cross-domain match is recorded for the host, never dispatched here. -/
def crossDomainPolicy (event : Event) (policy : CrossDomainPolicyRule) : Job S H Unit :=
  if !matchesEvent env policy.eventName policy.eventQualifier policy.whereExpr event then pure ()
  else
    Act.modify fun c =>
      { c with crossDomain := c.crossDomain ++
          [{ policyName := policy.policyName
             eventName := event.name
             targetDomain := policy.targetDomain
             targetVerb := policy.targetVerb
             payload := crossDomainPayload env.tables policy event }] }

def reactPolicies (event : Event) (depth : Nat) : Job S H Unit := do
  Act.forEach env.tables.policies (reactPolicy env self event depth)
  Act.forEach env.tables.crossDomainPolicies (crossDomainPolicy env event)

def beginOne (event : Event) (pm : ProcessManagerDef) : Job S H Unit :=
  if event.name ≠ pm.startsOn then pure ()
  else
    match pm.correlationOf event env.tables.referenceKeyFn with
    | none =>
        logSaga (.object [("process_manager", .str pm.name), ("on", .str event.name),
          ("born", .bool false),
          ("reason", .str ("no " ++ pm.correlatesBy ++ " in the payload"))])
    | some correlation => do
        let sagas ← Act.read Cascade.sagas
        if (sagas.lookup (pm.name, correlation)).isSome then pure ()
        else do
          Act.modify fun c => c.withSaga (pm.name, correlation)
            { state := pm.initialState, memory := event.payload, completedCompensations := [] }
            (.began pm event correlation)
          logSaga (sagaRecord pm event.name correlation
            [("born", .bool true), ("state", .str pm.initialState)])

def beginSaga (event : Event) : Job S H Unit :=
  Act.forEach env.tables.processManagers (beginOne env event)

/-- The compensation of a dispatch recorded ahead of it: whether there was one to record and an
instance to record it on. -/
def recordCompensation (leg : SagaLeg) (spec : DispatchSpec) (compensationArgs : Option Json) :
    Job S H Bool := fun c =>
  match spec.compensates, compensationArgs, c.sagas.lookup leg.key with
  | some compensates, some args, some inst =>
      let entry : CompletedCompensation := ⟨compensates.commandName, args⟩
      (some true, c.withSaga leg.key
        { inst with completedCompensations := inst.completedCompensations ++ [entry] }
        (.pushed leg.key entry))
  | _, _, _ => (some false, c)

/-- The pop of a refused dispatch: its own recorded compensation was never earned. -/
def unrecordCompensation (leg : SagaLeg) (recorded : Bool) : Job S H Unit :=
  if recorded then
    updateSaga leg.key
      (fun inst => { inst with completedCompensations := inst.completedCompensations.dropLast })
      (.unrecorded leg.key)
  else pure ()

/-- What follows a leg's dispatch. -/
def settleDelivery (leg : SagaLeg) (spec : DispatchSpec) (recorded : Bool) :
    Except Refusal Unit → Job S H (Option Bool)
  | .ok () => do
      logSaga (dispatchRecord leg spec.commandName [("delivered", .bool true)])
      pure (some true)
  | .error refusal => do
      unrecordCompensation leg recorded
      logSaga (dispatchRecord leg spec.commandName (undelivered refusal.message))
      pure (some false)

/-- `deliver_saga_dispatch`: `none` when the depth ceiling stopped the leg before it tried. -/
def deliverSagaDispatch (leg : SagaLeg) (spec : DispatchSpec) (args : Json) (depth : Nat)
    (compensationArgs : Option Json) : Job S H (Option Bool) :=
  if maxReactionDepth ≤ depth then do
    logSaga (dispatchRecord leg spec.commandName (undelivered depthReached))
    note (.attempted depth (.leg leg spec) true)
    pure none
  else do
    note (.attempted depth (.leg leg spec) false)
    let recorded ← recordCompensation leg spec compensationArgs
    let qualified := qualifySagaCommandName leg.domainName spec.commandName
    let outcome ← self qualified args none none (some leg.stamp) (depth + 1)
    settleDelivery leg spec recorded outcome

/-- `deliver_derived_compensation`: fires one ledger entry, whose arguments are resolved. -/
def deliverDerivedCompensation (leg : SagaLeg) (entry : CompletedCompensation) (depth : Nat) :
    Job S H Unit :=
  if maxReactionDepth ≤ depth then do
    logSaga (dispatchRecord leg entry.commandName (compensationFailed depthReached))
    note (.attempted depth (.compensation leg entry) true)
  else do
    note (.attempted depth (.compensation leg entry) false)
    let qualified := qualifySagaCommandName leg.domainName entry.commandName
    match ← self qualified entry.args none none (some leg.stamp) (depth + 1) with
    | .ok () =>
        logSaga (dispatchRecord leg entry.commandName
          [("delivered", .bool true), ("compensation", .bool true)])
    | .error refusal =>
        logSaga (dispatchRecord leg entry.commandName (compensationFailed refusal.message))
        note (.failed leg.key entry)

/-- The drain loop of `compensate`. The ledger is re-read every round. -/
def drainLedger (leg : SagaLeg) (depth : Nat) : Nat → Job S H Unit
  | 0 => Act.stop
  | fuel + 1 => do
      match ← popLedger leg.key with
      | none => note (.drained leg.key)
      | some entry =>
          deliverDerivedCompensation self leg entry depth
          drainLedger leg depth fuel

/-- The whole drain, from the line that says it started. -/
def drain (fuel : Nat) (leg : SagaLeg) (depth : Nat) : Job S H Unit := do
  note (.draining leg.key)
  drainLedger self leg depth fuel

/-- One dispatch of a leg, its arguments and its compensation's resolved first. -/
def deliverSpec (leg : SagaLeg) (event : Event) (memory : Json) (depth : Nat)
    (spec : DispatchSpec) : Job S H (Option Bool) :=
  let build := fun command withs =>
    buildDispatchArgs env.tables leg.pm command withs event leg.correlation memory leg.domainName
  deliverSagaDispatch self leg spec (build spec.commandName spec.withs) depth
    (spec.compensates.map fun r => build r.commandName r.withs)

/-- The `on :refused` leg, run once against the state after the refused leg. -/
def compensate (fuel : Nat) (leg : SagaLeg) (event : Event) (memory : Json) (depth : Nat) :
    Job S H Unit := do
  let sagas ← Act.read Cascade.sagas
  match sagas.lookup leg.key with
  | none => pure ()
  | some inst =>
      if !leg.pm.answers REFUSED then pure ()
      else
        match leg.pm.selectLeg REFUSED inst.state with
        | none =>
            logSaga (sagaRecord leg.pm REFUSED leg.correlation
              [("advanced", .bool false),
                ("reason", .str (leg.pm.legMismatch env.escapes REFUSED inst.state))])
        | some compensation => do
            updateSaga leg.key (fun inst => { inst with state := compensation.toState })
              (.moved leg.pm event leg.correlation REFUSED compensation)
            logSaga (sagaRecord leg.pm REFUSED leg.correlation
              [("advanced", .bool true), ("from", .str compensation.fromState),
                ("to", .str compensation.toState)])
            drain self fuel leg depth
            Act.forEach compensation.dispatches fun spec => do
              let _ ← deliverSpec env self leg event memory depth spec

/-- The dispatches of a leg in order: whether one of them was refused. -/
def deliverAll (leg : SagaLeg) (event : Event) (memory : Json) (depth : Nat) :
    List DispatchSpec → Bool → Job S H Bool
  | [], refused => pure refused
  | spec :: rest, refused => do
      let delivered ← deliverSpec env self leg event memory depth spec
      deliverAll leg event memory depth rest (refused || delivered == some false)

/-- The event moves one process manager's instance along its leg. -/
def advanceOne (fuel : Nat) (event : Event) (depth : Nat) (pm : ProcessManagerDef) :
    Job S H Unit :=
  if !pm.answers event.name then pure ()
  else
    match pm.correlationOf event env.tables.referenceKeyFn with
    | none => pure ()
    | some correlation => do
        let sagas ← Act.read Cascade.sagas
        match sagas.lookup (pm.name, correlation) with
        | none =>
            logSaga (sagaRecord pm event.name correlation
              [("advanced", .bool false),
                ("reason", .str ("no conversation remembers " ++
                  Text.debugStr env.escapes correlation))])
        | some inst =>
            match pm.selectLeg event.name inst.state with
            | none =>
                logSaga (sagaRecord pm event.name correlation
                  [("advanced", .bool false),
                    ("reason", .str (pm.legMismatch env.escapes event.name inst.state))])
            | some handler => do
                updateSaga (pm.name, correlation) (fun inst => { inst with state := handler.toState })
                  (.moved pm event correlation event.name handler)
                logSaga (sagaRecord pm event.name correlation
                  [("advanced", .bool true), ("from", .str handler.fromState),
                    ("to", .str handler.toState)])
                let sagas ← Act.read Cascade.sagas
                let memory := ((sagas.lookup (pm.name, correlation)).map (·.memory)).getD .null
                let leg : SagaLeg :=
                  { pm, correlation, domainName := Text.firstSegment "::" event.aggregate }
                let refused ← deliverAll env self leg event memory depth handler.dispatches false
                if refused then compensate env self fuel leg event memory depth

def advanceSaga (fuel : Nat) (event : Event) (depth : Nat) : Job S H Unit :=
  Act.forEach env.tables.processManagers (advanceOne env self fuel event depth)

def endOne (event : Event) (pm : ProcessManagerDef) : Job S H Unit :=
  if event.name ≠ pm.endsOn then pure ()
  else
    match pm.correlationOf event env.tables.referenceKeyFn with
    | none => pure ()
    | some correlation => do
        let sagas ← Act.read Cascade.sagas
        if (sagas.lookup (pm.name, correlation)).isNone then pure ()
        else do
          Act.modify fun c =>
            { c with sagas := c.sagas.erase (pm.name, correlation) }.noted
              (.ended pm event correlation)
          logSaga (sagaRecord pm event.name correlation [("ended", .bool true)])

def endSaga (event : Event) : Job S H Unit :=
  Act.forEach env.tables.processManagers (endOne env event)

/-- What one event of a batch sets off: its policies, then its sagas. -/
def settleEvent (fuel : Nat) (depth : Nat) (event : Event) : Job S H Unit := do
  note (.policiesOf event)
  reactPolicies env self event depth
  note (.sagasOf event)
  beginSaga env event
  advanceSaga env self fuel event depth
  endSaga env event
  note (.settled event)

/-- The body of `Cascade::run`. -/
def runBody (fuel : Nat) : RunFn S H :=
  fun verb args callerRole callerActorId stamp depth => do
    match ← callDispatch env verb args callerRole callerActorId stamp depth with
    | .error refusal => pure (.error refusal)
    | .ok events =>
        Act.forEach events (settleEvent env self fuel depth)
        pure (.ok ())

/-- `Cascade::run`, with fuel for its recursion and for every drain in it. -/
def run : Nat → RunFn S H
  | 0 => fun _ _ _ _ _ _ => Act.stop
  | fuel + 1 => runBody env (run fuel) fuel

end Run

/-- The environment of a domain that needs no facts, asks no queries and reads no predicates. -/
def Env.plain (tables : Tables)
    (dispatchFn : S → String → Json → Option String → Option String → List MutationRecord →
      Except Refusal (List Event) × S × List MutationRecord) : Env S Unit where
  tables := tables
  dispatchFn := dispatchFn
  needs := ⟨[], [], none⟩
  host := ⟨fun w => (0, w), none⟩
  interpret := fun _ _ => .error (.fault "no evaluator")
  runQuery := fun _ _ _ => .ok []
  occurredAt := none
  escapes := fun _ => false

/-- Tables without policies, queries or identities. -/
def Tables.ofManagers (processManagers : List ProcessManagerDef) : Tables where
  policies := []
  crossDomainPolicies := []
  processManagers := processManagers
  referenceKeyFn := fun _ => none
  queries := []
  commandCreatesFn := fun _ => false
  identityHeadFn := fun _ => none
  commandAttributesFn := fun _ => []
  entityIdentityHeadFn := fun _ => none

/-- A cascade before anything happened. -/
def Cascade.fresh (store : S) : Cascade S Unit where
  store := store
  host := ()
  sagas := ∅
  allEvents := []
  mutations := []
  crossDomain := []
  reactionLog := []
  sagaLog := []
  journal := []

end Hecks
