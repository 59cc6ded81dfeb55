import Hecks.Expr
import Hecks.Dispatch.Collecting

/-! The rules a command declares and the stages that enforce them: givens before the
mutation, `ensures` and invariants after it, and the lifecycle check between. -/
namespace Hecks

/-! ### Wording -/

namespace RefusalSite

/-- Replaces every marker of each key, in the order given. -/
def render (template : String) (values : List (String × String)) : String :=
  values.foldl (fun text (key, value) => Text.replaceAll ("\x7b" ++ key ++ "\x7d") value text)
    template

def notFoundCreatingNoIdentity (command aggregate identity : String) : String :=
  render "{command} creates a {aggregate} — pass {identity}:"
    [("command", command), ("aggregate", aggregate), ("identity", identity)]

def alreadyExistsCreatingDuplicate (command aggregate identity offered : String) : String :=
  render "{command} creates a {aggregate} that already exists — {identity} {offered}"
    [("command", command), ("aggregate", aggregate), ("identity", identity),
      ("offered", offered)]

def notFoundRecordMissing (aggregate identity offered : String) : String :=
  render "no {aggregate} with {identity} {offered}"
    [("aggregate", aggregate), ("identity", identity), ("offered", offered)]

def notFoundEntityElementMissing (entity identity wants aggregate parentId : String) : String :=
  render "no {entity} with {identity} {wants} on {aggregate} {parent_id}"
    [("entity", entity), ("identity", identity), ("wants", wants), ("aggregate", aggregate),
      ("parent_id", parentId)]

/-- `allowed` is written in the order declared, each state quoted. -/
def lifecycleRefusedTransitionBlocked (escapes : Char → Bool) (command field current : String)
    (allowed : List String) : String :=
  render
    "{command} refused — {field} is {current}, and {command} moves it only from {allowed}"
    [("command", command), ("field", field), ("current", current),
      ("allowed", Text.join " or " (allowed.map (Text.debugStr escapes)))]

end RefusalSite

/-! ### Declared rules -/

/-- `correctsEvent` carries the event name a `corrects` given checks. -/
structure GivenSpec where
  description : String
  expr : Expr
  correctsEvent : Option String

/-- A `corrects` given interpolates the record's id, which its description cannot. -/
def GivenSpec.refusal (given : GivenSpec) (commandName aggregateQualifiedName id : String) :
    Refusal :=
  match given.correctsEvent with
  | some event =>
      .nothingToCorrect (commandName ++ " refused — corrects " ++ event ++ ", but " ++
        aggregateQualifiedName ++ " #" ++ id ++ " has never emitted it")
  | none => .givenNotMet (commandName ++ " refused — " ++ given.description)

/-- An `ensures` rule, checked after the mutation, with `old` bound to the prior state. -/
structure EnsuresSpec where
  description : String
  expr : Expr

/-- An invariant rule, checked after `ensures` and before save on the candidate record. -/
structure InvariantSpec where
  description : String
  expr : Expr

/-- The invariants of one entity, read on every element of the owner's list. -/
inductive EntityInvariants where
  | mk (name listField : String) (specs : List InvariantSpec) (nested : List EntityInvariants)

structure InvariantSet where
  aggregate : List InvariantSpec
  entities : List EntityInvariants

/-- The check half of a lifecycle transition. -/
structure TransitionCheck where
  field : String
  fromStates : List String

/-- `admissible_transition`, shared by the aggregate record and an entity element. -/
def admissibleTransition (escapes : Char → Bool) (subject : Fielded)
    (transition : Option TransitionCheck) (commandName : String) : Except Refusal Unit :=
  match transition with
  | none => .ok ()
  | some check =>
      match subject.field check.field with
      | some (.value (.str current)) =>
          if check.fromStates.contains current then .ok ()
          else .error (.lifecycleRefused (RefusalSite.lifecycleRefusedTransitionBlocked escapes
            commandName check.field (Text.debugStr escapes current) check.fromStates))
      | _ => .error (.typeMismatch (commandName ++ ": lifecycle field " ++
          Text.debugStr escapes check.field ++ " missing or not a string — a codegen bug"))

/-- The evaluator on the leaves of the language: a literal, or a name read from the arguments
first, then from the instance. Concrete runs below use no other expression. -/
def interpretLeaf : Interpreter := fun expr ctx =>
  match expr with
  | .bool b => .ok (.bool b)
  | .lookup name =>
      match (ctx.args.field name).or (ctx.instance'.field name) with
      | some (.value v) => .ok v
      | _ => .error (.fault ("cannot resolve \"" ++ name ++
          "\" — no such attribute or argument"))
  | _ => .error (.fault "not a leaf")

section Enforce

variable (interpret : Interpreter)

/-- `enforce_givens` on an aggregate record. -/
def enforceGivens (record args : Fielded) (givens : List GivenSpec)
    (commandName aggregateQualifiedName id : String) : Stage Unit := do
  let stage ← mark
  givens.forM fun given => do
    let held ← interpret given.expr ⟨args, record⟩
    if !held.truthy then
      refuseWith (given.refusal commandName aggregateQualifiedName id) (.ofRule given.description)
  settle stage

/-- `enforce_ensures` against the settled record (or element): the settled state is read
before the arguments, and `old` is bound over both. -/
def enforceEnsures (settled old args : Fielded) (ensures : List EnsuresSpec)
    (commandName : String) : Stage Unit := do
  let withOld := Fielded.withOld (Fielded.stateFirst args settled) old
  let stage ← mark
  ensures.forM fun rule => do
    let held ← interpret rule.expr ⟨withOld, settled⟩
    if !held.truthy then
      refuseWith (.ensuresNotMet (commandName ++ " refused — " ++ rule.description))
        (.ofRule rule.description)
  settle stage

/-- The rules of one owner, aggregate or element, named in the refusal. -/
def enforceSpecs (name : String) (args subject : Fielded) (specs : List InvariantSpec) :
    Stage Unit :=
  specs.forM fun rule => do
    let held ← interpret rule.expr ⟨args, subject⟩
    if !held.truthy then
      refuseWith (.invariantViolation (name ++ " refused — " ++ rule.description))
        (.ofRule rule.description)

mutual

/-- `enforce_entity_invariants`: each element with `parent` bound to its owner, then the
entities nested in it. An element that is a plain value is passed over. -/
def enforceEntityInvariants (owner : Fielded) : EntityInvariants → Stage Unit
  | .mk name listField specs nested =>
      match owner.items listField with
      | none => pure ()
      | some elements =>
          elements.forM fun
            | .value _ => pure ()
            | .nested element => do
                enforceSpecs interpret name (.withParent .noFields owner) element specs
                enforceNestedInvariants element nested

def enforceNestedInvariants (owner : Fielded) : List EntityInvariants → Stage Unit
  | [] => pure ()
  | entity :: rest => do
      enforceEntityInvariants owner entity
      enforceNestedInvariants owner rest

end

def enforceInvariants (record : Fielded) (aggregateName : String) (set : InvariantSet) :
    Stage Unit := do
  let stage ← mark
  enforceSpecs interpret aggregateName .noFields record set.aggregate
  enforceNestedInvariants interpret record set.entities
  settle stage

/-! ### The rules as trials -/

/-- One rule's verdict: `kept` is what a collector keeps when it does not hold. -/
def verdict (expr : Expr) (ctx : EvalContext) (kept : Collected) : Verdict Refusal Collected :=
  match interpret expr ctx with
  | .error r => .faults r
  | .ok held => if held.truthy then .holds else .fails kept

def givenVerdicts (record args : Fielded) (givens : List GivenSpec)
    (commandName aggregateQualifiedName id : String) : List (Verdict Refusal Collected) :=
  givens.map fun given => verdict interpret given.expr ⟨args, record⟩
    ⟨given.refusal commandName aggregateQualifiedName id, .ofRule given.description⟩

def ensuresVerdicts (settled old args : Fielded) (ensures : List EnsuresSpec)
    (commandName : String) : List (Verdict Refusal Collected) :=
  ensures.map fun rule =>
    verdict interpret rule.expr
      ⟨.withOld (.stateFirst args settled) old, settled⟩
      ⟨.ensuresNotMet (commandName ++ " refused — " ++ rule.description),
        .ofRule rule.description⟩

def specVerdicts (name : String) (args subject : Fielded) (specs : List InvariantSpec) :
    List (Verdict Refusal Collected) :=
  specs.map fun rule => verdict interpret rule.expr ⟨args, subject⟩
    ⟨.invariantViolation (name ++ " refused — " ++ rule.description), .ofRule rule.description⟩

mutual

def entityVerdicts (owner : Fielded) : EntityInvariants → List (Verdict Refusal Collected)
  | .mk name listField specs nested =>
      ((owner.items listField).getD []).flatMap fun
        | .value _ => []
        | .nested element =>
            specVerdicts interpret name (.withParent .noFields owner) element specs ++
              nestedVerdicts element nested

def nestedVerdicts (owner : Fielded) :
    List EntityInvariants → List (Verdict Refusal Collected)
  | [] => []
  | entity :: rest => entityVerdicts owner entity ++ nestedVerdicts owner rest

end

def invariantVerdicts (record : Fielded) (aggregateName : String) (set : InvariantSet) :
    List (Verdict Refusal Collected) :=
  specVerdicts interpret aggregateName .noFields record set.aggregate ++
    nestedVerdicts interpret record set.entities

variable {interpret}

theorem tells_rule {expr : Expr} {ctx : EvalContext} {refusal : Refusal} {detail : Detail} :
    Tells (do let held ← interpret expr ctx; if !held.truthy then refuseWith refusal detail)
      [verdict interpret expr ctx ⟨refusal, detail⟩] := by
  unfold verdict
  cases interpret expr ctx with
  | error r => exact tells_fault r
  | ok held =>
      change Tells (if !held.truthy then refuseWith refusal detail else pure ()) _
      cases h : held.truthy with
      | true => simpa [h] using tells_holds
      | false => simpa [h] using tells_refuseWith refusal detail

theorem tells_rules {ι : Type} {rule : ι → Expr} {ctx : EvalContext} {refusal : ι → Refusal}
    {detail : ι → Detail} (rules : List ι) :
    Tells
      (rules.forM fun x => do
        let held ← interpret (rule x) ctx
        if !held.truthy then refuseWith (refusal x) (detail x))
      (rules.map fun x => verdict interpret (rule x) ctx ⟨refusal x, detail x⟩) := by
  rw [List.map_eq_flatMap]
  exact Tells.forM (fun _ => tells_rule) rules

theorem enforceGivens_follows (record args : Fielded) (givens : List GivenSpec)
    (commandName aggregateQualifiedName id : String) :
    Follows (enforceGivens interpret record args givens commandName aggregateQualifiedName id)
      (.judge (givenVerdicts interpret record args givens commandName aggregateQualifiedName id)
        (.pass ())) :=
  Follows.judge (tells_rules givens)

theorem enforceEnsures_follows (settled old args : Fielded) (ensures : List EnsuresSpec)
    (commandName : String) :
    Follows (enforceEnsures interpret settled old args ensures commandName)
      (.judge (ensuresVerdicts interpret settled old args ensures commandName) (.pass ())) :=
  Follows.judge (tells_rules ensures)

mutual

theorem tells_entityInvariants (owner : Fielded) :
    (entity : EntityInvariants) →
      Tells (enforceEntityInvariants interpret owner entity)
        (entityVerdicts interpret owner entity)
  | .mk name listField specs nested => by
      rw [enforceEntityInvariants, entityVerdicts]
      cases owner.items listField with
      | none => exact tells_pure
      | some elements =>
          refine Tells.forM (fun element => ?_) elements
          cases element with
          | value v => exact tells_pure
          | nested element =>
              exact (tells_rules specs).append (tells_nestedInvariants element nested)

theorem tells_nestedInvariants (owner : Fielded) :
    (entities : List EntityInvariants) →
      Tells (enforceNestedInvariants interpret owner entities)
        (nestedVerdicts interpret owner entities)
  | [] => by
      rw [enforceNestedInvariants, nestedVerdicts]
      exact tells_pure
  | entity :: rest => by
      rw [enforceNestedInvariants, nestedVerdicts]
      exact (tells_entityInvariants owner entity).append (tells_nestedInvariants owner rest)

end

theorem enforceInvariants_follows (record : Fielded) (aggregateName : String)
    (set : InvariantSet) :
    Follows (enforceInvariants interpret record aggregateName set)
      (.judge (invariantVerdicts interpret record aggregateName set) (.pass ())) := by
  have htells : Tells
      (do
        enforceSpecs interpret aggregateName .noFields record set.aggregate
        enforceNestedInvariants interpret record set.entities)
      (invariantVerdicts interpret record aggregateName set) :=
    (tells_rules set.aggregate).append (tells_nestedInvariants record set.entities)
  simpa only [enforceInvariants, bind_assoc] using Follows.judge htells

end Enforce

end Hecks
