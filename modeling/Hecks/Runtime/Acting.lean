import Hecks.Lib.Optimistic
import Hecks.Runtime.Planning

/-! Dispatches of commands that act on a stored record of a versioned store: what an attempt works
out from the record it finds, and how it is stored. -/
namespace Hecks.Runtime

/-- A record's state, or a call's arguments: a value for each name it holds. -/
abbrev Fields (V : Type) := String → Option V

section

variable {V : Type}

def set (fields : Fields V) (name : String) (value : V) : Fields V :=
  Function.update fields name (some value)

/-- `Hash#merge`: the second wins. -/
def merge (first second : Fields V) : Fields V := fun name =>
  match second name with
  | some value => some value
  | none => first name

end

inductive Refusal where
  | recordMissing
  | refused (message : String)
  | nothingToCorrect (event : String)
  | givenNotMet (message : String)
  | lifecycleRefused (field current : String) (allowed : List String)
  | ensuresNotMet (message : String)
  | invariantViolation (message : String)
  | fault (message : String)
  | staleWrite
  deriving DecidableEq

structure Event (V : Type) where
  name : String
  payload : V

/-- What a dispatch on one aggregate's records asks of values, of other records and of the
outside. -/
structure Surroundings (ω V : Type) extends Operators ω V where
  nil : V
  text : String → V
  /-- `Value.scalar(value).to_s` -/
  scalarText : V → String
  hash : Fields V → V
  /-- A `Hash` source taken as it is. -/
  literalHash : List (String × Source ω V) → V
  /-- The steps before the record is read, from the arguments' decoding to their references. -/
  takeArgs : Command ω V → Fields V → Except String (Fields V)
  dereference : Command ω V → Fields V → Fields V
  /-- `Value.for`, and the refusal of a scalar for a list. -/
  valueFor : Mutation ω V → V → Except String V
  /-- What a list or number mutation makes of the record and the arguments. -/
  worked : Mutation ω V → Fields V → Fields V → Except String V
  /-- The list attributes a delegating command's entity may stand in. -/
  delegated : Command ω V → List String
  delegateToEntity : Command ω V → Fields V → Fields V → Except String (Fields V)
  delegate_keeps : ∀ c args state state', delegateToEntity c args state = .ok state' →
    ∀ field ∉ delegated c, state' field = state field
  checkEntityInvariants : Fields V → Except String Unit
  resolveStateReferences : Fields V → Except String Unit
  remoteValue : Fields V → ProjectedField → Option V
  emit : Command ω V → Fields V → Fields V → List (Event V)

/-- The record of one identity, with the events it has emitted. -/
structure Stored (V : Type) where
  record : Option (Fields V)
  history : List (Event V)

/-- What an attempt has come to when it writes. -/
structure Saved (V : Type) where
  state : Fields V
  events : List (Event V)

section

variable {ω V : Type} (o : Surroundings ω V) (a : Aggregate ω V) (c : Command ω V)

/-- `GuardState`: a declared optional field the record lacks reads as nil, any other declared or
projected one is refused. -/
def guardState (state : Fields V) : String → Option (Except String V) := fun name =>
  match state name with
  | some value => some (.ok value)
  | none =>
      if (a.projectedFields.map (·.name)).contains name then
        (a.projectedFields.find? fun field => field.name == name).map fun field =>
          .error (s!"{a.name} {name} is not yet projected on this record — declared via projects " ++
            s!":{name}, but no rebuild sweep has populated it. Run the sweep, or read " ++
            s!"{field.reference}.{field.remoteField} directly if this rule cannot wait")
      else
        match a.attribute name with
        | some held =>
            if held.optional then some (.ok o.nil)
            else some (.error (s!"{a.name} {name} is absent on this record — declared, not " ++
              "optional, and added since it was written. Backfill it in a translation (backfill " ++
              s!":{name}, default: ...), or declare it optional: true"))
        | none => none

/-- `Evaluator.call_rule` -/
def callRule (env : Env V) (rule : Rule ω) : Except Refusal Bool :=
  match rule.node with
  | .error message => .error (.fault message)
  | .ok node =>
      match interpret o.toOperators env node with
      | .error message => .error (.fault message)
      | .ok value => .ok (o.truthy value)

def refuseUnmet (env : Env V) (refusal : String → Refusal) : List (Rule ω) → Except Refusal Unit
  | [] => .ok ()
  | rule :: rules => do
      let met ← callRule o env rule
      if met then refuseUnmet env refusal rules else throw (refusal rule.description)

/-- The most recent emission of the event a correction names. -/
def correctedEvent (history : List (Event V)) (m : Mutation ω V) : Option (Event V) :=
  history.reverse.find? fun event => event.name == m.target

def bindCorrection (history : List (Event V)) (bindings : Fields V) (m : Mutation ω V) :
    Except Refusal (Fields V) :=
  match correctedEvent history m with
  | none => .error (.nothingToCorrect m.target)
  | some event =>
      match m.bound with
      | none => .ok bindings
      | some name => .ok (if name.isEmpty then bindings else set bindings name event.payload)

def enforceCorrectionTarget (history : List (Event V)) : Except Refusal (Fields V) :=
  (c.mutations.filter fun m => m.op = .corrects).foldlM (bindCorrection history) fun _ => none

/-- `with_rule_context` -/
def ruleContext (attrs : Fields V) (parent : Fields V) (correction : Fields V) : Fields V :=
  merge (set attrs "parent" (o.hash parent)) correction

def givensEnv (args pre correction : Fields V) : Env V where
  attrs := ruleContext o (merge args (o.dereference c args)) pre correction
  state := guardState o a pre

def currentState (lifecycle : Lifecycle) (pre : Fields V) : String :=
  o.scalarText ((pre lifecycle.field).getD o.nil)

def enforceLifecycleGuard (pre : Fields V) : Except Refusal Unit :=
  match c.admits with
  | none => .ok ()
  | some states =>
      match a.lifecycle with
      | none => .error (.fault "undefined method 'field' for nil")
      | some lifecycle =>
          let current := currentState o lifecycle pre
          if states.contains current then .ok ()
          else .error (.lifecycleRefused lifecycle.field current states)

def enforceGivens (args pre correction : Fields V) : Except Refusal Unit := do
  refuseUnmet o (givensEnv o a c args pre correction)
    (fun description => .givenNotMet s!"{c.name} refused — {description}") c.givens
  enforceLifecycleGuard o a c pre

def admissibleTransition (pre : Fields V) : Except Refusal (Option StateTransition) :=
  match a.lifecycle with
  | none => .ok none
  | some lifecycle =>
      let candidates := lifecycle.transitionsFor c.name
      if candidates.isEmpty then .ok none
      else
        let current := currentState o lifecycle pre
        match candidates.find? fun t => !t.constrained || (t.sources.getD []).contains current with
        | some transition => .ok (some transition)
        | none => .error (.lifecycleRefused lifecycle.field current
            (candidates.flatMap fun t => t.sources.getD []).dedup)

def computedEnv (args pre : Fields V) : Env V where
  attrs := args
  state name := (pre name).map .ok

def setSourceValue (args pre : Fields V) : Source ω V → Except Refusal V
  | .stateRef name => .ok ((pre name).getD o.nil)
  | .computed text =>
      match interpret o.toOperators (computedEnv args pre) text with
      | .error message => .error (.fault message)
      | .ok value => .ok value
  | .symbol name => .ok ((args name).getD o.nil)
  | .bindings fields => .ok (o.literalHash fields)
  | .literal value => .ok value

def orRefuse {α : Type} : Except String α → Except Refusal α
  | .ok value => .ok value
  | .error message => .error (.refused message)

/-- Sources read the record as it was, targets are written to the candidate. -/
def applyMutation (args pre state : Fields V) (m : Mutation ω V) : Except Refusal (Fields V) :=
  match m.op with
  | .set => do
      let value ← setSourceValue o args pre m.source
      let held ← orRefuse (o.valueFor m value)
      return set state m.target held
  | .delegate => .ok state
  | .corrects => .ok state
  | _ => do
      let held ← orRefuse (o.worked m pre args)
      return set state m.target held

def applyAllMutations (args pre : Fields V) : Except Refusal (Fields V) :=
  c.mutations.foldlM (applyMutation o args pre) pre

def advanceLifecycle (transition : Option StateTransition) (state : Fields V) : Fields V :=
  match transition, a.lifecycle with
  | some t, some lifecycle => set state lifecycle.field (o.text t.target)
  | _, _ => state

def delegateStep (args state : Fields V) : Except Refusal (Fields V) :=
  if c.mutations.any fun m => m.op = .delegate then orRefuse (o.delegateToEntity c args state)
  else .ok state

/-- An argument does not shadow a field the settled record holds. -/
def ensuresEnv (args pre post correction : Fields V) : Env V where
  attrs :=
    let fresh : Fields V := fun name => if (post name).isSome then none else args name
    set (ruleContext o (merge fresh (o.dereference c args)) post correction) "old" (o.hash pre)
  state := guardState o a post

def enforceEnsures (args pre post correction : Fields V) : Except Refusal Unit :=
  refuseUnmet o (ensuresEnv o a c args pre post correction)
    (fun description => .ensuresNotMet s!"{c.name} refused — {description}") c.ensures

def enforceInvariants (post : Fields V) : Except Refusal Unit := do
  refuseUnmet o ⟨fun _ => none, guardState o a post⟩
    (fun description => .invariantViolation s!"{a.name} refused — {description}") a.invariants
  orRefuse (o.checkEntityInvariants post)

def seedProjectedFields (state : Fields V) : Fields V :=
  a.projectedFields.foldl (fun state field =>
    match o.remoteValue state field with
    | none => state
    | some value => set state field.name value) state

/-- The steps from the settled state to the write. -/
def settle (args pre post correction : Fields V) : Except Refusal (Saved V) := do
  enforceEnsures o a c args pre post correction
  enforceInvariants o a post
  orRefuse (o.resolveStateReferences post)
  let state := seedProjectedFields o a post
  return ⟨state, o.emit c state args⟩

/-- `dispatch_once`, from the record found to what is written; the analysis that precedes it may
raise. -/
def dispatchOnce (given : Fields V) (stored : Stored V) : Except Refusal (Saved V) := do
  if (analyze a c).isNone then throw (.fault "undefined method 'empty?' for nil")
  let args ← orRefuse (o.takeArgs c given)
  match stored.record with
  | none => throw .recordMissing
  | some pre =>
      let correction ← enforceCorrectionTarget c stored.history
      enforceGivens o a c args pre correction
      let transition ← admissibleTransition o a c pre
      let mutated ← applyAllMutations o c args pre
      let post ← delegateStep o c args (advanceLifecycle o a transition mutated)
      settle o a c args pre post correction

end

/-- What the Postgres adapter offers. -/
def persistenceCapabilities : List Capability := [.atomicPut, .optimisticConcurrency, .dispatchClaims]

def maxStaleWriteRetries : Nat := 5

structure Dispatch (ω V : Type) where
  command : Command ω V
  args : Fields V

section

variable {ω V : Type} (o : Surroundings ω V) (a : Aggregate ω V)

/-- `Plan#strategy_for`, over the adapter's capabilities. -/
def strategy (c : Command ω V) : Option Strategy :=
  (analyze a c).map fun plan => plan.strategyFor persistenceCapabilities

/-- `persist_instance`: an atomic put replaces the row whatever its version, any other write holds
it to the version read, and a stale one is dispatched again. -/
def dispatchers {ι : Type} (dispatches : ι → Dispatch ω V) :
    Optimistic.Writers ι (Stored V) (Saved V) Refusal where
  work i := dispatchOnce o a (dispatches i).command (dispatches i).args
  commit saved stored := ⟨some saved.state, stored.history ++ saved.events⟩
  guarded i := strategy a (dispatches i).command ≠ some .atomicPut
  attempts := maxStaleWriteRetries
  stale := .staleWrite

end

end Hecks.Runtime
