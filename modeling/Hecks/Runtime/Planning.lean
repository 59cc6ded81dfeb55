import Hecks.Lib.Reading
import Hecks.Runtime.Reads

/-! Dependency planning: which fields a command reads and writes, and with that how its dispatch
stores the record. -/
namespace Hecks.Runtime

/-- A declared rule; `node` is what its canonical text parses to, or why it does not. -/
structure Rule (ω : Type) where
  description : String
  canonical : String
  node : Except String (Node ω)

structure Attribute (V : Type) where
  name : String
  type : String
  list : Bool
  optional : Bool
  default : Option V

structure ValueObject (V : Type) where
  name : String
  attributes : List (Attribute V)

/-- `sources`: the states it moves from, any where none are declared. -/
structure StateTransition where
  target : String
  sources : Option (List String)

def StateTransition.constrained (t : StateTransition) : Bool := t.sources.isSome

structure Lifecycle where
  field : String
  default : String
  transitions : List (String × StateTransition)

def Lifecycle.transitionsFor (l : Lifecycle) (command : String) : List StateTransition :=
  (l.transitions.filter fun t => t.1 == command).map (·.2)

/-- A field copied from a referenced record, stored anew at every save. -/
structure ProjectedField where
  name : String
  reference : String
  remoteField : String

structure Aggregate (ω V : Type) where
  name : String
  attributes : List (Attribute V)
  valueObjects : List (ValueObject V)
  lifecycle : Option Lifecycle
  projectedFields : List ProjectedField
  invariants : List (Rule ω)

inductive Op where
  | set
  | append
  | increment
  | decrement
  | multiply
  | clamp
  | remove
  | delegate
  | corrects
  deriving DecidableEq

def Op.name : Op → String
  | set => "set"
  | append => "append"
  | increment => "increment"
  | decrement => "decrement"
  | multiply => "multiply"
  | clamp => "clamp"
  | remove => "remove"
  | delegate => "delegate"
  | corrects => "corrects"

/-- Where a mutation takes its value: an argument's name, bindings of an append, a field of the
record, an expression over arguments and record, or a literal. -/
inductive Source (ω V : Type) where
  | symbol (name : String)
  | bindings (fields : List (String × Source ω V))
  | stateRef (name : String)
  | computed (text : Node ω)
  | literal (value : V)

/-- `bound`: the name a correction gives the corrected event's payload. -/
structure Mutation (ω V : Type) where
  target : String
  op : Op
  source : Source ω V
  bound : Option String := none

/-- A command that acts on a stored record; `admits` are the states its `from:` names. -/
structure Command (ω V : Type) where
  name : String
  attributes : List (Attribute V)
  mutations : List (Mutation ω V)
  givens : List (Rule ω)
  ensures : List (Rule ω)
  admits : Option (List String)
  emits : List String

inductive Capability where
  | atomicPut
  | optimisticConcurrency
  | dispatchClaims
  | crossProcessLock
  deriving DecidableEq

inductive Strategy where
  | atomicPut
  | transactionalFallback
  deriving DecidableEq

structure Plan where
  readSet : List String
  writeSet : List String
  payloadReadSet : List String
  completeState : Bool
  stateIndependent : Bool
  unresolvedDependencies : List String

def Plan.strategyFor (plan : Plan) (capabilities : List Capability) : Strategy :=
  if !(plan.completeState && plan.stateIndependent) then .transactionalFallback
  else if !capabilities.contains .atomicPut then .transactionalFallback
  else .atomicPut

/-- What a stage of the analysis adds to its sets. -/
structure Found where
  stateReads : List String := []
  payloadReads : List String := []
  writes : List String := []
  knownWrites : List String := []
  unresolved : List String := []

instance : Append Found :=
  ⟨fun a b => ⟨a.stateReads ++ b.stateReads, a.payloadReads ++ b.payloadReads,
    a.writes ++ b.writes, a.knownWrites ++ b.knownWrites, a.unresolved ++ b.unresolved⟩⟩

/-- What the stages add, one after the other. -/
def Found.all : List Found → Found := fun stages => stages.foldr (· ++ ·) {}

inductive RulePhase where
  | before
  | after
  deriving DecidableEq

def Path.text (path : Path) : String := ".".intercalate (path.head :: path.rest)

section

variable {ω V : Type}

def Aggregate.attribute (a : Aggregate ω V) (name : String) : Option (Attribute V) :=
  a.attributes.find? fun held => held.name == name

def Aggregate.valueObject (a : Aggregate ω V) (type : String) : Option (ValueObject V) :=
  a.valueObjects.find? fun held => held.name == type

/-- `owner_field_names` -/
def Aggregate.ownerFields (a : Aggregate ω V) : List String :=
  a.attributes.map (·.name) ++ (a.lifecycle.map (·.field)).toList ++
    a.projectedFields.map (·.name)

def Command.payloadFields (c : Command ω V) : List String := c.attributes.map (·.name)

def declaredWithoutPriorState (held : Attribute V) : Bool :=
  held.list || held.optional || held.default.isSome

def deterministicInitialValue (a : Aggregate ω V) (held : Attribute V) : Bool :=
  declaredWithoutPriorState held ||
    match a.valueObject held.type with
    | none => false
    | some valueObject => valueObject.attributes.all fun field => field.default.isSome

/-- What a fresh record supplies without a stored one. -/
def analyzeInitialState (a : Aggregate ω V) : Found where
  knownWrites := ((a.attributes.filter (deterministicInitialValue a)).map (·.name)) ++
    (a.lifecycle.map (·.field)).toList

def analyzeSymbolSource (a : Aggregate ω V) (c : Command ω V) (source : String) : Found × Bool :=
  if c.payloadFields.contains source then ({ payloadReads := [source] }, true)
  else if a.ownerFields.contains source then ({ stateReads := [source] }, false)
  else ({ unresolved := [s!"mutation source {source} has no payload or aggregate field"] }, false)

mutual

/-- Whether the source is known without prior state, with what it reads. -/
def analyzeSource (a : Aggregate ω V) (c : Command ω V) : Source ω V → Found × Bool
  | .symbol name => analyzeSymbolSource a c name
  | .bindings fields => analyzeBindings a c fields
  | .stateRef _ => ({}, true)
  | .computed _ => ({}, true)
  | .literal _ => ({}, true)

def analyzeBindings (a : Aggregate ω V) (c : Command ω V) :
    List (String × Source ω V) → Found × Bool
  | [] => ({}, true)
  | (_, source) :: fields =>
      let head := analyzeSource a c source
      let rest := analyzeBindings a c fields
      (head.1 ++ rest.1, head.2 && rest.2)

end

/-- `STATEFUL_MUTATIONS` -/
def Op.stateful : Op → Bool
  | append | increment | decrement | multiply | clamp | remove => true
  | set | delegate | corrects => false

def analyzeOperation (a : Aggregate ω V) (c : Command ω V) (m : Mutation ω V) : Found :=
  if m.op = .set then
    let source := analyzeSource a c m.source
    source.1 ++ { knownWrites := if source.2 then [m.target] else [] }
  else if m.op.stateful then
    { stateReads := [m.target] } ++ (analyzeSource a c m.source).1
  else { unresolved := [s!"mutation operation {m.op.name} has no dependency rule"] }

def analyzeMutation (a : Aggregate ω V) (c : Command ω V) (m : Mutation ω V) : Found :=
  { writes := [m.target] } ++
    if a.ownerFields.contains m.target then analyzeOperation a c m
    else { unresolved := [s!"mutation target {m.target} is not an aggregate field"] }

/-- The lifecycle's own transitions read no state here, whatever states they move from. -/
def analyzeLifecycle (a : Aggregate ω V) (c : Command ω V) : Found :=
  match a.lifecycle with
  | none => {}
  | some lifecycle =>
      { stateReads := if c.admits.isSome then [lifecycle.field] else [] } ++
        if (lifecycle.transitionsFor c.name).isEmpty then {}
        else { writes := [lifecycle.field], knownWrites := [lifecycle.field] }

/-- A bare `parent` or `old` has no field to ask for, and the analysis raises. -/
def resolveNestedStateRead (path : Path) (fields : List String) (message : String) :
    Option Found :=
  match path.rest with
  | [] => none
  | [""] => none
  | field :: _ =>
      if field.isEmpty || !fields.contains field then
        some { unresolved := [s!"{path.text} {message}"] }
      else some { stateReads := [field] }

def classifyNamedPath (a : Aggregate ω V) (c : Command ω V) (known : List String)
    (phase : RulePhase) (path : Path) : Found :=
  if c.payloadFields.contains path.head then { payloadReads := [path.head] }
  else if a.ownerFields.contains path.head then
    { stateReads := if phase = .before || !known.contains path.head then [path.head] else [] }
  else
    { unresolved := [s!"expression path {path.text} has no payload or aggregate field"] }

def classifyPath (a : Aggregate ω V) (c : Command ω V) (known : List String) (phase : RulePhase)
    (path : Path) : Option Found :=
  if path.head = "parent" then
    resolveNestedStateRead path a.ownerFields "does not name parent aggregate state"
  else if path.head = "old" then
    resolveNestedStateRead path a.ownerFields "does not name prior aggregate state"
  else some (classifyNamedPath a c known phase path)

def analyzeRule (a : Aggregate ω V) (c : Command ω V) (known : List String) (phase : RulePhase)
    (rule : Rule ω) : Option Found :=
  match rule.node with
  | .ok node => ((paths node).mapM (classifyPath a c known phase)).map Found.all
  | .error message => some
      { unresolved := [s!"expression {rule.canonical.quote} could not be analyzed: {message}"] }

/-- `known`: the known writes, which no rule adds to. -/
def analyzeRules (a : Aggregate ω V) (c : Command ω V) (known : List String) (phase : RulePhase)
    (rules : List (Rule ω)) : Option Found :=
  (rules.mapM (analyzeRule a c known phase)).map Found.all

def sorted (names : List String) : List String :=
  names.dedup.mergeSort fun a b => decide (a ≤ b)

def buildPlan (a : Aggregate ω V) (found : Found) : Plan :=
  let preserved := a.ownerFields.filter fun field => !found.knownWrites.contains field
  let reads := found.stateReads ++ preserved
  let complete := found.unresolved.isEmpty &&
    a.ownerFields.all fun field => found.knownWrites.contains field
  { readSet := sorted reads
    writeSet := sorted found.writes
    payloadReadSet := sorted found.payloadReads
    completeState := complete
    stateIndependent := complete && reads.isEmpty
    unresolvedDependencies := sorted found.unresolved }

/-- What the analysis finds before it comes to the rules. -/
def analyzeEffects (a : Aggregate ω V) (c : Command ω V) : Found :=
  analyzeInitialState a ++ Found.all (c.mutations.map (analyzeMutation a c)) ++
    analyzeLifecycle a c

/-- `Analyzer.call`; no plan where the analysis raises. -/
def analyze (a : Aggregate ω V) (c : Command ω V) : Option Plan := do
  let effects := analyzeEffects a c
  let givens ← analyzeRules a c effects.knownWrites .before c.givens
  let ensures ← analyzeRules a c effects.knownWrites .after c.ensures
  let invariants ← analyzeRules a c effects.knownWrites .after a.invariants
  return buildPlan a (effects ++ givens ++ ensures ++ invariants)

end

/-! ### What an atomic put is proved to leave alone -/

section

variable {ω V : Type} {a : Aggregate ω V} {c : Command ω V}

@[simp] theorem append_stateReads (x y : Found) :
    (x ++ y).stateReads = x.stateReads ++ y.stateReads := rfl

@[simp] theorem append_unresolved (x y : Found) :
    (x ++ y).unresolved = x.unresolved ++ y.unresolved := rfl

/-- Nothing read from the record, and nothing left open. -/
def Found.Clear (found : Found) : Prop := found.stateReads = [] ∧ found.unresolved = []

theorem clear_append {x y : Found} : (x ++ y).Clear ↔ x.Clear ∧ y.Clear := by
  simp only [Found.Clear, append_stateReads, append_unresolved, List.append_eq_nil_iff]
  tauto

theorem clear_all {stages : List Found} : (Found.all stages).Clear ↔ ∀ x ∈ stages, x.Clear := by
  induction stages with
  | nil => simp [Found.all, Found.Clear]
  | cons x stages ih =>
    have cons : Found.all (x :: stages) = x ++ Found.all stages := rfl
    rw [cons, clear_append, ih, List.forall_mem_cons]

theorem set_of_clear {m : Mutation ω V} (clear : (analyzeMutation a c m).Clear) :
    m.op = .set ∧ m.target ∈ a.ownerFields := by
  unfold analyzeMutation at clear
  have rest := (clear_append.mp clear).2
  by_cases owned : a.ownerFields.contains m.target = true
  · rw [if_pos owned] at rest
    refine ⟨?_, by simpa using owned⟩
    unfold analyzeOperation at rest
    by_contra other
    rw [if_neg other] at rest
    by_cases stateful : m.op.stateful = true
    · rw [if_pos stateful] at rest
      cases (clear_append.mp rest).1.1
    · rw [if_neg stateful] at rest
      cases rest.2
  · rw [if_neg owned] at rest
    cases rest.2

theorem admits_of_clear (clear : (analyzeLifecycle a c).Clear) (some : a.lifecycle.isSome) :
    c.admits = none := by
  obtain ⟨lifecycle, same⟩ := Option.isSome_iff_exists.mp some
  unfold analyzeLifecycle at clear
  rw [same] at clear
  have reads := (clear_append.mp clear).1.1
  cases held : c.admits with
  | none => rfl
  | some states =>
    rw [held] at reads
    cases reads

theorem named_of_clear {known : List String} {phase : RulePhase} {path : Path} {found : Found}
    (classified : classifyPath a c known phase path = some found) (clear : found.Clear) :
    path.head ≠ "parent" ∧ path.head ≠ "old" := by
  have nested : ∀ fields message,
      resolveNestedStateRead path fields message = some found → False := by
    intro fields message resolved
    unfold resolveNestedStateRead at resolved
    split at resolved
    · cases resolved
    · cases resolved
    · split at resolved
      · cases resolved
        cases clear.2
      · cases resolved
        cases clear.1
  unfold classifyPath at classified
  constructor
  · intro parent
    rw [if_pos parent] at classified
    exact nested _ _ classified
  · intro old
    have other : path.head ≠ "parent" := by
      rw [old]
      decide
    rw [if_neg other, if_pos old] at classified
    exact nested _ _ classified

/-- A rule whose paths name neither the parent record nor the prior state. -/
def Rule.Own (rule : Rule ω) : Prop :=
  ∀ node, rule.node = .ok node →
    ∀ path ∈ paths node, path.head ≠ "parent" ∧ path.head ≠ "old"

theorem own_of_clear {known : List String} {phase : RulePhase} {rules : List (Rule ω)}
    {found : Found} (analyzed : analyzeRules a c known phase rules = some found)
    (clear : found.Clear) : ∀ rule ∈ rules, rule.Own := by
  obtain ⟨stages, ruled, rfl⟩ := Option.map_eq_some_iff.mp analyzed
  intro rule mem node parsed path read
  obtain ⟨stage, within, one⟩ := (Reading.mapM_some ruled).1 rule mem
  unfold analyzeRule at one
  rw [parsed] at one
  obtain ⟨pieces, classified, rfl⟩ := Option.map_eq_some_iff.mp one
  obtain ⟨piece, inside, this⟩ := (Reading.mapM_some classified).1 path read
  have whole := clear_all.mp clear _ within
  exact named_of_clear this (clear_all.mp whole piece inside)

/-- What a plan shows of a command that is put without a look at the version. -/
structure Independent (a : Aggregate ω V) (c : Command ω V) : Prop where
  sets : ∀ m ∈ c.mutations, m.op = .set
  admits : a.lifecycle.isSome → c.admits = none
  givens : ∀ rule ∈ c.givens, rule.Own
  ensures : ∀ rule ∈ c.ensures, rule.Own

theorem independent_of_atomicPut {plan : Plan} {capabilities : List Capability}
    (planned : analyze a c = some plan)
    (atomic : plan.strategyFor capabilities = .atomicPut) : Independent a c := by
  unfold analyze at planned
  simp only [Option.bind_eq_bind, Option.bind_eq_some_iff, Option.pure_def, Option.some.injEq] at planned
  obtain ⟨givens, before, ensures, after, invariants, settled, rfl⟩ := planned
  generalize joined : analyzeEffects a c ++ givens ++ ensures ++ invariants = found at atomic
  have independent : (buildPlan a found).stateIndependent = true := by
    unfold Plan.strategyFor at atomic
    by_contra dependent
    rw [if_pos (by simp [dependent])] at atomic
    cases atomic
  have clear : found.Clear := by
    simp only [buildPlan, Bool.and_eq_true, List.isEmpty_iff, List.append_eq_nil_iff] at independent
    exact ⟨independent.2.1, independent.1.1⟩
  rw [← joined, clear_append, clear_append, clear_append] at clear
  obtain ⟨⟨⟨effects, clearGivens⟩, clearEnsures⟩, -⟩ := clear
  rw [analyzeEffects, clear_append, clear_append, clear_all] at effects
  obtain ⟨⟨-, mutations⟩, lifecycle⟩ := effects
  constructor
  · intro m mem
    exact (set_of_clear (mutations _ (List.mem_map_of_mem mem))).1
  · exact admits_of_clear lifecycle
  · exact own_of_clear before clearGivens
  · exact own_of_clear after clearEnsures

end

end Hecks.Runtime
