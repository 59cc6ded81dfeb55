import Mathlib
import Hecks.Dispatch.Entity

/-! The generic dispatch loops over the declared step order, of an aggregate command and of an
entity command, and what both come to: a stage that only reads the repository, then one
write. -/
namespace Hecks

/-- The records of one aggregate by id. Nothing here reads their order. -/
def InMemoryRepository (T : Type) : Type := AList fun _ : String => T

namespace InMemoryRepository

variable {T : Type}

def empty : InMemoryRepository T := (∅ : AList fun _ : String => T)

def find (repo : InMemoryRepository T) (id : String) : Option T := AList.lookup id repo

def save (repo : InMemoryRepository T) (id : String) (record : T) : InMemoryRepository T :=
  AList.insert id record repo

@[simp] theorem find_empty (id : String) : (empty : InMemoryRepository T).find id = none := rfl

@[simp] theorem find_save_self (repo : InMemoryRepository T) (id : String) (record : T) :
    (repo.save id record).find id = some record := AList.lookup_insert repo

theorem find_save_of_ne {repo : InMemoryRepository T} {id other : String} {record : T}
    (h : other ≠ id) : (repo.save id record).find other = repo.find other :=
  AList.lookup_insert_ne h

end InMemoryRepository

/-- What a dispatch asks of an aggregate's record type, beyond its fields. -/
class Record (T : Type) extends AsFielded T where
  toJson : T → Json
  setProjectedField : String → Option Value → T → T

/-- What a dispatch can change: the repository and the mutation list it is handed, and the
thread's collector. -/
structure World (T : Type) where
  repo : InMemoryRepository T
  mutations : List MutationRecord
  collected : Collector

abbrev Dispatch (T : Type) := Refusing (World T)

/-- The declared order of an aggregate dispatch. -/
inductive AggregateStep where
  | decodeArguments
  | refuseUnknownArguments
  | refuseAbsentArguments
  | normalizeArgs
  | refuseRoleMismatch
  | resolveReferences
  | hydrate
  | enforceGivens
  | admissibleTransition
  | assignCreationAttributes
  | applyMutations
  | advanceLifecycle
  | delegateToEntity
  | enforceEnsures
  | enforceInvariants
  | save
  | emit
deriving DecidableEq

def AggregateStep.ORDER : List AggregateStep :=
  [.decodeArguments, .refuseUnknownArguments, .refuseAbsentArguments, .normalizeArgs,
    .refuseRoleMismatch, .resolveReferences, .hydrate, .enforceGivens, .admissibleTransition,
    .assignCreationAttributes, .applyMutations, .advanceLifecycle, .delegateToEntity,
    .enforceEnsures, .enforceInvariants, .save, .emit]

/-- How a dispatch obtains its starting record. `stateIndependent` defers the existence check
to just before the save. -/
inductive Hydrate (T : Type) where
  | create (id : String) (build : Unit → T) (stateIndependent : Bool)
  | act (id : String)

/-- One invocation of an aggregate command, as the generated caller hands it over. -/
structure Command (T : Type) where
  hydrate : Hydrate T
  commandName : String
  aggregateQualifiedName : String
  aggregateName : String
  identityReading : String
  args : Fielded
  givens : List GivenSpec
  transition : Option TransitionCheck
  applyMutations : Mutation T
  ensures : List EnsuresSpec
  invariants : InvariantSet
  emits : List String
  payload : Json
  seedProjections : List (String × Option Value)
  tenantBoundaryCheck : Except Refusal Unit

/-- One invocation of an entity command: the element half, and the parent half around it. -/
structure EntityCommand (T E : Type) where
  call : ElementCall T E
  parentIdentityReading : String
  applyMutations : Mutation E
  invariants : InvariantSet
  emits : List String
  payload : Json
  seedProjections : List (String × Option Value)

/-- `parent` is bound into the scope of an entity dispatch, always. -/
def EntityCommand.half {T E : Type} (command : EntityCommand T E) : ElementCall T E :=
  { command.call with parentInArgs := true }

section Parts

variable {T : Type}

/-- A stage inside a dispatch: of all the dispatch can change, it changes the collector. -/
def stage {α : Type} (m : Stage α) : Dispatch T α := fun world =>
  match perform m world.collected with
  | (outcome, collected) => (outcome, { world with collected := collected })

def alreadyExists (escapes : Char → Bool) (commandName aggregateName identityReading id : String) :
    Refusal :=
  .alreadyExists (RefusalSite.alreadyExistsCreatingDuplicate commandName aggregateName
    identityReading (Text.debugStr escapes id))

def recordMissing (escapes : Char → Bool) (aggregateName identityReading id : String) : Refusal :=
  .notFound (RefusalSite.notFoundRecordMissing aggregateName identityReading
    (Text.debugStr escapes id))

/-- `hydrate_record`: the id, the record, and whether the existence check is deferred. -/
def hydrateRecord (escapes : Char → Bool) (repo : InMemoryRepository T) (hydrate : Hydrate T)
    (commandName aggregateName identityReading : String) :
    Except Refusal ((String × T) × Bool) :=
  match hydrate with
  | .create id build stateIndependent =>
      if id.isEmpty then
        .error (.notFound (RefusalSite.notFoundCreatingNoIdentity commandName aggregateName
          identityReading))
      else if stateIndependent then .ok ((id, build ()), true)
      else if (repo.find id).isSome then
        .error (alreadyExists escapes commandName aggregateName identityReading id)
      else .ok ((id, build ()), false)
  | .act id =>
      match repo.find id with
      | some record => .ok ((id, record), false)
      | none => .error (recordMissing escapes aggregateName identityReading id)

/-- The declared events, in declared order. They are stamped later, by the orchestration. -/
def emitted (emits : List String) (aggregateQualifiedName id : String) (payload : Json) :
    List Event :=
  emits.map fun name =>
    { name := name, aggregate := aggregateQualifiedName, id := id, payload := payload,
      occurredAt := none, correlation := none }

variable [Record T]

/-- The mutation record of one save. -/
def mutationOf (id : String) (record : T) (aggregateQualifiedName : String) : MutationRecord :=
  { aggregate := aggregateQualifiedName, id := id, operation := "save",
    state := Record.toJson record }

/-- The write half of `save`: the repository write and its mutation record. -/
def persist (id : String) (record : T) (aggregateQualifiedName : String) : Dispatch T Unit :=
  modify fun world =>
    { world with
      repo := world.repo.save id record
      mutations := world.mutations ++ [mutationOf id record aggregateQualifiedName] }

/-- The synchronous half of `projects`, applied right before the save. -/
def seeded (seedProjections : List (String × Option Value)) (record : T) : T :=
  seedProjections.foldl (fun record (field, value) => Record.setProjectedField field value record)
    record

end Parts

section Root

variable {T : Type} [Record T] (interpret : Interpreter) (escapes : Char → Bool)

/-- The local variables of the loop. A once-only input stands in its slot until taken. -/
structure Frame (T : Type) where
  deferExistenceCheck : Bool
  hydrate : Option (Hydrate T)
  applyMutations : Option (T → Stage T)
  tenantBoundaryCheck : Option (Except Refusal Unit)
  seedProjections : Option (List (String × Option Value))
  hydrated : Option (String × T)
  oldSnapshot : Option T
  events : List Event

variable (command : Command T)

def Command.start : Frame T where
  deferExistenceCheck := false
  hydrate := some command.hydrate
  applyMutations := some (command.applyMutations.run interpret escapes)
  tenantBoundaryCheck := some command.tenantBoundaryCheck
  seedProjections := some command.seedProjections
  hydrated := none
  oldSnapshot := none
  events := []

/-- `old` is the state as the givens saw it, kept only when an `ensures` is declared. -/
def Command.holdToEnsures (settled : T) (old : Option T) : Dispatch T Unit :=
  match old with
  | none => pure ()
  | some old =>
      stage (enforceEnsures interpret (fielded settled) (fielded old) command.args
        command.ensures command.commandName)

/-- The deferred existence check of a state-independent create. -/
def Command.refuseExisting (deferred : Bool) (id : String) : Dispatch T Unit := do
  if deferred && ((← get).repo.find id).isSome then
    throw (alreadyExists escapes command.commandName command.aggregateName
      command.identityReading id)

/-- One declared step of an aggregate dispatch. -/
def Command.step (frame : Frame T) : AggregateStep → Dispatch T (Frame T)
  -- The argument gates have run before the router resolved the identity.
  | .decodeArguments | .refuseUnknownArguments | .refuseAbsentArguments | .normalizeArgs
  | .refuseRoleMismatch | .resolveReferences => pure frame
  | .hydrate => do
      let hydrate ← ordered frame.hydrate ONCE
      let (hydrated, deferred) ← hydrateRecord escapes (← get).repo hydrate command.commandName
        command.aggregateName command.identityReading
      return { frame with
        hydrate := none
        hydrated := some hydrated
        deferExistenceCheck := deferred }
  | .enforceGivens => do
      let (id, record) ← ordered frame.hydrated HYDRATED
      stage (enforceGivens interpret (fielded record) command.args command.givens
        command.commandName command.aggregateQualifiedName id)
      return frame
  | .admissibleTransition => do
      let (_, record) ← ordered frame.hydrated HYDRATED
      admissibleTransition escapes (fielded record) command.transition command.commandName
      return frame
  -- Folded into the build of a creating command: the givens already saw the built record.
  | .assignCreationAttributes => pure frame
  | .applyMutations => do
      let (id, record) ← ordered frame.hydrated HYDRATED
      let apply ← ordered frame.applyMutations ONCE
      let mutated ← stage (apply record)
      return { frame with
        hydrated := some (id, mutated)
        oldSnapshot := if command.ensures.isEmpty then none else some record
        applyMutations := none }
  -- The generated closure writes the lifecycle state and delegates to the entity.
  | .advanceLifecycle | .delegateToEntity => pure frame
  | .enforceEnsures => do
      let (_, record) ← ordered frame.hydrated HYDRATED
      command.holdToEnsures interpret record frame.oldSnapshot
      return frame
  | .enforceInvariants => do
      let (_, record) ← ordered frame.hydrated HYDRATED
      stage (enforceInvariants interpret (fielded record) command.aggregateName
        command.invariants)
      return frame
  | .save => do
      let (id, record) ← ordered frame.hydrated HYDRATED
      -- The tenant boundary precedes the seeded projections and the write.
      let boundary ← ordered frame.tenantBoundaryCheck ONCE
      boundary
      let record := seeded (← ordered frame.seedProjections ONCE) record
      command.refuseExisting escapes frame.deferExistenceCheck id
      persist id record command.aggregateQualifiedName
      return { frame with
        hydrated := some (id, record)
        tenantBoundaryCheck := none
        seedProjections := none }
  | .emit => do
      let (id, _) ← ordered frame.hydrated HYDRATED
      return { frame with
        events := emitted command.emits command.aggregateQualifiedName id command.payload }

def dispatch : Dispatch T (T × List Event) := do
  let frame ← AggregateStep.ORDER.foldlM (command.step interpret escapes)
    (command.start interpret escapes)
  let (_, record) ← ordered frame.hydrated HYDRATED
  return (record, frame.events)

end Root

section Element

variable {T E : Type} [Record T] [AsFielded E] (interpret : Interpreter)
  (escapes : Char → Bool)

structure EntityFrame (T E : Type) where
  element : ElementSlots T E
  seedProjections : Option (List (String × Option Value))
  hydrated : Option T
  events : List Event

variable (command : EntityCommand T E)

def EntityCommand.start : EntityFrame T E where
  element := command.half.start (command.applyMutations.run interpret escapes)
  seedProjections := some command.seedProjections
  hydrated := none
  events := []

/-- The parent lookup raises what an acting aggregate command raises. -/
def EntityCommand.hydrateParent (repo : InMemoryRepository T) : Except Refusal T :=
  match repo.find command.half.parentId with
  | some record => .ok record
  | none =>
      .error (recordMissing escapes command.half.aggregateName command.parentIdentityReading
        command.half.parentId)

/-- One declared step of an entity dispatch. -/
def EntityCommand.step (frame : EntityFrame T E) (step : EntityStep) :
    Dispatch T (EntityFrame T E) :=
  match step with
  | .decodeArguments | .refuseUnknownArguments | .refuseAbsentArguments | .normalizeArgs
  | .refuseRoleMismatch | .resolveReferences => pure frame
  | .hydrateParent => do
      let record ← command.hydrateParent escapes (← get).repo
      return { frame with hydrated := some record }
  -- The element half: the same body a delegating aggregate command runs.
  | .locateElement | .enforceGivens | .admissibleTransition | .applyMutations
  | .advanceLifecycle | .enforceEnsures => do
      let record ← ordered frame.hydrated HYDRATED
      let (element, record) ←
        stage (command.half.run interpret escapes step frame.element record)
      return { frame with element := element, hydrated := some record }
  | .enforceInvariants => do
      let record ← ordered frame.hydrated HYDRATED
      stage (enforceInvariants interpret (fielded record) command.half.aggregateName
        command.invariants)
      return frame
  | .save => do
      let record ← ordered frame.hydrated HYDRATED
      let record := seeded (← ordered frame.seedProjections ONCE) record
      persist command.half.parentId record command.half.aggregateQualifiedName
      return { frame with hydrated := some record, seedProjections := none }
  | .emit =>
      return { frame with
        events := emitted command.emits command.half.aggregateQualifiedName
          command.half.parentId command.payload }

def dispatchEntity : Dispatch T (T × List Event) := do
  let frame ← EntityStep.ORDER.foldlM (command.step interpret escapes)
    (command.start interpret escapes)
  return (← ordered frame.hydrated HYDRATED, frame.events)

end Element

/-! ### A stage that reads, then one write -/

section Reads

variable {T α β : Type} {repo : InMemoryRepository T}

/-- Over the repository `repo`, `m` writes nothing: it runs as the stage `s`. -/
def Reads (repo : InMemoryRepository T) (m : Dispatch T α) (s : Stage α) : Prop :=
  ∀ mutations collected, perform m ⟨repo, mutations, collected⟩ =
    match perform s collected with
    | (outcome, collected) => (outcome, ⟨repo, mutations, collected⟩)

namespace Reads

theorem pure (a : α) : Reads repo (Pure.pure a) (Pure.pure a) := fun _ _ => rfl

theorem throw (r : Refusal) : Reads repo (throw r : Dispatch T α) (throw r) := fun _ _ => rfl

theorem ofExcept (x : Except Refusal α) : Reads repo (liftM x) (liftM x) := fun _ _ => rfl

theorem stage (m : Stage α) : Reads repo (Hecks.stage m) m := fun _ _ => rfl

theorem bind {m : Dispatch T α} {s : Stage α} {f : α → Dispatch T β} {g : α → Stage β}
    (hm : Reads repo m s) (hf : ∀ a, Reads repo (f a) (g a)) :
    Reads repo (m >>= f) (s >>= g) := by
  intro mutations collected
  rw [perform_bind, hm mutations collected, perform_bind]
  rcases perform s collected with ⟨_ | a, collected⟩
  · rfl
  · exact hf a mutations collected

theorem get {f : World T → Dispatch T β} {s : Stage β}
    (hf : ∀ mutations collected, Reads repo (f ⟨repo, mutations, collected⟩) s) :
    Reads repo (MonadState.get >>= f) s :=
  fun mutations collected => hf mutations collected mutations collected

theorem ite {p : Prop} [Decidable p] {m n : Dispatch T α} {s t : Stage α}
    (hm : Reads repo m s) (hn : Reads repo n t) :
    Reads repo (if p then m else n) (if p then s else t) := by
  by_cases h : p
  · simpa only [if_pos h] using hm
  · simpa only [if_neg h] using hn

end Reads

end Reads

section Decompose

variable {T E : Type} [Record T] [AsFielded E] (interpret : Interpreter)
  (escapes : Char → Bool)

/-- What the settled record is held to: nothing when no `ensures` is declared. -/
def Command.settledEnsures (command : Command T) (settled old : T) : Stage Unit :=
  if command.ensures.isEmpty then pure ()
  else enforceEnsures interpret (fielded settled) (fielded old) command.args command.ensures
    command.commandName

/-- The deferred existence check, of the repository the dispatch started on. -/
def Command.existing (command : Command T) (repo : InMemoryRepository T) (deferred : Bool)
    (id : String) : Except Refusal Unit :=
  if deferred && (repo.find id).isSome then
    .error (alreadyExists escapes command.commandName command.aggregateName
      command.identityReading id)
  else .ok ()

/-- Everything an aggregate dispatch does before it writes: the id and the record to save. -/
def Command.candidate (command : Command T) (repo : InMemoryRepository T) :
    Stage (String × T) := do
  let ((id, record), deferred) ← hydrateRecord escapes repo command.hydrate command.commandName
    command.aggregateName command.identityReading
  enforceGivens interpret (fielded record) command.args command.givens command.commandName
    command.aggregateQualifiedName id
  admissibleTransition escapes (fielded record) command.transition command.commandName
  let mutated ← command.applyMutations.run interpret escapes record
  command.settledEnsures interpret mutated record
  enforceInvariants interpret (fielded mutated) command.aggregateName command.invariants
  command.tenantBoundaryCheck
  command.existing escapes repo deferred id
  return (id, seeded command.seedProjections mutated)

/-- What either dispatch does with the record to save. -/
def write (aggregateQualifiedName : String) (emits : List String) (payload : Json)
    (candidate : String × T) : Dispatch T (T × List Event) := do
  persist candidate.1 candidate.2 aggregateQualifiedName
  return (candidate.2, emitted emits aggregateQualifiedName candidate.1 payload)

omit [Record T] in
theorem reads_refuseExisting (command : Command T) (repo : InMemoryRepository T)
    (deferred : Bool) (id : String) :
    Reads repo (command.refuseExisting escapes deferred id)
      (liftM (command.existing escapes repo deferred id)) := by
  refine .get fun _ _ => ?_
  unfold Command.existing
  cases deferred && (repo.find id).isSome with
  | true => exact .throw _
  | false => exact .pure _

theorem holdToEnsures_snapshot (command : Command T) (settled old : T) :
    command.holdToEnsures interpret settled
        (if command.ensures.isEmpty then none else some old) =
      stage (command.settledEnsures interpret settled old) := by
  unfold Command.settledEnsures
  cases command.ensures.isEmpty <;> rfl

/-- An aggregate dispatch is a stage that reads the repository, then one write. -/
theorem dispatch_eq (command : Command T) :
    ∃ m : Dispatch T (String × T),
      (∀ repo, Reads repo m (command.candidate interpret escapes repo)) ∧
      dispatch interpret escapes command =
        m >>= write command.aggregateQualifiedName command.emits command.payload := by
  refine ⟨do
    let world ← get
    let x ← hydrateRecord escapes world.repo command.hydrate command.commandName
      command.aggregateName command.identityReading
    stage (enforceGivens interpret (fielded x.1.2) command.args command.givens
      command.commandName command.aggregateQualifiedName x.1.1)
    admissibleTransition escapes (fielded x.1.2) command.transition command.commandName
    let mutated ← stage (command.applyMutations.run interpret escapes x.1.2)
    stage (command.settledEnsures interpret mutated x.1.2)
    stage (enforceInvariants interpret (fielded mutated) command.aggregateName
      command.invariants)
    command.tenantBoundaryCheck
    command.refuseExisting escapes x.2 x.1.1
    return (x.1.1, seeded command.seedProjections mutated), ?_, ?_⟩
  · refine fun repo => .get fun _ _ => .bind (.ofExcept _) fun x => .bind (.stage _) fun _ => ?_
    refine .bind (.ofExcept _) fun _ => .bind (.stage _) fun mutated => .bind (.stage _) fun _ => ?_
    refine .bind (.stage _) fun _ => .bind (.ofExcept _) fun _ => ?_
    exact .bind (reads_refuseExisting escapes command repo _ _) fun _ => .pure _
  · simp only [dispatch, AggregateStep.ORDER, List.foldlM_cons, List.foldlM_nil, Command.step,
      Command.start, pure_bind, bind_assoc, ordered_some, holdToEnsures_snapshot, write]

/-- Everything an entity dispatch does before it writes. -/
def EntityCommand.candidate (command : EntityCommand T E) (repo : InMemoryRepository T) :
    Stage (String × T) := do
  let record ← command.hydrateParent escapes repo
  let mutated ← command.half.applyEntityCommand interpret escapes
    (command.applyMutations.run interpret escapes) record
  enforceInvariants interpret (fielded mutated) command.half.aggregateName command.invariants
  return (command.half.parentId, seeded command.seedProjections mutated)

/-- The element half is the steps of the declared order that are its own. -/
theorem ElementCall.applyEntityCommand_steps (call : ElementCall T E) (apply : E → Stage E)
    (record : T) :
    call.applyEntityCommand interpret escapes apply record = do
      let x ← call.run interpret escapes .locateElement (call.start apply) record
      let x ← call.run interpret escapes .enforceGivens x.1 x.2
      let x ← call.run interpret escapes .admissibleTransition x.1 x.2
      let x ← call.run interpret escapes .applyMutations x.1 x.2
      let x ← call.run interpret escapes .advanceLifecycle x.1 x.2
      let x ← call.run interpret escapes .enforceEnsures x.1 x.2
      return x.2 := by
  simp only [applyEntityCommand, EntityStep.ORDER, List.foldlM_cons, List.foldlM_nil, run,
    pure_bind, bind_assoc]

/-- An entity dispatch is a stage that reads the repository, then one write. -/
theorem dispatchEntity_eq (command : EntityCommand T E) :
    ∃ m : Dispatch T (String × T),
      (∀ repo, Reads repo m (command.candidate interpret escapes repo)) ∧
      dispatchEntity interpret escapes command =
        m >>= write command.half.aggregateQualifiedName command.emits command.payload := by
  refine ⟨do
    let world ← get
    let record ← command.hydrateParent escapes world.repo
    let x ← stage (command.half.run interpret escapes .locateElement
      (command.half.start (command.applyMutations.run interpret escapes)) record)
    let x ← stage (command.half.run interpret escapes .enforceGivens x.1 x.2)
    let x ← stage (command.half.run interpret escapes .admissibleTransition x.1 x.2)
    let x ← stage (command.half.run interpret escapes .applyMutations x.1 x.2)
    let x ← stage (command.half.run interpret escapes .advanceLifecycle x.1 x.2)
    let x ← stage (command.half.run interpret escapes .enforceEnsures x.1 x.2)
    stage (enforceInvariants interpret (fielded x.2) command.half.aggregateName
      command.invariants)
    return (command.half.parentId, seeded command.seedProjections x.2), ?_, ?_⟩
  · intro repo
    simp only [EntityCommand.candidate, ElementCall.applyEntityCommand_steps, bind_assoc,
      pure_bind]
    refine .get fun _ _ => .bind (.ofExcept _) fun record => .bind (.stage _) fun _ => ?_
    refine .bind (.stage _) fun _ => .bind (.stage _) fun _ => .bind (.stage _) fun _ => ?_
    refine .bind (.stage _) fun _ => .bind (.stage _) fun _ => .bind (.stage _) fun _ => ?_
    exact .pure _
  · simp only [dispatchEntity, EntityStep.ORDER, List.foldlM_cons, List.foldlM_nil,
      EntityCommand.step, EntityCommand.start, pure_bind, bind_assoc, ordered_some, write]

end Decompose

end Hecks
