import Hecks.Dispatch.Commit

/-! Where a creating command asks whether its record exists: at once, or just before the save.
Between the two places a dispatch writes nothing, so only the refusal reported first depends on
the place. -/
namespace Hecks

section

variable {T : Type} [Record T] {interpret : Interpreter} {escapes : Char → Bool}

/-- The command as a creating one, its existence check deferred or not. -/
def Command.creating (command : Command T) (id : String) (build : Unit → T)
    (stateIndependent : Bool) : Command T :=
  { command with hydrate := .create id build stateIndependent }

/-- What a dispatch does between the hydration and the write. -/
def Command.settle (interpret : Interpreter) (escapes : Char → Bool) (command : Command T)
    (repo : InMemoryRepository T) (hydrated : (String × T) × Bool) : Stage (String × T) := do
  let ((id, record), deferred) := hydrated
  enforceGivens interpret (fielded record) command.args command.givens command.commandName
    command.aggregateQualifiedName id
  admissibleTransition escapes (fielded record) command.transition command.commandName
  let mutated ← command.applyMutations.run interpret escapes record
  command.settledEnsures interpret mutated record
  enforceInvariants interpret (fielded mutated) command.aggregateName command.invariants
  command.tenantBoundaryCheck
  command.existing escapes repo deferred id
  return (id, seeded command.seedProjections mutated)

theorem candidate_eq (command : Command T) (repo : InMemoryRepository T) :
    command.candidate interpret escapes repo =
      liftM (hydrateRecord escapes repo command.hydrate command.commandName command.aggregateName
        command.identityReading) >>= command.settle interpret escapes repo := rfl

/-- The stages of a creating command do not depend on where its check stands. -/
theorem settle_creating (command : Command T) (id : String) (build : Unit → T)
    (stateIndependent : Bool) :
    (command.creating id build stateIndependent).settle interpret escapes =
      command.settle interpret escapes := rfl

variable {repo : InMemoryRepository T} {id : String}

/-- Over a repository without the record, a deferred check lets through what it is told to. -/
theorem settle_fresh (command : Command T) (fresh : repo.find id = none) (record : T) :
    command.settle interpret escapes repo ((id, record), true) =
      command.settle interpret escapes repo ((id, record), false) := by
  have passes : ∀ deferred, command.existing escapes repo deferred id = .ok () := by
    intro deferred
    unfold Command.existing
    simp [fresh]
  unfold Command.settle
  simp only [passes]

/-- A composition whose rest never returns does not return. -/
theorem perform_bind_refused {σ α β : Type} {m : Refusing σ α} {f : α → Refusing σ β}
    (refused : ∀ a s, ∃ r t, perform (f a) s = (.error r, t)) (s : σ) :
    ∃ r t, perform (m >>= f) s = (.error r, t) := by
  rw [perform_bind]
  rcases perform m s with ⟨r | a, t⟩
  · exact ⟨r, t, rfl⟩
  · exact refused a t

/-- Over a repository that holds the record, the deferred check refuses, whatever the stages
before it answer. -/
theorem settle_held (command : Command T) (held : (repo.find id).isSome) (record : T)
    (collected : Collector) : ∃ r left, perform
      (command.settle interpret escapes repo ((id, record), true)) collected = (.error r, left) := by
  have refuses : command.existing escapes repo true id =
      .error (alreadyExists escapes command.commandName command.aggregateName
        command.identityReading id) := by
    unfold Command.existing
    simp [held]
  unfold Command.settle
  refine perform_bind_refused (fun _ _ => ?_) collected
  refine perform_bind_refused (fun _ _ => ?_) _
  refine perform_bind_refused (fun mutated _ => ?_) _
  refine perform_bind_refused (fun _ _ => ?_) _
  refine perform_bind_refused (fun _ _ => ?_) _
  refine perform_bind_refused (fun _ left => ?_) _
  rw [refuses]
  exact ⟨_, left, rfl⟩

omit [Record T] in
/-- What the hydration of a creating command comes to, before its existence check. -/
theorem hydrateRecord_create {commandName aggregateName identityReading : String}
    {build : Unit → T} {stateIndependent : Bool} (named : id.isEmpty = false) :
    hydrateRecord escapes repo (.create id build stateIndependent) commandName aggregateName
        identityReading =
      if !stateIndependent && (repo.find id).isSome then
        .error (alreadyExists escapes commandName aggregateName identityReading id)
      else .ok ((id, build ()), stateIndependent) := by
  unfold hydrateRecord
  cases stateIndependent <;> simp [named]

/-- Either both places of the check give the same candidate, or neither gives one. -/
theorem candidate_creating (command : Command T) (id : String) (build : Unit → T)
    (repo : InMemoryRepository T) (collected : Collector) :
    (perform ((command.creating id build true).candidate interpret escapes repo) collected =
        perform ((command.creating id build false).candidate interpret escapes repo) collected) ∨
      ((∃ r left, perform ((command.creating id build true).candidate interpret escapes repo)
          collected = (.error r, left)) ∧
        ∃ r left, perform ((command.creating id build false).candidate interpret escapes repo)
          collected = (.error r, left)) := by
  cases named : id.isEmpty with
  | true =>
    left
    have blank : ∀ stateIndependent, (command.creating id build stateIndependent).candidate
        interpret escapes repo = throw (.notFound (RefusalSite.notFoundCreatingNoIdentity
          command.commandName command.aggregateName command.identityReading)) := by
      intro stateIndependent
      rw [candidate_eq]
      unfold Command.creating hydrateRecord
      simp only [named, if_true]
      rfl
    rw [blank, blank]
  | false =>
    simp only [candidate_eq, settle_creating]
    simp only [Command.creating, hydrateRecord_create named]
    cases held : (repo.find id).isSome with
    | true =>
      right
      refine ⟨settle_held command held (build ()) collected, ?_⟩
      exact ⟨_, collected, rfl⟩
    | false =>
      left
      have fresh : repo.find id = none := by simpa using held
      exact congrArg (perform · collected) (settle_fresh command fresh (build ()))

/-- Deferring the existence check of a creating command changes neither what is accepted nor
what an accepted dispatch answers and leaves; refused at either place, a dispatch leaves the
records and the mutation list as they were. -/
theorem deferred_existence_check (interpret : Interpreter) (escapes : Char → Bool)
    (command : Command T) (id : String) (build : Unit → T) (world : World T) :
    (∀ result after,
      perform (dispatch interpret escapes (command.creating id build true)) world =
          (.ok result, after) ↔
        perform (dispatch interpret escapes (command.creating id build false)) world =
          (.ok result, after)) ∧
    (∀ stateIndependent r after,
      perform (dispatch interpret escapes (command.creating id build stateIndependent)) world =
          (.error r, after) →
        after.repo = world.repo ∧ after.mutations = world.mutations) := by
  constructor
  · intro result after
    have deferred := Invocation.perform_run interpret escapes
      (.root (command.creating id build true)) world
    have eager := Invocation.perform_run interpret escapes
      (.root (command.creating id build false)) world
    simp only [Invocation.run, Invocation.candidate] at deferred eager
    rw [deferred, eager]
    rcases candidate_creating command id build world.repo world.collected with
      same | ⟨⟨r, left, late⟩, ⟨s, left', early⟩⟩
    · rw [same]
      rfl
    · rw [late, early]
      constructor <;> rintro ⟨⟩
  · intro stateIndependent r after refused
    have ran := Invocation.perform_run interpret escapes
      (.root (command.creating id build stateIndependent)) world
    simp only [Invocation.run] at ran
    rw [ran] at refused
    split at refused
    · cases refused
      exact ⟨rfl, rfl⟩
    · cases refused

end

end Hecks
