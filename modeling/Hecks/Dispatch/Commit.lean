import Hecks.Dispatch.Command

/-! What a dispatch leaves behind. A refused one leaves the repository and the mutation list
as they were; an accepted one saves one record, and that record is one which passed its
invariants, with the projected fields seeded over it. -/
namespace Hecks

/-- One call of either dispatch. -/
inductive Invocation (T : Type) : Type 1 where
  | root (command : Command T)
  | element {E : Type} [AsFielded E] (command : EntityCommand T E)

namespace Invocation

variable {T : Type}

/-- The id of the record the invocation is about. -/
def id : Invocation T → String
  | root { hydrate := .create id _ _, .. } => id
  | root { hydrate := .act id, .. } => id
  | element command => command.half.parentId

def aggregateQualifiedName : Invocation T → String
  | root command => command.aggregateQualifiedName
  | element command => command.half.aggregateQualifiedName

def aggregateName : Invocation T → String
  | root command => command.aggregateName
  | element command => command.half.aggregateName

def invariants : Invocation T → InvariantSet
  | root command => command.invariants
  | element command => command.invariants

def emits : Invocation T → List String
  | root command => command.emits
  | element command => command.emits

def payload : Invocation T → Json
  | root command => command.payload
  | element command => command.payload

def seedProjections : Invocation T → List (String × Option Value)
  | root command => command.seedProjections
  | element command => command.seedProjections

variable [Record T] (interpret : Interpreter) (escapes : Char → Bool)

def run : Invocation T → Dispatch T (T × List Event)
  | root command => dispatch interpret escapes command
  | element command => dispatchEntity interpret escapes command

def candidate : Invocation T → InMemoryRepository T → Stage (String × T)
  | root command => command.candidate interpret escapes
  | element command => command.candidate interpret escapes

theorem run_eq (invocation : Invocation T) :
    ∃ m : Dispatch T (String × T),
      (∀ repo, Reads repo m (invocation.candidate interpret escapes repo)) ∧
      invocation.run interpret escapes =
        m >>= write invocation.aggregateQualifiedName invocation.emits invocation.payload :=
  match invocation with
  | root command => dispatch_eq interpret escapes command
  | element command => dispatchEntity_eq interpret escapes command

/-- A dispatch in one line: the candidate of the repository it was handed, written once. -/
theorem perform_run (invocation : Invocation T) (world : World T) :
    perform (invocation.run interpret escapes) world =
      match perform (invocation.candidate interpret escapes world.repo) world.collected with
      | (.error r, collected) => (.error r, { world with collected := collected })
      | (.ok (id, record), collected) =>
          (.ok (record, emitted invocation.emits invocation.aggregateQualifiedName id
              invocation.payload),
            { repo := world.repo.save id record
              mutations := world.mutations ++
                [mutationOf id record invocation.aggregateQualifiedName]
              collected := collected }) := by
  obtain ⟨m, hreads, hrun⟩ := invocation.run_eq interpret escapes
  have hm := hreads world.repo world.mutations world.collected
  rw [hrun, perform_bind, hm]
  rcases perform (invocation.candidate interpret escapes world.repo) world.collected with
    ⟨_ | ⟨id, record⟩, collected⟩
  · rfl
  · rfl

end Invocation

section Candidate

variable {T E : Type} [Record T] [AsFielded E] {interpret : Interpreter}
  {escapes : Char → Bool}

/-- The record passes `enforce_invariants`. -/
def Passes (interpret : Interpreter) (record : T) (aggregateName : String)
    (set : InvariantSet) : Prop :=
  perform (enforceInvariants interpret (fielded record) aggregateName set) none = (.ok (), none)

/-- Passed with a collector bound is passed without. -/
theorem passes_of_ok {record : T} {aggregateName : String} {set : InvariantSet}
    {c d : Collector}
    (h : perform (enforceInvariants interpret (fielded record) aggregateName set) c =
      (.ok (), d)) : Passes interpret record aggregateName set := by
  rw [enforceInvariants_follows _ _ _ c] at h
  rw [Passes, enforceInvariants_follows _ _ _ none]
  exact Prod.ext (Trial.under_ok h).1 rfl

omit [Record T] in
theorem hydrateRecord_id {repo : InMemoryRepository T} {hydrate : Hydrate T}
    {commandName aggregateName identityReading : String} {id : String} {record : T}
    {deferred : Bool} (h : hydrateRecord escapes repo hydrate commandName aggregateName
      identityReading = .ok ((id, record), deferred)) :
    (∃ build independent, hydrate = .create id build independent) ∨ hydrate = .act id := by
  cases hydrate with
  | create id' build independent =>
      simp only [hydrateRecord] at h
      split_ifs at h <;> cases h
      all_goals exact .inl ⟨_, _, rfl⟩
  | act id' =>
      simp only [hydrateRecord] at h
      cases hfind : repo.find id' with
      | none =>
          rw [hfind] at h
          cases h
      | some record' =>
          rw [hfind] at h
          cases h
          exact .inr rfl

theorem Command.candidate_ok {command : Command T} {repo : InMemoryRepository T} {id : String}
    {record : T} {c d : Collector}
    (h : perform (command.candidate interpret escapes repo) c = (.ok (id, record), d)) :
    id = (Invocation.root command).id ∧
      ∃ checked, Passes interpret checked command.aggregateName command.invariants ∧
        record = seeded command.seedProjections checked := by
  obtain ⟨⟨⟨id', before⟩, deferred⟩, _, hhydrate, h⟩ := perform_bind_ok h
  obtain ⟨_, _, -, h⟩ := perform_bind_ok h
  obtain ⟨_, _, -, h⟩ := perform_bind_ok h
  obtain ⟨mutated, _, -, h⟩ := perform_bind_ok h
  obtain ⟨_, _, -, h⟩ := perform_bind_ok h
  obtain ⟨_, _, hpasses, h⟩ := perform_bind_ok h
  obtain ⟨_, _, -, h⟩ := perform_bind_ok h
  obtain ⟨_, _, -, h⟩ := perform_bind_ok h
  cases h
  refine ⟨?_, mutated, passes_of_ok hpasses, rfl⟩
  rcases command with ⟨hydrate, _⟩
  rcases hydrateRecord_id (Prod.ext_iff.mp hhydrate).1 with ⟨_, _, rfl⟩ | rfl <;> rfl

theorem EntityCommand.candidate_ok {command : EntityCommand T E} {repo : InMemoryRepository T}
    {id : String} {record : T} {c d : Collector}
    (h : perform (command.candidate interpret escapes repo) c = (.ok (id, record), d)) :
    id = command.half.parentId ∧
      ∃ checked, Passes interpret checked command.half.aggregateName command.invariants ∧
        record = seeded command.seedProjections checked := by
  obtain ⟨_, _, -, h⟩ := perform_bind_ok h
  obtain ⟨mutated, _, -, h⟩ := perform_bind_ok h
  obtain ⟨_, _, hpasses, h⟩ := perform_bind_ok h
  cases h
  exact ⟨rfl, mutated, passes_of_ok hpasses, rfl⟩

theorem Invocation.candidate_ok {invocation : Invocation T} {repo : InMemoryRepository T}
    {id : String} {record : T} {c d : Collector}
    (h : perform (invocation.candidate interpret escapes repo) c = (.ok (id, record), d)) :
    id = invocation.id ∧
      ∃ checked, Passes interpret checked invocation.aggregateName invocation.invariants ∧
        record = seeded invocation.seedProjections checked := by
  cases invocation with
  | root command => exact Command.candidate_ok h
  | element command => exact EntityCommand.candidate_ok h

end Candidate

section Commit

variable {T : Type} [Record T] (interpret : Interpreter) (escapes : Char → Bool)

/-- A dispatch is all or nothing, aggregate command or entity command: refused, it leaves the
repository and the mutation list alone; accepted, it is one save, described by one mutation
record, and the declared events in declared order. -/
theorem dispatch_all_or_nothing (invocation : Invocation T) (world : World T) :
    (∀ r after, perform (invocation.run interpret escapes) world = (.error r, after) →
      after.repo = world.repo ∧ after.mutations = world.mutations) ∧
    (∀ record events after,
      perform (invocation.run interpret escapes) world = (.ok (record, events), after) →
        after.repo = world.repo.save invocation.id record ∧
        after.mutations = world.mutations ++
          [{ aggregate := invocation.aggregateQualifiedName, id := invocation.id,
             operation := "save", state := Record.toJson record }] ∧
        after.repo.find invocation.id = some record ∧
        (∀ other, other ≠ invocation.id → after.repo.find other = world.repo.find other) ∧
        events = invocation.emits.map fun name =>
          { name := name, aggregate := invocation.aggregateQualifiedName, id := invocation.id,
            payload := invocation.payload, occurredAt := none, correlation := none }) := by
  rw [Invocation.perform_run]
  rcases hc : perform (invocation.candidate interpret escapes world.repo) world.collected with
    ⟨r | ⟨id, record⟩, collected⟩
  · refine ⟨?_, ?_⟩
    · rintro _ _ ⟨⟩
      exact ⟨rfl, rfl⟩
    · rintro _ _ _ ⟨⟩
  · obtain ⟨rfl, -⟩ := Invocation.candidate_ok hc
    refine ⟨?_, ?_⟩
    · rintro _ _ ⟨⟩
    · rintro _ _ _ ⟨⟩
      exact ⟨rfl, rfl, InMemoryRepository.find_save_self _ _ _,
        fun _ hne => InMemoryRepository.find_save_of_ne hne, rfl⟩

/-- Whatever a dispatch hands to the repository's save passed its invariants before the
projected fields were seeded over it. -/
theorem saved_record_passed_before_seeding (invocation : Invocation T) (world : World T) :
    (∀ r after, perform (invocation.run interpret escapes) world = (.error r, after) →
      after.repo = world.repo) ∧
    (∀ record events after,
      perform (invocation.run interpret escapes) world = (.ok (record, events), after) →
        after.repo = world.repo.save invocation.id record ∧
        ∃ checked, Passes interpret checked invocation.aggregateName invocation.invariants ∧
          record = seeded invocation.seedProjections checked) := by
  rw [Invocation.perform_run]
  rcases hc : perform (invocation.candidate interpret escapes world.repo) world.collected with
    ⟨r | ⟨id, record⟩, collected⟩
  · refine ⟨?_, ?_⟩
    · rintro _ _ ⟨⟩
      rfl
    · rintro _ _ _ ⟨⟩
  · obtain ⟨rfl, hchecked⟩ := Invocation.candidate_ok hc
    refine ⟨?_, ?_⟩
    · rintro _ _ ⟨⟩
    · rintro _ _ _ ⟨⟩
      exact ⟨rfl, hchecked⟩

end Commit

/-- A booking with one projected field: whether its hotel is open. -/
structure Booking where
  hotelOpen : Option Bool

instance : Record Booking where
  fielded booking :=
    .mk (fun name =>
        if name = "hotel_open" then some (.value (booking.hotelOpen.elim .nil .bool)) else none)
      (fun _ => none) none none
  toJson booking := .object [("hotel_open", booking.hotelOpen.elim .null .bool)]
  setProjectedField name value booking :=
    if name = "hotel_open" then
      ⟨match value with
        | some (.bool b) => some b
        | _ => none⟩
    else booking

/-- A command on a booking, at a time when its hotel has closed. -/
def confirmBooking : Command Booking where
  hydrate := .act "b1"
  commandName := "Confirm"
  aggregateQualifiedName := "Stays::Booking"
  aggregateName := "Booking"
  identityReading := "number"
  args := .noFields
  givens := []
  transition := none
  applyMutations := .write .ok
  ensures := []
  invariants := ⟨[⟨"the hotel is open", .lookup "hotel_open"⟩], []⟩
  emits := ["Confirmed"]
  payload := .object []
  seedProjections := [("hotel_open", some (.bool false))]
  tenantBoundaryCheck := .ok ()

def openBooking : World Booking where
  repo := InMemoryRepository.empty.save "b1" ⟨some true⟩
  mutations := []
  collected := none

/-- The record saved is not held to its invariants again once its projected fields are
seeded: a closed hotel is stored under the rule that it is open. -/
theorem closed_hotel_stored :
    ∃ record events after,
      perform (Invocation.run interpretLeaf (fun _ => false) (.root confirmBooking)) openBooking =
        (.ok (record, events), after) ∧
      after.repo.find "b1" = some record ∧
      ¬ Passes interpretLeaf record "Booking" confirmBooking.invariants := by
  refine ⟨⟨some false⟩, _, _, rfl, rfl, ?_⟩
  intro h
  cases h

end Hecks
