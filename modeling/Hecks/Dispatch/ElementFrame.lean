import Hecks.Dispatch.Commit

/-! What an accepted entity command leaves alone: every other element of the list and its place,
and every other field of the parent. -/
namespace Hecks

section

variable {T E : Type}

/-- `after` is the record `before` with one element of the call's list rewritten: the first one
the call matches. A field of the record other than the list is any reading of it that writing the
list does not change. -/
structure ElementCall.Rewrites (call : ElementCall T E) (before after : T) (position : Nat)
    (element mutated : E) : Prop where
  found : (call.list.get before)[position]? = some element
  wanted : call.matches element = true
  first : ∀ i < position, ∀ other, (call.list.get before)[i]? = some other →
    call.matches other = false
  written : (call.list.get after)[position]? = some mutated
  elsewhere : ∀ i, i ≠ position → (call.list.get after)[i]? = (call.list.get before)[i]?
  length : (call.list.get after).length = (call.list.get before).length
  others : ∀ {α : Type} (read : T → α),
    (∀ elements record, read (call.list.set elements record) = read record) →
      read after = read before

/-- Putting the element back is such a rewriting. -/
theorem ElementCall.rewrites_put (call : ElementCall T E) (before : T) {position : Nat}
    (hposition : (call.list.get before).findIdx? call.matches = some position) (mutated : E) :
    ∃ element, (call.list.get before)[position]? = some element ∧
      call.Rewrites before (call.put position mutated before) position element mutated := by
  obtain ⟨inside, wanted, first⟩ := List.findIdx?_eq_some_iff_getElem.mp hposition
  have list : call.list.get (call.put position mutated before) =
      (call.list.get before).set position mutated := by
    rw [put, call.list.get_set]
  refine ⟨_, List.getElem?_eq_getElem inside, ?_⟩
  constructor
  · exact List.getElem?_eq_getElem inside
  · exact wanted
  · intro i low other here
    obtain ⟨bound, rfl⟩ := List.getElem?_eq_some_iff.mp here
    simpa using first i low
  · rw [list, List.getElem?_set_self inside]
  · intro i apart
    rw [list, List.getElem?_set_ne (Ne.symm apart)]
  · rw [list, List.length_set]
  · intro α read untouched
    exact untouched _ _

variable [AsFielded T] [AsFielded E] {interpret : Interpreter} {escapes : Char → Bool}

/-- The element half, accepted, rewrites the located element by what the closure made of it. -/
theorem ElementCall.applyEntityCommand_rewrites {call : ElementCall T E} {apply : E → Stage E}
    {before after : T} {c d : Collector}
    (accepted : perform (call.applyEntityCommand interpret escapes apply before) c =
      (.ok after, d)) :
    ∃ position element mutated, call.Rewrites before after position element mutated ∧
      ∃ c d, perform (apply element) c = (.ok mutated, d) := by
  cases hposition : (call.list.get before).findIdx? call.matches with
  | none =>
    rw [call.applyEntityCommand_missing interpret escapes apply before hposition] at accepted
    cases accepted
  | some position =>
    obtain ⟨inside, -⟩ := List.findIdx?_eq_some_iff_getElem.mp hposition
    have helement := List.getElem?_eq_getElem inside
    rw [call.applyEntityCommand_found interpret escapes apply before hposition helement]
      at accepted
    obtain ⟨_, _, -, accepted⟩ := perform_bind_ok accepted
    obtain ⟨_, c', -, accepted⟩ := perform_bind_ok accepted
    obtain ⟨mutated, d', applied, accepted⟩ := perform_bind_ok accepted
    obtain ⟨_, _, -, accepted⟩ := perform_bind_ok accepted
    cases accepted
    obtain ⟨element, here, rewrites⟩ := call.rewrites_put before hposition mutated
    cases helement.symm.trans here
    exact ⟨position, _, mutated, rewrites, c', d', applied⟩

end

section

variable {T E : Type} [Record T] [AsFielded E] {interpret : Interpreter} {escapes : Char → Bool}

/-- Seeded projections leave alone what each of them leaves alone. -/
theorem seeded_others {α : Type} {read : T → α} (seeds : List (String × Option Value))
    (untouched : ∀ seed ∈ seeds, ∀ record,
      read (Record.setProjectedField seed.1 seed.2 record) = read record) (record : T) :
    read (seeded seeds record) = read record := by
  unfold seeded
  induction seeds generalizing record with
  | nil => rfl
  | cons seed seeds ih =>
    rw [List.foldl_cons, ih fun s hs => untouched s (List.mem_cons_of_mem _ hs)]
    exact untouched seed List.mem_cons_self record

theorem EntityCommand.candidate_rewrites {command : EntityCommand T E}
    {repo : InMemoryRepository T} {id : String} {record : T} {c d : Collector}
    (accepted : perform (command.candidate interpret escapes repo) c = (.ok (id, record), d)) :
    id = command.half.parentId ∧ ∃ before changed position element mutated,
      repo.find command.half.parentId = some before ∧
      command.half.Rewrites before changed position element mutated ∧
      (∃ c d, perform (command.applyMutations.run interpret escapes element) c =
        (.ok mutated, d)) ∧
      record = seeded command.seedProjections changed := by
  obtain ⟨before, _, hydrated, accepted⟩ := perform_bind_ok accepted
  obtain ⟨changed, _, applied, accepted⟩ := perform_bind_ok accepted
  obtain ⟨_, _, -, accepted⟩ := perform_bind_ok accepted
  cases accepted
  obtain ⟨position, element, mutated, rewrites, ran⟩ :=
    ElementCall.applyEntityCommand_rewrites applied
  refine ⟨rfl, before, changed, position, element, mutated, ?_, rewrites, ran, rfl⟩
  unfold hydrateParent at hydrated
  cases held : repo.find command.half.parentId with
  | none =>
    rw [held] at hydrated
    cases hydrated
  | some record =>
    rw [held] at hydrated
    cases hydrated
    rfl

/-- An accepted entity command rewrites one element of the parent's list, the first that matches,
and then seeds the projected fields: every other element stays in its place, the list keeps its
length, and a field of the parent that is neither the list nor seeded keeps its value. An entity
nested in the element is rewritten the same way inside it. The record saved is that one, and no
other record changes. -/
theorem dispatchEntity_frame (interpret : Interpreter) (escapes : Char → Bool)
    (command : EntityCommand T E) (world after : World T) (record : T) (events : List Event)
    (accepted : perform (dispatchEntity interpret escapes command) world =
      (.ok (record, events), after)) :
    ∃ before changed position element mutated,
      world.repo.find command.half.parentId = some before ∧
      command.half.Rewrites before changed position element mutated ∧
      (∃ c d, perform (command.applyMutations.run interpret escapes element) c =
        (.ok mutated, d)) ∧
      (∀ {D : Type} [AsFielded D] (nested : ElementCall E D) (inner : Mutation D),
        command.applyMutations = .delegate nested inner →
          ∃ place held rewritten, nested.Rewrites element mutated place held rewritten) ∧
      record = seeded command.seedProjections changed ∧
      (∀ {α : Type} (read : T → α), (∀ seed ∈ command.seedProjections, ∀ r,
          read (Record.setProjectedField seed.1 seed.2 r) = read r) →
        read record = read changed) ∧
      after.repo.find command.half.parentId = some record ∧
      ∀ other, other ≠ command.half.parentId →
        after.repo.find other = world.repo.find other := by
  have ran := Invocation.perform_run interpret escapes (.element command) world
  simp only [Invocation.run, Invocation.candidate] at ran
  rw [ran] at accepted
  rcases settled : perform (command.candidate interpret escapes world.repo) world.collected with
    ⟨r | ⟨id, candidate⟩, left⟩
  · rw [settled] at accepted
    cases accepted
  · rw [settled] at accepted
    cases accepted
    obtain ⟨rfl, before, changed, position, element, mutated, held, rewrites, ⟨c, d, applied⟩,
      rfl⟩ := EntityCommand.candidate_rewrites settled
    refine ⟨before, changed, position, element, mutated, held, rewrites, ⟨c, d, applied⟩, ?_,
      rfl, ?_, InMemoryRepository.find_save_self _ _ _,
      fun other apart => InMemoryRepository.find_save_of_ne apart⟩
    · intro D _ nested inner delegates
      rw [delegates] at applied
      obtain ⟨place, here, rewritten, inside, -⟩ := ElementCall.applyEntityCommand_rewrites applied
      exact ⟨place, here, rewritten, inside⟩
    · intro α read untouched
      exact seeded_others command.seedProjections untouched changed

end

/-- One line of a basket. -/
structure BasketLine where
  sku : String
  amount : Nat

/-- A basket with its lines and a note. -/
structure Basket where
  lines : List BasketLine
  note : String

instance : AsFielded BasketLine where
  fielded line := .mk (fun name => if name = "sku" then some (.value (.str line.sku)) else none)
    (fun _ => none) none none

instance : Record Basket where
  fielded basket :=
    .mk (fun name => if name = "note" then some (.value (.str basket.note)) else none)
      (fun _ => none) none none
  toJson basket := .object [("note", .str basket.note)]
  setProjectedField _ _ basket := basket

/-- Amends the line of one article, where two lines answer to its number. -/
def amendLine : EntityCommand Basket BasketLine where
  call :=
    { parentId := "o1"
      list := ⟨Basket.lines, fun lines basket => { basket with lines := lines }, fun _ _ => rfl⟩
      «matches» := fun line => line.sku = "tea"
      commandName := "Amend"
      aggregateQualifiedName := "Shop::Order"
      aggregateName := "Order"
      entityName := "Line"
      entityIdentityReading := "sku"
      wants := "tea"
      args := .noFields
      givens := []
      transition := none
      ensures := []
      parentInArgs := true }
  parentIdentityReading := "number"
  applyMutations := .write fun line => .ok { line with amount := 9 }
  invariants := ⟨[], []⟩
  emits := ["Amended"]
  payload := .object []
  seedProjections := []

def twoTeas : World Basket where
  repo := InMemoryRepository.empty.save "o1" ⟨[⟨"cup", 1⟩, ⟨"tea", 2⟩, ⟨"tea", 3⟩], "gift"⟩
  mutations := []
  collected := none

theorem amended_basket_keeps_the_rest :
    ∃ before changed position element mutated,
      twoTeas.repo.find "o1" = some before ∧
      amendLine.half.Rewrites before changed position element mutated := by
  obtain ⟨before, changed, position, element, mutated, held, rewrites, -⟩ :=
    dispatchEntity_frame interpretLeaf (fun _ => false) amendLine twoTeas _ _ _ rfl
  exact ⟨before, changed, position, element, mutated, held, rewrites⟩

end Hecks
