import Hecks.Dispatch.Rules

/-! The element half of an entity command: locate the element on a parent record already in
hand, hold it to the rules, mutate it and put it back, nothing saved. A dispatch to an entity
and an aggregate command that delegates to one both drive it. -/
namespace Hecks

/-- A type read through `&dyn Fielded`. -/
class AsFielded (T : Type) where
  fielded : T → Fielded

export AsFielded (fielded)

/-- The declared order of an entity dispatch. -/
inductive EntityStep where
  | decodeArguments
  | refuseUnknownArguments
  | refuseAbsentArguments
  | normalizeArgs
  | refuseRoleMismatch
  | resolveReferences
  | hydrateParent
  | locateElement
  | enforceGivens
  | admissibleTransition
  | applyMutations
  | advanceLifecycle
  | enforceEnsures
  | enforceInvariants
  | save
  | emit
deriving DecidableEq

def EntityStep.ORDER : List EntityStep :=
  [.decodeArguments, .refuseUnknownArguments, .refuseAbsentArguments, .normalizeArgs,
    .refuseRoleMismatch, .resolveReferences, .hydrateParent, .locateElement, .enforceGivens,
    .admissibleTransition, .applyMutations, .advanceLifecycle, .enforceEnsures,
    .enforceInvariants, .save, .emit]

def HYDRATED : String :=
  "the declared order hydrates before any step that reads the record " ++
    "(const-asserted in this file)"

def LOCATED : String :=
  "the declared order locates the element before any step that reads it " ++
    "(const-asserted in this file)"

def ONCE : String := "each declared step appears exactly once in its ORDER"

/-- A slot the declared order guarantees filled, or a fault naming the order broken. -/
def ordered {σ V : Type} (slot : Option V) (because : String) : Refusing σ V :=
  match slot with
  | some v => pure v
  | none => throw (.fault because)

@[simp] theorem ordered_some {σ V : Type} (v : V) (because : String) :
    (ordered (some v) because : Refusing σ V) = pure v := rfl

/-- A list attribute of a record: what `get_list` reads, `get_list_mut` writes. -/
structure ListField (T E : Type) where
  get : T → List E
  set : List E → T → T
  get_set : ∀ elements record, get (set elements record) = elements

/-- What the generated caller hands the element half. -/
structure ElementCall (T E : Type) where
  parentId : String
  list : ListField T E
  «matches» : E → Bool
  commandName : String
  aggregateQualifiedName : String
  aggregateName : String
  entityName : String
  entityIdentityReading : String
  wants : String
  args : Fielded
  givens : List GivenSpec
  transition : Option TransitionCheck
  ensures : List EnsuresSpec
  parentInArgs : Bool

/-- The element half's own state, carried across the declared order. -/
structure ElementSlots (T E : Type) where
  getListMut : Option (T → (List E → List E) → T)
  applyMutations : Option (E → Stage E)
  position : Option Nat
  element : Option E
  parentBefore : Option T
  oldSnapshot : Option E

namespace ElementCall

variable {T E : Type} [AsFielded T] [AsFielded E] (interpret : Interpreter)
  (escapes : Char → Bool) (call : ElementCall T E)

/-- The slots before the first step, the once-only inputs still in them. -/
def start (apply : E → Stage E) : ElementSlots T E where
  getListMut := some fun record f => call.list.set (f (call.list.get record)) record
  applyMutations := some apply
  position := none
  element := none
  parentBefore := none
  oldSnapshot := none

def elementMissing : Refusal :=
  .notFound (RefusalSite.notFoundEntityElementMissing call.entityName
    call.entityIdentityReading call.wants call.aggregateName
    (Text.debugStr escapes call.parentId))

def locateElement (slots : ElementSlots T E) (record : T) : Stage (ElementSlots T E) :=
  match (call.list.get record).findIdx? call.matches with
  | none => throw (call.elementMissing escapes)
  | some position => pure
      { slots with
        element := (call.list.get record)[position]?
        position := some position
        parentBefore := some record }

/-- The arguments a rule reads, `parent` bound over them where the caller asks for it. -/
def scope (parent : T) : Fielded :=
  if call.parentInArgs then .withParent call.args (fielded parent) else call.args

/-- A `corrects` given is asked of the parent record, before the declared givens, and is
raised at once: it is not part of the stage. -/
def enforceCorrects (parent : T) : Except Refusal Unit :=
  call.givens.forM fun given =>
    if given.correctsEvent.isSome then do
      let held ← interpret given.expr ⟨call.args, fielded parent⟩
      if !held.truthy then
        throw (given.refusal call.commandName call.aggregateQualifiedName call.parentId)
    else pure ()

def enforceGivens (slots : ElementSlots T E) : Stage Unit := do
  let parentBefore ← ordered slots.parentBefore LOCATED
  let element ← ordered slots.element LOCATED
  call.enforceCorrects interpret parentBefore
  let stage ← mark
  call.givens.forM fun given =>
    if given.correctsEvent.isSome then pure ()
    else do
      let held ← interpret given.expr ⟨call.scope parentBefore, fielded element⟩
      if !held.truthy then
        refuseWith (.givenNotMet (call.commandName ++ " refused — " ++ given.description))
          (.ofRule given.description)
  settle stage

def applyMutations (slots : ElementSlots T E) (record : T) : Stage (ElementSlots T E × T) := do
  let position ← ordered slots.position LOCATED
  let element ← ordered slots.element LOCATED
  let apply ← ordered slots.applyMutations ONCE
  let mutated ← apply element
  let getListMut ← ordered slots.getListMut ONCE
  return ({ slots with
      element := none
      oldSnapshot := if call.ensures.isEmpty then none else some element
      applyMutations := none
      getListMut := none },
    getListMut record fun elements => elements.set position mutated)

def enforceEnsures (slots : ElementSlots T E) (record : T) : Stage Unit :=
  match slots.oldSnapshot with
  | none => pure ()
  | some old => do
      let position ← ordered slots.position LOCATED
      -- An index out of range would panic; the list field's law keeps it in range.
      let settled ← ordered (call.list.get record)[position]? "index out of bounds"
      Hecks.enforceEnsures interpret (fielded settled) (fielded old) (call.scope record)
        call.ensures call.commandName

/-- One declared entity step against the parent `record` already in hand; the steps of the
parent half are the caller's own. -/
def run (step : EntityStep) (slots : ElementSlots T E) (record : T) :
    Stage (ElementSlots T E × T) :=
  match step with
  | .decodeArguments | .refuseUnknownArguments | .refuseAbsentArguments | .normalizeArgs
  | .refuseRoleMismatch | .resolveReferences => pure (slots, record)
  | .hydrateParent | .enforceInvariants | .save | .emit => pure (slots, record)
  | .locateElement => do return (← call.locateElement escapes slots record, record)
  | .enforceGivens => do
      call.enforceGivens interpret slots
      return (slots, record)
  | .admissibleTransition => do
      let element ← ordered slots.element LOCATED
      admissibleTransition escapes (fielded element) call.transition call.commandName
      return (slots, record)
  | .applyMutations => call.applyMutations slots record
  | .advanceLifecycle => pure (slots, record)
  | .enforceEnsures => do
      call.enforceEnsures interpret slots record
      return (slots, record)

/-- `apply_entity_command`: the parent record with the element mutated in place. -/
def applyEntityCommand (apply : E → Stage E) (record : T) : Stage T := do
  let (_, record) ← EntityStep.ORDER.foldlM
    (fun (slots, record) step => call.run interpret escapes step slots record)
    (call.start apply, record)
  return record

/-! ### The element half as a trial -/

/-- The slots once the element is found. -/
def found (apply : E → Stage E) (record : T) (position : Nat) (element : E) :
    ElementSlots T E :=
  { call.start apply with
    position := some position
    element := some element
    parentBefore := some record }

/-- The parent record with the element at `position` replaced. -/
def put (position : Nat) (mutated : E) (record : T) : T :=
  call.list.set ((call.list.get record).set position mutated) record

/-- What the settled element is held to: nothing when no `ensures` is declared. -/
def settledEnsures (settled old : E) (after : T) : Stage Unit :=
  if call.ensures.isEmpty then pure ()
  else Hecks.enforceEnsures interpret (fielded settled) (fielded old) (call.scope after)
    call.ensures call.commandName

section Found

variable (apply : E → Stage E) (record : T) {position : Nat} {element : E}

omit [AsFielded T] [AsFielded E] in
theorem locateElement_found
    (hposition : (call.list.get record).findIdx? call.matches = some position)
    (helement : (call.list.get record)[position]? = some element) :
    call.locateElement escapes (call.start apply) record =
      pure (call.found apply record position element) := by
  simp only [locateElement, hposition, helement]
  rfl

omit [AsFielded T] [AsFielded E] in
theorem locateElement_missing
    (hposition : (call.list.get record).findIdx? call.matches = none) :
    call.locateElement escapes (call.start apply) record =
      throw (call.elementMissing escapes) := by
  simp only [locateElement, hposition]

/-- The slots once the element is mutated and put back. -/
def spent (position : Nat) (element : E) : ElementSlots T E :=
  { call.found apply record position element with
    element := none
    oldSnapshot := if call.ensures.isEmpty then none else some element
    applyMutations := none
    getListMut := none }

omit [AsFielded T] [AsFielded E] in
theorem applyMutations_found :
    call.applyMutations (call.found apply record position element) record = do
      let mutated ← apply element
      return (call.spent apply record position element, call.put position mutated record) := by
  simp only [applyMutations, found, start, ordered_some, pure_bind]
  rfl

/-- The element the `ensures` reads back from the list is the one just mutated. -/
theorem enforceEnsures_spent (helement : (call.list.get record)[position]? = some element)
    (mutated : E) :
    call.enforceEnsures interpret (call.spent apply record position element)
        (call.put position mutated record) =
      call.settledEnsures interpret mutated element (call.put position mutated record) := by
  have hin : position < (call.list.get record).length :=
    (List.getElem?_eq_some_iff.mp helement).1
  have hread : (call.list.get (call.put position mutated record))[position]? = some mutated := by
    rw [put, call.list.get_set, List.getElem?_set_self hin]
  cases hensures : call.ensures.isEmpty with
  | true => simp [enforceEnsures, settledEnsures, spent, hensures]
  | false =>
      simp only [enforceEnsures, settledEnsures, spent, found, hensures, ordered_some, pure_bind,
        hread, Bool.false_eq_true, if_false]

/-- The steps after the element is found, in the order they run. -/
theorem applyEntityCommand_found
    (hposition : (call.list.get record).findIdx? call.matches = some position)
    (helement : (call.list.get record)[position]? = some element) :
    call.applyEntityCommand interpret escapes apply record = do
      call.enforceGivens interpret (call.found apply record position element)
      admissibleTransition escapes (fielded element) call.transition call.commandName
      let mutated ← apply element
      call.settledEnsures interpret mutated element (call.put position mutated record)
      return call.put position mutated record := by
  have helt : (call.found apply record position element).element = some element := rfl
  simp only [applyEntityCommand, EntityStep.ORDER, List.foldlM_cons, List.foldlM_nil, run,
    pure_bind, bind_assoc, call.locateElement_found escapes apply record hposition helement,
    helt, ordered_some, call.applyMutations_found, call.enforceEnsures_spent interpret apply
      record helement]

theorem applyEntityCommand_missing
    (hposition : (call.list.get record).findIdx? call.matches = none) :
    call.applyEntityCommand interpret escapes apply record =
      throw (call.elementMissing escapes) := by
  simp only [applyEntityCommand, EntityStep.ORDER, List.foldlM_cons, List.foldlM_nil, run,
    pure_bind, bind_assoc, call.locateElement_missing escapes apply record hposition]
  rfl

end Found

/-- The element and where it stands, if the list holds one. -/
def located (record : T) : Option (Nat × E) := do
  let position ← (call.list.get record).findIdx? call.matches
  let element ← (call.list.get record)[position]?
  return (position, element)

/-- The verdicts on the declared givens, those of `corrects` left out. -/
def declaredVerdicts (parent : T) (element : E) : List (Verdict Refusal Collected) :=
  call.givens.flatMap fun given =>
    if given.correctsEvent.isSome then []
    else [verdict interpret given.expr ⟨call.scope parent, fielded element⟩
      ⟨.givenNotMet (call.commandName ++ " refused — " ++ given.description),
        .ofRule given.description⟩]

def givensTrial (parent : T) (element : E) : Trial Refusal Collected Unit := do
  .ofExcept (call.enforceCorrects interpret parent)
  .judge (call.declaredVerdicts interpret parent element) (.pass ())

/-- The element half as the rules it puts, `mutate` standing for the closure. -/
def trial (mutate : E → Trial Refusal Collected E) (record : T) : Trial Refusal Collected T :=
  match call.located record with
  | none => .refuse (call.elementMissing escapes)
  | some (position, element) => do
      call.givensTrial interpret record element
      .ofExcept (admissibleTransition escapes (fielded element) call.transition
        call.commandName)
      let mutated ← mutate element
      let after := call.put position mutated record
      .judge (ensuresVerdicts interpret (fielded mutated) (fielded element) (call.scope after)
        call.ensures call.commandName) (.pass ())
      .pass after

theorem enforceGivens_found (apply : E → Stage E) (record : T) (position : Nat) (element : E) :
    Follows (call.enforceGivens interpret (call.found apply record position element))
      (call.givensTrial interpret record element) := by
  refine .bind (.ofExcept _) fun _ => .judge (Tells.forM (fun given => ?_) call.givens)
  cases given.correctsEvent.isSome with
  | true => exact tells_pure
  | false => exact tells_rule

theorem settledEnsures_follows (settled old : E) (after : T) :
    Follows (call.settledEnsures interpret settled old after)
      (.judge (ensuresVerdicts interpret (fielded settled) (fielded old) (call.scope after)
        call.ensures call.commandName) (.pass ())) := by
  unfold settledEnsures
  cases hensures : call.ensures.isEmpty with
  | false => exact enforceEnsures_follows _ _ _ _ _
  | true =>
      rw [List.isEmpty_iff.mp hensures]
      exact .noRules

theorem applyEntityCommand_follows {apply : E → Stage E}
    {mutate : E → Trial Refusal Collected E} (happly : ∀ element, Follows (apply element)
      (mutate element)) (record : T) :
    Follows (call.applyEntityCommand interpret escapes apply record)
      (call.trial interpret escapes mutate record) := by
  unfold trial
  cases hposition : (call.list.get record).findIdx? call.matches with
  | none =>
      have hlocated : call.located record = none := by simp [located, hposition]
      rw [call.applyEntityCommand_missing interpret escapes apply record hposition, hlocated]
      exact .throw _
  | some position =>
      have hin : position < (call.list.get record).length :=
        (List.findIdx?_eq_some_iff_getElem.mp hposition).1
      have helement := List.getElem?_eq_getElem hin
      have hlocated : call.located record = some (position, (call.list.get record)[position]) := by
        simp [located, hposition, helement]
      rw [call.applyEntityCommand_found interpret escapes apply record hposition helement,
        hlocated]
      refine .bind (call.enforceGivens_found interpret apply record position _) fun _ => ?_
      refine .bind (.ofExcept _) fun _ => .bind (happly _) fun mutated => ?_
      exact .bind (call.settledEnsures_follows interpret mutated _ _) fun _ => .pure _

end ElementCall

/-- The closures the generator writes for `apply_mutations`: code that writes the record's own
fields, and code that delegates to an entity command. Only the second reads the collector. -/
inductive Mutation : Type → Type 1 where
  | write {T : Type} (f : T → Except Refusal T) : Mutation T
  | delegate {T E : Type} [AsFielded T] [AsFielded E] (call : ElementCall T E)
      (inner : Mutation E) : Mutation T
  | andThen {T : Type} (first second : Mutation T) : Mutation T

namespace Mutation

variable (interpret : Interpreter) (escapes : Char → Bool)

def run {T : Type} : Mutation T → T → Stage T
  | write f, record => f record
  | delegate call inner, record => call.applyEntityCommand interpret escapes inner.run record
  | andThen first second, record => do second.run (← first.run record)

/-- The rules a closure puts on the way. -/
def trial {T : Type} : Mutation T → T → Trial Refusal Collected T
  | write f, record => .ofExcept (f record)
  | delegate call inner, record => call.trial interpret escapes inner.trial record
  | andThen first second, record => do second.trial (← first.trial record)

theorem run_follows {T : Type} (m : Mutation T) :
    ∀ record, Follows (m.run interpret escapes record) (m.trial interpret escapes record) := by
  induction m with
  | write f => exact fun record => .ofExcept (f record)
  | delegate call inner ih =>
      exact fun record => call.applyEntityCommand_follows interpret escapes ih record
  | andThen first second ih1 ih2 => exact fun record => .bind (ih1 record) ih2

end Mutation

end Hecks
