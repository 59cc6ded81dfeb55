import Hecks.Orchestrate.Tables
import Hecks.Routing
import Hecks.Lib.Reading

/-! What a target is told by a reaction with a `with:`: the arguments built for it, read back as
the invocation it runs. -/
namespace Hecks

/-- The projected values of the attributes the target declares. -/
def declaredFacts (tables : Tables) (projected : List (String × Json)) (targetVerb : String) :
    Json :=
  .object (projected.filter fun f => f.1 ∈ tables.commandAttributesFn targetVerb)

/-- A declared attribute that the projection names. -/
def tells (tables : Tables) (projected : List (String × Json)) (targetVerb name : String) : Prop :=
  name ∈ tables.commandAttributesFn targetVerb ∧ name ∈ projected.map Prod.fst

instance {tables : Tables} {projected : List (String × Json)} {targetVerb name : String} :
    Decidable (tells tables projected targetVerb name) := inferInstanceAs (Decidable (_ ∧ _))

/-- The arguments are read as the facts and nothing else: under `with`, beside the receiver the
builder found, or flat and without a receiver. -/
def Carries (args facts : Json) : Prop :=
  (∃ route, CommandInvocation.fromJson args = .ok ⟨route, facts, true⟩) ∨
    CommandInvocation.fromJson args = .ok ⟨none, facts, false⟩

section Shapes

variable {facts : List (String × Json)} {target : Json}

/-- A receiver that reads, beside facts under `with`. -/
theorem carries_routed :
    Carries (.object [("to", target), ("with", .object facts)]) (.object facts) ↔
      ∃ route, readRoute (nonNull (some target)) = .ok route := by
  have read : CommandInvocation.fromJson (.object [("to", target), ("with", .object facts)]) =
      (readRoute (nonNull (some target))).map fun route => ⟨route, .object facts, true⟩ := by
    cases route : readRoute (nonNull (some target)) with
    | error refusal =>
      simp [CommandInvocation.fromJson, Json.get, nonNull, hasLooseFact, Json.pairs] at route ⊢
      rw [route]
      rfl
    | ok route' =>
      simp [CommandInvocation.fromJson, Json.get, nonNull, hasLooseFact, Json.pairs] at route ⊢
      rw [route]
      rfl
  unfold Carries
  rw [read]
  constructor
  · rintro (⟨route, h⟩ | h)
    · cases held : readRoute (nonNull (some target)) with
      | error refusal =>
        rw [held] at h
        cases h
      | ok route => exact ⟨route, rfl⟩
    · cases held : readRoute (nonNull (some target)) with
      | error refusal =>
        rw [held] at h
        cases h
      | ok route =>
        rw [held] at h
        cases h
  · rintro ⟨route, held⟩
    rw [held]
    exact .inl ⟨route, rfl⟩

theorem sizeOf_get {value : Json} {name : String}
    (held : (Json.object facts).get name = some value) :
    sizeOf value < sizeOf (Json.object facts) := by
  unfold Json.get at held
  obtain ⟨f, found, rfl⟩ := Option.map_eq_some_iff.mp held
  have inside := List.sizeOf_lt_of_mem (List.mem_of_find?_eq_some found)
  have : sizeOf f = 1 + sizeOf f.1 + sizeOf f.2 := by
    cases f
    rfl
  rw [Json.object.sizeOf_spec]
  omega

theorem get_eq_none {name : String} :
    (Json.object facts).get name = none ↔ name ∉ facts.map Prod.fst := by
  unfold Json.get
  rw [Option.map_eq_none_iff, List.find?_eq_none]
  constructor
  · intro absent mem
    obtain ⟨f, hf, rfl⟩ := List.mem_map.mp mem
    exact absent f hf (decide_eq_true rfl)
  · intro absent f hf same
    exact absent (List.mem_map.mpr ⟨f, hf, of_decide_eq_true same⟩)

theorem strip_eq_self :
    stripRoutingKeys (.object facts) = .object facts ↔
      "to" ∉ facts.map Prod.fst ∧ "with" ∉ facts.map Prod.fst := by
  unfold stripRoutingKeys
  rw [Json.object.injEq, List.filter_eq_self]
  constructor
  · intro plain
    constructor
    · intro mem
      obtain ⟨f, hf, named⟩ := List.mem_map.mp mem
      have := plain f hf
      simp [named] at this
    · intro mem
      obtain ⟨f, hf, named⟩ := List.mem_map.mp mem
      have := plain f hf
      simp [named] at this
  · rintro ⟨noTo, noWith⟩ f hf
    have plain : f.1 ≠ "to" ∧ f.1 ≠ "with" :=
      ⟨fun named => noTo (List.mem_map.mpr ⟨f, hf, named⟩),
        fun named => noWith (List.mem_map.mpr ⟨f, hf, named⟩)⟩
    simpa using plain

/-- Flat facts are read whole when none of them has the name of an envelope key. -/
theorem carries_flat :
    Carries (.object facts) (.object facts) ↔
      "to" ∉ facts.map Prod.fst ∧ "with" ∉ facts.map Prod.fst := by
  constructor
  · intro carries
    cases flat : nonNull ((Json.object facts).get "with") with
    | none =>
      have read : CommandInvocation.fromJson (.object facts) =
          (readRoute (nonNull ((Json.object facts).get "to"))).map fun route =>
            ⟨route, stripRoutingKeys (.object facts), false⟩ := by
        unfold CommandInvocation.fromJson
        rw [flat]
        rfl
      unfold Carries at carries
      rw [read] at carries
      cases route : readRoute (nonNull ((Json.object facts).get "to")) with
      | error refusal =>
        rw [route] at carries
        rcases carries with ⟨_, h⟩ | h <;> cases h
      | ok route' =>
        rw [route] at carries
        rcases carries with ⟨_, h⟩ | h
        · have marked := congrArg CommandInvocation.explicit (Except.ok.inj h)
          cases marked
        · have same := congrArg CommandInvocation.facts (Except.ok.inj h)
          exact strip_eq_self.mp same
    | some value =>
      -- facts read from under a fact of that name would hold themselves
      have held : (Json.object facts).get "with" = some value := by
        cases h : (Json.object facts).get "with" with
        | none =>
          rw [h] at flat
          cases flat
        | some v =>
          rw [h] at flat
          cases v <;> cases flat <;> rfl
      have smaller := sizeOf_get held
      have inner : ∀ invocation, CommandInvocation.fromJson (.object facts) = .ok invocation →
          invocation.facts = value := by
        intro invocation read
        unfold CommandInvocation.fromJson at read
        simp only [flat] at read
        split at read
        · cases read
        · split at read
          · cases read
          · cases route : readRoute (nonNull ((Json.object facts).get "to")) with
            | error refusal =>
              rw [route] at read
              cases read
            | ok route' =>
              rw [route] at read
              cases value <;> cases read
              rfl
      rcases carries with ⟨_, h⟩ | h
      · have := inner _ h
        rw [← this] at smaller
        exact absurd smaller (lt_irrefl _)
      · have := inner _ h
        rw [← this] at smaller
        exact absurd smaller (lt_irrefl _)
  · rintro ⟨noTo, noWith⟩
    right
    unfold CommandInvocation.fromJson
    rw [get_eq_none.mpr noTo, get_eq_none.mpr noWith, strip_eq_self.mpr ⟨noTo, noWith⟩]
    rfl

end Shapes

/-! ### The receiver a projection is split by -/

section

variable (tables : Tables) (projected : List (String × Json)) (targetVerb : String)

/-- The identity that the projection names for a target that exists already. -/
def splitReceiver : Option String :=
  if tables.commandCreatesFn targetVerb then none
  else
    (aggregateOf targetVerb).bind fun aggregate =>
      candidateIdentity projected [tables.identityHeadFn aggregate, tables.referenceKeyFn aggregate]

/-- The identities of a one-level entity command: the entity's from the projection, the parent's
from the projection or from the event itself. -/
def entityReceiver (event : Event) : Option (String × String) := do
  let (aggregate, entity) ← entityCommandPaths targetVerb
  let head ← tables.entityIdentityHeadFn entity
  let entityId ← (projected.find? fun f => f.1 = head).bind fun f => resolvedIdComponent f.2
  let aggregateId ← (candidateIdentity projected
      [tables.identityHeadFn aggregate, tables.referenceKeyFn aggregate]).or
    (if event.aggregate = aggregate ∧ ¬ event.id.isEmpty then some event.id else none)
  return (aggregateId, entityId)

variable {tables projected targetVerb} {event : Event}

theorem splitRoutedArgs_eq :
    splitRoutedArgs tables (.object projected) targetVerb =
      (splitReceiver tables projected targetVerb).elim
        (declaredFacts tables projected targetVerb) fun id =>
          .object [("to", .str id), ("with", declaredFacts tables projected targetVerb)] := by
  unfold splitRoutedArgs splitReceiver declaredFacts
  cases tables.commandCreatesFn targetVerb with
  | true => rfl
  | false =>
    cases aggregateOf targetVerb with
    | none => rfl
    | some aggregate =>
      cases candidate : candidateIdentity projected
        [tables.identityHeadFn aggregate, tables.referenceKeyFn aggregate] with
      | none => simp [candidate]
      | some id => simp [candidate]

theorem holds_facts {name : String} :
    holds (declaredFacts tables projected targetVerb).pairs name = true ↔
      tells tables projected targetVerb name := by
  unfold holds declaredFacts tells Json.pairs
  simp only [List.any_eq_true, List.mem_filter, List.mem_map, decide_eq_true_eq]
  constructor
  · rintro ⟨f, ⟨hf, declared⟩, rfl⟩
    exact ⟨declared, f, hf, rfl⟩
  · rintro ⟨declared, f, hf, rfl⟩
    exact ⟨f, ⟨hf, declared⟩, rfl⟩

theorem mem_facts {name : String} :
    name ∈ (projected.filter fun f => f.1 ∈ tables.commandAttributesFn targetVerb).map Prod.fst ↔
      tells tables projected targetVerb name := by
  unfold tells
  simp only [List.mem_map, List.mem_filter, decide_eq_true_eq]
  constructor
  · rintro ⟨f, ⟨hf, declared⟩, rfl⟩
    exact ⟨declared, f, hf, rfl⟩
  · rintro ⟨declared, f, hf, rfl⟩
    exact ⟨f, ⟨hf, declared⟩, rfl⟩

theorem carries_facts :
    Carries (declaredFacts tables projected targetVerb)
        (declaredFacts tables projected targetVerb) ↔
      ¬ tells tables projected targetVerb "to" ∧ ¬ tells tables projected targetVerb "with" := by
  unfold declaredFacts
  rw [carries_flat, mem_facts, mem_facts]

theorem resolvedIdComponent_ne {v : Json} {id : String} (h : resolvedIdComponent v = some id) :
    id.isEmpty = false := by
  unfold resolvedIdComponent at h
  obtain ⟨text, -, h⟩ := Option.bind_eq_some_iff.mp h
  split at h
  · cases h
  next filled =>
    cases h
    simpa using filled

theorem candidateIdentity_ne {keys : List (Option String)} {id : String}
    (h : candidateIdentity projected keys = some id) : id.isEmpty = false := by
  unfold candidateIdentity at h
  obtain ⟨key, -, h⟩ := List.exists_of_findSome?_eq_some h
  obtain ⟨f, -, h⟩ := Option.bind_eq_some_iff.mp h
  exact resolvedIdComponent_ne h

theorem nonemptyIdentity_ok {id location : String} (named : id.isEmpty = false) :
    nonemptyIdentity id location = .ok id := by
  unfold nonemptyIdentity
  simp [named]

theorem readRoute_str {id : String} :
    (∃ route, readRoute (nonNull (some (.str id))) = .ok route) ↔ id.isEmpty = false := by
  have read : readRoute (nonNull (some (.str id))) =
      (RoutingEnvelope.fromJson (.str id)).map some := rfl
  rw [read]
  simp only [RoutingEnvelope.fromJson]
  cases named : id.isEmpty with
  | true =>
    unfold nonemptyIdentity
    rw [if_pos named]
    constructor
    · rintro ⟨_, ⟨⟩⟩
    · rintro ⟨⟩
  | false =>
    rw [nonemptyIdentity_ok named]
    exact iff_of_true ⟨_, rfl⟩ rfl

theorem readRoute_entity {aggregateId entityId : String} (owner : aggregateId.isEmpty = false)
    (inner : entityId.isEmpty = false) :
    ∃ route, readRoute (nonNull (some (.object
      [("aggregate", .str aggregateId), ("entities", .array [.str entityId])]))) = .ok route := by
  refine ⟨some ⟨aggregateId, [entityId]⟩, ?_⟩
  simp [readRoute, nonNull, RoutingEnvelope.fromJson, Json.get, Json.asStr,
    Reading.bind_ok_eq, nonemptyIdentity_ok owner, RoutingEnvelope.readEntities,
    nonemptyIdentity_ok inner]
  rfl

theorem splitReceiver_ne {id : String} (h : splitReceiver tables projected targetVerb = some id) :
    id.isEmpty = false := by
  unfold splitReceiver at h
  split at h
  · cases h
  · obtain ⟨aggregate, -, h⟩ := Option.bind_eq_some_iff.mp h
    exact candidateIdentity_ne h

/-- A projection that names its receiver is carried. -/
theorem carries_split {id : String} (h : splitReceiver tables projected targetVerb = some id) :
    Carries (splitRoutedArgs tables (.object projected) targetVerb)
      (declaredFacts tables projected targetVerb) := by
  rw [splitRoutedArgs_eq, h]
  exact carries_routed.mpr (readRoute_str.mpr (splitReceiver_ne h))

theorem entityReceiver_ne {event : Event} {ids : String × String}
    (h : entityReceiver tables projected targetVerb event = some ids) :
    ids.1.isEmpty = false ∧ ids.2.isEmpty = false := by
  unfold entityReceiver at h
  obtain ⟨⟨aggregate, entity⟩, -, h⟩ := Option.bind_eq_some_iff.mp h
  obtain ⟨head, -, h⟩ := Option.bind_eq_some_iff.mp h
  obtain ⟨entityId, inner, h⟩ := Option.bind_eq_some_iff.mp h
  obtain ⟨aggregateId, owner, h⟩ := Option.bind_eq_some_iff.mp h
  cases h
  constructor
  · rcases Option.or_eq_some_iff.mp owner with candidate | ⟨-, own⟩
    · exact candidateIdentity_ne candidate
    · split at own
      next same =>
        cases own
        simpa using same.2
      · cases own
  · obtain ⟨f, -, inner⟩ := Option.bind_eq_some_iff.mp inner
    exact resolvedIdComponent_ne inner

theorem routeDispatchArgs_eq {event : Event}
    (unsplit : splitReceiver tables projected targetVerb = none) :
    routeDispatchArgs tables (.object projected) targetVerb event =
      if tells tables projected targetVerb "to" then declaredFacts tables projected targetVerb
      else
        (entityReceiver tables projected targetVerb event).elim
          (declaredFacts tables projected targetVerb) fun ids =>
            .object
              [("to", .object
                  [("aggregate", .str ids.1), ("entities", .array [.str ids.2])]),
                ("with", declaredFacts tables projected targetVerb)] := by
  unfold routeDispatchArgs
  simp only [splitRoutedArgs_eq, unsplit, Option.elim_none]
  by_cases told : tells tables projected targetVerb "to"
  · rw [if_pos told, if_pos (holds_facts.mpr told)]
  · rw [if_neg told, if_neg (fun h => told (holds_facts.mp h))]
    unfold entityReceiver
    cases entityCommandPaths targetVerb with
    | none => rfl
    | some paths =>
      obtain ⟨aggregate, entity⟩ := paths
      simp only [Option.bind_eq_bind, Option.bind_some]
      cases tables.entityIdentityHeadFn entity with
      | none => rfl
      | some head =>
        simp only [Option.bind_some]
        cases (projected.find? fun f => f.1 = head).bind fun f => resolvedIdComponent f.2 with
        | none => rfl
        | some entityId =>
          simp only [Option.bind_some]
          cases (candidateIdentity projected
              [tables.identityHeadFn aggregate, tables.referenceKeyFn aggregate]).or
            (if event.aggregate = aggregate ∧ ¬ event.id.isEmpty then some event.id else none) with
          | none => rfl
          | some aggregateId => rfl

/-- What the route of a dispatch makes of a projection. -/
theorem carries_route_iff {event : Event} :
    Carries (routeDispatchArgs tables (.object projected) targetVerb event)
        (declaredFacts tables projected targetVerb) ↔
      (splitReceiver tables projected targetVerb).isSome ∨
        ¬ tells tables projected targetVerb "to" ∧
          ((entityReceiver tables projected targetVerb event).isSome ∨
            ¬ tells tables projected targetVerb "with") := by
  cases split : splitReceiver tables projected targetVerb with
  | some id =>
    have routed : routeDispatchArgs tables (.object projected) targetVerb event =
        splitRoutedArgs tables (.object projected) targetVerb := by
      unfold routeDispatchArgs
      apply if_pos
      rw [splitRoutedArgs_eq, split]
      rfl
    rw [routed]
    exact iff_of_true (carries_split split) (.inl rfl)
  | none =>
    rw [routeDispatchArgs_eq split]
    by_cases told : tells tables projected targetVerb "to"
    · rw [if_pos told, carries_facts]
      simp [told]
    · rw [if_neg told]
      cases entity : entityReceiver tables projected targetVerb event with
      | none =>
        simp only [Option.elim_none, carries_facts]
        simp [told]
      | some ids =>
        obtain ⟨owner, inner⟩ := entityReceiver_ne entity
        apply iff_of_true
        · exact carries_routed.mpr (readRoute_entity owner inner)
        · exact .inr ⟨told, .inl rfl⟩

end

/-! ### A policy's projection -/

section

variable (tables : Tables) (policy : PolicyRule) (event : Event) (extra : Option (String × String))
  (row : Option (String × Json))

/-- What a policy's `with:` is read against: the payload, and below it the emitting record's
identity and the row of a fan-out. -/
def projectionSource : List (String × Json) :=
  let source := match extra with
    | some (key, id) => (event.payload.pairs.filter fun f => f.1 ≠ key) ++ [(key, .str id)]
    | none => event.payload.pairs
  let source := offerEmitterHead tables source event
  let source := match row with
    | some (rowId, record) => offerRowFields source rowId record
    | none => source
  offerEmitterId source event

def projectedFacts : List (String × Json) :=
  resolveWithSpec policy.withSpec (projectionSource tables event extra row)

/-- The receiver is lifted from the event: the target exists already, on the same aggregate. -/
def lifts (targetVerb : String) : Bool :=
  extra.isNone && !tables.commandCreatesFn targetVerb &&
    aggregateOf targetVerb == some event.aggregate

variable {tables policy event extra row} {targetVerb : String}

theorem triggerArgsWithRow_eq (projects : policy.withSpec ≠ []) :
    triggerArgsWithRow tables policy event extra row targetVerb =
      let routed :=
        splitRoutedArgs tables (.object (projectedFacts tables policy event extra row)) targetVerb
      if lifts tables event extra targetVerb &&
          !(holds routed.pairs "to" && holds routed.pairs "with") then
        .object [("to", .str event.id), ("with", routed)]
      else routed := by
  have projects' : ¬ policy.withSpec.isEmpty = true := by simpa using projects
  exact if_neg projects'

theorem carries_trigger_iff (projects : policy.withSpec ≠ []) :
    Carries (triggerArgsWithRow tables policy event extra row targetVerb)
        (declaredFacts tables (projectedFacts tables policy event extra row) targetVerb) ↔
      let projected := projectedFacts tables policy event extra row
      (splitReceiver tables projected targetVerb).isSome ∨
        if lifts tables event extra targetVerb then
          ¬ (tells tables projected targetVerb "to" ∧ tells tables projected targetVerb "with") ∧
            event.id.isEmpty = false
        else
          ¬ tells tables projected targetVerb "to" ∧
            ¬ tells tables projected targetVerb "with" := by
  rw [triggerArgsWithRow_eq projects]
  dsimp only
  generalize projectedFacts tables policy event extra row = projected
  cases split : splitReceiver tables projected targetVerb with
  | some id =>
    have routed := carries_split split
    have both : (holds (splitRoutedArgs tables (.object projected) targetVerb).pairs "to" &&
        holds (splitRoutedArgs tables (.object projected) targetVerb).pairs "with") = true := by
      rw [splitRoutedArgs_eq, split]
      rfl
    rw [both, Bool.not_true, Bool.and_false, if_neg Bool.false_ne_true]
    exact iff_of_true routed (.inl rfl)
  | none =>
    have routed : splitRoutedArgs tables (.object projected) targetVerb =
        declaredFacts tables projected targetVerb := by
      rw [splitRoutedArgs_eq, split]
      rfl
    rw [routed]
    cases lifted : lifts tables event extra targetVerb with
    | false =>
      simp only [Bool.false_and, Bool.false_eq_true, if_false, carries_facts]
      simp
    | true =>
      have held : (holds (declaredFacts tables projected targetVerb).pairs "to" &&
          holds (declaredFacts tables projected targetVerb).pairs "with") =
            decide (tells tables projected targetVerb "to" ∧
              tells tables projected targetVerb "with") := by
        rw [Bool.eq_iff_iff, Bool.and_eq_true, holds_facts, holds_facts, decide_eq_true_iff]
      rw [held]
      by_cases both : tells tables projected targetVerb "to" ∧
          tells tables projected targetVerb "with"
      · -- both names are taken for the envelope's own
        simp only [both, and_self, decide_true, Bool.not_true, Bool.and_false, Bool.false_eq_true,
          if_false, carries_facts]
        simp
      · simp only [both, decide_false, Bool.not_false, Bool.and_self, if_true]
        rw [declaredFacts, carries_routed, readRoute_str]
        simp

end

/-- A projection reaches the target whole exactly when the builder found a receiver to set beside
it, or when no declared fact of it has the name of an envelope key that stands alone: a policy that
lifts the event's own identity may project one of the two names, a dispatch routed to an entity may
project `with`. -/
theorem projection_carried_iff (tables : Tables) (targetVerb : String) (event : Event) :
    (∀ policy extra row, policy.withSpec ≠ [] →
      let projected := projectedFacts tables policy event extra row
      (Carries (triggerArgsWithRow tables policy event extra row targetVerb)
          (declaredFacts tables projected targetVerb) ↔
        (splitReceiver tables projected targetVerb).isSome ∨
          if lifts tables event extra targetVerb then
            ¬ (tells tables projected targetVerb "to" ∧
                tells tables projected targetVerb "with") ∧
              event.id.isEmpty = false
          else
            ¬ tells tables projected targetVerb "to" ∧
              ¬ tells tables projected targetVerb "with")) ∧
    (∀ projected,
      Carries (routeDispatchArgs tables (.object projected) targetVerb event)
          (declaredFacts tables projected targetVerb) ↔
        (splitReceiver tables projected targetVerb).isSome ∨
          ¬ tells tables projected targetVerb "to" ∧
            ((entityReceiver tables projected targetVerb event).isSome ∨
              ¬ tells tables projected targetVerb "with")) := by
  constructor
  · intro policy extra row projects
    exact carries_trigger_iff projects
  · intro projected
    exact carries_route_iff

/-- A domain whose transfers are opened with the account they go to. -/
def transferTables : Tables where
  policies := []
  crossDomainPolicies := []
  processManagers := []
  referenceKeyFn _ := none
  queries := []
  commandCreatesFn verb := verb = "Bank::Transfer.Open"
  identityHeadFn _ := none
  commandAttributesFn _ := ["to", "amount"]
  entityIdentityHeadFn _ := none

def payOut : PolicyRule where
  policyName := "PayOut"
  eventName := "Approved"
  eventQualifier := none
  targetVerb := "Bank::Transfer.Open"
  whereExpr := none
  forEach := none
  forEachKey := none
  root := false
  withSpec := [("to", ":payee"), ("amount", ":amount")]

def approved : Event where
  name := "Approved"
  aggregate := "Bank::Claim"
  id := "c1"
  payload := .object [("payee", .str "acct-2"), ("amount", .str "10")]
  occurredAt := none
  correlation := none

/-- The account a transfer is opened to is taken for the receiver of the command, and lost as a
fact. -/
theorem projected_payee_lost :
    ¬ ∀ (tables : Tables) (policy : PolicyRule) (event : Event) (extra : Option (String × String))
        (row : Option (String × Json)) (targetVerb : String), policy.withSpec ≠ [] →
      Carries (triggerArgsWithRow tables policy event extra row targetVerb)
        (declaredFacts tables (projectedFacts tables policy event extra row) targetVerb) := by
  intro carries
  have all := carries transferTables payOut approved none none payOut.targetVerb (by decide)
  have iff := (carries_trigger_iff (by decide)).mp all
  revert iff
  decide

end Hecks
