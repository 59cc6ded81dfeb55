import Hecks.Dispatch.Commit

/-! A dry run: the dispatch on a throwaway copy of the store with a collector bound. The
refusal it raises is the real dispatch's own, unless a rule faults past the rule that
failed. -/
namespace Hecks

/-- The rows of the language's table of refusal classes. -/
inductive RefusalClass where
  | absentArgument
  | alreadyExists
  | attributeAbsent
  | ensuresNotMet
  | givenNotMet
  | invariantViolation
  | lifecycleRefused
  | nothingToCorrect
  | notFound
  | projectionAbsent
  | remoteRefusal
  | typeMismatch
  | unauthorized
  | unknownArgument
  | unknownVerb
deriving DecidableEq

namespace RefusalClass

def ALL : List RefusalClass :=
  [absentArgument, alreadyExists, attributeAbsent, ensuresNotMet, givenNotMet,
    invariantViolation, lifecycleRefused, nothingToCorrect, notFound, projectionAbsent,
    remoteRefusal, typeMismatch, unauthorized, unknownArgument, unknownVerb]

def name : RefusalClass → String
  | absentArgument => "AbsentArgument"
  | alreadyExists => "AlreadyExists"
  | attributeAbsent => "AttributeAbsent"
  | ensuresNotMet => "EnsuresNotMet"
  | givenNotMet => "GivenNotMet"
  | invariantViolation => "InvariantViolation"
  | lifecycleRefused => "LifecycleRefused"
  | nothingToCorrect => "NothingToCorrect"
  | notFound => "NotFound"
  | projectionAbsent => "ProjectionAbsent"
  | remoteRefusal => "RemoteRefusal"
  | typeMismatch => "TypeMismatch"
  | unauthorized => "Unauthorized"
  | unknownArgument => "UnknownArgument"
  | unknownVerb => "UnknownVerb"

def kind : RefusalClass → String
  | absentArgument => "absent_argument"
  | notFound => "not_found"
  | unauthorized => "unauthorized"
  | _ => "refused"

def stage : RefusalClass → String
  | absentArgument | typeMismatch | unknownArgument => "arguments"
  | ensuresNotMet => "ensures"
  | givenNotMet => "givens"
  | invariantViolation => "invariants"
  | remoteRefusal => "remote"
  | unauthorized => "role"
  | unknownVerb => "request"
  | _ => "state"

def fromName (name : String) : Option RefusalClass := ALL.find? fun row => row.name = name

end RefusalClass

/-- `refusal_class`: a refusal the table does not class is a plain one in the state stage. -/
def refusalClass (refusal : Refusal) : String × String :=
  (RefusalClass.fromName refusal.kind).elim ("refused", "state") fun row => (row.kind, row.stage)

/-- One refusal as a client reads it. -/
def refusalEntry (refusal : Refusal) (detail : Detail) : Json :=
  let text := fun (value : Option String) => value.elim Json.null .str
  .object
    [("kind", .str (refusalClass refusal).1), ("stage", .str (refusalClass refusal).2),
      ("refusal", .str refusal.kind), ("attribute", text detail.attribute),
      ("path", text detail.path), ("rule", text detail.rule),
      ("message", .str refusal.message)]

/-- A refused dry run: what was raised, and every refusal the failing stage kept, or the one
raised when it kept none. -/
def refusedDryRun (verb : String) (refusal : Refusal) (reasons : List Collected) : Json :=
  let all :=
    if reasons.isEmpty then [refusalEntry refusal .default]
    else reasons.map fun kept => refusalEntry kept.refusal kept.detail
  .object
    [("verb", .str verb), ("ok", .bool false), ("error", .str refusal.message),
      ("refusal", .str refusal.kind), ("kind", .str (refusalClass refusal).1),
      ("stage", .str (refusalClass refusal).2), ("refusals", .array all)]

section DryRun

variable {T : Type} [Record T] (interpret : Interpreter) (escapes : Char → Bool)

/-- The command run against a throwaway copy of the store with a collector bound: what it
raised, and every refusal its failing stage kept. -/
def preview (invocation : Invocation T) (repo : InMemoryRepository T) :
    Except Refusal Unit × List Collected :=
  let (outcome, after) := perform (invocation.run interpret escapes) ⟨repo, [], some []⟩
  (outcome.map fun _ => (), after.collected.getD [])

def dryRun (verb : String) (invocation : Invocation T) (repo : InMemoryRepository T) : Json :=
  match preview interpret escapes invocation repo with
  | (.ok (), _) => .object [("verb", .str verb), ("ok", .bool true)]
  | (.error refusal, collected) => refusedDryRun verb refusal collected

/-- What the real dispatch answers, no collector bound. -/
def realOutcome (invocation : Invocation T) (world : World T) : Except Refusal (T × List Event) :=
  (perform (invocation.run interpret escapes) { world with collected := none }).1

end DryRun

/-- The report names `refusal` as what was raised and as the first of what it lists. -/
def NamesFirst (report : Json) (refusal : Refusal) : Prop :=
  report.get "ok" = some (.bool false) ∧ report.get "error" = some (.str refusal.message) ∧
  report.get "refusal" = some (.str refusal.kind) ∧
  ∃ first rest, report.get "refusals" = some (.array (first :: rest)) ∧
    first.get "refusal" = some (.str refusal.kind) ∧
    first.get "message" = some (.str refusal.message)

/-- A dry run agrees with the real outcome: none reported where it was accepted, and where it
was refused, that refusal first. -/
def Agrees {α : Type} (report : Json) : Except Refusal α → Prop
  | .ok _ => report.get "ok" = some (.bool true) ∧ report.get "error" = none ∧
      report.get "refusals" = none
  | .error refusal => NamesFirst report refusal

/-! ### The trial a dispatch puts to its candidate -/

section Trials

variable {T E : Type} [Record T] [AsFielded E] (interpret : Interpreter)
  (escapes : Char → Bool)

def Command.trial (command : Command T) (repo : InMemoryRepository T) :
    Trial Refusal Collected (String × T) := do
  let x ← .ofExcept (hydrateRecord escapes repo command.hydrate command.commandName
    command.aggregateName command.identityReading)
  .judge (givenVerdicts interpret (fielded x.1.2) command.args command.givens
    command.commandName command.aggregateQualifiedName x.1.1) (.pass ())
  .ofExcept (admissibleTransition escapes (fielded x.1.2) command.transition
    command.commandName)
  let mutated ← command.applyMutations.trial interpret escapes x.1.2
  .judge (ensuresVerdicts interpret (fielded mutated) (fielded x.1.2) command.args
    command.ensures command.commandName) (.pass ())
  .judge (invariantVerdicts interpret (fielded mutated) command.aggregateName
    command.invariants) (.pass ())
  .ofExcept command.tenantBoundaryCheck
  .ofExcept (command.existing escapes repo x.2 x.1.1)
  .pass (x.1.1, seeded command.seedProjections mutated)

def EntityCommand.trial (command : EntityCommand T E) (repo : InMemoryRepository T) :
    Trial Refusal Collected (String × T) := do
  let record ← .ofExcept (command.hydrateParent escapes repo)
  let mutated ← command.half.trial interpret escapes
    (command.applyMutations.trial interpret escapes) record
  .judge (invariantVerdicts interpret (fielded mutated) command.half.aggregateName
    command.invariants) (.pass ())
  .pass (command.half.parentId, seeded command.seedProjections mutated)

/-- The lists of rules an invocation puts, in order: the givens to the record hydrated, those
of an entity command it delegates to, then `ensures` and invariants to the record mutated. -/
def Invocation.trial : Invocation T → InMemoryRepository T → Trial Refusal Collected (String × T)
  | root command => command.trial interpret escapes
  | element command => command.trial interpret escapes

theorem Command.settledEnsures_follows (command : Command T) (settled old : T) :
    Follows (command.settledEnsures interpret settled old)
      (.judge (ensuresVerdicts interpret (fielded settled) (fielded old) command.args
        command.ensures command.commandName) (.pass ())) := by
  unfold Command.settledEnsures
  cases hensures : command.ensures.isEmpty with
  | false => exact enforceEnsures_follows _ _ _ _ _
  | true =>
      rw [List.isEmpty_iff.mp hensures]
      exact .noRules

theorem Command.candidate_follows (command : Command T) (repo : InMemoryRepository T) :
    Follows (command.candidate interpret escapes repo)
      (command.trial interpret escapes repo) := by
  refine .bind (.ofExcept _) fun x => .bind (enforceGivens_follows _ _ _ _ _ _) fun _ => ?_
  refine .bind (.ofExcept _) fun _ => ?_
  refine .bind (command.applyMutations.run_follows interpret escapes _) fun mutated => ?_
  refine .bind (command.settledEnsures_follows interpret mutated _) fun _ => ?_
  refine .bind (enforceInvariants_follows _ _ _) fun _ => .bind (.ofExcept _) fun _ => ?_
  exact .bind (.ofExcept _) fun _ => .pure _

theorem EntityCommand.candidate_follows (command : EntityCommand T E)
    (repo : InMemoryRepository T) :
    Follows (command.candidate interpret escapes repo)
      (command.trial interpret escapes repo) := by
  have hmutation := command.applyMutations.run_follows interpret escapes
  refine .bind (.ofExcept _) fun record => ?_
  refine .bind (command.half.applyEntityCommand_follows interpret escapes hmutation record)
    fun mutated => ?_
  exact .bind (enforceInvariants_follows _ _ _) fun _ => .pure _

theorem Invocation.candidate_follows (invocation : Invocation T) (repo : InMemoryRepository T) :
    Follows (invocation.candidate interpret escapes repo)
      (invocation.trial interpret escapes repo) :=
  match invocation with
  | root command => command.candidate_follows interpret escapes repo
  | element command => command.candidate_follows interpret escapes repo

end Trials

/-! ### Faults are told apart from failures -/

/-- What the evaluator raises is a fault or a type mismatch; no rule is refused as either. -/
def Interpreter.FaultsOnly (interpret : Interpreter) : Prop :=
  ∀ expr ctx r, interpret expr ctx = .error r → r.kind = "Fault" ∨ r.kind = "TypeMismatch"

def Told : Verdict Refusal Collected → Prop
  | .holds => True
  | .fails kept => kept.refusal.kind ≠ "Fault" ∧ kept.refusal.kind ≠ "TypeMismatch"
  | .faults r => r.kind = "Fault" ∨ r.kind = "TypeMismatch"

/-- The refusals a failed rule is refused with. -/
def Refusal.OfRule : Refusal → Prop
  | givenNotMet _ | ensuresNotMet _ | invariantViolation _ | nothingToCorrect _ => True
  | _ => False

theorem told_of_rule {refusal : Refusal} (h : refusal.OfRule) (detail : Detail) :
    Told (.fails ⟨refusal, detail⟩) := by
  cases refusal <;> simp_all [Told, Refusal.kind, Refusal.OfRule]

/-- Every verdict of the list is told. -/
abbrev AllTold (vs : List (Verdict Refusal Collected)) : Prop := ∀ v ∈ vs, Told v

theorem AllTold.distinct {vs : List (Verdict Refusal Collected)} (h : AllTold vs) :
    Verdict.Distinct Collected.refusal vs := by
  intro kept r hfails hfaults heq
  have hkept := h _ hfails
  have hr := h _ hfaults
  rw [← heq] at hr
  exact hr.elim hkept.1 hkept.2

section AllTold

variable {interpret : Interpreter}

theorem told_verdict (hfaults : interpret.FaultsOnly) {expr : Expr} {ctx : EvalContext}
    {kept : Collected} (hkept : Told (.fails kept)) : Told (verdict interpret expr ctx kept) := by
  unfold verdict
  cases h : interpret expr ctx with
  | error r => exact hfaults expr ctx r h
  | ok held =>
      dsimp only
      split
      · trivial
      · exact hkept

theorem told_givens (hfaults : interpret.FaultsOnly) (record args : Fielded)
    (givens : List GivenSpec) (commandName aggregateQualifiedName id : String) :
    AllTold (givenVerdicts interpret record args givens commandName aggregateQualifiedName
      id) := by
  refine List.forall_mem_map.mpr fun given _ => told_verdict hfaults (told_of_rule ?_ _)
  unfold GivenSpec.refusal
  cases given.correctsEvent <;> trivial

theorem told_ensures (hfaults : interpret.FaultsOnly) (settled old args : Fielded)
    (ensures : List EnsuresSpec) (commandName : String) :
    AllTold (ensuresVerdicts interpret settled old args ensures commandName) :=
  List.forall_mem_map.mpr fun _ _ => told_verdict hfaults (told_of_rule (by trivial) _)

theorem told_specs (hfaults : interpret.FaultsOnly) (name : String) (args subject : Fielded)
    (specs : List InvariantSpec) :
    AllTold (specVerdicts interpret name args subject specs) :=
  List.forall_mem_map.mpr fun _ _ => told_verdict hfaults (told_of_rule (by trivial) _)

mutual

theorem told_entity (hfaults : interpret.FaultsOnly) (owner : Fielded) :
    (entity : EntityInvariants) → AllTold (entityVerdicts interpret owner entity)
  | .mk name listField specs nested => by
      rw [entityVerdicts]
      intro v hv
      obtain ⟨element, -, hv⟩ := List.mem_flatMap.mp hv
      cases element with
      | value _ => cases hv
      | nested element =>
          rcases List.mem_append.mp hv with hv | hv
          · exact told_specs hfaults _ _ _ specs v hv
          · exact told_nested hfaults element nested v hv

theorem told_nested (hfaults : interpret.FaultsOnly) (owner : Fielded) :
    (entities : List EntityInvariants) → AllTold (nestedVerdicts interpret owner entities)
  | [] => by
      rw [nestedVerdicts]
      exact fun v hv => nomatch hv
  | entity :: rest => by
      rw [nestedVerdicts]
      exact List.forall_mem_append.mpr
        ⟨told_entity hfaults owner entity, told_nested hfaults owner rest⟩

end

theorem told_invariants (hfaults : interpret.FaultsOnly) (record : Fielded)
    (aggregateName : String) (set : InvariantSet) :
    AllTold (invariantVerdicts interpret record aggregateName set) :=
  List.forall_mem_append.mpr ⟨told_specs hfaults _ _ _ _, told_nested hfaults _ _⟩

variable {T E : Type} {escapes : Char → Bool}

theorem ElementCall.every_told [AsFielded T] [AsFielded E] (hfaults : interpret.FaultsOnly)
    (call : ElementCall T E) {mutate : E → Trial Refusal Collected E}
    (hmutate : ∀ element, (mutate element).Every AllTold) (record : T) : (call.trial interpret escapes mutate record).Every AllTold := by
  unfold trial
  cases call.located record with
  | none => trivial
  | some found =>
      refine .bind (.bind (Trial.every_ofExcept _) fun _ => ⟨?_, trivial⟩) fun _ => ?_
      · intro v hv
        obtain ⟨given, -, hv⟩ := List.mem_flatMap.mp hv
        split at hv
        · cases hv
        · rw [List.mem_singleton.mp hv]
          exact told_verdict hfaults (told_of_rule (by trivial) _)
      · refine .bind (Trial.every_ofExcept _) fun _ => .bind (hmutate _) fun _ => ?_
        exact .bind ⟨told_ensures hfaults _ _ _ _ _, trivial⟩ fun _ => trivial

theorem Mutation.every_told (hfaults : interpret.FaultsOnly) (mutation : Mutation T) :
    ∀ record, (mutation.trial interpret escapes record).Every AllTold := by
  induction mutation with
  | write f => exact fun record => Trial.every_ofExcept (f record)
  | delegate call inner ih => exact fun record => call.every_told hfaults ih record
  | andThen first second ih1 ih2 => exact fun record => .bind (ih1 record) ih2

theorem Invocation.every_told [Record T] (hfaults : interpret.FaultsOnly)
    (invocation : Invocation T) (repo : InMemoryRepository T) :
    (invocation.trial interpret escapes repo).Every AllTold := by
  cases invocation with
  | root command =>
      refine .bind (Trial.every_ofExcept _) fun x => ?_
      refine .bind ⟨told_givens hfaults _ _ _ _ _ _, trivial⟩ fun _ => ?_
      refine .bind (Trial.every_ofExcept _) fun _ => ?_
      refine .bind (command.applyMutations.every_told hfaults _) fun mutated => ?_
      refine .bind ⟨told_ensures hfaults _ _ _ _ _, trivial⟩ fun _ => ?_
      refine .bind ⟨told_invariants hfaults _ _ _, trivial⟩ fun _ => ?_
      refine .bind (Trial.every_ofExcept _) fun _ => ?_
      exact .bind (Trial.every_ofExcept _) fun _ => trivial
  | element command =>
      refine .bind (Trial.every_ofExcept _) fun record => ?_
      refine .bind (command.half.every_told hfaults
        (command.applyMutations.every_told hfaults) record) fun mutated => ?_
      exact .bind ⟨told_invariants hfaults _ _ _, trivial⟩ fun _ => trivial

end AllTold

/-! ### Agreement -/

section Agreement

variable {T : Type} [Record T] {interpret : Interpreter} {escapes : Char → Bool}

theorem preview_eq (invocation : Invocation T) (repo : InMemoryRepository T) :
    preview interpret escapes invocation repo =
      match (invocation.trial interpret escapes repo).full Collected.refusal with
      | (.error r, collected) => (.error r, collected)
      | (.ok _, collected) => (.ok (), collected) := by
  unfold preview
  rw [Invocation.perform_run, invocation.candidate_follows interpret escapes repo (some [])]
  simp only [Trial.under, List.nil_append]
  rcases (invocation.trial interpret escapes repo).full Collected.refusal with ⟨_ | _, _⟩ <;> rfl

theorem realOutcome_eq (invocation : Invocation T) (world : World T) :
    realOutcome interpret escapes invocation world =
      ((invocation.trial interpret escapes world.repo).plain Collected.refusal).map
        fun (id, record) => (record, emitted invocation.emits
          invocation.aggregateQualifiedName id invocation.payload) := by
  unfold realOutcome
  rw [Invocation.perform_run, invocation.candidate_follows interpret escapes world.repo none]
  simp only [Trial.under]
  cases (invocation.trial interpret escapes world.repo).plain Collected.refusal <;> rfl

/-- What the two runs come to: both pass, or both are refused, the dry run for the real
refusal or with that refusal the first it kept. -/
theorem dryRun_cases (verb : String) (invocation : Invocation T) (repo : InMemoryRepository T) :
    (∃ a, (invocation.trial interpret escapes repo).plain Collected.refusal = .ok a ∧
      ((invocation.trial interpret escapes repo).full Collected.refusal).1 = .ok a ∧
      dryRun interpret escapes verb invocation repo =
        .object [("verb", .str verb), ("ok", .bool true)]) ∨
    ∃ r raised kept,
      (invocation.trial interpret escapes repo).plain Collected.refusal = .error r ∧
      ((invocation.trial interpret escapes repo).full Collected.refusal).1 = .error raised ∧
      dryRun interpret escapes verb invocation repo = refusedDryRun verb raised kept ∧
      (kept = [] ∧ raised = r ∨ ∃ k ks, kept = k :: ks ∧ k.refusal = r) := by
  unfold dryRun
  rw [preview_eq]
  cases hp : (invocation.trial interpret escapes repo).plain Collected.refusal with
  | ok a =>
      have hok := Trial.full_ok_iff_plain_ok.mpr hp
      rw [show Trial.full _ _ = (.ok a, []) from Prod.ext hok (Trial.full_of_ok hok)]
      exact .inl ⟨a, rfl, rfl, rfl⟩
  | error r =>
      rcases Trial.plain_error hp with hfull | ⟨raised, k, ks, hfull, hk⟩
      · rw [hfull]
        exact .inr ⟨r, r, [], rfl, rfl, rfl, .inl ⟨rfl, rfl⟩⟩
      · rw [hfull]
        exact .inr ⟨r, raised, k :: ks, rfl, rfl, rfl, .inr ⟨k, ks, rfl, hk⟩⟩

/-- Whatever a later rule does, a dry run reports a refusal exactly when the real dispatch is
refused, and the first refusal it lists is the real one. -/
theorem dryRun_lists_real_first (verb : String) (invocation : Invocation T) (world : World T) :
    match realOutcome interpret escapes invocation world with
    | .ok _ => dryRun interpret escapes verb invocation world.repo =
        .object [("verb", .str verb), ("ok", .bool true)]
    | .error r => ∃ first rest,
        (dryRun interpret escapes verb invocation world.repo).get "refusals" =
          some (.array (first :: rest)) ∧
        first.get "refusal" = some (.str r.kind) ∧
        first.get "message" = some (.str r.message) := by
  rw [realOutcome_eq]
  rcases dryRun_cases verb invocation world.repo with
    ⟨a, hplain, -, hreport⟩ | ⟨r, raised, kept, hplain, -, hreport, hfirst⟩
  · rw [hplain]
    exact hreport
  · rw [hplain, hreport]
    rcases hfirst with ⟨rfl, rfl⟩ | ⟨k, ks, rfl, rfl⟩
    · exact ⟨_, [], rfl, rfl, rfl⟩
    · exact ⟨_, _, rfl, rfl, rfl⟩

end Agreement

end Hecks
