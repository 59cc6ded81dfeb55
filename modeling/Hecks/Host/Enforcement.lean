import Hecks.Query.Roles
import Hecks.Orchestrate.Outcome
import Hecks.Host.Needs

/-! The enforcement of declared roles: what the host does with a caller it cannot identify, and
what each mode accepts. -/
namespace Hecks.Host

/-- Who a dispatch is for, as far as the host can name them. -/
structure Caller where
  role : Option String
  actorId : Option String

def Caller.nobody : Caller := ⟨none, none⟩

def anonymousRole : String := "Anonymous"

/-- What the host does about the role a command declares. -/
inductive Enforcement where
  | off
  | shadow
  | enforce
deriving DecidableEq

/-- The caller the kernel is asked to check. -/
def Enforcement.effective (mode : Enforcement) (caller : Caller) : Caller :=
  if mode ≠ .off ∧ caller.role = none ∧ caller.actorId = none then ⟨some anonymousRole, none⟩
  else caller

/-- A host-internal dispatch is never subject to enforcement. -/
def Enforcement.checked (mode : Enforcement) (origin : Needs.Origin) (caller : Caller) : Caller :=
  if origin = .hostInternal then caller else mode.effective caller

section

variable {S H A : Type}

/-- One command of the generated router: the roles it declares, the gates ahead of the role check
and what follows it. -/
structure Arm (S A : Type) where
  verb : String
  commandRoles : List String
  commandName : String
  before : S → Json → Except Refusal A
  after : S → A → List MutationRecord → Except Refusal (List Event) × S × List MutationRecord

/-- The generated registry of a domain. -/
structure Registry (S A : Type) where
  arms : List (Arm S A)
  scan : S → Query.Store
  queries : List Query.QueryDef
  assignments : Option String
  escapes : Char → Bool

namespace Registry

variable (registry : Registry S A)

/-- The check the generator emits: none, one role, or any of several. -/
def refuseRoleMismatch (arm : Arm S A) (store : S) (caller : Caller) : Except Refusal Unit :=
  match arm.commandRoles with
  | [] => .ok ()
  | [role] =>
      Query.checkRoleVia registry.escapes (registry.scan store) registry.queries
        registry.assignments (some role) arm.commandName caller.role caller.actorId
  | roles =>
      Query.checkRolesVia registry.escapes (registry.scan store) registry.queries
        registry.assignments roles arm.commandName caller.role caller.actorId

def find (verb : String) : Option (Arm S A) := registry.arms.find? fun arm => arm.verb = verb

def dispatchByName (store : S) (verb : String) (args : Json)
    (callerRole callerActorId : Option String) (mutations : List MutationRecord) :
    Except Refusal (List Event) × S × List MutationRecord :=
  match registry.find verb with
  | none =>
      (.error (.typeMismatch ("unknown command " ++ Text.debugStr registry.escapes verb)), store,
        mutations)
  | some arm =>
      match arm.before store args with
      | .error refusal => (.error refusal, store, mutations)
      | .ok decoded =>
          match registry.refuseRoleMismatch arm store ⟨callerRole, callerActorId⟩ with
          | .error refusal => (.error refusal, store, mutations)
          | .ok () => arm.after store decoded mutations

end Registry

/-- What a kernel run answers with: the world it ends in and what was refused on the way. -/
structure Answer (S H : Type) where
  world : Cascade S H
  refusals : List (String × Refusal)

/-- A kernel: its registry and the environment its commands run in. -/
structure Kernel (S H A : Type) where
  registry : Registry S A
  env : Env S H

/-- The environment at one step's moment. -/
def Kernel.at (kernel : Kernel S H A) (occurredAt : Option String) : Env S H :=
  { kernel.env with dispatchFn := kernel.registry.dispatchByName, occurredAt := occurredAt }

/-- A step of the input: what is dispatched, for whom and when. -/
structure Step where
  verb : String
  args : Json
  caller : Caller
  occurredAt : Option String

/-- A journaled step carries no caller and no moment. -/
def Step.journaled (row : String × Json) : Step := ⟨row.1, row.2, .nobody, none⟩

namespace Kernel

variable (kernel : Kernel S H A) (fuel : Nat)

def step (step : Step) (answer : Answer S H) : Option (Answer S H) :=
  match Hecks.run (kernel.at step.occurredAt) fuel step.verb step.args step.caller.role
      step.caller.actorId none 0 answer.world with
  | (none, _) => none
  | (some (.ok ()), world) => some ⟨world, answer.refusals⟩
  | (some (.error refusal), world) => some ⟨world, answer.refusals ++ [(step.verb, refusal)]⟩

/-- The kernel's loop over its steps. -/
def steps : List Step → Answer S H → Option (Answer S H)
  | [], answer => some answer
  | step :: rest, answer => (kernel.step fuel step answer).bind (steps rest)

end Kernel

def refusedForRole (answer : Answer S H) : Bool :=
  answer.refusals.any fun r => r.2.kind == "Unauthorized"

structure Outcome (S H : Type) where
  result : Answer S H
  accepted : Bool

/-- What one dispatch meets: the domain and its kernel, the world the snapshot seeds, the journal
rows after it, and the clock as this dispatch reads it. -/
structure Site (S H A : Type) where
  kernel : Kernel S H A
  fuel : Nat
  seeded : Cascade S H
  journal : List (String × Json)
  ir : Option Serde
  clock : Nat → Int64
  occurredAt : Option String
  /-- The arguments as the kernel reads the text the host writes them in. -/
  handOver : Serde → Json

namespace Site

variable (site : Site S H A)

/-- `run`, up to its commit: the arguments filled in, the journal replayed, the step run. -/
def run (origin : Needs.Origin) (verb : String) (args : Serde) (caller : Caller) :
    Option (Outcome S H) := do
  let args := site.ir.elim args fun ir => Needs.fillArguments origin ir verb site.clock args
  let live : Step := ⟨verb, site.handOver args, caller, site.occurredAt⟩
  let result ← site.kernel.steps site.fuel (site.journal.map .journaled ++ [live])
    ⟨site.seeded, []⟩
  return ⟨result, result.refusals.isEmpty⟩

def dispatchWith (mode : Enforcement) (origin : Needs.Origin) (verb : String) (args : Serde)
    (caller : Caller) : Option (Outcome S H) := do
  let outcome ← site.run origin verb args (mode.checked origin caller)
  if mode = .shadow ∧ caller.role = none ∧ !outcome.accepted ∧ refusedForRole outcome.result then
    site.run origin verb args .nobody
  else return outcome

end Site

/-! ### The role check alone tells two callers apart -/

namespace Registry

variable {registry : Registry S A} {store : S} {verb : String} {caller : Caller}

/-- The role check of a command lets the caller through; a verb without a command has none. -/
def LetsThrough (registry : Registry S A) (store : S) (verb : String) (caller : Caller) : Prop :=
  ∀ arm, registry.find verb = some arm → registry.refuseRoleMismatch arm store caller = .ok ()

theorem nobody_is_unchecked (arm : Arm S A) (store : S) :
    registry.refuseRoleMismatch arm store .nobody = .ok () := by
  unfold refuseRoleMismatch Caller.nobody
  rcases arm.commandRoles with _ | ⟨role, _ | ⟨other, roles⟩⟩
  · rfl
  · rfl
  · simp [Query.checkRolesVia, Query.checkRoleVia, Except.isOk, Except.toBool]

theorem refusal_of_ite {c : Prop} [Decidable c] {refusal raised : Refusal}
    (h : (if c then .ok () else .error raised : Except Refusal Unit) = .error refusal) :
    refusal = raised := by
  by_cases hc : c
  · rw [if_pos hc] at h
    cases h
  · rw [if_neg hc] at h
    exact (Except.error.inj h).symm

theorem kind_of_refuseRoleMismatch {arm : Arm S A} {refusal : Refusal}
    (h : registry.refuseRoleMismatch arm store caller = .error refusal) :
    refusal.kind = "Unauthorized" := by
  unfold refuseRoleMismatch at h
  split at h
  · cases h
  · unfold Query.checkRoleVia at h
    split at h
    · rw [refusal_of_ite h]
      rfl
    · rw [refusal_of_ite h]
      rfl
    · cases h
  · rw [refusal_of_ite h]
    rfl

/-- The router treats a caller it lets through as it treats nobody. -/
theorem dispatchByName_of_letsThrough (h : registry.LetsThrough store verb caller) (args : Json)
    (mutations : List MutationRecord) :
    registry.dispatchByName store verb args caller.role caller.actorId mutations =
      registry.dispatchByName store verb args none none mutations := by
  unfold dispatchByName
  cases hfind : registry.find verb with
  | none => rfl
  | some arm =>
    have through := h arm hfind
    have unchecked : registry.refuseRoleMismatch arm store .nobody = .ok () :=
      nobody_is_unchecked arm store
    rw [Caller.nobody] at unchecked
    simp only [through, unchecked]

/-- A caller it turns away is refused for that, or as nobody is. -/
theorem dispatchByName_of_turned_away (h : ¬ registry.LetsThrough store verb caller) (args : Json)
    (mutations : List MutationRecord) :
    (∃ refusal, refusal.kind = "Unauthorized" ∧
      registry.dispatchByName store verb args caller.role caller.actorId mutations =
        (.error refusal, store, mutations)) ∨
    ∃ refusal,
      registry.dispatchByName store verb args caller.role caller.actorId mutations =
        (.error refusal, store, mutations) ∧
      registry.dispatchByName store verb args none none mutations =
        (.error refusal, store, mutations) := by
  unfold LetsThrough at h
  push Not at h
  obtain ⟨arm, hfind, hrefused⟩ := h
  unfold dispatchByName
  simp only [hfind]
  cases arm.before store args with
  | error refusal => exact .inr ⟨refusal, rfl, rfl⟩
  | ok decoded =>
    cases hgate : registry.refuseRoleMismatch arm store caller with
    | ok _ => exact absurd hgate hrefused
    | error refusal => exact .inl ⟨refusal, kind_of_refuseRoleMismatch hgate, by simp only [hgate]⟩

end Registry

/-- A run depends on its caller through the answer of its own dispatch only. -/
theorem run_of_same_dispatch (env : Env S H) {verb : String} {args : Json}
    {role actor : Option String} {c : Cascade S H}
    (same : env.dispatchFn c.store verb (enrichedArgs env verb args c) role actor c.mutations =
      env.dispatchFn c.store verb (enrichedArgs env verb args c) none none c.mutations)
    (fuel : Nat) (stamp : Option (List (String × String))) (depth : Nat) :
    Hecks.run env fuel verb args role actor stamp depth c =
      Hecks.run env fuel verb args none none stamp depth c := by
  cases fuel with
  | zero => rfl
  | succ fuel =>
    have call : callDispatch env verb args role actor stamp depth c =
        callDispatch env verb args none none stamp depth c := by
      simp only [enrichedArgs] at same
      simp only [callDispatch, same]
    simp only [Hecks.run, runBody, Bind.bind, Act.bind, call]

namespace Kernel

variable (kernel : Kernel S H A) (fuel : Nat)

theorem steps_append (first second : List Step) : ∀ answer : Answer S H,
    kernel.steps fuel (first ++ second) answer =
      (kernel.steps fuel first answer).bind (kernel.steps fuel second) := by
  induction first with
  | nil => exact fun _ => rfl
  | cons step first ih =>
    intro answer
    simp only [List.cons_append, steps]
    cases kernel.step fuel step answer with
    | none => rfl
    | some next => exact ih next

end Kernel

namespace Site

variable (site : Site S H A) (origin : Needs.Origin) (verb : String) (args : Serde)

/-- What the kernel has answered when it comes to the dispatch itself. -/
def replayed : Option (Answer S H) :=
  site.kernel.steps site.fuel (site.journal.map .journaled) ⟨site.seeded, []⟩

def input : Json :=
  site.handOver (site.ir.elim args fun ir => Needs.fillArguments origin ir verb site.clock args)

def live (caller : Caller) : Step := ⟨verb, site.input origin verb args, caller, site.occurredAt⟩

def outcome (result : Answer S H) : Outcome S H := ⟨result, result.refusals.isEmpty⟩

theorem run_eq (caller : Caller) :
    site.run origin verb args caller = (site.replayed.bind
      (site.kernel.step site.fuel (site.live origin verb args caller))).map outcome := by
  unfold run replayed live input
  simp only [Kernel.steps_append]
  cases site.kernel.steps site.fuel (site.journal.map .journaled) ⟨site.seeded, []⟩ with
  | none => rfl
  | some answer =>
    simp only [Option.bind_eq_bind, Option.bind_some, Kernel.steps]
    cases site.kernel.step site.fuel _ answer with
    | none => rfl
    | some result => rfl

/-- The kernel's role check lets the caller run the command in the world the journal leads to. -/
def LetsThrough (caller : Caller) : Prop :=
  ∀ answer, site.replayed = some answer →
    site.kernel.registry.LetsThrough answer.world.store verb caller

/-- With no caller to check, the kernel accepts the command in the world the journal leads to. -/
def AcceptsUnchecked : Prop :=
  ∃ answer events, site.replayed = some answer ∧ answer.refusals = [] ∧
    topAnswer (site.kernel.at site.occurredAt) verb (site.input origin verb args) none none
      answer.world = .ok events ∧
    (Hecks.run (site.kernel.at site.occurredAt) site.fuel verb (site.input origin verb args) none
      none none 0 answer.world).1 ≠ none

/-- A dispatch answers, and accepts. -/
def Accepts (mode : Enforcement) (caller : Caller) (outcome : Outcome S H) : Prop :=
  site.dispatchWith mode origin verb args caller = some outcome ∧ outcome.accepted

variable {site origin verb args}

theorem accepted_nobody_iff :
    (∃ outcome, site.run origin verb args .nobody = some outcome ∧ outcome.accepted) ↔
      site.AcceptsUnchecked origin verb args := by
  rw [run_eq]
  constructor
  · rintro ⟨outcome, hrun, haccepted⟩
    obtain ⟨result, hresult, rfl⟩ := Option.map_eq_some_iff.mp hrun
    obtain ⟨answer, hreplayed, hstep⟩ := Option.bind_eq_some_iff.mp hresult
    have hclean : result.refusals = [] := List.isEmpty_iff.mp haccepted
    simp only [Kernel.step, live, Caller.nobody] at hstep
    split at hstep
    · cases hstep
    · rename_i world hreturned
      cases hstep
      cases htop : topAnswer (site.kernel.at site.occurredAt) verb (site.input origin verb args)
          none none answer.world with
      | ok events => exact ⟨answer, events, hreplayed, hclean, htop, by simp [hreturned]⟩
      | error refusal =>
        cases hfuel : site.fuel with
        | zero => rw [hfuel] at hreturned; cases hreturned
        | succ fuel =>
          rw [hfuel, run_of_refused htop] at hreturned
          cases hreturned
    · cases hstep
      simp at hclean
  · rintro ⟨answer, events, hreplayed, hclean, htop, hreturns⟩
    cases hrun : Hecks.run (site.kernel.at site.occurredAt) site.fuel verb
        (site.input origin verb args) none none none 0 answer.world with
    | mk returned world =>
      have hok : returned = some (.ok ()) := by
        have hne : ∀ refusal, (Hecks.run (site.kernel.at site.occurredAt) site.fuel verb
            (site.input origin verb args) none none none 0 answer.world).1 ≠
              some (.error refusal) := run_ne_error_of_accepted htop site.fuel
        rw [hrun] at hreturns hne
        cases returned with
        | none => exact absurd rfl hreturns
        | some result =>
          cases result with
          | ok _ => rfl
          | error refusal => exact absurd rfl (hne refusal)
      refine ⟨⟨⟨world, []⟩, true⟩, ?_, rfl⟩
      simp only [hreplayed, Option.bind_some, Kernel.step, live, Caller.nobody, hrun, hok, hclean,
        Option.map_some]
      rfl

theorem run_of_letsThrough {caller : Caller} (h : site.LetsThrough verb caller) :
    site.run origin verb args caller = site.run origin verb args .nobody := by
  rw [run_eq, run_eq]
  cases hreplayed : site.replayed with
  | none => rfl
  | some answer =>
    have same := site.kernel.registry.dispatchByName_of_letsThrough (h answer hreplayed)
    have input := same (enrichedArgs (site.kernel.at site.occurredAt) verb
      (site.input origin verb args) answer.world) answer.world.mutations
    have runs := run_of_same_dispatch (site.kernel.at site.occurredAt) input site.fuel none 0
    simp only [Option.bind_some, Kernel.step, live, Caller.nobody, runs]

/-- A caller who is turned away is refused for their role, or refused as nobody is. -/
theorem run_of_turned_away {caller : Caller} (h : ¬ site.LetsThrough verb caller) :
    (site.run origin verb args caller = site.run origin verb args .nobody ∧
      ¬ site.AcceptsUnchecked origin verb args) ∨
    ∃ outcome, site.run origin verb args caller = some outcome ∧ outcome.accepted = false ∧
      refusedForRole outcome.result = true := by
  unfold LetsThrough at h
  push Not at h
  obtain ⟨answer, hreplayed, hturned⟩ := h
  obtain ⟨refusal, hkind, hdispatch⟩ | ⟨refusal, hcaller, hnobody⟩ :=
    Registry.dispatchByName_of_turned_away hturned
      (enrichedArgs (site.kernel.at site.occurredAt) verb (site.input origin verb args)
        answer.world) answer.world.mutations
  · have htop : topAnswer (site.kernel.at site.occurredAt) verb (site.input origin verb args)
        caller.role caller.actorId answer.world = .error refusal := by
      unfold topAnswer
      exact congrArg Prod.fst hdispatch
    cases hfuel : site.fuel with
    | zero =>
      left
      constructor
      · rw [run_eq, run_eq, hreplayed, Option.bind_some, Option.bind_some, hfuel]
        rfl
      · rintro ⟨_, _, _, _, _, hreturns⟩
        rw [hfuel] at hreturns
        exact hreturns rfl
    | succ fuel =>
      right
      rw [run_eq, hreplayed, Option.bind_some, hfuel]
      simp only [Kernel.step, live, run_of_refused htop]
      refine ⟨_, rfl, ?_, ?_⟩
      · simp [outcome]
      · simp [outcome, refusedForRole, hkind]
  · left
    constructor
    · rw [run_eq, run_eq, hreplayed, Option.bind_some, Option.bind_some]
      simp only [Kernel.step, live, Caller.nobody]
      rw [run_of_same_dispatch (site.kernel.at site.occurredAt) (hcaller.trans hnobody.symm)]
    · rintro ⟨answer', events, hreplayed', _, htop, _⟩
      rw [hreplayed] at hreplayed'
      cases hreplayed'
      have : topAnswer (site.kernel.at site.occurredAt) verb (site.input origin verb args) none
          none answer.world = .error refusal := by
        unfold topAnswer
        exact congrArg Prod.fst hnobody
      rw [this] at htop
      cases htop

/-! ### What each mode accepts -/

/-- Each mode accepts what the stricter one does, with the same outcome. -/
def Monotone (site : Site S H A) (origin : Needs.Origin) (verb : String) (args : Serde)
    (caller : Caller) : Prop :=
  (∀ outcome, site.Accepts origin verb args .enforce caller outcome →
    site.Accepts origin verb args .shadow caller outcome) ∧
  ∀ outcome, site.Accepts origin verb args .shadow caller outcome →
    site.Accepts origin verb args .off caller outcome

theorem checked_off (caller : Caller) : Enforcement.off.checked origin caller = caller := by
  unfold Enforcement.checked Enforcement.effective
  split <;> simp

theorem checked_shadow (caller : Caller) :
    Enforcement.shadow.checked origin caller = Enforcement.enforce.checked origin caller := by
  simp [Enforcement.checked, Enforcement.effective]

theorem dispatchWith_off (caller : Caller) :
    site.dispatchWith .off origin verb args caller = site.run origin verb args caller := by
  simp only [dispatchWith, checked_off, reduceCtorEq, false_and, if_false]
  cases site.run origin verb args caller <;> rfl

theorem dispatchWith_enforce (caller : Caller) :
    site.dispatchWith .enforce origin verb args caller =
      site.run origin verb args (Enforcement.enforce.checked origin caller) := by
  simp only [dispatchWith, reduceCtorEq, false_and, if_false]
  cases site.run origin verb args (Enforcement.enforce.checked origin caller) <;> rfl

/-- Shadow answers what enforcement would, unless that is a refusal for the role of a caller who
stated none: then it answers what nobody gets. -/
theorem dispatchWith_shadow (caller : Caller) :
    site.dispatchWith .shadow origin verb args caller =
      (site.run origin verb args (Enforcement.enforce.checked origin caller)).bind fun first =>
        if caller.role = none ∧ first.accepted = false ∧ refusedForRole first.result = true then
          site.run origin verb args .nobody
        else some first := by
  simp only [dispatchWith, checked_shadow, true_and, Bool.not_eq_true']
  rfl

theorem enforce_within_shadow {caller : Caller} {outcome : Outcome S H}
    (h : site.Accepts origin verb args .enforce caller outcome) :
    site.Accepts origin verb args .shadow caller outcome := by
  obtain ⟨hrun, haccepted⟩ := h
  rw [dispatchWith_enforce] at hrun
  refine ⟨?_, haccepted⟩
  simp [dispatchWith_shadow, hrun, haccepted]

/-- What shadow accepts was accepted at first, or accepted for nobody after a refusal for the
role. -/
theorem accepts_shadow {caller : Caller} {outcome : Outcome S H}
    (h : site.Accepts origin verb args .shadow caller outcome) :
    site.run origin verb args (Enforcement.enforce.checked origin caller) = some outcome ∨
      caller.role = none ∧ site.run origin verb args .nobody = some outcome := by
  obtain ⟨hrun, haccepted⟩ := h
  rw [dispatchWith_shadow] at hrun
  obtain ⟨first, hfirst, hagain⟩ := Option.bind_eq_some_iff.mp hrun
  by_cases again : caller.role = none ∧ first.accepted = false ∧
      refusedForRole first.result = true
  · rw [if_pos again] at hagain
    exact .inr ⟨again.1, hagain⟩
  · rw [if_neg again] at hagain
    exact .inl (hfirst.trans hagain)

/-- An accepted run is the run nobody gets. -/
theorem run_nobody_of_accepted {caller : Caller} {outcome : Outcome S H}
    (hrun : site.run origin verb args caller = some outcome) (haccepted : outcome.accepted) :
    site.run origin verb args .nobody = some outcome := by
  by_cases through : site.LetsThrough verb caller
  · rw [← run_of_letsThrough through, hrun]
  · have turned : (site.run origin verb args caller = site.run origin verb args .nobody ∧
        ¬ site.AcceptsUnchecked origin verb args) ∨
        ∃ outcome, site.run origin verb args caller = some outcome ∧ outcome.accepted = false ∧
          refusedForRole outcome.result = true := run_of_turned_away through
    obtain ⟨same, -⟩ | ⟨refused, hrefused, hnot, -⟩ := turned
    · rw [← same, hrun]
    · rw [hrun] at hrefused
      cases hrefused
      rw [haccepted] at hnot
      cases hnot

variable (origin) in
/-- Only a caller nothing is known of is checked as another. -/
theorem checked_enforce (caller : Caller) :
    Enforcement.enforce.checked origin caller = caller ∨ caller = .nobody := by
  obtain ⟨role, actorId⟩ := caller
  unfold Enforcement.checked Enforcement.effective
  by_cases h : role = none ∧ actorId = none
  · right
    simp [Caller.nobody, h]
  · left
    simp [h]

/-- Each mode accepts what the stricter one does exactly when the caller states a role, names no
actor or is let through, or the command is refused without the role check too. -/
theorem enforcement_monotone_iff (site : Site S H A) (origin : Needs.Origin) (verb : String)
    (args : Serde) (caller : Caller) :
    Monotone site origin verb args caller ↔
      caller.role ≠ none ∨ caller.actorId = none ∨ site.LetsThrough verb caller ∨
        ¬ site.AcceptsUnchecked origin verb args := by
  constructor
  · intro ⟨_, shadow_within_off⟩
    by_contra h
    push Not at h
    obtain ⟨unstated, named, turned, unchecked⟩ := h
    obtain ⟨outcome, hnobody, haccepted⟩ := accepted_nobody_iff.mpr unchecked
    have same : Enforcement.enforce.checked origin caller = caller := by
      simp [Enforcement.checked, Enforcement.effective, named]
    obtain ⟨-, refuses⟩ | ⟨refused, hrefused, hnot, hrole⟩ := run_of_turned_away turned
    · exact refuses unchecked
    · -- shadow lets the unassigned actor through, and off refuses them
      have shadow : site.Accepts origin verb args .shadow caller outcome := by
        refine ⟨?_, haccepted⟩
        rw [dispatchWith_shadow, same, hrefused, Option.bind_some,
          if_pos ⟨unstated, hnot, hrole⟩]
        exact hnobody
      have off := (shadow_within_off outcome shadow).1
      rw [dispatchWith_off, hrefused] at off
      cases off
      rw [haccepted] at hnot
      cases hnot
  · intro h
    refine ⟨fun outcome => enforce_within_shadow, ?_⟩
    intro outcome hshadow
    have haccepted := hshadow.2
    refine ⟨?_, haccepted⟩
    rw [dispatchWith_off]
    obtain hfirst | ⟨unstated, hnobody⟩ := accepts_shadow hshadow
    · obtain same | rfl := checked_enforce origin caller
      · rwa [same] at hfirst
      · exact run_nobody_of_accepted hfirst haccepted
    · obtain stated | unnamed | through | refuses := h
      · exact absurd unstated stated
      · obtain ⟨role, actorId⟩ := caller
        cases unstated
        cases unnamed
        exact hnobody
      · rw [run_of_letsThrough through, hnobody]
      · exact absurd (accepted_nobody_iff.mp ⟨outcome, hnobody, haccepted⟩) refuses

end Site

end

/-- A bank that has assigned no roles, where a teller opens an account. -/
def unassignedBank : Site Nat Unit Unit where
  kernel := {
    registry := {
      arms := [⟨"Bank::Account.Open", ["Teller"], "Open", fun _ _ => .ok (),
        fun opened _ mutations => (.ok [], opened + 1, mutations)⟩]
      scan := fun _ => ⟨fun _ => some [], by simp⟩
      queries := [Query.liveAssignmentsForActor]
      assignments := Query.authorizationAssignments
      escapes := fun _ => false }
    env := Env.plain (Tables.ofManagers []) fun store _ _ _ _ mutations =>
      (.ok [], store, mutations) }
  fuel := 1
  seeded := .fresh 0
  journal := []
  ir := none
  clock := fun _ => 0
  occurredAt := none
  handOver := fun _ => .object []

theorem shadow_accepts_unassigned_actor :
    ¬ Site.Monotone unassignedBank .external "Bank::Account.Open" (.object [])
      ⟨none, some "teller-7"⟩ := by
  intro ⟨_, shadow_within_off⟩
  have off := (shadow_within_off _ ⟨rfl, rfl⟩).1
  cases off

end Hecks.Host
