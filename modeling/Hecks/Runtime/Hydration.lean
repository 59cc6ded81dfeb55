import Mathlib.Data.List.AList
import Hecks.Runtime.Identity

/-! Which record a command is routed to: the one its route names, or the one its facts make up the
identity of. -/
namespace Hecks.Runtime.Identity

/-- `acting`: the command is none that creates; `complete`: it creates a record from its facts
alone; `implicit`: it creates one with effects still to be declared. -/
inductive Hydrates where
  | acting
  | complete
  | implicit
  deriving DecidableEq

/-- `entity`: the command belongs to an entity inside the record. -/
structure Command where
  hydrates : Hydrates
  entity : Bool
  referenceKey : Option Path

/-- A command's call; `route` is the identity its `to:` names. -/
structure Invocation where
  command : Command
  route : Option String
  args : Args

inductive Refused (ε : Type) where
  | coercion (error : ε)
  | noIdentity
  | routeMismatch (route derived : String)
  | recordMissing (id : String)
  | alreadyExists (id : String)

namespace Construct

variable {ε : Type} (c : Construct ε)

/-- The identity the call's facts make up. -/
def derived (args : Args) : Except (Refused ε) (Option String) :=
  (c.identityOf args).mapError .coercion

/-- The record an acting command names, by route or by the identity its arguments carry. -/
def actingIdentity (args : Args) (referenceKey : Option Path) : Except (Refused ε) String := do
  let id ← (c.namedBy args referenceKey).mapError .coercion
  if id.truthy then pure (id.toS c.inspect) else throw .noIdentity

/-- The identity a complete command's facts derive, checked against its route. -/
def creationIdentity (args : Args) (route : Option String) : Except (Refused ε) String := do
  match route, ← c.derived args with
  | some route, some derived =>
      if route = derived then pure route else throw (.routeMismatch route derived)
  | some route, none => pure route
  | none, some derived => pure derived
  | none, none => throw .noIdentity

/-- The record an entity's command finds its element in. -/
def parentIdentity (args : Args) (route : Option String) : Except (Refused ε) String :=
  match route with
  | some route => pure route
  | none => c.actingIdentity args none

/-- The identity of the record a call acts on or creates, and whether it creates it. -/
def recordIdentity (call : Invocation) : Except (Refused ε) (String × Bool) :=
  if call.command.entity then (c.parentIdentity call.args call.route).map (·, false)
  else
    match call.command.hydrates, call.route with
    | .complete, route => (c.creationIdentity call.args route).map (·, true)
    | .implicit, none => do
        match ← c.derived call.args with
        | some id => pure (id, true)
        | none => throw .noIdentity
    | _, some route => pure (route, false)
    | _, none => (c.actingIdentity call.args call.command.referenceKey).map (·, false)

/-- `hydrate_for` and `parent_record`: the record a call goes on with, none where it builds one. -/
def hydrateFor {R : Type} (find : String → Option R) (call : Invocation) :
    Except (Refused ε) (String × Option R) := do
  let (id, creates) ← c.recordIdentity call
  match creates, find id with
  | true, some _ => throw (.alreadyExists id)
  | true, none => pure (id, none)
  | false, some record => pure (id, some record)
  | false, none => throw (.recordMissing id)

/-- The records by id, each with the call that created it. -/
abbrev Records := AList fun _ : String => Invocation

/-- One call against the records: a record it builds is stored where the later steps pass. -/
def take (records : Records) (call : Invocation) (passes : Bool) :
    Records × Except (Refused ε) (String × Option Invocation) :=
  match c.hydrateFor records.lookup call with
  | .ok (id, none) => (if passes then records.insert id call else records, .ok (id, none))
  | answer => (records, answer)

def takeAll (records : Records) : List (Invocation × Bool) → Records
  | [] => records
  | (call, passes) :: rest => takeAll (c.take records call passes).1 rest

/-- The call goes on with the record `origin` created, or is refused because of it. -/
def Meets (records : Records) (call origin : Invocation) : Prop :=
  ∃ id, records.lookup id = some origin ∧
    (c.hydrateFor records.lookup call = .ok (id, some origin) ∨
      c.hydrateFor records.lookup call = .error (.alreadyExists id))

/-- Each record is stored under the identity of the call that created it. -/
def Filed (records : Records) (sent : List (Invocation × Bool)) : Prop :=
  ∀ id origin, records.lookup id = some origin →
    (origin, true) ∈ sent ∧ c.recordIdentity origin = .ok (id, true)

variable {c}

theorem hydrateFor_creates {R : Type} {find : String → Option R} {call : Invocation} {id : String}
    (built : c.hydrateFor find call = .ok (id, none)) : c.recordIdentity call = .ok (id, true) := by
  unfold hydrateFor at built
  cases named : c.recordIdentity call with
  | error e =>
    rw [named] at built
    cases built
  | ok answer =>
    obtain ⟨id', creates⟩ := answer
    rw [named] at built
    cases creates <;> cases found : find id' <;>
      simp only [bind, Except.bind, found, pure, Except.pure] at built <;> cases built
    rfl

/-- A call goes on with, or is refused because of, the record of its own identity. -/
theorem hydrateFor_identity {R : Type} {find : String → Option R} {call : Invocation}
    {id id' : String} {creates : Bool} {record : R}
    (named : c.recordIdentity call = .ok (id', creates))
    (met : c.hydrateFor find call = .ok (id, some record) ∨
      c.hydrateFor find call = .error (.alreadyExists id)) : id' = id := by
  unfold hydrateFor at met
  rw [named] at met
  cases creates <;> cases found : find id' <;>
    simp only [bind, Except.bind, found] at met <;> obtain met | met := met <;> cases met <;> rfl

theorem Filed.take {records : Records} {sent : List (Invocation × Bool)}
    (filed : c.Filed records sent) (call : Invocation) (passes : Bool) :
    c.Filed (c.take records call passes).1 ((call, passes) :: sent) := by
  have kept : c.Filed records ((call, passes) :: sent) := fun id origin held =>
    ⟨List.mem_cons_of_mem _ (filed id origin held).1, (filed id origin held).2⟩
  unfold Construct.take
  split
  · rename_i id built
    cases passes with
    | false => exact kept
    | true =>
      intro other origin held
      simp only [if_true] at held
      by_cases same : other = id
      · subst same
        rw [AList.lookup_insert] at held
        cases held
        exact ⟨List.mem_cons_self, hydrateFor_creates built⟩
      · rw [AList.lookup_insert_ne same] at held
        exact kept other origin held
  · exact kept

theorem Filed.takeAll {records : Records} {past : List (Invocation × Bool)}
    (filed : c.Filed records past) (sent : List (Invocation × Bool)) :
    c.Filed (c.takeAll records sent) (sent.reverse ++ past) := by
  induction sent generalizing records past with
  | nil => exact filed
  | cons first rest ih =>
    obtain ⟨call, passes⟩ := first
    have next := ih (filed.take call passes)
    rw [List.reverse_cons, List.append_assoc]
    exact next

theorem derived_eq {args : Args} {id : Option String} (made : c.derived args = .ok id) :
    c.identityOf args = .ok id := by
  unfold derived at made
  cases identity : c.identityOf args with
  | error e =>
    rw [identity] at made
    cases made
  | ok id' =>
    rw [identity] at made
    cases made
    rfl

theorem namedBy_of_derived {args : Args} {id : String} (named : c.identityOf args = .ok (some id))
    (key : Option Path) : c.namedBy args key = .ok (.text id) := by
  unfold namedBy
  rw [named]
  rfl

theorem actingIdentity_of_derived {args : Args} {id : String}
    (named : c.identityOf args = .ok (some id)) (key : Option Path) :
    c.actingIdentity args key = .ok id := by
  unfold actingIdentity
  rw [namedBy_of_derived named]
  rfl

/-- A call without a route acts on the identity its facts make up, whatever its command does. -/
theorem recordIdentity_of_derived {call : Invocation} {id : String} (flat : call.route = none)
    (named : c.identityOf call.args = .ok (some id)) :
    ∃ creates, c.recordIdentity call = .ok (id, creates) := by
  obtain ⟨⟨hydrates, entity, key⟩, route, args⟩ := call
  obtain rfl : route = none := flat
  have acting := actingIdentity_of_derived named
  have derived : c.derived args = .ok (some id) := by
    unfold Construct.derived
    rw [named]
    rfl
  cases entity with
  | true =>
    refine ⟨false, ?_⟩
    change (c.actingIdentity args none).map (·, false) = _
    rw [acting]
    rfl
  | false =>
    cases hydrates with
    | acting =>
      refine ⟨false, ?_⟩
      change (c.actingIdentity args key).map (·, false) = _
      rw [acting]
      rfl
    | complete =>
      refine ⟨true, ?_⟩
      unfold recordIdentity creationIdentity
      simp only [derived]
      rfl
    | implicit =>
      refine ⟨true, ?_⟩
      unfold recordIdentity
      simp only [derived]
      rfl

/-- A record created without a route is stored under the identity its facts make up. -/
theorem derived_of_creates {call : Invocation} {id : String} (flat : call.route = none)
    (created : c.recordIdentity call = .ok (id, true)) :
    c.identityOf call.args = .ok (some id) := by
  obtain ⟨⟨hydrates, entity, key⟩, route, args⟩ := call
  obtain rfl : route = none := flat
  have acts : ∀ key, (c.actingIdentity args key).map (·, false) ≠ .ok (id, true) := by
    intro key
    cases c.actingIdentity args key <;> exact fun h => nomatch h
  cases entity with
  | true => exact absurd created (acts _)
  | false =>
    cases hydrates with
    | acting => exact absurd created (acts _)
    | complete | implicit =>
      cases made : c.derived args with
      | error e =>
        simp only [recordIdentity, creationIdentity, made] at created
        cases created
      | ok id' =>
        simp only [recordIdentity, creationIdentity, made] at created
        cases id' <;> cases created
        exact derived_eq made

theorem identityOf_eq {args : Args} {parts : List Held} (resolved : c.identityParts args = .ok parts)
    (whole : parts.any Held.blank = false) (ne : c.identityPaths ≠ []) :
    c.identityOf args = .ok (some (c.identity parts)) := by
  unfold identityOf
  rw [resolved, if_neg ne]
  simp only [Except.map, whole]
  rfl

theorem parts_of_identityOf {args : Args} {id : String}
    (made : c.identityOf args = .ok (some id)) :
    ∃ parts, c.identityParts args = .ok parts ∧ c.identityPaths ≠ [] ∧ id = c.identity parts := by
  unfold identityOf at made
  split at made
  · cases made
  · rename_i ne
    cases resolved : c.identityParts args with
    | error e =>
      rw [resolved] at made
      cases made
    | ok parts =>
      rw [resolved] at made
      simp only [Except.map] at made
      split at made <;> cases made
      exact ⟨parts, rfl, ne, rfl⟩

theorem parts_ne_nil {args : Args} {parts : List Held} (resolved : c.identityParts args = .ok parts)
    (ne : c.identityPaths ≠ []) : parts ≠ [] := by
  rintro rfl
  unfold identityParts at resolved
  cases paths : c.identityPaths with
  | nil => exact ne paths
  | cons path rest =>
    rw [paths, List.mapM_cons] at resolved
    cases first : c.identityFrom args path with
    | error e =>
      rw [first] at resolved
      cases resolved
    | ok part =>
      rw [first] at resolved
      cases others : rest.mapM (c.identityFrom args) <;>
        simp [bind, Except.bind, pure, Except.pure, others] at resolved

variable (c)

/-- Two argument sets whose parts read differently in some field make up different identities
exactly when the parts of the one are not those of the other regrouped at the colons. In a run
without regroupings a call is routed to, or refused because of, only a record made from the same
parts. -/
theorem identities_told_apart :
    (∀ args args' parts parts', c.identityPaths ≠ [] → c.identityParts args = .ok parts →
      c.identityParts args' = .ok parts' → parts.any Held.blank = false →
      parts'.any Held.blank = false →
      ((c.partTexts parts ≠ c.partTexts parts' → c.identityOf args ≠ c.identityOf args') ↔
        ¬ c.Regrouped parts parts')) ∧
    ∀ (sent : List (Invocation × Bool)) (call origin : Invocation) (parts : List Held),
      c.Meets (c.takeAll ∅ sent) call origin → call.route = none → origin.route = none →
      c.identityPaths ≠ [] → c.identityParts call.args = .ok parts →
      parts.any Held.blank = false →
      (∀ other ∈ sent, ∀ parts', c.identityParts other.1.args = .ok parts' →
        ¬ c.Regrouped parts parts') →
      (origin, true) ∈ sent ∧ ∃ parts', c.identityParts origin.args = .ok parts' ∧
        c.partTexts parts = c.partTexts parts' := by
  refine ⟨?_, ?_⟩
  · intro args args' parts parts' ne resolved resolved' whole whole'
    rw [identityOf_eq resolved whole ne, identityOf_eq resolved' whole' ne,
      ← c.identity_ne_iff (parts_ne_nil resolved ne) (parts_ne_nil resolved' ne)]
    simp only [Ne, Except.ok.injEq, Option.some.injEq]
  · rintro sent call origin parts ⟨id, held, met⟩ flat flat' ne resolved whole apart
    have filed : c.Filed ∅ [] := fun id origin held => by
      rw [AList.lookup_empty] at held
      cases held
    obtain ⟨mem, created⟩ := filed.takeAll sent id origin held
    rw [List.append_nil, List.mem_reverse] at mem
    obtain ⟨parts', resolved', -, same⟩ := parts_of_identityOf (derived_of_creates flat' created)
    obtain ⟨creates, named⟩ := recordIdentity_of_derived flat (identityOf_eq resolved whole ne)
    refine ⟨mem, parts', resolved', ?_⟩
    by_contra differ
    refine (c.identity_ne_iff (parts_ne_nil resolved ne) (parts_ne_nil resolved' ne)).mpr
      (apart _ mem parts' resolved') differ ?_
    rw [← same]
    exact hydrateFor_identity named met

end Construct

/-- A box known by its branch and its number within the branch. -/
def safeDepositBox : Construct Unit where
  identityPaths := [⟨"branch_code", ["value"]⟩, ⟨"box_number", ["value"]⟩]
  attributes := ["branch_code", "box_number"]
  unwrapped _ held := .ok held
  inspect _ := ""
  notAHash := ()

def boxArgs (branch number : String) : Args := fun key =>
  if key = .symbol "branch_code" then some (.text branch)
  else if key = .symbol "box_number" then some (.text number)
  else none

def rent (branch number : String) : Invocation where
  command := ⟨.implicit, false, none⟩
  route := none
  args := boxArgs branch number

theorem rented_twice :
    (rent "PHX" "42", true) ∈ [(rent "PHX" "42", true)] ∧
      ∃ parts', safeDepositBox.identityParts (rent "PHX" "42").args = .ok parts' ∧
        safeDepositBox.partTexts [.text "PHX", .text "42"] = safeDepositBox.partTexts parts' := by
  refine (safeDepositBox.identities_told_apart).2 [(rent "PHX" "42", true)] (rent "PHX" "42")
    (rent "PHX" "42") [.text "PHX", .text "42"] ⟨"PHX:42", rfl, .inr rfl⟩ rfl rfl
    (by decide) rfl rfl ?_
  intro other mem parts' resolved
  obtain rfl : other = (rent "PHX" "42", true) := by simpa using mem
  cases resolved
  decide

/-- Two boxes with one key: renting the second is refused because the first is rented. -/
theorem colons_collide :
    ∃ parts parts', safeDepositBox.identityParts (boxArgs "a:b" "c") = .ok parts ∧
      safeDepositBox.identityParts (boxArgs "a" "b:c") = .ok parts' ∧
      parts.any Held.blank = false ∧ parts'.any Held.blank = false ∧
      safeDepositBox.partTexts parts ≠ safeDepositBox.partTexts parts' ∧
      safeDepositBox.identityOf (boxArgs "a:b" "c") = safeDepositBox.identityOf (boxArgs "a" "b:c") ∧
      safeDepositBox.Meets (safeDepositBox.takeAll ∅ [(rent "a:b" "c", true)]) (rent "a" "b:c")
        (rent "a:b" "c") :=
  ⟨_, _, rfl, rfl, rfl, rfl, by decide, rfl, "a:b:c", rfl, .inr rfl⟩

end Hecks.Runtime.Identity
