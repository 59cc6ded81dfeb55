import Hecks.Query.Named

/-! Who may run a command: the roles an actor holds through live assignments. With a
provider of assignments attached, an identified actor is judged by what was assigned to them
and by nothing they state. -/
namespace Hecks.Query

section

variable (escapes : Char → Bool) (store : Store) (queries : List QueryDef)
  (assignments : Option String)

def namesRole (role : String) (record : Json) : Bool :=
  ((record.dig "role_name.value").bind Json.asStr) == some role

def assignmentArgs (actorId : String) : Json := .object [("actor_id", .str actorId)]

def holdsRoleVia (actorId role : String) : Bool :=
  match assignments.bind (find queries) with
  | none => false
  | some definition =>
      match run escapes store definition (assignmentArgs actorId) with
      | .error _ => false
      | .ok rows => rows.any fun row => namesRole role row.2

def roleMismatch (command role callerRole : String) : Refusal :=
  .unauthorized
    (Text.replaceAll "\x7bcaller_role\x7d" callerRole (Text.replaceAll "\x7brole\x7d" role
      (Text.replaceAll "\x7bcommand\x7d" command
        "\x7bcommand\x7d refused — role: \x7brole\x7d, and the caller stated \x7bcaller_role\x7d")))

def checkRoleVia (commandRole : Option String) (commandName : String)
    (callerRole callerActorId : Option String) : Except Refusal Unit :=
  let attached := (assignments.bind (find queries)).isSome
  match callerRole, commandRole, callerActorId with
  | none, some role, some actorId =>
      if !attached || holdsRoleVia escapes store queries assignments actorId role then .ok ()
      else .error (roleMismatch commandName role "no assigned role")
  | some caller, some role, actor =>
      let authorized := match actor with
        | some actorId =>
            if attached then holdsRoleVia escapes store queries assignments actorId role
            else caller == role
        | none => caller == role
      if authorized then .ok () else .error (roleMismatch commandName role caller)
  | _, _, _ => .ok ()

/-- The first role that lets the caller through settles it; a refusal names them all. -/
def checkRolesVia (commandRoles : List String) (commandName : String)
    (callerRole callerActorId : Option String) : Except Refusal Unit :=
  let refused := commandRoles.all fun role =>
    !(checkRoleVia escapes store queries assignments (some role) commandName callerRole
      callerActorId).isOk
  if !refused then .ok ()
  else
    .error (roleMismatch commandName (Text.join " or " commandRoles)
      (callerRole.getD "no assigned role"))

end

/-! ### Governance's provider -/

def liveAssignmentsForActor : QueryDef where
  verb := "Governance::RoleAssignment.LiveAssignmentsForActor"
  aggregate := "Governance::RoleAssignment"
  conditions := [⟨"actor_id", .eq, .arg "actor_id"⟩, ⟨"ends_at", .eq, .null⟩]
  referenceHopConditions := []
  orderBy := none
  offset := none
  limit := none
  cursor := false
  authorization := none

def authorizationAssignments : Option String :=
  some "Governance::RoleAssignment.LiveAssignmentsForActor"

/-- A record that assigns the role to the actor and has not ended. -/
def LiveAssignment (store : Store) (actorId role : String) : Prop :=
  ∃ rows, store.scan "Governance::RoleAssignment" = some rows ∧
    ∃ row ∈ rows,
      comparable ((row.2.dig "actor_id").getD .null) = .str actorId ∧
      comparable ((row.2.dig "ends_at").getD .null) = .null ∧
      row.2.dig "role_name.value" = some (.str role)

/-- The provider's query answers a row that names the role. -/
def AnswersRole (escapes : Char → Bool) (store : Store) (provider : QueryDef)
    (actorId role : String) : Prop :=
  ∃ rows, run escapes store provider (assignmentArgs actorId) = .ok rows ∧
    ∃ row ∈ rows, row.2.dig "role_name.value" = some (.str role)

section

variable {escapes : Char → Bool} {store : Store} {queries : List QueryDef} {verb : String}
  {provider : QueryDef}

theorem asStr_eq_some {j : Json} {s : String} : j.asStr = some s ↔ j = .str s := by
  cases j <;> simp [Json.asStr]

theorem namesRole_iff {role : String} {record : Json} :
    namesRole role record = true ↔ record.dig "role_name.value" = some (.str role) := by
  simp [namesRole, Option.bind_eq_some_iff, asStr_eq_some]

theorem eq_str_iff {j : Json} {s : String} : Json.eq j (.str s) = true ↔ j = .str s := by
  cases j <;> simp [Json.eq]

theorem eq_null_iff {j : Json} : Json.eq j .null = true ↔ j = .null := by
  cases j <;> simp [Json.eq]

theorem holdsRoleVia_iff (attached : find queries verb = some provider) (actorId role : String) :
    holdsRoleVia escapes store queries (some verb) actorId role = true ↔
      AnswersRole escapes store provider actorId role := by
  unfold holdsRoleVia AnswersRole
  rw [Option.bind_some, attached]
  dsimp only
  cases run escapes store provider (assignmentArgs actorId) with
  | error e => simp
  | ok rows => simp [List.any_eq_true, namesRole_iff]

/-- An identified actor is judged by the provider's answer, whatever they state. -/
theorem checkRoleVia_identified (attached : find queries verb = some provider)
    (role command : String) (stated : Option String) (actorId : String) :
    checkRoleVia escapes store queries (some verb) (some role) command stated (some actorId) =
        .ok () ↔ AnswersRole escapes store provider actorId role := by
  rw [← holdsRoleVia_iff attached]
  have provided : ((some verb).bind (find queries)).isSome = true := by simp [attached]
  unfold checkRoleVia
  cases stated with
  | none =>
    simp only [provided, Bool.not_true, Bool.false_or]
    cases holdsRoleVia escapes store queries (some verb) actorId role <;> simp
  | some caller =>
    simp only [provided, if_true]
    cases holdsRoleVia escapes store queries (some verb) actorId role <;> simp

theorem isOk_iff {x : Except Refusal Unit} : x.isOk = true ↔ x = .ok () := by
  cases x <;> simp [Except.isOk, Except.toBool]

theorem checkRolesVia_identified (attached : find queries verb = some provider)
    (roles : List String) (command : String) (stated : Option String) (actorId : String) :
    checkRolesVia escapes store queries (some verb) roles command stated (some actorId) =
        .ok () ↔ ∃ role ∈ roles, AnswersRole escapes store provider actorId role := by
  have judged : ∀ role, (checkRoleVia escapes store queries (some verb) (some role) command stated
      (some actorId)).isOk = true ↔ AnswersRole escapes store provider actorId role := by
    intro role
    rw [isOk_iff, checkRoleVia_identified attached]
  unfold checkRolesVia
  dsimp only
  split
  next passed =>
    simp only [Bool.not_eq_true', List.all_eq_false, Bool.not_eq_false] at passed
    obtain ⟨role, mem, ok⟩ := passed
    exact ⟨fun _ => ⟨role, mem, (judged role).mp ok⟩, fun _ => rfl⟩
  next refused =>
    simp only [Bool.not_eq_true', Bool.not_eq_false, List.all_eq_true, Bool.not_eq_true'] at refused
    constructor
    · intro h
      cases h
    · rintro ⟨role, mem, answers⟩
      have := (judged role).mpr answers
      rw [refused role mem] at this
      cases this

/-- The rows Governance's query answers are the actor's assignments that have not ended. -/
theorem answersRole_liveAssignmentsForActor (actorId role : String) :
    AnswersRole escapes store liveAssignmentsForActor actorId role ↔
      LiveAssignment store actorId role := by
  unfold AnswersRole LiveAssignment
  have answer : ∀ rows, run escapes store liveAssignmentsForActor (assignmentArgs actorId) =
      .ok rows ↔ ∃ held, store.scan "Governance::RoleAssignment" = some held ∧
        sortById (conditionRows liveAssignmentsForActor (assignmentArgs actorId) [] held) =
          rows := by
    intro rows
    rw [run_eq_ok]
    constructor
    · rintro ⟨-, held, kept, scanned, hopped, done⟩
      cases hopped
      exact ⟨held, scanned, Except.ok.inj done⟩
    · rintro ⟨held, scanned, rfl⟩
      exact ⟨rfl, held, _, scanned, rfl, rfl⟩
  have kept : ∀ (row : String × Json) (rows : Rows),
      row ∈ sortById (conditionRows liveAssignmentsForActor (assignmentArgs actorId) [] rows) ↔
        row ∈ rows ∧ comparable ((row.2.dig "actor_id").getD .null) = .str actorId ∧
          comparable ((row.2.dig "ends_at").getD .null) = .null := by
    intro row rows
    simp [sortById, conditionRows, liveAssignmentsForActor, List.mem_insertionSort, entryMatches,
      QueryComparator.matches, QueryConditionValue.resolve, assignmentArgs, Json.get, comparable,
      eq_str_iff, eq_null_iff]
  simp only [answer]
  constructor
  · rintro ⟨_, ⟨held, scanned, rfl⟩, row, mem, names⟩
    obtain ⟨mem, actor, live⟩ := (kept row held).mp mem
    exact ⟨held, scanned, row, mem, actor, live, names⟩
  · rintro ⟨held, scanned, row, mem, actor, live, names⟩
    exact ⟨_, ⟨held, scanned, rfl⟩, row, (kept row held).mpr ⟨mem, actor, live⟩, names⟩

/-- With assignments provided, an identified actor may run the command exactly when the
provider answers a live assignment of one of its roles, and the role they state changes
nothing; Governance's provider answers the assignments of the actor that have not ended. -/
theorem check_roles_via_ignores_stated_role (attached : find queries verb = some provider)
    (roles : List String) (command actorId : String) :
    (∀ stated, checkRolesVia escapes store queries (some verb) roles command stated
        (some actorId) = .ok () ↔ ∃ role ∈ roles, AnswersRole escapes store provider actorId role) ∧
    (∀ stated stated',
      (checkRolesVia escapes store queries (some verb) roles command stated (some actorId)).isOk =
        (checkRolesVia escapes store queries (some verb) roles command stated'
          (some actorId)).isOk) ∧
    (provider = liveAssignmentsForActor → ∀ stated,
      checkRolesVia escapes store queries (some verb) roles command stated (some actorId) =
        .ok () ↔ ∃ role ∈ roles, LiveAssignment store actorId role) := by
  have judged : ∀ stated, checkRolesVia escapes store queries (some verb) roles command stated
      (some actorId) = .ok () ↔ ∃ role ∈ roles, AnswersRole escapes store provider actorId role :=
    fun stated => checkRolesVia_identified attached roles command stated actorId
  refine ⟨judged, ?_, ?_⟩
  · intro stated stated'
    rw [Bool.eq_iff_iff, isOk_iff, isOk_iff, judged, judged]
  · rintro rfl stated
    rw [judged]
    simp only [answersRole_liveAssignmentsForActor]

end

/-- A store that holds one live assignment. -/
def oneAssignment : Store where
  scan aggregate :=
    if aggregate = "Governance::RoleAssignment" then
      some [("u-1:Teller", .object [("actor_id", .str "u-1"),
        ("role_name", .object [("value", .str "Teller")]), ("ends_at", .null)])]
    else none
  distinct := by
    intro aggregate rows
    split
    next =>
      rintro ⟨⟩
      simp
    next =>
      intro h
      cases h

theorem teller_passes_whatever_they_state :
    find [liveAssignmentsForActor] "Governance::RoleAssignment.LiveAssignmentsForActor" =
        some liveAssignmentsForActor ∧
      ∀ stated, checkRolesVia (fun _ => false) oneAssignment [liveAssignmentsForActor]
        (some "Governance::RoleAssignment.LiveAssignmentsForActor") ["Manager", "Teller"] "Open"
        stated (some "u-1") = .ok () := by
  have attached : find [liveAssignmentsForActor]
      "Governance::RoleAssignment.LiveAssignmentsForActor" = some liveAssignmentsForActor := rfl
  refine ⟨attached, fun stated => ?_⟩
  refine ((check_roles_via_ignores_stated_role attached ["Manager", "Teller"] "Open" "u-1").2.2 rfl
    stated).mpr ⟨"Teller", by simp, _, rfl, _, List.mem_singleton_self _, ?_, ?_, ?_⟩
  all_goals rfl

end Hecks.Query
