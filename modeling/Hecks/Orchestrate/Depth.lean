import Hecks.Orchestrate.Simulation

/-! The depth ceiling. The depth is threaded by hand through six functions of the source; here it
is compared with what it stands for, the number of events being settled one inside the other. -/
namespace Hecks

variable {S H : Type}

/-- What a line does to the number of events being settled. -/
def Mark.openEvents (n : Nat) : Mark → Nat
  | .policiesOf _ => n + 1
  | .settled _ => n - 1
  | _ => n

/-- How many events are being settled at the end of a history, each inside the one before. -/
def openEvents (history : List Mark) : Nat := history.foldl Mark.openEvents 0

theorem nesting_next (b : Book) (m : Mark) : (b.next m).nesting = m.openEvents b.nesting := by
  cases m <;> rfl

theorem nesting_replay (tables : Tables) (start : Nat) (b : Book) (history : List Mark) :
    ((bookkeeping tables start).replay b history).nesting =
      history.foldl Mark.openEvents b.nesting := by
  induction history generalizing b with
  | nil => rfl
  | cons m history ih =>
      rw [Machine.replay_cons, ih, List.foldl_cons]
      exact congrArg (history.foldl Mark.openEvents) (nesting_next b m)

theorem nesting_bookOf (env : Env S H) (c : Cascade S H) (history : List Mark) :
    (bookOf env 0 c history).nesting = openEvents history := nesting_replay ..

/-- The count falls only where an event is settled. -/
theorem foldl_openEvents_mono {n : Nat} {history : List Mark}
    (h : ∀ event, .settled event ∉ history) : n ≤ history.foldl Mark.openEvents n := by
  induction history generalizing n with
  | nil => exact Nat.le_refl n
  | cons m history ih =>
      have hm : n ≤ m.openEvents n := by
        cases m with
        | policiesOf event => exact Nat.le_succ n
        | settled event => exact absurd List.mem_cons_self (h event)
        | _ => exact Nat.le_refl n
      exact Nat.le_trans hm (ih fun event hmem => h event (List.mem_cons_of_mem _ hmem))

/-- What the depth ceiling promises of the history of a run and of the logs it left. -/
structure WithinDepth (history : List Mark) (c : Cascade S H) : Prop where
  /-- A dispatch is called at the depth its event is nested, never deeper than the ceiling. -/
  called : ∀ before depth verb args answer after,
    history = before ++ .called depth verb args answer :: after →
      depth = openEvents before ∧ depth ≤ maxReactionDepth
  /-- What would be dispatched deeper is withheld, and nothing else. -/
  attempted : ∀ before depth cause withheld after,
    history = before ++ .attempted depth cause withheld :: after →
      depth + 1 = openEvents before ∧
      (withheld = true ↔ maxReactionDepth < openEvents before)
  /-- What is withheld is in the logs. -/
  recorded : ∀ depth cause, .attempted depth cause true ∈ history → cause.Undelivered c
  /-- It is not run: its event is settled before any dispatch is called again. -/
  silent : ∀ before depth cause between depth' verb args answer after,
    history = before ++ .attempted depth cause true ::
      (between ++ .called depth' verb args answer :: after) → ∃ event, .settled event ∈ between

theorem Tables.Rootless.cause {tables : Tables} (h : tables.Rootless) {cause : Cause}
    (hc : cause.Declared tables) : cause.root = false := by
  cases cause with
  | policy rule event => exact h rule hc
  | leg leg spec => rfl
  | compensation leg entry => rfl

section Run

variable {env : Env S H} (hroot : env.tables.Rootless) {c d : Cascade S H} {history : List Mark}

include hroot

theorem Tracks.called_depth (ht : Tracks env 0 c history d) {before after : List Mark}
    {depth : Nat} {verb : String} {args : Json} {answer : Except Refusal (List Event)}
    (h : history = before ++ .called depth verb args answer :: after) :
    depth = openEvents before ∧ depth ≤ maxReactionDepth := by
  obtain ⟨hceiling, hnest, -⟩ := ht.runs before _ after h
  refine ⟨(hnest hroot).trans (nesting_bookOf env c before), ?_⟩
  simpa [ceiling] using hceiling

theorem Tracks.attempted_depth (ht : Tracks env 0 c history d) {before after : List Mark}
    {depth : Nat} {cause : Cause} {withheld : Bool}
    (h : history = before ++ .attempted depth cause withheld :: after) :
    depth + 1 = openEvents before ∧ (withheld = true ↔ maxReactionDepth < openEvents before) := by
  obtain ⟨hnest, hdeclared, hwithheld, -⟩ := ht.runs before _ after h
  have hdepth := (hnest hroot).trans (nesting_bookOf env c before)
  refine ⟨hdepth, hwithheld.trans ?_⟩
  rw [← hdepth, Nat.lt_succ_iff]
  exact ⟨fun hw => hw.1, fun hle => ⟨hle, hroot.cause hdeclared⟩⟩

/-- Every call of a cascade without root policies is made at most at the ceiling, at the depth its
event is nested; what would be called deeper is withheld, recorded and not run. -/
theorem reactions_stay_within_depth (fuel : Nat) (verb : String) (args : Json)
    (role actor : Option String) (stamp : Option (List (String × String))) (c : Cascade S H) :
    ∃ history, (run env fuel verb args role actor stamp 0 c).2.journal = c.journal ++ history ∧
      WithinDepth history (run env fuel verb args role actor stamp 0 c).2 := by
  obtain ⟨history, ht⟩ := run_kept env fuel verb args role actor stamp 0 c
  refine ⟨history, ht.journal, ?_, ?_, ?_, ?_⟩
  · exact fun before depth verb args answer after h => ht.called_depth hroot h
  · exact fun before depth cause withheld after h => ht.attempted_depth hroot h
  · exact fun depth cause h => ht.logged _ h
  · intro before depth cause between depth' verb args answer after h
    by_contra hnone
    -- without a settled event between them the call would be as deep as the withheld attempt
    have hdeep := (ht.attempted_depth hroot h).2.mp rfl
    have hsplit : history = (before ++ .attempted depth cause true :: between) ++
        .called depth' verb args answer :: after := by
      rw [h, List.append_assoc, List.cons_append]
    have hcall := ht.called_depth hroot hsplit
    have hmono := foldl_openEvents_mono (n := openEvents before) fun event hmem =>
      hnone ⟨event, hmem⟩
    rw [openEvents, List.foldl_append] at hcall
    change _ = between.foldl Mark.openEvents (openEvents before) ∧ _ at hcall
    omega

end Run

/-- A domain whose one event triggers the command that emits it. -/
def echoTables : Tables :=
  { Tables.ofManagers [] with
    policies := [⟨"Echo", "Echoed", none, "Log.Echo", none, none, none, false, []⟩] }

def echoEnv : Env Unit Unit :=
  Env.plain echoTables fun store _ _ _ _ mutations =>
    (.ok [⟨"Echoed", "Sound::Log", "1", .null, none, none⟩], store, mutations)

theorem echo_stays_within_depth :
    echoTables.Rootless ∧
    ∃ history, (run echoEnv 9 "Log.Echo" .null none none none 0 (.fresh ())).2.journal =
        (Cascade.fresh ()).journal ++ history ∧
      WithinDepth history (run echoEnv 9 "Log.Echo" .null none none none 0 (.fresh ())).2 := by
  have hroot : echoTables.Rootless := by simp [Tables.Rootless, echoTables]
  exact ⟨hroot, reactions_stay_within_depth hroot 9 "Log.Echo" .null none none none (.fresh ())⟩

end Hecks
