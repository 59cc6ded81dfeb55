import Hecks.Saga.Leg

/-! When the persisted record tells, at every point of a leg's window, how far the leg got. -/
namespace Hecks.Saga

/-- What a crash after these points finds persisted. -/
def persisted (points : List Point) : Option Record :=
  points.foldl (fun held p => match p with
    | .wrote record => record
    | _ => held) none

/-- The redrive delivers the dispatch, or reports the leg. -/
def Redriven.accounts : Redriven → Nat → Prop
  | untouched, _ => False
  | unredrivable, _ => True
  | resumed delivered ambiguous, i => i ∈ delivered ∨ ambiguous.isSome

section

variable {pm : ProcessManager} (leg : Leg pm) (redeliverable : String → Bool)

/-- The record names the leg's event, which dispatches had settled and which may have begun, and no
dispatch is lost to the redrive. -/
def Recorded (points : List Point) : Prop :=
  ∃ record marker, persisted points = some record ∧ record.marker = some marker ∧
    marker.event = leg.event ∧ (∀ i < marker.settled, .settled i ∈ points) ∧
    (∀ i, .began i ∈ points → i < marker.settled ∨ marker.attempting = true ∧ i = marker.settled) ∧
    ∀ i < leg.handler.dispatches.length, .settled i ∈ points ∨
      (redriveInstance pm redeliverable record).accounts i

/-- At whatever point of the window the crash falls. -/
def AlwaysRecorded (points : List Point) : Prop :=
  ∀ pre post, points = pre ++ post → pre ≠ [] → Recorded leg redeliverable pre

end

/-! ### What is persisted -/

theorem persisted_wrote (points : List Point) (record : Option Record) :
    persisted (points ++ [.wrote record]) = record := by
  rw [persisted, List.foldl_append]
  rfl

theorem persisted_began (points : List Point) (i : Nat) :
    persisted (points ++ [.began i]) = persisted points := by
  rw [persisted, List.foldl_append]
  rfl

theorem persisted_settled (points : List Point) (i : Nat) :
    persisted (points ++ [.settled i]) = persisted points := by
  rw [persisted, List.foldl_append]
  rfl

section

variable {pm : ProcessManager} {leg : Leg pm} {redeliverable : String → Bool}

/-- The marker of a forward leg, as it stands with this much progress. -/
def progressRecord (leg : Leg pm) (settled : Nat) (attempting : Bool) (compensations : List String) :
    Record :=
  ⟨leg.handler.toState, some ⟨leg.event.name, leg.preState, leg.handler.toState, leg.names,
    leg.event, settled, attempting⟩, compensations⟩

/-- The redrive accounts for every dispatch that has not settled. -/
theorem redrive_accounts (forward : leg.refusing = false) {settled : Nat} {attempting : Bool}
    {compensations : List String} {i : Nat} (later : settled ≤ i)
    (small : i < leg.handler.dispatches.length) :
    (redriveInstance pm redeliverable
      (progressRecord leg settled attempting compensations)).accounts i := by
  have taken := leg.taken
  rw [forward] at taken
  have found : pm.handlerFor leg.event.name leg.preState = some leg.handler := taken
  have size : (leg.handler.dispatches.drop settled).length =
      leg.handler.dispatches.length - settled := List.length_drop
  have within : i ∈ List.range' settled (leg.handler.dispatches.length - settled) := by
    rw [List.mem_range'_1]
    omega
  unfold redriveInstance progressRecord
  dsimp only
  cases rebuilt : stalledLeg pm _ _ with
  | none => trivial
  | some handler =>
    have same : handler = leg.handler := by
      unfold stalledLeg at rebuilt
      split at rebuilt
      · cases rebuilt
      · dsimp only at rebuilt
        rw [found] at rebuilt
        exact (Option.some.inj (Option.filter_eq_some_iff.mp rebuilt).1).symm
    subst same
    dsimp only
    split
    · rename_i spec rest shape
      split
      · left
        rw [shape, List.length_cons] at size
        rw [size]
        exact within
      · exact Or.inr rfl
    · left
      rw [size]
      exact within

/-- The points so far show these dispatches settled and begun. -/
structure Reached (points : List Point) (settled begun : Nat) : Prop where
  settles : ∀ i, .settled i ∈ points ↔ i < settled
  begins : ∀ i, .began i ∈ points → i < begun

theorem Reached.recorded {points : List Point} {settled begun marked : Nat} {attempting : Bool}
    {compensations : List String} (h : Reached points settled begun)
    (forward : leg.refusing = false)
    (held : persisted points = some (progressRecord leg marked attempting compensations))
    (behind : marked ≤ settled) (ahead : begun ≤ if attempting then marked + 1 else marked) :
    Recorded leg redeliverable points := by
  refine ⟨_, _, held, rfl, rfl, ?_, ?_, ?_⟩
  · intro i small
    exact (h.settles i).mpr (lt_of_lt_of_le small behind)
  · intro i began
    have small := h.begins i began
    cases attempting with
    | false => exact Or.inl (lt_of_lt_of_le small ahead)
    | true =>
      have near : begun ≤ marked + 1 := ahead
      have place : i < marked ∨ i = marked := by omega
      exact place.imp_right fun same => ⟨rfl, same⟩
  · intro i small
    by_cases done : i < settled
    · exact Or.inl ((h.settles i).mpr done)
    · exact Or.inr (redrive_accounts forward (by omega) small)

theorem always_snoc {points : List Point} {p : Point}
    (h : AlwaysRecorded leg redeliverable points)
    (last : Recorded leg redeliverable (points ++ [p])) :
    AlwaysRecorded leg redeliverable (points ++ [p]) := by
  intro pre post same nonempty
  rcases List.eq_nil_or_concat post with rfl | ⟨front, q, rfl⟩
  · rw [List.append_nil] at same
    exact same ▸ last
  · have shape : points ++ [p] = (pre ++ front) ++ [q] := by simp [same]
    exact h pre front (List.append_inj' shape rfl).1 nonempty

/-! ### A quiet leg -/

theorem attempt_quiet {unwound : List Nested} {attempts : Nat} {tries : List Try} {w w' : World}
    (ran : attemptDispatch none unwound attempts tries w = some w')
    (inside : ∀ t ∈ tries, t.inside = []) (still : unwound = []) : w' = w := by
  subst still
  induction tries generalizing attempts w with
  | nil => cases ran
  | cons t rest ih =>
    have quiet : ∀ w : World, w.nestAll t.inside = w := by
      intro w
      rw [inside t List.mem_cons_self]
      rfl
    unfold attemptDispatch at ran
    simp only [recordCompensation, unrecordCompensation, quiet] at ran
    split at ran
    · split at ran
      · exact (Option.some.inj ran).symm
      · cases ran
    · split at ran
      · exact (Option.some.inj ran).symm
      · cases ran
    · split at ran
      · split at ran
        · exact (Option.some.inj ran).symm
        · cases ran
      · exact ih (fun u mem => inside u (List.mem_cons_of_mem t mem)) ran

theorem deliver_quiet {spec : DispatchSpec} {play : Play} {w w' : World}
    (ran : deliverSagaDispatch spec play w = some w')
    (uncompensated : play.deep = true ∨ spec.compensates = none)
    (inside : ∀ t ∈ play.tries, t.inside = []) (still : play.unwound = []) : w' = w := by
  unfold deliverSagaDispatch at ran
  split at ran
  · split at ran
    · rw [still] at ran
      exact (Option.some.inj ran).symm
    · cases ran
  · rename_i shallow
    rw [uncompensated.resolve_left shallow] at ran
    exact attempt_quiet ran inside still

/-- Where a quiet leg stands before its dispatch of this index. -/
structure Standing (leg : Leg pm) (redeliverable : String → Bool) (w : World) (index : Nat) :
    Prop where
  live : w.live = true
  state : w.state = leg.handler.toState
  always : AlwaysRecorded leg redeliverable w.points
  reached : Reached w.points index index
  held : persisted w.points = some (progressRecord leg index false w.compensations)

theorem recordProgress_points {w : World} (live : w.live = true)
    (state : w.state = leg.handler.toState) (settled : Nat) (attempting : Bool) :
    recordProgress leg settled attempting w =
      w.mark (.wrote (some (progressRecord leg settled attempting w.compensations))) := by
  rw [recordProgress, if_pos live, World.checkpoint, Leg.pendingMarker, progressRecord, state]

theorem Reached.wrote {points : List Point} {settled begun : Nat} (h : Reached points settled begun)
    (record : Option Record) : Reached (points ++ [.wrote record]) settled begun := by
  constructor
  · intro i
    simpa using h.settles i
  · intro i began
    exact h.begins i (by simpa using began)

theorem Reached.began {points : List Point} {index : Nat} (h : Reached points index index) :
    Reached (points ++ [.began index]) index (index + 1) := by
  constructor
  · intro i
    simpa using h.settles i
  · intro i began
    simp only [List.mem_append, List.mem_singleton, Point.began.injEq] at began
    rcases began with before | rfl
    · exact Nat.lt_succ_of_lt (h.begins i before)
    · exact Nat.lt_succ_self _

theorem Reached.settled {points : List Point} {index : Nat}
    (h : Reached points index (index + 1)) :
    Reached (points ++ [.settled index]) (index + 1) (index + 1) := by
  constructor
  · intro i
    simp only [List.mem_append, List.mem_singleton, Point.settled.injEq, h.settles i]
    omega
  · intro i began
    exact h.begins i (by simpa using began)

/-- One dispatch of a quiet leg is recorded at every point, and leaves the leg at the next. -/
theorem Standing.dispatch {w w' : World} {index : Nat} {spec : DispatchSpec} {play : Play}
    (h : Standing leg redeliverable w index) (forward : leg.refusing = false)
    (ran : deliverSagaDispatch spec play
      ((recordProgress leg index true w).mark (.began index)) = some w')
    (uncompensated : play.deep = true ∨ spec.compensates = none)
    (inside : ∀ t ∈ play.tries, t.inside = []) (still : play.unwound = []) :
    Standing leg redeliverable (recordProgress leg (index + 1) false (w'.mark (.settled index)))
      (index + 1) := by
  cases deliver_quiet ran uncompensated inside still
  rw [recordProgress_points h.live h.state]
  have next := @recordProgress_points pm leg (((w.mark (.wrote (some
    (progressRecord leg index true w.compensations)))).mark (.began index)).mark
      (.settled index)) h.live h.state (index + 1) false
  rw [next]
  have first := h.reached.wrote (some (progressRecord leg index true w.compensations))
  have second := first.began
  have third := second.settled
  have marked : persisted (w.points ++
      [.wrote (some (progressRecord leg index true w.compensations))]) =
      some (progressRecord leg index true w.compensations) := persisted_wrote _ _
  have begun := (persisted_began _ index).trans marked
  have done := (persisted_settled _ index).trans begun
  have one : AlwaysRecorded leg redeliverable (w.points ++
      [.wrote (some (progressRecord leg index true w.compensations))]) :=
    always_snoc h.always (first.recorded forward marked le_rfl (Nat.le_succ _))
  have two := always_snoc one (second.recorded forward begun le_rfl le_rfl)
  have three := always_snoc two (third.recorded forward done (Nat.le_succ _) le_rfl)
  have last := third.wrote (some (progressRecord leg (index + 1) false w.compensations))
  refine ⟨h.live, h.state, ?_, last, persisted_wrote _ _⟩
  exact always_snoc three (last.recorded forward (persisted_wrote _ _) le_rfl le_rfl)

theorem Standing.deliver {specs : List DispatchSpec} {plays : List Play} {w w' : World}
    {index : Nat} (h : Standing leg redeliverable w index) (forward : leg.refusing = false)
    (ran : deliverDispatches leg specs plays index w = some w')
    (quiet : ∀ dispatch ∈ specs.zip plays,
      (dispatch.2.deep = true ∨ dispatch.1.compensates = none) ∧
        (∀ t ∈ dispatch.2.tries, t.inside = []) ∧ dispatch.2.unwound = []) :
    AlwaysRecorded leg redeliverable w'.points := by
  induction specs generalizing plays w index with
  | nil =>
    cases plays with
    | nil =>
      cases ran
      exact h.always
    | cons play plays => cases ran
  | cons spec specs ih =>
    cases plays with
    | nil => cases ran
    | cons play plays =>
      obtain ⟨u, first, rest⟩ := Option.bind_eq_some_iff.mp ran
      obtain ⟨uncompensated, inside, still⟩ := quiet (spec, play) List.mem_cons_self
      exact ih (h.dispatch forward first uncompensated inside still) rest fun dispatch mem =>
        quiet dispatch (List.mem_cons_of_mem _ mem)

theorem AlwaysRecorded.at {points whole : List Point}
    (h : AlwaysRecorded leg redeliverable whole) (within : points <+: whole)
    (nonempty : points ≠ []) : Recorded leg redeliverable points := by
  obtain ⟨rest, rfl⟩ := within
  exact h points rest rfl nonempty

theorem unmarked {points : List Point} {state : String} {compensations : List String}
    (held : persisted points = some ⟨state, none, compensations⟩) :
    ¬Recorded leg redeliverable points := by
  rintro ⟨record, marker, found, marked, -⟩
  cases held.symm.trans found
  cases marked

end

end Hecks.Saga
