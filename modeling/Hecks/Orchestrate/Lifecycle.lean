import Hecks.Orchestrate.Simulation

/-! The life of a saga instance over a session, a sequence of `run` calls that share one map of
instances. -/
namespace Hecks

variable {S H : Type}

/-- The state of an instance as a book has it. -/
def Book.stateOf (b : Book) (key : SagaKey) : Option String := (b.live key).map (·.state)

/-- What one line may do to the instance under a key. A leg is taken for the event's name, or for
`REFUSED`, the event type a compensating leg is declared under. -/
inductive StateChange (tables : Tables) (b : Book) (key : SagaKey) :
    Option String → Option String → Prop where
  | same (state : Option String) : StateChange tables b key state state
  | appears {pm : ProcessManagerDef} {event : Event} {correlation : String}
      (addresses : Addresses tables b pm event correlation) (named : key = (pm.name, correlation))
      (starts : event.name = pm.startsOn) : StateChange tables b key none (some pm.initialState)
  | moves {pm : ProcessManagerDef} {event : Event} {correlation : String} {handler : Handler}
      (addresses : Addresses tables b pm event correlation) (named : key = (pm.name, correlation))
      (declared : handler ∈ pm.handlers)
      (answers : handler.eventType = event.name ∨ handler.eventType = REFUSED) :
      StateChange tables b key (some handler.fromState) (some handler.toState)
  | disappears {pm : ProcessManagerDef} {event : Event} {correlation : String} {state : String}
      (addresses : Addresses tables b pm event correlation) (named : key = (pm.name, correlation))
      (ends : event.name = pm.endsOn) : StateChange tables b key (some state) none

theorem StateChange.of_eq {tables : Tables} {b : Book} {key : SagaKey} {old new : Option String}
    (h : new = old) : StateChange tables b key old new := h ▸ .same new

theorem ProcessManagerDef.selectLeg_spec {pm : ProcessManagerDef} {event state : String}
    {handler : Handler} (h : pm.selectLeg event state = some handler) :
    handler ∈ pm.handlers ∧ handler.eventType = event ∧ handler.fromState = state := by
  have hfound := List.find?_some h
  simp only [decide_eq_true_eq] at hfound
  exact ⟨List.mem_of_find?_eq_some h, hfound⟩

section Step

variable {tables : Tables} {start : Nat} {b : Book} {m : Mark}

theorem Book.stateOf_update (b : Book) (key k : SagaKey) (l : Option Live) :
    (b.setLive key l).stateOf k = if k = key then l.map (·.state) else b.stateOf k := by
  by_cases h : k = key
  · subst h
    simp [stateOf, setLive]
  · simp [stateOf, setLive, h]

/-- An update that keeps the state keeps every state. -/
theorem Book.stateOf_updateLive_of_same {f : Live → Live} (hf : ∀ l, (f l).state = l.state)
    (key k : SagaKey) : (b.updateLive key f).stateOf k = b.stateOf k := by
  rw [updateLive, stateOf_update]
  split
  · rename_i h
    subst h
    cases hl : b.live k <;> simp [stateOf, hl, hf]
  · rfl

theorem Book.stateOf_popLive (b : Book) (key k : SagaKey) :
    (b.popLive key).stateOf k = b.stateOf k :=
  stateOf_updateLive_of_same (f := fun l => { l with ledger := l.ledger.dropLast }) (fun _ => rfl)
    key k

/-- Every admitted line does to an instance what its saga declares, or nothing. -/
theorem stateChange_of_legal (hm : Legal tables start b m) (key : SagaKey) :
    StateChange tables b key (b.stateOf key) ((b.next m).stateOf key) := by
  cases m with
  | began pm event correlation =>
      obtain ⟨-, haddr, hstarts, hnone⟩ := hm
      change StateChange tables b key _ ((b.setLive _ _).stateOf key)
      rw [Book.stateOf_update]
      split
      · rename_i hkey
        rw [Book.stateOf, hkey, hnone]
        exact .appears haddr rfl hstarts
      · exact .same _
  | moved pm event correlation trigger handler =>
      obtain ⟨-, haddr, htrigger, l, hl, hleg⟩ := hm
      obtain ⟨hdeclared, htype, hfrom⟩ := ProcessManagerDef.selectLeg_spec hleg
      change StateChange tables b key _ ((b.setLive _ _).stateOf key)
      rw [Book.stateOf_update]
      split
      · rename_i hkey
        rw [Book.stateOf, hkey, hl, Option.map_some, ← hfrom]
        exact .moves haddr rfl hdeclared (by rw [htype]; exact htrigger)
      · exact .same _
  | ended pm event correlation =>
      obtain ⟨-, haddr, hends, hsome⟩ := hm
      obtain ⟨l, hl⟩ := Option.isSome_iff_exists.mp hsome
      change StateChange tables b key _ ((b.setLive _ _).stateOf key)
      rw [Book.stateOf_update]
      split
      · rename_i hkey
        rw [Book.stateOf, hkey, hl]
        exact .disappears haddr rfl hends
      · exact .same _
  | pushed k entry =>
      exact .of_eq (Book.stateOf_updateLive_of_same
        (f := fun l => { l with ledger := l.ledger ++ [(.recorded b.recorded, entry)] })
        (fun _ => rfl) k key)
  | unrecorded k => exact .of_eq (b.stateOf_popLive k key)
  | fired k entry => exact .of_eq (b.stateOf_popLive k key)
  | _ => exact .same _

end Step

/-- A state the saga of that name declares: its initial one, or where one of its legs leads. -/
def DeclaredState (tables : Tables) (key : SagaKey) (state : String) : Prop :=
  ∃ pm ∈ tables.processManagers, pm.name = key.1 ∧
    (state = pm.initialState ∨ ∃ handler ∈ pm.handlers, state = handler.toState)

/-- Every instance of the book is in a declared state. -/
def StatesDeclared (tables : Tables) (b : Book) : Prop :=
  ∀ key state, b.stateOf key = some state → DeclaredState tables key state

theorem StateChange.declared {tables : Tables} {b : Book} {key : SagaKey}
    {old new : Option String} (h : StateChange tables b key old new)
    (hold : ∀ state, old = some state → DeclaredState tables key state) :
    ∀ state, new = some state → DeclaredState tables key state := by
  cases h with
  | same => exact hold
  | @appears pm event correlation haddr hkey hstarts =>
      rintro state ⟨⟩
      exact ⟨pm, haddr.manager, by rw [hkey], .inl rfl⟩
  | @moves pm event correlation handler haddr hkey hdeclared hanswers =>
      rintro state ⟨⟩
      exact ⟨pm, haddr.manager, by rw [hkey], .inr ⟨handler, hdeclared, rfl⟩⟩
  | disappears => exact fun state h => nomatch h

theorem statesDeclared_of_runs {tables : Tables} {start : Nat} {b : Book} {history : List Mark}
    (h : (bookkeeping tables start).Runs b history) (hb : StatesDeclared tables b) :
    StatesDeclared tables ((bookkeeping tables start).replay b history) :=
  h.invariant hb fun _ _ hi hm key => (stateChange_of_legal hm key).declared (hi key)

/-- The states between the calls of a session: no instances at first, and each call finds the
instances the last one left, whatever the host did to the rest. -/
inductive Session (tables : Tables) : Cascade S H → Prop where
  | start (c : Cascade S H) (empty : c.sagas = ∅) : Session tables c
  | idle {c d : Cascade S H} (before : Session tables c) (sagas : d.sagas = c.sagas) :
      Session tables d
  | call {c : Cascade S H} (before : Session tables c) (env : Env S H)
      (same : env.tables = tables) (fuel : Nat) (verb : String) (args : Json)
      (role actor : Option String) (stamp : Option (List (String × String))) (depth : Nat) :
      Session tables (run env fuel verb args role actor stamp depth c).2

theorem stateOf_start (sagas : AList fun _ : SagaKey => SagaInstance) (depth : Nat)
    (key : SagaKey) : (Book.start sagas depth).stateOf key = (sagas.lookup key).map (·.state) := by
  simp [Book.stateOf, Book.start, Function.comp_def]

theorem Tracks.stateOf {env : Env S H} {start : Nat} {c d : Cascade S H} {history : List Mark}
    (ht : Tracks env start c history d) (key : SagaKey) :
    (bookOf env start c history).stateOf key = (d.sagas.lookup key).map (·.state) := by
  rw [ht.sagas key, Option.map_map]
  rfl

/-- In every session the instances are in declared states. -/
theorem Session.declared {tables : Tables} {c : Cascade S H} (h : Session tables c) :
    ∀ key inst, c.sagas.lookup key = some inst → DeclaredState tables key inst.state := by
  induction h with
  | start c empty =>
      intro key inst hl
      rw [empty] at hl
      simp at hl
  | idle _ sagas ih => rw [sagas]; exact ih
  | @call c _ env same fuel verb args role actor stamp depth ih =>
      subst same
      intro key inst hl
      obtain ⟨history, ht⟩ := run_kept env fuel verb args role actor stamp depth c
      have hstart : StatesDeclared env.tables (Book.start c.sagas depth) := by
        intro key state hs
        rw [stateOf_start, Option.map_eq_some_iff] at hs
        obtain ⟨inst, hinst, rfl⟩ := hs
        exact ih key inst hinst
      refine statesDeclared_of_runs ht.runs hstart key inst.state ?_
      exact (ht.stateOf key).trans (by rw [hl]; rfl)

/-- The life of the instances over a session. Every instance is in a state its saga declares, one
instance a key; and a further call, wherever its fuel ends, leaves a history whose lines change
the instance under a key only as a `starts_on` event, a leg from the current state, or an
`ends_on` event of that saga and correlation does. -/
theorem saga_lifecycle {env : Env S H} {c : Cascade S H} (h : Session env.tables c) :
    (∀ key inst, c.sagas.lookup key = some inst → DeclaredState env.tables key inst.state) ∧
    c.sagas.keys.Nodup ∧
    ∀ fuel verb args role actor stamp depth,
      ∃ history, (run env fuel verb args role actor stamp depth c).2.journal =
          c.journal ++ history ∧
        (∀ key, (bookOf env depth c []).stateOf key = (c.sagas.lookup key).map (·.state)) ∧
        (∀ before m after, history = before ++ m :: after → ∀ key,
          StateChange env.tables (bookOf env depth c before) key
            ((bookOf env depth c before).stateOf key)
            ((bookOf env depth c (before ++ [m])).stateOf key)) ∧
        ∀ key, (bookOf env depth c history).stateOf key =
          ((run env fuel verb args role actor stamp depth c).2.sagas.lookup key).map (·.state) := by
  refine ⟨h.declared, c.sagas.keys_nodup, ?_⟩
  intro fuel verb args role actor stamp depth
  obtain ⟨history, ht⟩ := run_kept env fuel verb args role actor stamp depth c
  refine ⟨history, ht.journal, stateOf_start c.sagas depth, ?_, ht.stateOf⟩
  intro before m after hsplit key
  rw [bookOf_snoc]
  exact stateChange_of_legal (ht.runs before m after hsplit) key

/-- A trip is booked, then paid. -/
def tripManager : ProcessManagerDef where
  name := "Trip"
  correlatesBy := "trip"
  startsOn := "Booked"
  endsOn := "Arrived"
  initialState := "booked"
  handlers := [⟨"Paid", "booked", "paid", []⟩]

def tripEnv : Env Unit Unit :=
  Env.plain (Tables.ofManagers [tripManager]) fun store verb _ _ _ mutations =>
    (.ok [⟨if verb = "Trip.Pay" then "Paid" else "Booked", "Travel::Trip", "1",
      .object [("trip", .str "t1")], none, none⟩], store, mutations)

def bookedTrip : Cascade Unit Unit :=
  (run tripEnv 2 "Trip.Book" .null none none none 0 (.fresh ())).2

def paidTrip : Cascade Unit Unit :=
  (run tripEnv 2 "Trip.Pay" .null none none none 0 bookedTrip).2

theorem trip_lifecycle :
    Session tripEnv.tables paidTrip ∧
    (paidTrip.sagas.lookup ("Trip", "t1")).map (·.state) = some "paid" ∧
    DeclaredState tripEnv.tables ("Trip", "t1") "paid" := by
  have hbooked : Session tripEnv.tables bookedTrip := .call (.start _ rfl) tripEnv rfl ..
  have hpaid : Session tripEnv.tables paidTrip := .call hbooked tripEnv rfl ..
  have hstate : (paidTrip.sagas.lookup ("Trip", "t1")).map (·.state) = some "paid" := by rfl
  obtain ⟨inst, hinst, hpaid'⟩ := Option.map_eq_some_iff.mp hstate
  exact ⟨hpaid, hstate, hpaid' ▸ (saga_lifecycle hpaid).1 _ inst hinst⟩

end Hecks
