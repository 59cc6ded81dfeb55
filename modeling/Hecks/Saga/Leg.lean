import Mathlib

/-! One leg of a saga: its checkpoint with the pending marker, its dispatches with the progress
written around each, and what the boot redrive makes of the record a crash leaves. -/
namespace Hecks.Saga

/-- `body` is the event without its name, as it is serialized. -/
structure Event where
  name : String
  body : String
  deriving DecidableEq

/-- `compensates`: the command that undoes this one. -/
structure DispatchSpec where
  commandName : String
  compensates : Option String
  deriving DecidableEq

structure Handler where
  eventType : String
  fromState : String
  toState : String
  dispatches : List DispatchSpec
  deriving DecidableEq

structure ProcessManager where
  handlers : List Handler

/-- The trigger of a compensating leg. -/
def refusedTrigger : String := "refused"

def ProcessManager.handlerFor (pm : ProcessManager) (event state : String) : Option Handler :=
  pm.handlers.find? fun h => h.eventType == event && h.fromState == state

/-- What a crash between the checkpoint and the dispatches leaves behind. -/
structure Marker where
  on : String
  fromState : String
  toState : String
  dispatches : List String
  event : Event
  settled : Nat
  attempting : Bool
  deriving DecidableEq

/-- The persisted record of an instance. -/
structure Record where
  state : String
  marker : Option Marker
  compensations : List String
  deriving DecidableEq

/-- A leg the process manager takes: forward on an event, or refusing on the event of the leg it
unwinds. -/
structure Leg (pm : ProcessManager) where
  event : Event
  refusing : Bool
  preState : String
  handler : Handler
  taken : pm.handlerFor (if refusing then refusedTrigger else event.name) preState = some handler

/-- What a reaction inside a dispatch does to the same instance: it takes a leg of its own, whose
checkpoint has a marker with no progress and which then writes as it goes on, or ends the
instance. -/
inductive Nested where
  | leg (state : String) (on fromState : String) (dispatches : List String) (event : Event)
      (compensations : List String) (later : List Record)
  | ended

inductive Outcome where
  | delivered
  | refused
  | crashed
  deriving DecidableEq

/-- One try of a dispatch: the reactions inside it, and how it comes out. -/
structure Try where
  inside : List Nested
  outcome : Outcome

/-- What a dispatch meets: the depth limit or its tries, and the legs its unwinding takes. -/
structure Play where
  deep : Bool
  tries : List Try
  unwound : List Nested

/-- What happens while a leg is under way. -/
inductive Point where
  | wrote (record : Option Record)
  | began (index : Nat)
  | settled (index : Nat)
  deriving DecidableEq

/-- `live`: the registry still holds the instance this leg moves. -/
structure World where
  state : String
  compensations : List String
  live : Bool
  points : List Point

def maxDefectRetries : Nat := 3

section

def World.mark (w : World) (p : Point) : World := { w with points := w.points ++ [p] }

/-- `checkpoint_leg`. -/
def World.checkpoint (w : World) (pending : Option Marker) : World :=
  w.mark (.wrote (some ⟨w.state, pending, w.compensations⟩))

def Nested.record : Nested → Option Record
  | leg state on fromState dispatches event compensations _ =>
      some ⟨state, some ⟨on, fromState, state, dispatches, event, 0, false⟩, compensations⟩
  | ended => none

/-- The instance as a write of another leg leaves it. -/
def World.overwrite (w : World) (record : Record) : World :=
  { w with state := record.state, compensations := record.compensations }.mark
    (.wrote (some record))

def World.nest (w : World) : Nested → World
  | .leg state on fromState dispatches event compensations later =>
      later.foldl World.overwrite (w.overwrite
        ⟨state, some ⟨on, fromState, state, dispatches, event, 0, false⟩, compensations⟩)
  | .ended => { w with live := false }.mark (.wrote none)

def World.nestAll (w : World) (nested : List Nested) : World := nested.foldl World.nest w

variable {pm : ProcessManager} (leg : Leg pm)

def Leg.names : List String := leg.handler.dispatches.map DispatchSpec.commandName

def Leg.pendingMarker (w : World) (settled : Nat) (attempting : Bool) : Marker :=
  ⟨leg.event.name, leg.preState, w.state, leg.names, leg.event, settled, attempting⟩

/-- Nothing is written for an instance the registry no longer holds. -/
def recordProgress (settled : Nat) (attempting : Bool) (w : World) : World :=
  if w.live then w.checkpoint (some (leg.pendingMarker w settled attempting)) else w

def recordCompensation (compensates : Option String) (w : World) : World :=
  match compensates with
  | none => w
  | some command =>
      { w with compensations := w.compensations ++ [command] }.checkpoint none

def unrecordCompensation (compensates : Option String) (w : World) : World :=
  match compensates with
  | none => w
  | some _ => { w with compensations := w.compensations.dropLast }.checkpoint none

/-- The tries of one dispatch; no answer unless the tries and the unwinding are those it takes. -/
def attemptDispatch (compensates : Option String) (unwound : List Nested) :
    Nat → List Try → World → Option World
  | _, [], _ => none
  | attempts, t :: rest, w =>
      let w := (recordCompensation compensates w).nestAll t.inside
      match t.outcome with
      | .delivered => if rest.isEmpty && unwound.isEmpty then some w else none
      | .refused =>
          if rest.isEmpty then some ((unrecordCompensation compensates w).nestAll unwound)
          else none
      | .crashed =>
          let w := unrecordCompensation compensates w
          if maxDefectRetries < attempts + 1 then
            if rest.isEmpty then some (w.nestAll unwound) else none
          else attemptDispatch compensates unwound (attempts + 1) rest w

def deliverSagaDispatch (spec : DispatchSpec) (play : Play) (w : World) : Option World :=
  if play.deep then
    if play.tries.isEmpty then some (w.nestAll play.unwound) else none
  else attemptDispatch spec.compensates play.unwound 0 play.tries w

def deliverDispatches : List DispatchSpec → List Play → Nat → World → Option World
  | [], [], _, w => some w
  | spec :: specs, play :: plays, index, w => do
      let w ← deliverSagaDispatch spec play ((recordProgress leg index true w).mark (.began index))
      deliverDispatches specs plays (index + 1)
        (recordProgress leg (index + 1) false (w.mark (.settled index)))
  | _, _, _, _ => none

/-- Each compensation on the ledger, newest first, with the reactions inside its delivery; then the
drained ledger is written. -/
def drainDerivedCompensations : List (List Nested) → World → Option World
  | [], w => if w.compensations.isEmpty then some (w.checkpoint none) else none
  | nested :: rest, w =>
      if w.compensations.isEmpty then none
      else drainDerivedCompensations rest
        ({ w with compensations := w.compensations.dropLast }.nestAll nested)

/-- The leg from its checkpoint up to where its marker is cleared, for an instance whose ledger
holds these compensations. -/
def window (compensations : List String) (drained : List (List Nested)) (plays : List Play) :
    Option World :=
  let w : World := ⟨leg.handler.toState, compensations, true, []⟩
  let w := w.checkpoint (some (leg.pendingMarker w 0 false))
  (if leg.refusing then drainDerivedCompensations drained w else some w).bind
    (deliverDispatches leg leg.handler.dispatches plays 0)

end

/-! ### The boot redrive -/

/-- What the redrive makes of a record: nothing without a marker, a report, or the dispatches it
delivers, with the one it reports as ambiguous. -/
inductive Redriven where
  | untouched
  | unredrivable
  | resumed (delivered : List Nat) (ambiguous : Option Nat)

/-- The leg the marker describes, or none when it cannot be rebuilt safely. -/
def stalledLeg (pm : ProcessManager) (record : Record) (marker : Marker) : Option Handler :=
  if marker.on == refusedTrigger && !record.compensations.isEmpty then none
  else (pm.handlerFor marker.on marker.fromState).filter fun h => h.toState == record.state

/-- `redeliverable`: the store dedupes dispatches of that command, or it is idempotent. -/
def redriveInstance (pm : ProcessManager) (redeliverable : String → Bool) (record : Record) :
    Redriven :=
  match record.marker with
  | none => .untouched
  | some marker =>
      match stalledLeg pm record marker with
      | none => .unredrivable
      | some handler =>
          match marker.attempting, handler.dispatches.drop marker.settled with
          | true, spec :: rest =>
              if redeliverable spec.commandName then
                .resumed (List.range' marker.settled (rest.length + 1)) none
              else .resumed [] (some marker.settled)
          | _, remaining => .resumed (List.range' marker.settled remaining.length) none

end Hecks.Saga
