import Hecks.Outbox.Store

/-! Relays that deliver and operators who redrive the rows of one store, each call of the store a
step of its own that any other party's may come between. -/
namespace Hecks.Outbox

/-- Seconds a row stays claimed before it counts as stalled. -/
def stalledAfter : Nat := 600

/-- `age`: what the store says of the claim's age, when it says. -/
def stalled (age : Option Nat) (row : Row) : Bool :=
  row.status = .claimed &&
    match age with
    | none => true
    | some seconds => stalledAfter ≤ seconds

/-- What a consumer's run comes to. -/
inductive Outcome where
  | delivered
  | refused (reason : String)
  | failed (error : String)

def Outcome.status : Outcome → Status
  | delivered => .delivered
  | refused _ => .refused
  | failed _ => .failed

def Outcome.error : Outcome → Option String
  | delivered => none
  | refused reason => some reason
  | failed error => some error

/-- What a party still has to do. `seen` is the attempt under which a row was found stalled. -/
inductive Task where
  | deliver (id : Nat)
  | redrive (id seen : Nat)
  | abandon (id : Nat)
  | claimedRows (claimed : Bool)

/-- Where a party is between its calls: before the next task, after the reset of a row it redrives,
with a row it has claimed, or with one whose consumer it has run. -/
inductive Party where
  | ready (todo : List Task)
  | reset (id seen : Nat) (todo : List Task)
  | holding (id : Nat) (seen : Option Nat) (todo : List Task)
  | ran (id : Nat) (outcome : Outcome) (todo : List Task)

/-- `seen` is the attempt found stalled where an operator's redrive led to the run. -/
inductive Event where
  | redriven (party id seen : Nat)
  | ran (party id : Nat) (seen : Option Nat)
  | delivered (id : Nat)
  deriving DecidableEq

/-- `history` has the latest event first. -/
structure World where
  rows : List Row
  parties : Nat → Party
  history : List Event

/-- One call of a party: a save that enqueues rows, a listing with which a redrive begins, the next
call of what it has begun, a consumer's run, or the party's end at any point. -/
inductive Action where
  | enqueue (party : Nat) (deliveryIds : List String)
  | redrive (party : Nat) (claimed : Bool) (withheld : Nat → Bool)
  | redriveRow (party : Nat) (deliveryId : String) (age : Option Nat) (withheld : Bool)
  | abandonRow (party : Nat) (deliveryId : String) (age : Option Nat)
  | next (party : Nat) (age : Nat → Option Nat) (withheld : Nat → Bool)
  | finish (party : Nat) (outcome : Outcome)
  | crash (party : Nat)

def World.become (w : World) (party : Nat) (state : Party) : World :=
  { w with parties := Function.update w.parties party state }

/-- `stalled_row`: the claimed row of that delivery id, when it is stalled. -/
def stalledRow (rows : List Row) (deliveryId : String) (age : Option Nat) : Option (Nat × Row) :=
  ((outboxRows rows .claimed).find? fun held => held.2.deliveryId = deliveryId).filter
    fun held => stalled age held.2

/-- `deliver_row`: a claim that fails leaves the row to whoever has it. -/
def World.deliverRow (w : World) (party id : Nat) (seen : Option Nat) (todo : List Task) : World :=
  match outboxClaim w.rows id with
  | none => w.become party (.ready todo)
  | some rows => { w with rows := rows }.become party (.holding id seen todo)

/-- The claimed rows that are stalled, redriven where the caller says so and only warned of
otherwise. -/
def claimedTasks (rows : List Row) (claimed : Bool) (age : Nat → Option Nat)
    (withheld : Nat → Bool) : List Task :=
  if claimed then
    ((outboxRows rows .claimed).filter fun held => stalled (age held.1) held.2 &&
      !withheld held.1).map fun held => .redrive held.1 held.2.attempts
  else []

/-- The call with which the party begins this task. -/
def World.begin (w : World) (party : Nat) (age : Nat → Option Nat) (withheld : Nat → Bool) :
    Task → List Task → World
  | .deliver id, todo => w.deliverRow party id none todo
  | .redrive id seen, todo =>
      { w with rows := outboxSettle w.rows id .pending none,
               history := .redriven party id seen :: w.history }.become party (.reset id seen todo)
  | .abandon id, todo =>
      { w with rows := outboxSettle w.rows id .failed
                 (some "abandoned by an operator, not redelivered") }.become party (.ready todo)
  | .claimedRows claimed, todo =>
      w.become party (.ready (claimedTasks w.rows claimed age withheld ++ todo))

/-- No step where the party is not at that point. -/
def step (w : World) : Action → Option World
  | .enqueue party deliveryIds =>
      match w.parties party with
      | .ready [] =>
          let held := outboxEnqueue w.rows deliveryIds
          some ({ w with rows := held.1 }.become party (.ready (held.2.map .deliver)))
      | _ => none
  | .redrive party claimed withheld =>
      match w.parties party with
      | .ready [] =>
          let pending := (outboxRows w.rows .pending).filter fun held => !withheld held.1
          some (w.become party (.ready (pending.map (fun held => .deliver held.1) ++
            [.claimedRows claimed])))
      | _ => none
  | .redriveRow party deliveryId age withheld =>
      match w.parties party with
      | .ready [] => (stalledRow w.rows deliveryId age).map fun held =>
          w.become party (.ready (if withheld then [] else [.redrive held.1 held.2.attempts]))
      | _ => none
  | .abandonRow party deliveryId age =>
      match w.parties party with
      | .ready [] => (stalledRow w.rows deliveryId age).map fun held =>
          w.become party (.ready [.abandon held.1])
      | _ => none
  | .next party age withheld =>
      match w.parties party with
      | .ready (task :: todo) => some (w.begin party age withheld task todo)
      | .reset id seen todo => some (w.deliverRow party id (some seen) todo)
      | .ran id outcome todo =>
          let settled :=
            { w with rows := outboxSettle w.rows id outcome.status outcome.error,
                     history := match outcome with
                       | .delivered => .delivered id :: w.history
                       | _ => w.history }
          some (settled.become party (.ready todo))
      | _ => none
  | .finish party outcome =>
      match w.parties party with
      | .holding id seen todo =>
          some ({ w with history := .ran party id seen :: w.history }.become party
            (.ran id outcome todo))
      | _ => none
  | .crash party => some (w.become party (.ready []))

def run (actions : List Action) (w : World) : Option World := actions.foldlM step w

/-- No rows, and no party has begun anything. -/
def start : World := ⟨[], fun _ => .ready [], []⟩

end Hecks.Outbox
