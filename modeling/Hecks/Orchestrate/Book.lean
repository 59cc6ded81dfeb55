import Mathlib
import Hecks.Lib.Machine
import Hecks.Orchestrate.Cascade

/-! The book of a run: what its history says about the saga instances, their ledgers and the
dispatches due next. The book is the abstract model of the saga half of a cascade. Every ledger
entry has a name of its own in it, so that the fate of an entry can be told from that of another
with the same command; the code pops its ledgers by position only. -/
namespace Hecks

/-- The name of a ledger entry: its place in the ledger the run started with, or its number
among the entries recorded since. -/
inductive EntryId where
  | seeded (key : SagaKey) (index : Nat)
  | recorded (n : Nat)
deriving DecidableEq

/-- A live instance with named entries. -/
structure Live where
  state : String
  memory : Json
  ledger : List (EntryId × CompletedCompensation)

def Live.inst (l : Live) : SagaInstance := ⟨l.state, l.memory, l.ledger.map (·.2)⟩

/-- What has to happen next, where the code leaves no choice. -/
inductive Due where
  | idle
  /-- An entry was recorded: its forward dispatch comes next. -/
  | forward (key : SagaKey) (id : EntryId)
  /-- That dispatch was refused: the entry is taken back next. -/
  | withdraw (key : SagaKey) (id : EntryId)
  /-- An entry was fired: it is attempted next, then called, then logged if it was refused. -/
  | firing (key : SagaKey) (id : EntryId) (entry : CompletedCompensation)
  | calling (key : SagaKey) (id : EntryId) (entry : CompletedCompensation)
  | failing (key : SagaKey) (id : EntryId) (entry : CompletedCompensation)

namespace Due

/-- After the attempt: a withheld entry is done with, another is called. -/
def afterAttempt (withheld : Bool) : Due → Due
  | firing key id entry => if withheld then idle else calling key id entry
  | due => due

/-- After the dispatch function answered. -/
def afterAnswer (answered : Bool) : Due → Due
  | forward key id => if answered then idle else withdraw key id
  | calling key id entry => if answered then idle else failing key id entry
  | due => due

/-- When a dispatch may be called: nothing is due, or it is what is due. A fired entry's call is
its own command's, in some domain. -/
def Callable (verb : String) : Due → Prop
  | idle | forward _ _ => True
  | calling _ _ entry => ∃ domain, verb = qualifySagaCommandName domain entry.commandName
  | _ => False

/-- The entry a withheld attempt, an accepted call or a logged refusal is the end of. -/
def withheldEntry : Due → List EntryId
  | firing _ id _ => [id]
  | _ => []

def calledEntry : Due → List EntryId
  | calling _ id _ => [id]
  | _ => []

def refusedEntry : Due → List EntryId
  | failing _ id _ => [id]
  | _ => []

end Due

structure Book where
  live : SagaKey → Option Live
  /-- How many entries were recorded. -/
  recorded : Nat
  due : Due
  /-- The ledgers being drained, innermost first. -/
  drains : List SagaKey
  emitted : List Event
  /-- The fate of the entries that left a ledger: fired, and then delivered or failed; withdrawn
  after a refused forward dispatch; lost with their instance. -/
  fired : List EntryId
  delivered : List EntryId
  failed : List EntryId
  withdrawn : List EntryId
  lost : List EntryId
  /-- How many entries were recorded on a ledger that was being drained. -/
  refills : Nat
  /-- How many events are being settled, each inside the one before. -/
  nesting : Nat

namespace Book

def ledger (b : Book) (key : SagaKey) : List (EntryId × CompletedCompensation) :=
  ((b.live key).map (·.ledger)).getD []

def ids (b : Book) (key : SagaKey) : List EntryId := (b.ledger key).map (·.1)

def setLive (b : Book) (key : SagaKey) (l : Option Live) : Book :=
  { b with live := Function.update b.live key l }

def updateLive (b : Book) (key : SagaKey) (f : Live → Live) : Book :=
  b.setLive key ((b.live key).map f)

/-- The newest entry of a ledger goes. -/
def popLive (b : Book) (key : SagaKey) : Book :=
  b.updateLive key fun l => { l with ledger := l.ledger.dropLast }

/-- The name of the newest entry of a ledger. -/
def newest (b : Book) (key : SagaKey) : List EntryId := (b.ids key).getLast?.toList

/-- What a line of the history does to the book. -/
def next (b : Book) : Mark → Book
  | .attempted _ _ withheld =>
      { b with
        due := b.due.afterAttempt withheld
        failed := b.failed ++ if withheld then b.due.withheldEntry else [] }
  | .called _ _ _ answer =>
      { b with
        emitted := b.emitted ++ answer.toOption.getD []
        due := b.due.afterAnswer answer.isOk
        delivered := b.delivered ++ if answer.isOk then b.due.calledEntry else [] }
  | .policiesOf _ => { b with nesting := b.nesting + 1 }
  | .sagasOf _ => b
  | .settled _ => { b with nesting := b.nesting - 1 }
  | .began pm event correlation =>
      b.setLive (pm.name, correlation) (some ⟨pm.initialState, event.payload, []⟩)
  | .moved pm _ correlation _ handler =>
      b.updateLive (pm.name, correlation) fun l => { l with state := handler.toState }
  | .ended pm _ correlation =>
      { b.setLive (pm.name, correlation) none with
        lost := b.lost ++ b.ids (pm.name, correlation) }
  | .pushed key entry =>
      { b.updateLive key
          fun l => { l with ledger := l.ledger ++ [(.recorded b.recorded, entry)] } with
        recorded := b.recorded + 1
        due := .forward key (.recorded b.recorded)
        refills := if key ∈ b.drains then b.refills + 1 else b.refills }
  | .unrecorded key =>
      { b.popLive key with due := .idle, withdrawn := b.withdrawn ++ b.newest key }
  | .draining key => { b with drains := key :: b.drains }
  | .fired key entry =>
      { b.popLive key with
        due := (b.ids key).getLast?.elim b.due fun id => .firing key id entry
        fired := b.fired ++ b.newest key }
  | .failed _ _ => { b with due := .idle, failed := b.failed ++ b.due.refusedEntry }
  | .drained _ => { b with drains := b.drains.tail }

/-- The book of a run that starts at a depth. -/
def start (sagas : AList fun _ : SagaKey => SagaInstance) (depth : Nat) : Book where
  live key := (sagas.lookup key).map fun inst =>
    ⟨inst.state, inst.memory,
      inst.completedCompensations.mapIdx fun i entry => (.seeded key i, entry)⟩
  recorded := 0
  due := .idle
  drains := []
  emitted := []
  fired := []
  delivered := []
  failed := []
  withdrawn := []
  lost := []
  refills := 0
  nesting := depth

end Book

/-- Whether the depth ceiling does not apply to what asks for the dispatch. -/
def Cause.root : Cause → Bool
  | .policy rule _ => rule.root
  | _ => false

/-- The depth ceiling: what is withheld, and nothing else. -/
def Withheld (depth : Nat) (cause : Cause) : Prop :=
  maxReactionDepth ≤ depth ∧ cause.root = false

/-- What has to be due for the attempt: an entry fired, for a compensation; else nothing. -/
def Cause.Awaits : Cause → Due → Prop
  | .compensation l entry, due => ∃ id, due = .firing l.key id entry
  | _, due => due = .idle

/-- No policy is a `root` policy. -/
def Tables.Rootless (tables : Tables) : Prop := ∀ policy ∈ tables.policies, policy.root = false

/-- A reaction is one of the declared policies. -/
def Cause.Declared (tables : Tables) : Cause → Prop
  | .policy rule _ => rule ∈ tables.policies
  | _ => True

/-- The deepest call of a run that starts at a depth. -/
def ceiling (start : Nat) : Nat := max start maxReactionDepth

section Legal

variable (tables : Tables) (start : Nat) (b : Book)

/-- The event was emitted by this run and is the manager's own by its correlation. -/
structure Addresses (pm : ProcessManagerDef) (event : Event) (correlation : String) : Prop where
  manager : pm ∈ tables.processManagers
  emitted : event ∈ b.emitted
  correlates : pm.correlationOf event tables.referenceKeyFn = some correlation

/-- When a line may be written. Nothing but what is due may happen while something is due, and
without root policies the depth a dispatch is called at is how deep the settled events nest. -/
def Legal : Mark → Prop
  | .attempted depth cause withheld =>
      (tables.Rootless → depth + 1 = b.nesting) ∧ cause.Declared tables ∧
      (withheld = true ↔ Withheld depth cause) ∧ cause.Awaits b.due
  | .called depth verb _ _ =>
      depth ≤ ceiling start ∧ (tables.Rootless → depth = b.nesting) ∧ b.due.Callable verb
  | .policiesOf event | .sagasOf event | .settled event => b.due = .idle ∧ event ∈ b.emitted
  | .began pm event correlation =>
      b.due = .idle ∧ Addresses tables b pm event correlation ∧ event.name = pm.startsOn ∧
      b.live (pm.name, correlation) = none
  | .moved pm event correlation trigger handler =>
      b.due = .idle ∧ Addresses tables b pm event correlation ∧
      (trigger = event.name ∨ trigger = REFUSED) ∧
      ∃ l, b.live (pm.name, correlation) = some l ∧ pm.selectLeg trigger l.state = some handler
  | .ended pm event correlation =>
      b.due = .idle ∧ Addresses tables b pm event correlation ∧ event.name = pm.endsOn ∧
      (b.live (pm.name, correlation)).isSome
  | .pushed key _ => b.due = .idle ∧ (b.live key).isSome
  | .unrecorded key => ∃ id, b.due = .withdraw key id
  | .draining _ => b.due = .idle
  | .fired key entry =>
      b.due = .idle ∧ b.drains.head? = some key ∧
      ∃ id, (b.ledger key).getLast? = some (id, entry)
  | .failed key entry => ∃ id, b.due = .failing key id entry
  | .drained key => b.due = .idle ∧ b.drains.head? = some key ∧ b.ledger key = []

/-- The machine of the books over the tables, for runs that start at a depth. -/
def bookkeeping : Machine Book Mark := ⟨Book.next, Legal tables start⟩

end Legal

end Hecks
