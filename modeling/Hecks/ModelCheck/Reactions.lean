import Hecks.Lib.Components

/-! The reaction graph of one bluebook: which verb announces which event, which policy hears it,
and which verb that policy dispatches in turn. -/
namespace Hecks.ModelCheck

/-! ### Names -/

/-- `split("::")` of a text. -/
def splitPath : List Char → List (List Char)
  | [] => [[]]
  | ':' :: ':' :: cs => [] :: splitPath cs
  | c :: cs =>
      match splitPath cs with
      | [] => [[c]]
      | l :: ls => (c :: l) :: ls

/-- `split` drops the empty parts at the end. -/
def pathParts (text : List Char) : List (List Char) := (splitPath text).rdropWhile (·.isEmpty)

def demodulise (text : String) : String := String.ofList ((pathParts text.toList).getLast?.getD [])

/-- The domain, the aggregate and the dotted command of a verb. -/
abbrev Verb := String × String × String

def splitVerb (verb : String) : Option Verb :=
  match verb.toList.span (· ≠ '.') with
  | (_, []) => none
  | (path, _ :: command) =>
      match pathParts path with
      | domain :: aggregate :: rest =>
          -- a `::` left after the aggregate folds into the command
          let folded :=
            if rest.isEmpty then command else List.intercalate ['.'] rest ++ '.' :: command
          some (String.ofList domain, String.ofList aggregate, String.ofList folded)
      | _ => none

def qualifier (dotted : String) : Option String :=
  match dotted.toList.span (· ≠ '.') with
  | (_, []) => none
  | (front, _ :: _) => some (String.ofList front)

def unqualified (dotted : String) : String :=
  match dotted.toList.span (· ≠ '.') with
  | (_, []) => dotted
  | (_, _ :: rest) => String.ofList rest

/-! ### A bluebook, as far as it reacts -/

structure Command where
  hecksName : String
  emits : List String

inductive Entity where
  | declare (hecksName : String) (commands : List Command) (entities : List Entity)

/-- `chosen`: the hecksagon picked this operation with `ask_via`. -/
structure PortOperation where
  hecksName : String
  emits : List String
  outbound : Bool
  answers : Option String
  refuses : Option String
  chosen : Bool

structure DomainPort where
  name : String
  operations : List PortOperation

structure Aggregate where
  hecksName : String
  commands : List Command
  entities : List Entity
  ports : List DomainPort

structure Policy where
  name : String
  onEvent : String
  triggerCommand : String
  ask : String
  targetDomain : Option String

structure Bluebook where
  name : String
  aggregates : List Aggregate
  policies : List Policy
  ports : List DomainPort

namespace Entity

def hecksName : Entity → String
  | declare name _ _ => name

def commands : Entity → List Command
  | declare _ commands _ => commands

end Entity

def Policy.asks (p : Policy) : Bool := p.ask ≠ ""

/-- `[*emits, answers, refuses].compact`. -/
def PortOperation.events (op : PortOperation) : List String :=
  op.emits ++ op.answers.toList ++ op.refuses.toList

def bareNames (events : List String) : List String := events.map demodulise

/-! ### The port operation an `ask` resolves to -/

section

variable (snake : String → String)

def eventAggregate (b : Bluebook) (p : Policy) : Option Aggregate :=
  match qualifier p.onEvent with
  | some q => b.aggregates.find? fun a => a.hecksName = demodulise q
  | none => b.aggregates.find? fun a => a.commands.any fun c => c.emits.contains (unqualified p.onEvent)

def candidates (a : Aggregate) (ask : String) : List (DomainPort × PortOperation) :=
  a.ports.flatMap fun port =>
    (port.operations.filter fun op => op.outbound && snake op.hecksName == ask).map (port, ·)

/-- What a tie leaves: the chosen operations, or all of them when none is chosen. -/
def picked (found : List (DomainPort × PortOperation)) : List (DomainPort × PortOperation) :=
  let chosen := found.filter fun f => f.2.chosen
  if 1 < found.length && !chosen.isEmpty then chosen else found

/-- No verb where the ask names no aggregate, matches nothing or is ambiguous. -/
def askedVerb (b : Bluebook) (p : Policy) : Option String := do
  let a ← eventAggregate b p
  match picked (candidates snake a p.ask) with
  | [(port, op)] => some s!"{b.name}::{a.hecksName}::{port.name}.{op.hecksName}"
  | _ => none

def dispatchedBy (b : Bluebook) (p : Policy) : Option Verb :=
  (if p.asks then askedVerb snake b p else some s!"{b.name}::{p.triggerCommand}").bind splitVerb

end

/-! ### What each verb announces -/

/-- An event with the aggregate that announces it, when one does. -/
abbrev Announcement := Option String × String

/-- A key keeps its place when its value is written again. -/
def store {κ ν : Type} [DecidableEq κ] (key : κ) (value : ν) : List (κ × ν) → List (κ × ν)
  | [] => [(key, value)]
  | (k, v) :: rest => if k = key then (key, value) :: rest else (k, v) :: store key value rest

def entityCommands (place : String) (e : Entity) : List (String × List String) :=
  e.commands.map fun c => (s!"{place}.{e.hecksName}.{c.hecksName}", c.emits)

def operations (place : String) (port : DomainPort) : List (String × List String) :=
  port.operations.map fun op => (s!"{place}.{port.name}.{op.hecksName}", op.events)

/-- The verbs of the aggregate's commands, of those its own entities declare and of its ports. -/
def commandRows (b : Bluebook) (a : Aggregate) : List (String × List String) :=
  let place := s!"{b.name}::{a.hecksName}"
  a.commands.map (fun c => (s!"{place}.{c.hecksName}", c.emits)) ++
    a.entities.flatMap (entityCommands place) ++ a.ports.flatMap (operations place)

def commandsOf (b : Bluebook) (a : Aggregate) : List (Option Verb × List String) :=
  (commandRows b a).foldl (fun held row => store (splitVerb row.1) (bareNames row.2) held) []

/-- `emitted_by_verb`. -/
def emitted (b : Bluebook) : List (Option Verb × List Announcement) :=
  b.aggregates.foldl (fun held a =>
    (commandsOf b a).foldl (fun held row =>
      store row.1 (row.2.map fun event => (some a.hecksName, event)) held) held) []

def emittedBy (b : Bluebook) (verb : Option Verb) : List Announcement :=
  ((emitted b).lookup verb).getD []

def hears (p : Policy) (heard : Announcement) : Bool :=
  unqualified p.onEvent == heard.2 &&
    match qualifier p.onEvent with
    | none => true
    | some q => heard.1 == some (demodulise q)

/-- The policies whose target is this domain's; a node of the graph is the place of one. -/
def reacting (b : Bluebook) : List Policy := b.policies.filter fun p => p.targetDomain.isNone

abbrev Node (b : Bluebook) := Fin (reacting b).length

section

variable (snake : String → String) (b : Bluebook)

def dispatch (p : Node b) : Option Verb := dispatchedBy snake b ((reacting b).get p)

def reactingTo (verb : Option Verb) : List (Node b) :=
  (List.finRange _).filter fun p => (emittedBy b verb).any (hears ((reacting b).get p))

def successors (p : Node b) : List (Node b) :=
  match dispatch snake b p with
  | none => []
  | some verb => reactingTo b (some verb)

def verbs : List (Option Verb) := (emitted b).map (·.1)

def reactionTargets : List Verb := (List.finRange _).filterMap (dispatch snake b)

/-- The verbs that no policy dispatches. -/
def entryVerbs : List (Option Verb) :=
  (verbs b).filter fun verb => !((reactionTargets snake b).map some).contains verb

end

end Hecks.ModelCheck
