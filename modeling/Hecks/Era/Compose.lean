import Hecks.Era.Rewrite
import Hecks.Lib.Hash

/-! A chain of translation edges, composed into the one edge that leads straight across it. -/
namespace Hecks.Era

open Hecks.Host (Serde)

structure TranslationRetype where
  source : String
  target : String

structure TranslationSplit where
  into : String
  keyedBy : String
  fields : List String

/-- One aggregate's part of an edge: its name in the destination era, and the one it had. -/
structure TranslationAggregate where
  name : String
  was : Option String
  rules : FieldRules
  retypes : List TranslationRetype
  rekeys : List String
  splits : List TranslationSplit

structure Translation where
  domain : String
  source : String
  target : String
  aggregates : List TranslationAggregate
  retired : List String

/-- The name an aggregate had in the era an edge leads from. -/
def TranslationAggregate.previous (aggregate : TranslationAggregate) : String :=
  aggregate.was.getD aggregate.name

namespace Compose

/-- None of the aggregate's `FIELD_RULES` has an entry. -/
def unruled (aggregate : TranslationAggregate) : Bool :=
  aggregate.rules.renames.isEmpty && aggregate.rules.moves.isEmpty &&
    aggregate.rules.converts.isEmpty && aggregate.rules.drops.isEmpty &&
    aggregate.retypes.isEmpty && aggregate.rules.derives.isEmpty && aggregate.rekeys.isEmpty &&
    aggregate.rules.backfills.isEmpty && aggregate.splits.isEmpty

structure Tracker where
  origins : Hash String String
  retired : List String
  ruled : Hash String (Nat × TranslationAggregate)

def refuseUnrenderable (chain : List Translation) : Except String Unit :=
  chain.forM fun step => step.aggregates.forM fun aggregate =>
    if aggregate.rekeys.isEmpty && aggregate.splits.isEmpty then .ok ()
    else
      .error (s!"cannot compose {step.domain}: {aggregate.name} carries a rekey or split, which " ++
        "composes by hand; write the composed edge yourself")

/-- Records an aggregate under its current name, keeping the name it was held under. -/
def track (origins : Hash String String) (aggregate : TranslationAggregate) :
    String × Hash String String :=
  let previous := aggregate.previous
  let origin := (origins.get previous).getD previous
  (origin, (origins.delete previous).set aggregate.name origin)

def trackAggregate (domain : String) (index : Nat) (state : Tracker)
    (aggregate : TranslationAggregate) : Except String Tracker :=
  let (origin, origins) := track state.origins aggregate
  if unruled aggregate then .ok { state with origins }
  else
    match state.ruled.get origin with
    | some earlier =>
        .error (s!"cannot compose {domain}: {aggregate.name} has field rules in steps " ++
          s!"{earlier.1 + 1} and {index + 1} of the chain; compose those by hand")
    | none => .ok { state with origins, ruled := state.ruled.set origin (index, aggregate) }

def trackStep (state : Tracker) (step : Translation) (index : Nat) : Except String Tracker := do
  let state ← step.aggregates.foldlM (trackAggregate step.domain index) state
  .ok { state with retired := state.retired ++ step.retired }

def trackSteps (state : Tracker) : Nat → List Translation → Except String Tracker
  | _, [] => .ok state
  | index, step :: chain => do
      let state ← trackStep state step index
      trackSteps state (index + 1) chain

def trackChain (chain : List Translation) : Except String Tracker :=
  trackSteps ⟨.empty, [], .empty⟩ 0 chain

def composedAggregate (name origin : String) (source : Option TranslationAggregate) :
    TranslationAggregate where
  name := name
  was := if origin = name then none else some origin
  rules := source.elim ⟨[], [], [], [], [], [], List.nodup_nil⟩ (·.rules)
  retypes := source.elim [] (·.retypes)
  rekeys := source.elim [] (·.rekeys)
  splits := source.elim [] (·.splits)

/-- One aggregate for each that is renamed or carries field rules. -/
def composedAggregates (origins : Hash String String)
    (ruled : Hash String (Nat × TranslationAggregate)) : List TranslationAggregate :=
  origins.entries.filterMap fun (name, origin) =>
    let source := (ruled.get origin).map (·.2)
    if source.isNone && origin = name then none else some (composedAggregate name origin source)

def composed (state : Tracker) (domain source target : String) : Translation where
  domain := domain
  source := source
  target := target
  aggregates := composedAggregates state.origins state.ruled
  retired := state.retired.eraseDups.filter fun name => (state.origins.get name).isNone

def compose (domain source target : String) (chain : List Translation) :
    Except String Translation := do
  refuseUnrenderable chain
  let state ← trackChain chain
  .ok (composed state domain source target)

end Compose

/-! ### What an edge does to a record -/

/-- Where a record ends up. -/
inductive Fate where
  | retired
  | carried (name : String) (state : State)

/-- The record of a retired aggregate is left behind; that of an aggregate one of the edge's had
been goes to it under its rules, and any other stays as it is. -/
def Translation.carry (inspect : Serde → String) (edge : Translation) (name : String)
    (state : State) : Except Refusal Fate :=
  if name ∈ edge.retired then .ok .retired
  else
    match edge.aggregates.find? fun aggregate => aggregate.previous = name with
    | none => .ok (.carried name state)
    | some aggregate =>
        (Rewrite.rewrite inspect aggregate.rules state).map (.carried aggregate.name)

/-- Each edge of a chain in turn. -/
def carryAll (inspect : Serde → String) : List Translation → String → State → Except Refusal Fate
  | [], name, state => .ok (.carried name state)
  | edge :: chain, name, state => do
      match ← edge.carry inspect name state with
      | .retired => .ok .retired
      | .carried name state => carryAll inspect chain name state

/-! ### The trail of one record -/

namespace Compose

/-- A record's way along a chain: the name it is under, whether an aggregate of the edge at hand
has taken it on, whether one of any edge has, and whether its first name is an aggregate's that an
edge has named. -/
structure Trail where
  name : String
  moved : Bool
  tracked : Bool
  taken : Bool

/-- Whether `held` is a name edges have given, after one more aggregate. -/
def takes (held : String) (taken : Bool) (aggregate : TranslationAggregate) : Bool :=
  if aggregate.name = held then true else if aggregate.previous = held then false else taken

/-- The aggregate is the one that takes the record on. -/
def Trail.Own (trail : Trail) (aggregate : TranslationAggregate) : Prop :=
  trail.moved = false ∧ aggregate.previous = trail.name

instance (trail : Trail) (aggregate : TranslationAggregate) : Decidable (trail.Own aggregate) :=
  inferInstanceAs (Decidable (_ ∧ _))

def Trail.meet (held : String) (trail : Trail) (aggregate : TranslationAggregate) : Trail :=
  if trail.Own aggregate then
    { name := aggregate.name, moved := true, tracked := true,
      taken := takes held trail.taken aggregate }
  else { trail with taken := takes held trail.taken aggregate }

/-- An aggregate that does not take the record on leaves it alone: it does not take the record's
name, nor move on what the edge itself has put there, nor take the record's first name for that of
an aggregate no edge has named. -/
def Trail.Spared (held : String) (trail : Trail) (aggregate : TranslationAggregate) : Prop :=
  ¬ trail.Own aggregate → aggregate.name ≠ trail.name ∧ aggregate.previous ≠ trail.name ∧
    (aggregate.previous = held → trail.taken = true)

def Trail.meetAll (held : String) (trail : Trail) (aggregates : List TranslationAggregate) : Trail :=
  aggregates.foldl (Trail.meet held) trail

def SparedAll (held : String) : Trail → List TranslationAggregate → Prop
  | _, [] => True
  | trail, aggregate :: aggregates =>
      trail.Spared held aggregate ∧ SparedAll held (trail.meet held aggregate) aggregates

/-- `held` is a name edges have given, after a whole chain. -/
def takenAfter (held : String) (taken : Bool) (chain : List Translation) : Bool :=
  (chain.flatMap (·.aggregates)).foldl (takes held) taken

/-- No edge mistakes the record's way: where it is retired, no edge had named it before and none
names its first name for good; where it is not, no retirement of its first name stands, and every
aggregate of the edge spares it. -/
def Followed (held : String) : Trail → List Translation → Prop
  | _, [] => True
  | trail, edge :: chain =>
      if trail.name ∈ edge.retired then
        trail.tracked = false ∧ takenAfter held trail.taken (edge :: chain) = false
      else
        SparedAll held trail edge.aggregates ∧
          (held ∈ edge.retired → takenAfter held trail.taken (edge :: chain) = true) ∧
          Followed held { trail.meetAll held edge.aggregates with moved := false } chain

end Compose

end Hecks.Era
