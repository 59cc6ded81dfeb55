import Hecks.Era.Rewrite

/-! The host's reference transform, and where it answers as the reference does. -/
namespace Hecks.Era

open Hecks.Host (Serde)
open Lockstep

/-- The exported rules of one aggregate. The names, retypes and compiled expressions exported
beside them are not read here. -/
def translationAggregate (rules : FieldRules) : Serde :=
  .object (
    [("renames", .object (rules.renames.map fun r => (r.1, .string r.2))),
     ("moves", .array (rules.moves.map fun move =>
        .object [("from", .string move.source.text), ("to", .string move.target.text)])),
     ("converts", .array (rules.converts.map fun convert =>
        .object [("from", .string convert.source.text), ("to", .string convert.target.text),
          ("values", .array (convert.values.map fun pair => .array [pair.1, pair.2]))])),
     ("drops", .array (rules.drops.map fun path => .string path.text)),
     ("backfills", .array (rules.backfills.map fun backfill =>
        .object [("name", .string backfill.name.text), ("default", backfill.default)]))] ++
    if rules.derives = [] then []
    else
      [("derives", .array (rules.derives.map fun derive =>
        .object [("to", .string derive.target.text), ("expression", .string derive.expression)]))])

namespace Reference

section

variable (display : Serde → String)

def splitPath (path : String) : String × Option String :=
  match Text.splitOnce "." path with
  | some (top, member) => (top, some member)
  | none => (path, none)

/-- `map.remove`; the order of the keys left is no part of the value. -/
def extract (state : State) (top : String) (member : Option String) : Option (Serde × State) :=
  match member with
  | none => (state top).map fun value => (value, state.delete top)
  | some member => do
      let nested ← (state top).bind Serde.asObject
      let value ← (Serde.object nested).get member
      let nested := erase member nested
      if nested = [] then pure (value, state.delete top)
      else pure (value, state.put top (.object nested))

def insert (state : State) (top : String) (member : Option String) (value : Serde) (rule : String) :
    Except String State :=
  match member with
  | none => .ok (state.put top value)
  | some member =>
      match (state top).getD (.object []) with
      | .object nested => .ok (state.put top (.object (Serde.insert member value nested)))
      | nested =>
          .error (s!"cannot {rule}: {top} already holds {display nested}, not a value this can " ++
            "nest under -- moving into it would discard that value silently. Rename or drop " ++
            s!"{top} first.")

def applyMove (state : State) (source target : String) : Except String State :=
  let (oldTop, oldMember) := splitPath source
  let (newTop, newMember) := splitPath target
  match extract state oldTop oldMember with
  | none => .ok state
  | some (value, state) =>
      insert display state newTop newMember value s!"move {source} to: {target}"

/-- A pair answers for a value equal to its first item; anything else in the table is passed over. -/
def mapped (values : List Serde) (raw : Serde) : Option Serde :=
  values.findSome? fun
    | .array [key, value] => if same (fun a b => a = b) key raw then some value else none
    | _ => none

def applyConvert (state : State) (source target : String) (values : List Serde) :
    Except String State :=
  let (oldTop, oldMember) := splitPath source
  let (newTop, newMember) := splitPath target
  match extract state oldTop oldMember with
  | none => .ok state
  | some (raw, state) =>
      match mapped values raw with
      | none =>
          .error (s!"cannot translate {source}: {display raw} has no mapping in its convert's " ++
            s!"values: table. Add {display raw} => ... to cover it.")
      | some value =>
          insert display state newTop newMember value s!"convert {source} to: {target}"

def applyDrop (state : State) (name : String) : State :=
  let (top, member) := splitPath name
  match extract state top member with
  | some (_, state) => state
  | none => state

def applyBackfill (state : State) (name : String) (default : Serde) : Except String State :=
  let (top, member) := splitPath name
  let alreadyPresent :=
    match member with
    | none => (state top).isSome
    | some member =>
        ((state top).bind Serde.asObject).any fun nested => ((Serde.object nested).get member).isSome
  if alreadyPresent then .ok state
  else insert display state top member default s!"backfill {name}"

/-- A field of a rule read as text, empty where it is none. -/
def text (rule : Serde) (key : String) : String := ((rule.get key).bind Serde.asStr).getD ""

def list (rule : Serde) (key : String) : List Serde := ((rule.get key).bind Serde.asArray).getD []

/-- One rename after the other. -/
def applyRenames (state : State) (renames : List (String × Serde)) : State :=
  renames.foldl (fun state (old, new) =>
    match new.asStr with
    | none => state
    | some new =>
        match state old with
        | some value => (state.delete old).put new value
        | none => state) state

def translate (raw : Serde) (state : State) : Except String State := do
  let state := applyRenames state (((raw.get "renames").bind Serde.asObject).getD [])
  let state ← (list raw "moves").foldlM (fun state move =>
    applyMove display state (text move "from") (text move "to")) state
  let state ← (list raw "converts").foldlM (fun state convert =>
    applyConvert display state (text convert "from") (text convert "to") (list convert "values"))
    state
  let state := (list raw "drops").foldl (fun state name =>
    match name.asStr with
    | some name => applyDrop state name
    | none => state) state
  (list raw "backfills").foldlM (fun state backfill =>
    match (backfill.get "name").bind Serde.asStr with
    | none => .ok state
    | some name => applyBackfill display state name ((backfill.get "default").getD .null)) state

end

/-! ### The transform over the exported rules -/

/-- One rule of the transform. -/
def step (display : Serde → String) (state : State) : Rewrite.Rule → Except String State
  | .move move => applyMove display state move.source.text move.target.text
  | .convert convert =>
      applyConvert display state convert.source.text convert.target.text
        (convert.values.map fun pair => .array [pair.1, pair.2])
  | .drop path => .ok (applyDrop state path.text)
  | .backfill backfill => applyBackfill display state backfill.name.text backfill.default

theorem applyRenames_eq (renames : List (String × String)) (state : State) :
    applyRenames state (renames.map fun r => (r.1, .string r.2)) =
      Renaming.sequential state renames := by
  unfold applyRenames Renaming.sequential
  rw [List.foldl_map]
  congr 1
  funext state r
  simp only [Serde.asStr, Renaming.renameOne]
  cases state r.1 <;> rfl

section

variable (display : Serde → String)

theorem moves_eq (moves : List TranslationMove) (state : State) :
    (moves.map fun move : TranslationMove => Serde.object [("from", .string move.source.text),
      ("to", .string move.target.text)]).foldlM (fun state move =>
        applyMove display state (text move "from") (text move "to")) state =
      (moves.map Rewrite.Rule.move).foldlM (step display) state := by
  rw [List.foldlM_map, List.foldlM_map]
  rfl

theorem converts_eq (converts : List TranslationConvert) (state : State) :
    (converts.map fun convert : TranslationConvert =>
      Serde.object [("from", .string convert.source.text), ("to", .string convert.target.text),
        ("values", .array (convert.values.map fun pair => .array [pair.1, pair.2]))]).foldlM
      (fun state convert => applyConvert display state (text convert "from") (text convert "to")
        (list convert "values")) state =
      (converts.map Rewrite.Rule.convert).foldlM (step display) state := by
  rw [List.foldlM_map, List.foldlM_map]
  rfl

theorem drops_eq (drops : List Path) (state : State) :
    (drops.map Rewrite.Rule.drop).foldlM (step display) state =
      .ok ((drops.map fun path => Serde.string path.text).foldl (fun state name =>
        match name.asStr with
        | some name => applyDrop state name
        | none => state) state) := by
  rw [List.foldlM_map, List.foldl_map]
  exact Rewrite.foldlM_ok (fun state (path : Path) => applyDrop state path.text) drops state

theorem backfills_eq (backfills : List TranslationBackfill) (state : State) :
    (backfills.map fun backfill : TranslationBackfill =>
      Serde.object [("name", .string backfill.name.text), ("default", backfill.default)]).foldlM
      (fun state backfill =>
        match (backfill.get "name").bind Serde.asStr with
        | none => .ok state
        | some name =>
            applyBackfill display state name ((backfill.get "default").getD .null)) state =
      (backfills.map Rewrite.Rule.backfill).foldlM (step display) state := by
  rw [List.foldlM_map, List.foldlM_map]
  rfl

theorem translate_eq (rules : FieldRules) (state : State) :
    translate display (translationAggregate rules) state =
      (Rewrite.Rule.list rules).foldlM (step display)
        (Renaming.sequential state rules.renames) := by
  have renames : ((translationAggregate rules).get "renames").bind Serde.asObject =
      some (rules.renames.map fun r => (r.1, .string r.2)) := by
    simp [translationAggregate, Serde.get, Serde.asObject]
  have moves : list (translationAggregate rules) "moves" = rules.moves.map fun move =>
      Serde.object [("from", .string move.source.text), ("to", .string move.target.text)] := by
    simp [list, translationAggregate, Serde.get, Serde.asArray]
  have converts : list (translationAggregate rules) "converts" = rules.converts.map fun convert =>
      Serde.object [("from", .string convert.source.text), ("to", .string convert.target.text),
        ("values", .array (convert.values.map fun pair => .array [pair.1, pair.2]))] := by
    simp [list, translationAggregate, Serde.get, Serde.asArray]
  have drops : list (translationAggregate rules) "drops" =
      rules.drops.map fun path => Serde.string path.text := by
    simp [list, translationAggregate, Serde.get, Serde.asArray]
  have backfills : list (translationAggregate rules) "backfills" =
      rules.backfills.map fun backfill => Serde.object [("name", .string backfill.name.text),
        ("default", backfill.default)] := by
    simp [list, translationAggregate, Serde.get, Serde.asArray]
  unfold translate
  rw [renames, moves, converts, drops, backfills, Option.getD_some, applyRenames_eq]
  simp only [Rewrite.Rule.list, List.foldlM_append, drops_eq, moves_eq, converts_eq, backfills_eq,
    bind_assoc]
  rfl

/-! ### Rule by rule -/

theorem splitPath_eq (path : Path) : splitPath path.text = path.split := rfl

theorem extract_eq (state : State) (top : String) (member : Option String) :
    extract state top member = Rewrite.extract state top member := by
  unfold extract Rewrite.extract
  cases stored : state top with
  | none => cases member <;> rfl
  | some held =>
    cases member with
    | none => rfl
    | some member =>
      cases held with
      | object fields =>
        cases found : (Serde.object fields).get member with
        | none => simp [Serde.asObject, found]
        | some value => simp [Serde.asObject, found]
      | null | bool | number | string | array => rfl

variable (inspect : Serde → String)

theorem insert_alike (state : State) (top : String) (member : Option String) (value : Serde)
    (rule rule' : String) :
    Alike (Rewrite.insert inspect state top member value rule)
      (insert display state top member value rule') := by
  unfold Rewrite.insert insert
  cases member with
  | none => exact Alike.results _
  | some member =>
    cases stored : state top with
    | none => exact Alike.results _
    | some held =>
      cases held with
      | object fields => exact Alike.results _
      | null | bool | number | string | array => exact Alike.refusals _ _

theorem mapped_eq (values : List (Serde × Serde)) (raw : Serde) :
    mapped (values.map fun pair => .array [pair.1, pair.2]) raw =
      answerOf (fun a b => a = b) values raw := by
  induction values with
  | nil => rfl
  | cons pair values ih =>
    unfold mapped answerOf at ih ⊢
    simp only [List.map_cons, List.findSome?_cons, List.find?_cons]
    cases found : same (fun a b => a = b) pair.1 raw with
    | true => simp
    | false => simpa using ih

theorem convert_alike {state : State} {convert : TranslationConvert}
    (clear : Rewrite.Clear (fun a b => a = b) state (.convert convert)) :
    Alike (Rewrite.applyConvert inspect state convert)
      (applyConvert display state convert.source.text convert.target.text
        (convert.values.map fun pair => .array [pair.1, pair.2])) := by
  unfold Rewrite.applyConvert applyConvert
  simp only [splitPath_eq, extract_eq]
  cases found : Rewrite.extract state convert.source.split.1 convert.source.split.2 with
  | none => exact Alike.results _
  | some taken =>
    obtain ⟨raw, rest⟩ := taken
    simp only [mapped_eq, clear raw rest found, Rewrite.converted]
    cases answerOf eqlNumber convert.values raw with
    | none => exact Alike.refusals _ _
    | some value => exact insert_alike display inspect _ _ _ _ _ _

theorem drop_eq {state : State} {path : Path}
    (clear : Rewrite.Clear (fun a b => a = b) state (.drop path)) :
    applyDrop state path.text = Rewrite.applyDrop state path := by
  rw [← Rewrite.extract_of_drop clear]
  simp only [applyDrop, splitPath_eq, extract_eq]
  cases Rewrite.extract state path.split.1 path.split.2 <;> rfl

theorem backfill_alike {state : State} {backfill : TranslationBackfill}
    (clear : Rewrite.Clear (fun a b => a = b) state (.backfill backfill)) :
    Alike (Rewrite.applyBackfill state backfill)
      (applyBackfill display state backfill.name.text backfill.default) := by
  have present : ∀ top member, (match member with
      | none => (state top).isSome
      | some member => ((state top).bind Serde.asObject).any fun nested =>
          ((Serde.object nested).get member).isSome) = (extract state top member).isSome := by
    intro top member
    cases member with
    | none => simp [extract]
    | some member =>
      cases stored : (state top).bind Serde.asObject with
      | none => simp [extract, stored]
      | some nested =>
        cases found : (Serde.object nested).get member with
        | none => simp [extract, stored, found]
        | some value =>
          by_cases emptied : erase member nested = [] <;> simp [extract, stored, found, emptied]
  apply (Rewrite.backfill_of_extract display clear).trans
  simp only [applyBackfill, splitPath_eq, present, extract_eq]
  split
  · exact Alike.results _
  · exact insert_alike display display _ _ _ _ _ _

theorem step_alike {state : State} {rule : Rewrite.Rule}
    (clear : Rewrite.Clear (fun a b => a = b) state rule) :
    Alike (Rewrite.step inspect state rule) (step display state rule) := by
  cases rule with
  | move move =>
    simp only [Rewrite.step, step, Rewrite.applyMove, applyMove, splitPath_eq, extract_eq]
    cases Rewrite.extract state move.source.split.1 move.source.split.2 with
    | none => exact Alike.results _
    | some taken => exact insert_alike display inspect _ _ _ _ _ _
  | convert convert => exact convert_alike display inspect clear
  | drop path =>
    simp only [Rewrite.step, step, drop_eq clear]
    exact Alike.results _
  | backfill backfill => exact backfill_alike display clear

end

end Reference

/-- Where the edge rewrites a state in the ways its readings share: no derive has a value, no
rename puts a value where a later one takes one out, and every rule after them is clear of what
the readings make differently. -/
structure Shared (inspect : Serde → String) (rules : FieldRules) (state : State) : Prop where
  underived : ∀ derive ∈ rules.derives, Evaluator.call derive.tree state = none
  kept : Renaming.NoHandOn state rules.renames
  clear : Along (Rewrite.step inspect) (Rewrite.Clear fun a b => a = b) (Rewrite.Rule.list rules)
    (Rewrite.applyRenames state rules.renames)

/-- The host's transform answers as the reference does. -/
theorem translate_agrees (inspect display : Serde → String) {rules : FieldRules} {state : State}
    (h : Shared inspect rules state) :
    Alike (Rewrite.rewrite inspect rules state)
      (Reference.translate display (translationAggregate rules) state) := by
  rw [Rewrite.rewrite_eq, Rewrite.applyDerives_of_none inspect h.underived, Reference.translate_eq,
    Renaming.sequential_eq_simultaneous rules.renames state rules.distinct h.kept]
  apply h.clear.foldlM
  intro rule _ state clear
  exact Reference.step_alike display inspect clear

theorem catalogue_agrees :
    Alike (Rewrite.rewrite (fun _ => "") catalogue listing)
      (Reference.translate (fun _ => "") (translationAggregate catalogue) listing) := by
  apply translate_agrees
  constructor
  · intro derive h
    rw [List.mem_singleton.mp h]
    rfl
  · exact List.pairwise_singleton _ _
  · refine ⟨trivial, fun t ht => ?_⟩
    cases ht
    refine ⟨?_, fun t ht => ?_⟩
    · intro raw rest h
      cases h
      rfl
    cases ht
    refine ⟨?_, fun t ht => ?_⟩
    · intro _ h
      cases h
    cases ht
    refine ⟨?_, fun t ht => trivial⟩
    intro _
    constructor <;> intro h <;> cases h

theorem exchange_loses_value :
    ¬ Alike (Rewrite.rewrite (fun _ => "") exchange pair)
      (Reference.translate (fun _ => "") (translationAggregate exchange) pair) := by
  intro h
  have read := congrArg (fun state : Option State => state.map (· "second")) h
  have reference : (Rewrite.rewrite (fun _ => "") exchange pair).toOption.map (· "second") =
      some (some (.number "1")) := rfl
  have host : (Reference.translate (fun _ => "") (translationAggregate exchange) pair).toOption.map
      (· "second") = some none := rfl
  simp only [reference, host] at read
  cases read

end Hecks.Era
