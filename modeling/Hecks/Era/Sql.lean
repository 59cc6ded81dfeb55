import Hecks.Era.Rewrite
import Hecks.Lib.Segments

/-! The jsonb expression an edge's rules compile to, its meaning, and where it answers as the
reference does. -/
namespace Hecks.Era

open Hecks.Host (Serde)
open Lockstep

/-! ### The compiled expression -/

/-- A jsonb expression over a stored `state`, with one constructor for each rule's template. -/
inductive StateSql where
  | state
  | derive (expression : StateSql) (path : List String) (value : TextSql) (rule : String)
  | rename (expression : StateSql) (old new : String)
  | move (expression : StateSql) (source target : List String) (rule : String)
  | convert (expression : StateSql) (source target : List String) (pairs : List (Serde × Serde))
      (label rule : String)
  | drop (expression : StateSql) (path : List String)
  | backfill (expression : StateSql) (path : List String) (default : Serde) (rule : String)

namespace RuleCompiler

def compileDerive (expression : StateSql) (derive : TranslationDerive) : StateSql :=
  .derive expression (pathLiteral derive.target.text) (ExpressionSql.compile derive.tree)
    s!"derive {derive.target.text}"

def compileRename (expression : StateSql) (r : String × String) : StateSql :=
  .rename expression r.1 r.2

def compileMove (expression : StateSql) (move : TranslationMove) : StateSql :=
  .move expression (pathLiteral move.source.text) (pathLiteral move.target.text)
    s!"move {move.source.text} to: {move.target.text}"

def compileConvert (expression : StateSql) (convert : TranslationConvert) : StateSql :=
  .convert expression (pathLiteral convert.source.text) (pathLiteral convert.target.text)
    convert.values convert.source.text
    s!"convert {convert.source.text} to: {convert.target.text}"

def compileDrop (expression : StateSql) (path : Path) : StateSql :=
  .drop expression (pathLiteral path.text)

def compileBackfill (expression : StateSql) (backfill : TranslationBackfill) : StateSql :=
  .backfill expression (pathLiteral backfill.name.text) backfill.default
    s!"backfill {backfill.name.text}"

def compileRules (declared : FieldRules) : StateSql :=
  let expression := declared.derives.foldl compileDerive .state
  let expression := declared.renames.foldl compileRename expression
  let expression := declared.moves.foldl compileMove expression
  let expression := declared.converts.foldl compileConvert expression
  let expression := declared.drops.foldl compileDrop expression
  declared.backfills.foldl compileBackfill expression

end RuleCompiler

/-! ### Its meaning -/

/-- jsonb's `=` of numbers: the same decimal value. -/
def numericEq (a b : String) : Bool :=
  let read := fun s : String =>
    match Text.splitSign s.toList with
    | (neg, cs) =>
        (Binary64.splitNumber cs).bind fun (whole, fraction, exponent) =>
          (Text.digitsValue (whole ++ fraction) 0).map fun m =>
            ((if neg then -(m : Int) else m), exponent - fraction.length)
  match read a, read b with
  | some (m, e), some (n, f) =>
      m * 10 ^ (e - min e f).toNat = n * 10 ^ (f - min e f).toNat
  | _, _ => false

namespace Jsonb

section

variable (display : Serde → String)

/-- `jsonb_set` below the top level: only the last element of a path is created. -/
def setIn : Serde → List String → Serde → Except String Serde
  | held, [], _ => .ok held
  | .object fields, [key], value => .ok (.object (Serde.insert key value fields))
  | .object fields, key :: keys, value =>
      match (Serde.object fields).get key with
      | none => .ok (.object fields)
      | some held => (setIn held keys value).map fun held => .object (Serde.insert key held fields)
  | .array items, key :: keys, value =>
      match arrayIndex key with
      | none => .error "path element is not an integer"
      | some index =>
          match place index items.length with
          | none => .ok (.array (if keys = [] then value :: items else items))
          | some i =>
              match items[i]? with
              | none => .ok (.array (if keys = [] then items ++ [value] else items))
              | some held =>
                  if keys = [] then .ok (.array (items.set i value))
                  else (setIn held keys value).map fun held => .array (items.set i held)
  | held, _, _ => .ok held

/-- `jsonb_set(state, path, value)`. -/
def set (state : State) (path : List String) (value : Serde) : Except String State :=
  match path with
  | [] => .ok state
  | [key] => .ok (state.put key value)
  | key :: keys =>
      match state key with
      | none => .ok state
      | some held => (setIn held keys value).map fun held => state.put key held

/-- `hecks_tr_extract`: the value and what remains, `none` when it is not present. -/
def trExtract (state : State) (path : List String) : Except String (Option (Serde × State)) :=
  match path with
  | [] => .ok none
  | [leaf] => .ok ((state leaf).map fun value => (value, state.delete leaf))
  | top :: _ =>
      let leaf := path.getLastD ""
      match reach state path.dropLast with
      | some (.object fields) =>
          match (Serde.object fields).get leaf with
          | none => .ok none
          | some value =>
              let parent := erase leaf fields
              if parent = [] then .ok (some (value, state.delete top))
              else (set state path.dropLast (.object parent)).map fun state => some (value, state)
      | _ => .ok none

/-- `hecks_tr_insert`. An empty path has no key to build an object under. -/
def trInsert (state : State) (path : List String) (value : Serde) (rule : String) :
    Except String State :=
  match path with
  | [] => .error "argument 1: key must not be null"
  | [key] => .ok (state.put key value)
  | top :: _ =>
      match state top with
      | none => set (state.put top (.object [])) path value
      | some (.object _) => set state path value
      | some held =>
          .error (s!"cannot {rule}: {top} already holds {display held}, not a value this can " ++
            "nest under — moving into it would discard that value silently. Rename or drop " ++
            s!"{top} first.")

/-- `hecks_tr_rename`. -/
def trRename (state : State) (old new : String) : State :=
  match state old with
  | some value => (state.delete old).put new value
  | none => state

/-- `hecks_tr_move`. -/
def trMove (state : State) (source target : List String) (rule : String) : Except String State := do
  match ← trExtract state source with
  | none => .ok state
  | some (value, remaining) => trInsert display remaining target value rule

/-- `hecks_tr_convert`. -/
def trConvert (state : State) (source target : List String) (pairs : List (Serde × Serde))
    (label rule : String) : Except String State := do
  match ← trExtract state source with
  | none => .ok state
  | some (raw, remaining) =>
      match answerOf numericEq pairs raw with
      | some value => trInsert display remaining target value rule
      | none =>
          .error (s!"cannot translate {label}: {display raw} has no mapping in its convert's " ++
            s!"values: table. Add {display raw} => ... to cover it.")

/-- `hecks_tr_drop`. -/
def trDrop (state : State) (path : List String) : Except String State := do
  match ← trExtract state path with
  | none => .ok state
  | some (_, remaining) => .ok remaining

def trBackfill (state : State) (path : List String) (default : Serde) (rule : String) :
    Except String State := do
  match ← trExtract state path with
  | some _ => .ok state
  | none => trInsert display state path default rule

/-- The value of an expression over one stored state: a derive reads that state, and not what the
rules around it make of it. -/
def eval : StateSql → State → Except String State
  | .state, stored => .ok stored
  | .derive expression path text rule, stored => do
      let state ← eval expression stored
      match value text stored with
      | none => .ok state
      | some text => trInsert display state path (.string text) rule
  | .rename expression old new, stored => do
      let state ← eval expression stored
      .ok (trRename state old new)
  | .move expression source target rule, stored => do
      trMove display (← eval expression stored) source target rule
  | .convert expression source target pairs label rule, stored => do
      trConvert display (← eval expression stored) source target pairs label rule
  | .drop expression path, stored => do trDrop (← eval expression stored) path
  | .backfill expression path default rule, stored => do
      trBackfill display (← eval expression stored) path default rule

end

end Jsonb

/-! ### The compiled expression is its rules, one after the other -/

namespace Jsonb

section

variable (display : Serde → String)

/-- One derive of an expression over `stored`. -/
def derive (stored state : State) (derive : TranslationDerive) : Except String State :=
  match value (ExpressionSql.compile derive.tree) stored with
  | none => .ok state
  | some text =>
      trInsert display state (pathLiteral derive.target.text) (.string text)
        s!"derive {derive.target.text}"

/-- One rule of an expression. -/
def step (state : State) : Rewrite.Rule → Except String State
  | .move move =>
      trMove display state (pathLiteral move.source.text) (pathLiteral move.target.text)
        s!"move {move.source.text} to: {move.target.text}"
  | .convert convert =>
      trConvert display state (pathLiteral convert.source.text) (pathLiteral convert.target.text)
        convert.values convert.source.text
        s!"convert {convert.source.text} to: {convert.target.text}"
  | .drop path => trDrop state (pathLiteral path.text)
  | .backfill backfill =>
      trBackfill display state (pathLiteral backfill.name.text) backfill.default
        s!"backfill {backfill.name.text}"

theorem eval_foldl {α : Type} {wrap : StateSql → α → StateSql} {stored : State}
    {f : State → α → Except String State}
    (h : ∀ e a, eval display (wrap e a) stored = eval display e stored >>= fun s => f s a)
    (xs : List α) (e : StateSql) :
    eval display (xs.foldl wrap e) stored = eval display e stored >>= fun s => xs.foldlM f s := by
  induction xs generalizing e with
  | nil => exact (bind_pure _).symm
  | cons x xs ih =>
    rw [List.foldl_cons, ih, h, bind_assoc]
    rfl

theorem eval_compileRules (rules : FieldRules) (stored : State) :
    eval display (RuleCompiler.compileRules rules) stored =
      rules.derives.foldlM (derive display stored) stored >>= fun state =>
        (Rewrite.Rule.list rules).foldlM (step display)
          (Renaming.sequential state rules.renames) := by
  have renames : ∀ s : State, rules.renames.foldlM
      (fun s r => (.ok (trRename s r.1 r.2) : Except String State)) s =
        .ok (Renaming.sequential s rules.renames) := by
    intro s
    have one : ∀ (s : State) (r : String × String), trRename s r.1 r.2 = Renaming.renameOne s r := by
      intro s r
      unfold trRename Renaming.renameOne
      cases s r.1 <;> rfl
    simp only [one]
    exact Rewrite.foldlM_ok Renaming.renameOne rules.renames s
  unfold RuleCompiler.compileRules
  rw [eval_foldl display (f := fun s backfill => step display s (.backfill backfill))
      (fun _ _ => rfl),
    eval_foldl display (f := fun s path => step display s (.drop path)) (fun _ _ => rfl),
    eval_foldl display (f := fun s convert => step display s (.convert convert)) (fun _ _ => rfl),
    eval_foldl display (f := fun s move => step display s (.move move)) (fun _ _ => rfl),
    eval_foldl display (f := fun s r => .ok (trRename s r.1 r.2)) (fun _ _ => rfl),
    eval_foldl display (f := derive display stored) (fun _ _ => rfl)]
  simp only [Rewrite.Rule.list, List.foldlM_append, List.foldlM_map, bind_assoc, renames]
  rfl

/-! ### Rule by rule -/

/-- At most one dot, and not at the end: a path is the same to both readings. -/
def Shallow (path : Path) : Prop :=
  ∀ member, path.split.2 = some member → member ≠ "" ∧ '.' ∉ member.toList

theorem pathLiteral_shallow {path : Path} (h : Shallow path) :
    pathLiteral path.text = path.split.1 :: path.split.2.toList := by
  have dot : (".".toList : List Char) = ['.'] := rfl
  unfold pathLiteral Text.segments
  cases found : Text.splitOnceChars ['.'] path.text.toList with
  | none =>
    have split : path.split = (path.text, none) := by
      simp [Path.split, Text.splitOnce, dot, found]
    rw [Text.segmentsChars_of_not_mem (Text.splitOnceChars_none found), split]
    simp [List.rdropWhile, path.filled]
  | some parts =>
    obtain ⟨before, after⟩ := parts
    have split : path.split = (String.ofList before, some (String.ofList after)) := by
      simp [Path.split, Text.splitOnce, dot, found]
    obtain ⟨filled, single⟩ := h (String.ofList after) (by rw [split])
    rw [String.toList_ofList] at single
    obtain ⟨text, absent⟩ := Text.splitOnceChars_single found
    rw [text, Text.segmentsChars_append after absent, Text.segmentsChars_of_not_mem single, split]
    simp [List.rdropWhile, filled]

theorem trExtract_eq {path : Path} (h : Shallow path) (state : State) :
    trExtract state (pathLiteral path.text) =
      .ok (Rewrite.extract state path.split.1 path.split.2) := by
  rw [pathLiteral_shallow h]
  obtain ⟨top, member⟩ := path.split
  cases stored : state top with
  | none => cases member <;> simp [trExtract, Rewrite.extract, stored, reach]
  | some held =>
    cases member with
    | none => simp [trExtract, Rewrite.extract, stored]
    | some member =>
      cases held with
      | object fields =>
        cases found : (Serde.object fields).get member with
        | none => simp [trExtract, Rewrite.extract, stored, reach, found]
        | some value =>
          by_cases emptied : erase member fields = [] <;>
            simp [trExtract, Rewrite.extract, stored, reach, found, emptied, set, Except.map]
      | null | bool | number | string | array =>
        simp [trExtract, Rewrite.extract, stored, reach]

variable (inspect : Serde → String)

theorem trInsert_alike {path : Path} (h : Shallow path) (state : State) (value : Serde)
    (rule rule' : String) :
    Lockstep.Alike (Rewrite.insert inspect state path.split.1 path.split.2 value rule)
      (trInsert display state (pathLiteral path.text) value rule') := by
  rw [pathLiteral_shallow h]
  obtain ⟨top, member⟩ := path.split
  cases member with
  | none => simp [Rewrite.insert, trInsert]
  | some member =>
    cases stored : state top with
    | none =>
      simp [Rewrite.insert, trInsert, stored, set, setIn, Serde.insert, Except.map]
    | some held =>
      cases held with
      | object fields => simp [Rewrite.insert, trInsert, stored, set, setIn, Except.map]
      | null | bool | number | string | array => simp [Rewrite.insert, trInsert, stored]

/-- Neither reading of a path finds a value there. -/
def Absent (state : State) (path : Path) : Prop :=
  Rewrite.extract state path.split.1 path.split.2 = none ∧
    trExtract state (pathLiteral path.text) = .ok none

/-- A path with more dots than one is met only where nothing is found. -/
def Met (state : State) : Rewrite.Rule → Prop
  | .move move => (Shallow move.source ∧ Shallow move.target) ∨ Absent state move.source
  | .convert convert =>
      (Shallow convert.source ∧ Shallow convert.target) ∨ Absent state convert.source
  | .drop path => Shallow path ∨ Absent state path
  | .backfill backfill => Shallow backfill.name

theorem move_alike {state : State} {move : TranslationMove} (met : Met state (.move move)) :
    Lockstep.Alike (Rewrite.step inspect state (.move move)) (step display state (.move move)) := by
  simp only [Rewrite.step, step, Rewrite.applyMove, trMove]
  rcases met with ⟨source, target⟩ | ⟨reference, sql⟩
  · rw [trExtract_eq source]
    cases Rewrite.extract state move.source.split.1 move.source.split.2 with
    | none => exact Lockstep.Alike.results _
    | some taken => exact trInsert_alike display inspect target _ _ _ _
  · rw [reference, sql]
    exact Lockstep.Alike.results _

theorem convert_alike {state : State} {convert : TranslationConvert}
    (met : Met state (.convert convert)) (clear : Rewrite.Clear numericEq state (.convert convert)) :
    Lockstep.Alike (Rewrite.step inspect state (.convert convert))
      (step display state (.convert convert)) := by
  simp only [Rewrite.step, step, Rewrite.applyConvert, trConvert]
  rcases met with ⟨source, target⟩ | ⟨reference, sql⟩
  · rw [trExtract_eq source]
    cases found : Rewrite.extract state convert.source.split.1 convert.source.split.2 with
    | none => exact Lockstep.Alike.results _
    | some taken =>
      obtain ⟨raw, rest⟩ := taken
      simp only [Rewrite.converted, Except.bind, bind, clear raw rest found]
      cases answerOf eqlNumber convert.values raw with
      | none => exact Lockstep.Alike.refusals _ _
      | some value => exact trInsert_alike display inspect target _ _ _ _
  · rw [reference, sql]
    exact Lockstep.Alike.results _

theorem drop_alike {state : State} {path : Path} (met : Met state (.drop path))
    (clear : Rewrite.Clear numericEq state (.drop path)) :
    Lockstep.Alike (Rewrite.step inspect state (.drop path)) (step display state (.drop path)) := by
  simp only [Rewrite.step, step, trDrop, ← Rewrite.extract_of_drop clear]
  rcases met with shallow | ⟨reference, sql⟩
  · rw [trExtract_eq shallow]
    cases Rewrite.extract state path.split.1 path.split.2 <;> exact Lockstep.Alike.results _
  · rw [reference, sql]
    exact Lockstep.Alike.results _

theorem step_alike {state : State} {rule : Rewrite.Rule} (met : Met state rule)
    (clear : Rewrite.Clear numericEq state rule) :
    Lockstep.Alike (Rewrite.step inspect state rule) (step display state rule) := by
  cases rule with
  | move move => exact move_alike display inspect met
  | convert convert => exact convert_alike display inspect met clear
  | drop path => exact drop_alike display inspect met clear
  | backfill backfill =>
    apply (Rewrite.backfill_of_extract inspect clear).trans
    simp only [step, trBackfill, trExtract_eq met]
    cases Rewrite.extract state backfill.name.split.1 backfill.name.split.2 with
    | none => exact trInsert_alike display inspect met _ _ _ _
    | some taken => exact Lockstep.Alike.results _

theorem derives_alike {derives : List TranslationDerive} {stored : State}
    (met : ∀ derive ∈ derives, Shallow derive.target ∨ Evaluator.call derive.tree stored = none) :
    Lockstep.Alike (Rewrite.applyDerives inspect stored derives)
      (derives.foldlM (derive display stored) stored) := by
  unfold Rewrite.applyDerives
  rw [List.foldlM_map]
  apply (along_true _ _ _).foldlM
  intro d hd state _
  simp only [derive, value_compile]
  cases called : Evaluator.call d.tree stored with
  | none => exact Lockstep.Alike.results _
  | some text =>
    have shallow : Shallow d.target := by
      rcases met d hd with shallow | valueless
      · exact shallow
      · rw [called] at valueless
        cases valueless
    exact trInsert_alike display inspect shallow _ _ _ _

end

end Jsonb

/-- Where a stored state is rewritten in the ways its readings share: a path with more dots than
one is met only where it finds nothing, no rename puts a value where a later one takes one out, and
every rule after them is clear of what the readings make differently. -/
structure SqlShared (inspect : Serde → String) (rules : FieldRules) (stored : State) : Prop where
  derives : ∀ derive ∈ rules.derives,
    Jsonb.Shallow derive.target ∨ Evaluator.call derive.tree stored = none
  kept : ∀ state, Rewrite.applyDerives inspect stored rules.derives = .ok state →
    Renaming.NoHandOn state rules.renames
  clear : ∀ state, Rewrite.applyDerives inspect stored rules.derives = .ok state →
    Along (Rewrite.step inspect)
      (fun state rule => Jsonb.Met state rule ∧ Rewrite.Clear numericEq state rule)
      (Rewrite.Rule.list rules) (Rewrite.applyRenames state rules.renames)

/-- The compiled expression answers as the reference does. -/
theorem eval_agrees (inspect display : Serde → String) {rules : FieldRules} {stored : State}
    (h : SqlShared inspect rules stored) :
    Lockstep.Alike (Rewrite.rewrite inspect rules stored)
      (Jsonb.eval display (RuleCompiler.compileRules rules) stored) := by
  rw [Rewrite.rewrite_eq, Jsonb.eval_compileRules]
  apply Lockstep.Alike.bind (Jsonb.derives_alike display inspect h.derives)
  intro state derived
  rw [Renaming.sequential_eq_simultaneous rules.renames state rules.distinct (h.kept state derived)]
  apply (h.clear state derived).foldlM
  intro rule _ state clear
  exact Jsonb.step_alike display inspect clear.1 clear.2

theorem shallow_of {path : Path} (h : path.split.2 = none) : Jsonb.Shallow path := by
  intro member found
  rw [h] at found
  cases found

theorem catalogue_agrees_in_sql :
    Lockstep.Alike (Rewrite.rewrite (fun _ => "") catalogue listing)
      (Jsonb.eval (fun _ => "") (RuleCompiler.compileRules catalogue) listing) := by
  have cents : Jsonb.Shallow ⟨"price.cents", by decide⟩ := by
    intro member found
    cases found
    decide
  have note : Jsonb.Shallow ⟨"note.text", by decide⟩ := by
    intro member found
    cases found
    decide
  have currency : Jsonb.Shallow ⟨"price.currency", by decide⟩ := by
    intro member found
    cases found
    decide
  apply eval_agrees
  constructor
  · intro derive h
    rw [List.mem_singleton.mp h]
    exact .inl (shallow_of rfl)
  · intro state _
    exact List.pairwise_singleton _ _
  · intro state derived
    cases derived
    refine ⟨⟨.inl ⟨shallow_of rfl, cents⟩, trivial⟩, fun t ht => ?_⟩
    cases ht
    refine ⟨⟨.inl ⟨shallow_of rfl, shallow_of rfl⟩, ?_⟩, fun t ht => ?_⟩
    · intro raw rest h
      cases h
      rfl
    cases ht
    refine ⟨⟨.inl note, ?_⟩, fun t ht => ?_⟩
    · intro _ h
      cases h
    cases ht
    refine ⟨⟨currency, ?_⟩, fun t ht => trivial⟩
    intro _
    constructor <;> intro h <;> cases h

theorem exchange_loses_value_in_sql :
    ¬ Lockstep.Alike (Rewrite.rewrite (fun _ => "") exchange pair)
      (Jsonb.eval (fun _ => "") (RuleCompiler.compileRules exchange) pair) := by
  intro h
  have read := congrArg (fun state : Option State => state.map (· "second")) h
  have reference : (Rewrite.rewrite (fun _ => "") exchange pair).toOption.map (· "second") =
      some (some (.number "1")) := rfl
  have compiled : (Jsonb.eval (fun _ => "") (RuleCompiler.compileRules exchange) pair).toOption.map
      (· "second") = some none := rfl
  simp only [reference, compiled] at read
  cases read

end Hecks.Era
