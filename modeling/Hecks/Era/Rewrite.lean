import Hecks.Era.Expression
import Hecks.Lib.Binary64
import Hecks.Lib.Lockstep

/-! The reference semantics of an edge's rules: derive, rename, move, convert, drop and backfill,
applied in that order to one entry's state. -/
namespace Hecks.Era

open Hecks.Host (Serde)
open Lockstep

/-- What stops a rewrite: an error of the wiring, or a method the value at hand has not. -/
inductive Refusal where
  | wiringError (message : String)
  | noMethodError (method : String)
deriving DecidableEq

/-- `values.key?`: an Integer literal equals an Integer, any other one the Float it reads as. -/
def eqlNumber (a b : String) : Bool :=
  let isInteger := fun s : String => !s.toList.any fun c => c = '.' || c = 'e' || c = 'E'
  let integer := fun s : String =>
    match Text.splitSign s.toList with
    | (neg, ds) => (Text.digitsValue ds 0).map fun n => if neg then -(n : Int) else n
  if isInteger a && isInteger b then integer a = integer b
  else if isInteger a || isInteger b then false
  else
    match Binary64.parse a, Binary64.parse b with
    | some x, some y => x == y
    | _, _ => false

namespace Rewrite

section

variable (inspect : Serde → String)

def extract (state : State) (top : String) (member : Option String) : Option (Serde × State) :=
  match state top with
  | none => none
  | some held =>
      match member with
      | none => some (held, state.delete top)
      | some member =>
          match held with
          | .object fields =>
              match held.get member with
              | none => none
              | some value =>
                  let nested := erase member fields
                  if nested = [] then some (value, state.delete top)
                  else some (value, state.put top (.object nested))
          | _ => none

def insert (state : State) (top : String) (member : Option String) (value : Serde) (rule : String) :
    Except Refusal State :=
  match member with
  | none => .ok (state.put top value)
  | some member =>
      match state top with
      | none => .ok (state.put top (.object [(member, value)]))
      | some (.object fields) => .ok (state.put top (.object (Serde.insert member value fields)))
      | some held =>
          .error (.wiringError (s!"cannot {rule}: {top} already holds {inspect held}, not a value " ++
            "this can nest under — moving into it would discard that value silently. Rename or " ++
            s!"drop {top} first."))

/-- Every value is computed before the first is written. -/
def applyDerives (state : State) (derives : List TranslationDerive) : Except Refusal State :=
  let computed := derives.map fun derive => (derive, Evaluator.call derive.tree state)
  computed.foldlM (fun state (derive, value) =>
    match value with
    | none => .ok state
    | some value =>
        let (top, member) := derive.target.split
        insert inspect state top member (.string value) s!"derive {derive.target.text}") state

def applyMove (state : State) (move : TranslationMove) : Except Refusal State :=
  let (oldTop, oldMember) := move.source.split
  let (newTop, newMember) := move.target.split
  match extract state oldTop oldMember with
  | none => .ok state
  | some (value, state) =>
      insert inspect state newTop newMember value
        s!"move {move.source.text} to: {move.target.text}"

def converted (convert : TranslationConvert) (raw : Serde) : Except Refusal Serde :=
  match answerOf eqlNumber convert.values raw with
  | some value => .ok value
  | none =>
      .error (.wiringError (s!"cannot translate {convert.source.text}: {inspect raw} has no " ++
        s!"mapping in its convert's values: table. Add {inspect raw} => ... to cover it."))

def applyConvert (state : State) (convert : TranslationConvert) : Except Refusal State :=
  let (oldTop, oldMember) := convert.source.split
  let (newTop, newMember) := convert.target.split
  match extract state oldTop oldMember with
  | none => .ok state
  | some (raw, state) => do
      insert inspect state newTop newMember (← converted inspect convert raw)
        s!"convert {convert.source.text} to: {convert.target.text}"

/-- A parent that is empty afterwards goes too, whether or not the member was there. -/
def applyDrop (state : State) (path : Path) : State :=
  match path.split with
  | (top, none) => state.delete top
  | (top, some member) =>
      match state top with
      | some (.object fields) =>
          let nested := erase member fields
          if nested = [] then state.delete top else state.put top (.object nested)
      | _ => state

/-- `state[top] ||= {}` takes a null or a false for nothing. -/
def applyBackfill (state : State) (backfill : TranslationBackfill) : Except Refusal State :=
  match backfill.name.split with
  | (top, none) => .ok (if (state top).isSome then state else state.put top backfill.default)
  | (top, some member) =>
      match state top with
      | none | some .null | some (.bool false) =>
          .ok (state.put top (.object [(member, backfill.default)]))
      | some (.object fields) =>
          if ((Serde.object fields).get member).isSome then .ok state
          else .ok (state.put top (.object (Serde.insert member backfill.default fields)))
      | some _ => .error (.noMethodError "key?")

/-- Every rename's value is read before any new key is written. -/
def applyRenames (state : State) (renames : List (String × String)) : State :=
  Renaming.simultaneous state renames

def rewrite (rules : FieldRules) (state : State) : Except Refusal State := do
  let state ← applyDerives inspect state rules.derives
  let state := applyRenames state rules.renames
  let state ← rules.moves.foldlM (applyMove inspect) state
  let state ← rules.converts.foldlM (applyConvert inspect) state
  let state := rules.drops.foldl applyDrop state
  rules.backfills.foldlM applyBackfill state

end

/-! ### The rules after the renames, one by one -/

/-- A rule that rewrites the state by itself. -/
inductive Rule where
  | move (move : TranslationMove)
  | convert (convert : TranslationConvert)
  | drop (path : Path)
  | backfill (backfill : TranslationBackfill)

def Rule.list (rules : FieldRules) : List Rule :=
  rules.moves.map move ++ rules.converts.map convert ++ rules.drops.map drop ++
    rules.backfills.map backfill

/-- One rule of the reference. -/
def step (inspect : Serde → String) (state : State) : Rule → Except Refusal State
  | .move move => applyMove inspect state move
  | .convert convert => applyConvert inspect state convert
  | .drop path => .ok (applyDrop state path)
  | .backfill backfill => applyBackfill state backfill

theorem foldlM_ok {ε σ α : Type} (f : σ → α → σ) (xs : List α) (s : σ) :
    xs.foldlM (fun s x => (.ok (f s x) : Except ε σ)) s = .ok (xs.foldl f s) := by
  induction xs generalizing s with
  | nil => rfl
  | cons x xs ih => exact ih (f s x)

theorem rewrite_eq (inspect : Serde → String) (rules : FieldRules) (state : State) :
    rewrite inspect rules state = applyDerives inspect state rules.derives >>= fun state =>
      (Rule.list rules).foldlM (step inspect) (applyRenames state rules.renames) := by
  have drops : ∀ s, (rules.drops.map Rule.drop).foldlM (step inspect) s =
      .ok (rules.drops.foldl applyDrop s) := by
    intro s
    rw [List.foldlM_map]
    exact foldlM_ok applyDrop rules.drops s
  simp only [rewrite, Rule.list, List.foldlM_append, drops, List.foldlM_map, step, bind_assoc]
  rfl

/-- What the other readings of a rule make differently does not arise: a convert's table has for
the value found the answer it has under `number`, no drop reaches into an empty object, and no
backfill is to nest under a null or a false. -/
def Clear (number : String → String → Bool) (state : State) : Rule → Prop
  | .move _ => True
  | .convert convert => ∀ raw rest,
      extract state convert.source.split.1 convert.source.split.2 = some (raw, rest) →
        answerOf number convert.values raw = answerOf eqlNumber convert.values raw
  | .drop path => path.split.2.isSome → state path.split.1 ≠ some (.object [])
  | .backfill backfill => backfill.name.split.2.isSome →
      state backfill.name.split.1 ≠ some .null ∧ state backfill.name.split.1 ≠ some (.bool false)

/-- A drop that is clear is an extraction. -/
theorem extract_of_drop {number : String → String → Bool} {state : State} {path : Path}
    (clear : Clear number state (.drop path)) :
    ((extract state path.split.1 path.split.2).elim state Prod.snd) = applyDrop state path := by
  obtain ⟨top, member, split⟩ : ∃ top member, path.split = (top, member) := ⟨_, _, rfl⟩
  simp only [Clear, split] at clear
  simp only [applyDrop, split, extract]
  cases stored : state top with
  | none =>
    cases member with
    | none => exact (Renaming.Store.delete_of_none stored).symm
    | some member => simp [stored]
  | some held =>
    cases member with
    | none => rfl
    | some member =>
      cases held with
      | object fields =>
        cases found : (Serde.object fields).get member with
        | some value =>
          by_cases emptied : erase member fields = [] <;> simp [stored, found, emptied]
        | none =>
          -- nothing to drop: the parent is written back as it was
          have filled : fields ≠ [] := by
            intro empty
            exact clear rfl (by rw [stored, empty])
          simp [stored, found, erase_of_get_none found, filled, Renaming.Store.put_of_eq stored]
      | null | bool | number | string | array => simp [stored]

/-- A backfill that is clear is an insertion where nothing can be extracted. -/
theorem backfill_of_extract (inspect : Serde → String) {number : String → String → Bool}
    {state : State} {backfill : TranslationBackfill}
    (clear : Clear number state (.backfill backfill)) :
    Alike (applyBackfill state backfill)
      (if (extract state backfill.name.split.1 backfill.name.split.2).isSome then .ok state
      else insert inspect state backfill.name.split.1 backfill.name.split.2 backfill.default
        s!"backfill {backfill.name.text}") := by
  obtain ⟨top, member, split⟩ : ∃ top member, backfill.name.split = (top, member) := ⟨_, _, rfl⟩
  simp only [Clear, split] at clear
  simp only [applyBackfill, split, extract]
  cases member with
  | none => cases stored : state top <;> simp [stored, insert]
  | some member =>
    obtain ⟨notNull, notFalse⟩ := clear rfl
    cases stored : state top with
    | none => simp [insert, stored]
    | some held =>
      cases held with
      | null => exact absurd stored notNull
      | bool b =>
        cases b with
        | false => exact absurd stored notFalse
        | true => simp [insert, stored]
      | object fields =>
        cases found : (Serde.object fields).get member with
        | some value =>
          by_cases emptied : erase member fields = [] <;> simp [stored, found, emptied]
        | none => simp [found, insert, stored]
      | number | string | array => simp [insert, stored]

/-- No derive has a value: the state is as it was. -/
theorem applyDerives_of_none (inspect : Serde → String) {state : State}
    {derives : List TranslationDerive}
    (h : ∀ derive ∈ derives, Evaluator.call derive.tree state = none) :
    applyDerives inspect state derives = .ok state := by
  unfold applyDerives
  rw [List.foldlM_map]
  induction derives with
  | nil => rfl
  | cons derive derives ih =>
    simp only [List.foldlM_cons, h derive List.mem_cons_self]
    exact ih fun d hd => h d (List.mem_cons_of_mem derive hd)

end Rewrite

/-- One rule of each kind, and a state for it to rewrite. -/
def catalogue : FieldRules where
  renames := [("cost", "amount")]
  moves := [⟨⟨"amount", by decide⟩, ⟨"price.cents", by decide⟩⟩]
  converts := [⟨⟨"status", by decide⟩, ⟨"stage", by decide⟩, [(.string "open", .string "live")]⟩]
  drops := [⟨"note.text", by decide⟩]
  derives := [⟨⟨"slug", by decide⟩, "lower(name)", .lower (.ref ⟨"name", by decide⟩)⟩]
  backfills := [⟨⟨"price.currency", by decide⟩, .string "EUR"⟩]
  distinct := by decide

def listing : State := stateOf (.object
  [("cost", .number "5"), ("status", .string "open"), ("note", .object [("text", .string "x")])])

/-- Two names exchanged. -/
def exchange : FieldRules where
  renames := [("first", "second"), ("second", "first")]
  moves := []
  converts := []
  drops := []
  derives := []
  backfills := []
  distinct := by decide

def pair : State := stateOf (.object [("first", .number "1"), ("second", .number "2")])

end Hecks.Era
