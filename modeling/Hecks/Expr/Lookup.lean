import Hecks.Expr.Rendering

/-! How a path is walked: the head from the arguments or the instance, then one segment at a
time off an object or a value. -/
namespace Hecks

open Panics

/-- A fault raised while evaluating. -/
def evalError {α : Type} (message : String) : Eval α := refuse (.fault message)

namespace Composite

section

variable (escapes : Char → Bool)

def stepValue (value : Value) (seg : String) : Eval Field :=
  let unreadable : Eval Field := do
    let text ← Rendering.describe value
    evalError ("cannot read " ++ Rendering.rubyInspect seg ++ " from " ++ text)
  match value with
  | .str text => pure (.value (if Text.containsText seg text then .str seg else .nil))
  | .nil | .float _ | .bool _ => pure (.value .nil)
  | .object fields =>
      pure (.value (((fields.find? fun f => f.1 = seg).map (·.2)).getD .nil))
  | .int _ | .list _ | .array _ => unreadable

/-- Ruby's `Resolver.walk_path`, one segment. -/
def step (current : Field) (seg head : String) : Eval Field :=
  match current with
  | .nested obj =>
      orRefuse (obj.field seg) (.fault ("cannot resolve " ++ Text.debugStr escapes seg ++ " on " ++
        Text.debugStr escapes head))
  | .value v => stepValue v seg

def walk (current : Field) (head : String) : List String → Eval Field
  | [] => pure current
  | seg :: segs => do
      let next ← step escapes current seg head
      walk next head segs

/-- A path may end on a nested object only if it reads as one value. -/
def finish (current : Field) (path : String) : Eval Value :=
  match current with
  | .value v => pure v
  | .nested obj =>
      orRefuse (obj.asScalar.or obj.toValue)
        (.fault (path ++ " resolved to an object, not a scalar"))

end

end Composite

section

variable (escapes : Char → Bool)

/-- The head of a path: the arguments first, then the instance. -/
def lookupHead (head : String) (ctx : EvalContext) : Eval Field :=
  orRefuse ((ctx.args.field head).or (ctx.instance'.field head))
    (.fault ("cannot resolve " ++ Text.debugStr escapes head ++
      " — no such attribute or argument"))

/-- `split('.')`: the head of a path and the segments behind it. -/
def pathSegments (path : String) : String × List String :=
  match Text.segments '.' path with
  | [] => ("", [])
  | head :: rest => (head, rest)

def lookupField (path : String) (ctx : EvalContext) : Eval Field := do
  let (head, segments) := pathSegments path
  let current ← lookupHead escapes head ctx
  Composite.walk escapes current head segments

def lookup (path : String) (ctx : EvalContext) : Eval Value := do
  let field ← lookupField escapes path ctx
  Composite.finish field path

def describeField : Option Field → Eval String
  | none => pure "nothing"
  | some (.value v) => Rendering.describe v
  | some (.nested _) => pure "an object"

/-- The elements of an object's list, or a fault that names what is there. -/
def itemsOf (side : Fielded) (name op : String) : Eval (List Field) :=
  match side.items name with
  | some items => pure items
  | none => do
      let text ← describeField (side.field name)
      evalError (op ++ " expects a list, got " ++ text)

/-- The elements of a list-typed field; a list is always the end of a path. -/
def lookupItems (path : String) (ctx : EvalContext) (op : String) : Eval (List Field) := do
  let (head, rest) := pathSegments path
  match rest.getLast? with
  | none =>
      let side := if (ctx.args.field head).isSome then ctx.args else ctx.instance'
      itemsOf side head op
  | some last => do
      let current ← lookupHead escapes head ctx
      let current ← Composite.walk escapes current head rest.dropLast
      match current with
      | .nested obj => itemsOf obj last op
      | .value v =>
          evalError (path ++ " — cannot look up " ++ Text.debugStr escapes last ++ " on scalar " ++
            Rendering.debugValue escapes v)

end

/-! ### A walk settles -/

/-- The refusals an evaluation ends in. -/
def IsFault (r : Refusal) : Prop := ∃ message, r = .fault message

section

variable {escapes : Char → Bool}

theorem settles_evalError {α : Type} (message : String) :
    Settles IsFault (evalError message : Eval α) := settles_refuse ⟨message, rfl⟩

theorem settles_stepValue (value : Value) (seg : String) :
    Settles IsFault (Composite.stepValue value seg) := by
  unfold Composite.stepValue
  have unreadable : Settles IsFault (do
      let text ← Rendering.describe value
      evalError ("cannot read " ++ Rendering.rubyInspect seg ++ " from " ++ text) : Eval Field) :=
    settles_bind (Rendering.settles_describe value) fun _ _ => settles_evalError _
  cases value with
  | str text => exact settles_pure _
  | nil => exact settles_pure _
  | float n => exact settles_pure _
  | bool b => exact settles_pure _
  | object fields => exact settles_pure _
  | int i => exact unreadable
  | list n => exact unreadable
  | array items => exact unreadable

theorem settles_step (current : Field) (seg head : String) :
    Settles IsFault (Composite.step escapes current seg head) := by
  cases current with
  | value v => exact settles_stepValue v seg
  | nested obj => exact settles_orRefuse ⟨_, rfl⟩

theorem settles_walk (head : String) (segs : List String) (current : Field) :
    Settles IsFault (Composite.walk escapes current head segs) := by
  induction segs generalizing current with
  | nil => exact settles_pure _
  | cons seg segs ih => exact settles_bind (settles_step current seg head) fun next _ => ih next

theorem settles_finish (current : Field) (path : String) :
    Settles IsFault (Composite.finish current path) := by
  cases current with
  | value v => exact settles_pure v
  | nested obj => exact settles_orRefuse ⟨_, rfl⟩

theorem settles_lookupHead (head : String) (ctx : EvalContext) :
    Settles IsFault (lookupHead escapes head ctx) := settles_orRefuse ⟨_, rfl⟩

theorem settles_lookupField (path : String) (ctx : EvalContext) :
    Settles IsFault (lookupField escapes path ctx) :=
  settles_bind (settles_lookupHead _ ctx) fun _ _ => settles_walk _ _ _

theorem settles_lookup (path : String) (ctx : EvalContext) :
    Settles IsFault (lookup escapes path ctx) :=
  settles_bind (settles_lookupField path ctx) fun _ _ => settles_finish _ _

theorem settles_describeField (field : Option Field) :
    Settles IsFault (describeField field) := by
  unfold describeField
  split
  · exact settles_pure _
  · exact Rendering.settles_describe _
  · exact settles_pure _

theorem settles_itemsOf (side : Fielded) (name op : String) :
    Settles IsFault (itemsOf side name op) := by
  unfold itemsOf
  cases side.items name with
  | some items => exact settles_pure _
  | none => exact settles_bind (settles_describeField _) fun _ _ => settles_evalError _

theorem settles_lookupItems (path : String) (ctx : EvalContext) (op : String) :
    Settles IsFault (lookupItems escapes path ctx op) := by
  unfold lookupItems
  dsimp only
  cases (pathSegments path).2.getLast? with
  | none => exact settles_itemsOf _ _ _
  | some last =>
    apply settles_bind (settles_lookupHead _ ctx)
    intro current _
    apply settles_bind (settles_walk _ _ current)
    intro current _
    cases current with
    | nested obj => exact settles_itemsOf _ _ _
    | value v => exact settles_evalError _

end

end Hecks
