import Hecks.Expr.Operators

/-! The interpreter: leaves directly, every other node through the router to its operator. -/
namespace Hecks

open Panics Operators

/-- One variant for each category of operators the grammar admits. -/
inductive OperatorCategory where
  | logical
  | membership
  | comparison
  | arithmetic
  | signTest
  | sized
  | toString
  | enumeration
  | patternMatch
  | presence
  | text
  | positional
deriving DecidableEq

/-- The category of a node; a leaf has none, and `interpret` never asks. -/
def categoryOf : Expr → Eval OperatorCategory
  | .or .. | .and .. | .not .. => pure .logical
  | .include .. => pure .membership
  | .compare .. => pure .comparison
  | .add .. | .sub .. | .mul .. | .div .. | .modulo .. => pure .arithmetic
  | .signTest .. => pure .signTest
  | .empty .. | .size .. => pure .sized
  | .toS .. => pure .toString
  | .blockPredicate .. | .find .. | .sum .. => pure .enumeration
  | .matchesRegex .. => pure .patternMatch
  | .presence .. | .assignment .. => pure .presence
  | .split .. | .strip .. | .startsWith .. | .endsWith .. => pure .text
  | .first .. | .last .. => pure .positional
  | .int .. | .float .. | .str .. | .bool .. | .nil | .lookup .. | .array .. =>
      abort "interpret's own leaf arms handle these before category_of is ever called"

/-- The evaluation of the parts of a node. -/
abbrev Parts (expr : Expr) := (e : Expr) → sizeOf e < sizeOf expr → EvalContext → Eval Value

def BlockMode.rubyName : BlockMode → String
  | all => "all?"
  | any => "any?"
  | none => "none?"

section

-- `debugExpr` is the derived `Debug` text of a node, which only a misrouted node prints
variable (escapes : Char → Bool) (regex : RegexBuilder) (debugExpr : Expr → String)

def misrouted (callee kind : String) (expr : Expr) : Eval Value :=
  refuse (.typeMismatch (callee ++ " called with " ++ kind ++ debugExpr expr ++ " — a router bug"))

/-- `||`, `&&` and `!`; the right side is evaluated only when it decides. -/
def logical (expr : Expr) (ctx : EvalContext) (eval : Parts expr) : Eval Value :=
  match expr with
  | .or l r => do
      let left ← eval l (by simp <;> omega) ctx
      if left.truthy then return .bool true
      else
        let right ← eval r (by simp <;> omega) ctx
        return .bool right.truthy
  | .and l r => do
      let left ← eval l (by simp <;> omega) ctx
      if !left.truthy then return .bool false
      else
        let right ← eval r (by simp <;> omega) ctx
        return .bool right.truthy
  | .not n => do
      let v ← eval n (by simp) ctx
      return .bool !v.truthy
  | expr => misrouted debugExpr "logical::interpret" "a non-logical node " expr

def membership (expr : Expr) (ctx : EvalContext) (eval : Parts expr) : Eval Value :=
  match expr with
  | .include haystack needle => do
      let wanted ← eval needle (by simp <;> omega) ctx
      let held ← eval haystack (by simp <;> omega) ctx
      includes held wanted
  | expr => misrouted debugExpr "membership::interpret" "a non-membership node " expr

def comparison (expr : Expr) (ctx : EvalContext) (eval : Parts expr) : Eval Value :=
  match expr with
  | .compare op left right => do
      let l ← eval left (by simp <;> omega) ctx
      let r ← eval right (by simp <;> omega) ctx
      let held ← Operators.compare escapes op l r
      return .bool held
  | expr => misrouted debugExpr "comparison::interpret" "a non-comparison node " expr

def arithmetic (expr : Expr) (ctx : EvalContext) (eval : Parts expr) : Eval Value :=
  match expr with
  | .add l r => do
      let left ← eval l (by simp <;> omega) ctx
      let right ← eval r (by simp <;> omega) ctx
      Operators.sum escapes left right
  | .sub l r => do
      let left ← eval l (by simp <;> omega) ctx
      let right ← eval r (by simp <;> omega) ctx
      checkedOp escapes "subtraction" "-" left right checkedSub (· - ·)
  | .mul l r => do
      let left ← eval l (by simp <;> omega) ctx
      let right ← eval r (by simp <;> omega) ctx
      checkedOp escapes "multiplication" "*" left right checkedMul (· * ·)
  | .div l r => do
      let left ← eval l (by simp <;> omega) ctx
      let right ← eval r (by simp <;> omega) ctx
      divide escapes left right
  | .modulo receiver divisor => do
      let r ← eval receiver (by simp <;> omega) ctx
      let d ← eval divisor (by simp <;> omega) ctx
      Operators.modulo r d
  | expr => misrouted debugExpr "dispatch_operator(Arithmetic, ..)" "" expr

def signTests (expr : Expr) (ctx : EvalContext) (eval : Parts expr) : Eval Value :=
  match expr with
  | .signTest op receiver => do
      let v ← eval receiver (by simp <;> omega) ctx
      Operators.signTest escapes op v
  | expr => misrouted debugExpr "sign_test::interpret" "a non-sign-test node " expr

def sized (expr : Expr) (ctx : EvalContext) (eval : Parts expr) : Eval Value :=
  match expr with
  | .empty receiver => do
      let v ← eval receiver (by simp) ctx
      Operators.empty v
  | .size receiver => do
      let v ← eval receiver (by simp) ctx
      Operators.size v
  | expr => misrouted debugExpr "dispatch_operator(Sized, ..)" "" expr

def toStrings (expr : Expr) (ctx : EvalContext) (eval : Parts expr) : Eval Value :=
  match expr with
  | .toS receiver => do
      let v ← eval receiver (by simp) ctx
      Operators.toS v
  | expr => misrouted debugExpr "to_string::interpret" "a non-to_s node " expr

/-- Only a `Lookup` names a list field; any other receiver is evaluated to word the error. -/
def elements (receiver : Expr) (ctx : EvalContext) (op : String) (eval : Unit → Eval Value) :
    Eval (List Field) :=
  match receiver with
  | .lookup path => lookupItems escapes path ctx op
  | _ => do
      let v ← eval ()
      let text ← Rendering.describe v
      evalError (op ++ " expects a list, got " ++ text)

/-- The context of a block's body, with the block's parameter bound to one element. -/
def EvalContext.bind (ctx : EvalContext) (param : String) (item : Field) : EvalContext :=
  ⟨Fielded.bound param item ctx.args, ctx.instance'⟩

/-- The total so far, and each further element's number added to it. -/
def sumItems (eval : Field → Eval Value) : List Field → Value → Eval Value
  | [], total => pure total
  | item :: items, total => do
      let v ← eval item
      let total ← Operators.sum escapes total v
      sumItems eval items total

/-- The first element the predicate accepts. -/
def findItem (eval : Field → Eval Value) : List Field → Eval (Option Field)
  | [] => pure none
  | item :: items => do
      let accepted ← eval item
      if accepted.truthy then return some item else findItem eval items

def enumeration (expr : Expr) (ctx : EvalContext) (eval : Parts expr) : Eval Value :=
  match expr with
  | .blockPredicate mode receiver param predicate => do
      let items ← elements escapes receiver ctx mode.rubyName
        fun _ => eval receiver (by simp <;> omega) ctx
      -- every element is evaluated before any is counted, so an error on any of them surfaces
      let outcomes ← items.mapM fun item => do
        let v ← eval predicate (by simp <;> omega) (ctx.bind param item)
        return v.truthy
      return .bool (match mode with
        | .all => outcomes.all (·)
        | .any => outcomes.any (·)
        | .none => !outcomes.any (·))
  | .sum receiver param predicate => do
      let items ← elements escapes receiver ctx "sum" fun _ => eval receiver (by simp <;> omega) ctx
      sumItems escapes (fun item => eval predicate (by simp <;> omega) (ctx.bind param item)) items
        (.int 0)
  | .find receiver param predicate path => do
      let items ← elements escapes receiver ctx "find" fun _ => eval receiver (by simp <;> omega) ctx
      let found ← findItem
        (fun item => eval predicate (by simp <;> omega) (ctx.bind param item)) items
      match found with
      | some item => project escapes item path
      | none => return .nil
  | expr => misrouted debugExpr "enumeration::interpret" "a non-enumeration node " expr

def patternMatch (expr : Expr) (ctx : EvalContext) (eval : Parts expr) : Eval Value :=
  match expr with
  | .matchesRegex receiver pattern flags => do
      let v ← eval receiver (by simp <;> omega) ctx
      Operators.matchesRegex regex v pattern flags
  | expr => misrouted debugExpr "pattern_match::interpret" "a non-match? node " expr

def isNil : Value → Bool
  | .nil => true
  | _ => false

/-- Only nil is unset; a path may end on an object, which is set whenever it is present. -/
def assigned (receiver : Expr) (ctx : EvalContext) (eval : Unit → Eval Value) : Eval Bool :=
  match receiver with
  | .lookup path => do
      let field ← lookupField escapes path ctx
      return match field with
        | .nested _ => true
        | .value v => !isNil v
  | _ => do
      let v ← eval ()
      return !isNil v

def presences (expr : Expr) (ctx : EvalContext) (eval : Parts expr) : Eval Value :=
  match expr with
  | .presence receiver negated => do
      let v ← eval receiver (by simp <;> omega) ctx
      let present := !blank v
      return .bool (if negated then !present else present)
  | .assignment receiver negated => do
      let set ← assigned escapes receiver ctx fun _ => eval receiver (by simp <;> omega) ctx
      return .bool (if negated then !set else set)
  | expr => misrouted debugExpr "dispatch_operator(Presence, ..)" "" expr

def texts (expr : Expr) (ctx : EvalContext) (eval : Parts expr) : Eval Value :=
  match expr with
  | .split receiver separator => do
      let v ← eval receiver (by simp <;> omega) ctx
      let text ← requireStr v "split"
      return .array (Operators.split text separator)
  | .strip receiver side => do
      let v ← eval receiver (by simp <;> omega) ctx
      let text ← requireStr v "strip"
      return .str (trim side text)
  | .startsWith receiver substring => do
      let v ← eval receiver (by simp <;> omega) ctx
      let text ← requireStr v "start_with?"
      return .bool (Text.startsWith substring text)
  | .endsWith receiver substring => do
      let v ← eval receiver (by simp <;> omega) ctx
      let text ← requireStr v "end_with?"
      return .bool (Text.endsWith substring text)
  | expr => misrouted debugExpr "text::interpret" "a non-text node " expr

/-- The first or the last of a list field's elements, or of a list's. -/
def ends (op : String) (takeFirst : Bool) (receiver : Expr) (ctx : EvalContext)
    (eval : Unit → Eval Value) : Eval Value :=
  match receiver with
  | .lookup path => do
      let items ← lookupItems escapes path ctx op
      fieldValue (atEnd takeFirst items) op
  | _ => do
      let v ← eval ()
      Operators.positionOf op takeFirst v

def positional (expr : Expr) (ctx : EvalContext) (eval : Parts expr) : Eval Value :=
  match expr with
  | .first receiver =>
      ends escapes "first" true receiver ctx fun _ => eval receiver (by simp) ctx
  | .last receiver =>
      ends escapes "last" false receiver ctx fun _ => eval receiver (by simp) ctx
  | expr => misrouted debugExpr "positional::interpret" "a non-positional node " expr

def dispatchOperator (category : OperatorCategory) (expr : Expr) (ctx : EvalContext)
    (eval : Parts expr) : Eval Value :=
  match category with
  | .logical => logical debugExpr expr ctx eval
  | .membership => membership debugExpr expr ctx eval
  | .comparison => comparison escapes debugExpr expr ctx eval
  | .arithmetic => arithmetic escapes debugExpr expr ctx eval
  | .signTest => signTests escapes debugExpr expr ctx eval
  | .sized => sized debugExpr expr ctx eval
  | .toString => toStrings debugExpr expr ctx eval
  | .enumeration => enumeration escapes debugExpr expr ctx eval
  | .patternMatch => patternMatch regex debugExpr expr ctx eval
  | .presence => presences escapes debugExpr expr ctx eval
  | .text => texts debugExpr expr ctx eval
  | .positional => positional escapes debugExpr expr ctx eval

def interpret (expr : Expr) (ctx : EvalContext) : Eval Value :=
  match expr with
  | .int v => pure (.int v)
  | .float v => pure (.float v)
  | .str v => pure (.str v)
  | .bool v => pure (.bool v)
  | .nil => pure .nil
  | .lookup path => lookup escapes path ctx
  | .array items => do
      let vs ← items.attach.mapM fun ⟨e, mem⟩ =>
        have := List.sizeOf_lt_of_mem mem
        interpret e ctx
      return .array vs
  | expr => do
      let category ← categoryOf expr
      dispatchOperator escapes regex debugExpr category expr ctx fun e _ ctx => interpret e ctx
termination_by sizeOf expr

end

/-! ### One node at a time -/

section

variable {escapes : Char → Bool} {regex : RegexBuilder} {debugExpr : Expr → String}
  {expr receiver predicate : Expr} {ctx : EvalContext}

/-- A node that is not a leaf is evaluated by the operator of its category. -/
theorem interpret_node (category : OperatorCategory) (routed : categoryOf expr = pure category) :
    interpret escapes regex debugExpr expr ctx =
      dispatchOperator escapes regex debugExpr category expr ctx
        fun e _ ctx => interpret escapes regex debugExpr e ctx := by
  rw [interpret]
  · rw [routed]
    rfl
  all_goals
    intros
    subst expr
    cases routed

theorem interpret_or (l r : Expr) :
    interpret escapes regex debugExpr (.or l r) ctx = (do
      let v ← interpret escapes regex debugExpr l ctx
      if v.truthy then return .bool true
      else
        let w ← interpret escapes regex debugExpr r ctx
        return .bool w.truthy : Eval Value) := interpret_node .logical rfl

theorem interpret_and (l r : Expr) :
    interpret escapes regex debugExpr (.and l r) ctx = (do
      let v ← interpret escapes regex debugExpr l ctx
      if !v.truthy then return .bool false
      else
        let w ← interpret escapes regex debugExpr r ctx
        return .bool w.truthy : Eval Value) := interpret_node .logical rfl

theorem interpret_compare (op : Comparison) (left right : Expr) :
    interpret escapes regex debugExpr (.compare op left right) ctx = (do
      let v ← interpret escapes regex debugExpr left ctx
      let w ← interpret escapes regex debugExpr right ctx
      let held ← Operators.compare escapes op v w
      return .bool held : Eval Value) := interpret_node .comparison rfl

theorem interpret_include (needle haystack : Expr) :
    interpret escapes regex debugExpr (.include haystack needle) ctx = (do
      let v ← interpret escapes regex debugExpr needle ctx
      let w ← interpret escapes regex debugExpr haystack ctx
      includes w v : Eval Value) := interpret_node .membership rfl

theorem interpret_add (l r : Expr) :
    interpret escapes regex debugExpr (.add l r) ctx = (do
      let v ← interpret escapes regex debugExpr l ctx
      let w ← interpret escapes regex debugExpr r ctx
      Operators.sum escapes v w : Eval Value) := interpret_node .arithmetic rfl

theorem interpret_sub (l r : Expr) :
    interpret escapes regex debugExpr (.sub l r) ctx = (do
      let v ← interpret escapes regex debugExpr l ctx
      let w ← interpret escapes regex debugExpr r ctx
      checkedOp escapes "subtraction" "-" v w checkedSub (· - ·) : Eval Value) := interpret_node .arithmetic rfl

theorem interpret_mul (l r : Expr) :
    interpret escapes regex debugExpr (.mul l r) ctx = (do
      let v ← interpret escapes regex debugExpr l ctx
      let w ← interpret escapes regex debugExpr r ctx
      checkedOp escapes "multiplication" "*" v w checkedMul (· * ·) : Eval Value) := interpret_node .arithmetic rfl

theorem interpret_div (l r : Expr) :
    interpret escapes regex debugExpr (.div l r) ctx = (do
      let v ← interpret escapes regex debugExpr l ctx
      let w ← interpret escapes regex debugExpr r ctx
      divide escapes v w : Eval Value) := interpret_node .arithmetic rfl

theorem interpret_modulo (r d : Expr) :
    interpret escapes regex debugExpr (.modulo r d) ctx = (do
      let v ← interpret escapes regex debugExpr r ctx
      let w ← interpret escapes regex debugExpr d ctx
      Operators.modulo v w : Eval Value) := interpret_node .arithmetic rfl

theorem interpret_not (receiver : Expr) :
    interpret escapes regex debugExpr (.not receiver) ctx = (do
      let v ← interpret escapes regex debugExpr receiver ctx
      return .bool !v.truthy : Eval Value) := interpret_node .logical rfl

theorem interpret_signTest (op : Comparison) :
    interpret escapes regex debugExpr (.signTest op receiver) ctx = (do
      let v ← interpret escapes regex debugExpr receiver ctx
      Operators.signTest escapes op v : Eval Value) := interpret_node .signTest rfl

theorem interpret_empty (receiver : Expr) :
    interpret escapes regex debugExpr (.empty receiver) ctx = (do
      let v ← interpret escapes regex debugExpr receiver ctx
      Operators.empty v : Eval Value) := interpret_node .sized rfl

theorem interpret_size (receiver : Expr) :
    interpret escapes regex debugExpr (.size receiver) ctx = (do
      let v ← interpret escapes regex debugExpr receiver ctx
      Operators.size v : Eval Value) := interpret_node .sized rfl

theorem interpret_toS (receiver : Expr) :
    interpret escapes regex debugExpr (.toS receiver) ctx = (do
      let v ← interpret escapes regex debugExpr receiver ctx
      Operators.toS v : Eval Value) := interpret_node .toString rfl

theorem interpret_matchesRegex (pattern flags : String) :
    interpret escapes regex debugExpr (.matchesRegex receiver pattern flags) ctx = (do
      let v ← interpret escapes regex debugExpr receiver ctx
      Operators.matchesRegex regex v pattern flags : Eval Value) := interpret_node .patternMatch rfl

theorem interpret_presence (negated : Bool) :
    interpret escapes regex debugExpr (.presence receiver negated) ctx = (do
      let v ← interpret escapes regex debugExpr receiver ctx
      return .bool (if negated then !!blank v else !blank v) : Eval Value) := interpret_node .presence rfl

theorem interpret_split (separator : String) :
    interpret escapes regex debugExpr (.split receiver separator) ctx = (do
      let v ← interpret escapes regex debugExpr receiver ctx
      let text ← requireStr v "split"
      return .array (Operators.split text separator) : Eval Value) := interpret_node .text rfl

theorem interpret_strip (side : StripSide) :
    interpret escapes regex debugExpr (.strip receiver side) ctx = (do
      let v ← interpret escapes regex debugExpr receiver ctx
      let text ← requireStr v "strip"
      return .str (trim side text) : Eval Value) := interpret_node .text rfl

theorem interpret_startsWith (substring : String) :
    interpret escapes regex debugExpr (.startsWith receiver substring) ctx = (do
      let v ← interpret escapes regex debugExpr receiver ctx
      let text ← requireStr v "start_with?"
      return .bool (Text.startsWith substring text) : Eval Value) := interpret_node .text rfl

theorem interpret_endsWith (substring : String) :
    interpret escapes regex debugExpr (.endsWith receiver substring) ctx = (do
      let v ← interpret escapes regex debugExpr receiver ctx
      let text ← requireStr v "end_with?"
      return .bool (Text.endsWith substring text) : Eval Value) := interpret_node .text rfl

theorem interpret_assignment (negated : Bool) :
    interpret escapes regex debugExpr (.assignment receiver negated) ctx = (do
      let set ← assigned escapes receiver ctx fun _ => interpret escapes regex debugExpr receiver ctx
      return .bool (if negated then !set else set) : Eval Value) := interpret_node .presence rfl

theorem interpret_first : interpret escapes regex debugExpr (.first receiver) ctx =
    ends escapes "first" true receiver ctx fun _ => interpret escapes regex debugExpr receiver ctx := interpret_node .positional rfl

theorem interpret_last : interpret escapes regex debugExpr (.last receiver) ctx =
    ends escapes "last" false receiver ctx fun _ => interpret escapes regex debugExpr receiver ctx := interpret_node .positional rfl

theorem interpret_blockPredicate (mode : BlockMode) (param : String) :
    interpret escapes regex debugExpr (.blockPredicate mode receiver param predicate) ctx = (do
      let items ← elements escapes receiver ctx mode.rubyName
        fun _ => interpret escapes regex debugExpr receiver ctx
      let outcomes ← items.mapM fun item => do
        let v ← interpret escapes regex debugExpr predicate (ctx.bind param item)
        return v.truthy
      return .bool (match mode with
        | .all => outcomes.all (·)
        | .any => outcomes.any (·)
        | .none => !outcomes.any (·)) : Eval Value) := by
  cases mode <;> exact interpret_node .enumeration rfl

theorem interpret_sum (param : String) :
    interpret escapes regex debugExpr (.sum receiver param predicate) ctx = (do
      let items ← elements escapes receiver ctx "sum" fun _ => interpret escapes regex debugExpr receiver ctx
      sumItems escapes (fun item => interpret escapes regex debugExpr predicate (ctx.bind param item)) items
        (.int 0) : Eval Value) := interpret_node .enumeration rfl

theorem interpret_find (param : String) (path : List String) :
    interpret escapes regex debugExpr (.find receiver param predicate path) ctx = (do
      let items ← elements escapes receiver ctx "find" fun _ => interpret escapes regex debugExpr receiver ctx
      let found ← findItem (fun item => interpret escapes regex debugExpr predicate (ctx.bind param item)) items
      match found with
      | some item => project escapes item path
      | none => return .nil : Eval Value) := interpret_node .enumeration rfl

theorem interpret_array (items : List Expr) :
    interpret escapes regex debugExpr (.array items) ctx = (do
      let vs ← items.mapM fun e => interpret escapes regex debugExpr e ctx
      return .array vs : Eval Value) := by
  rw [interpret, List.mapM_subtype (fun _ _ => rfl), List.unattach_attach]

end

end Hecks
