import Hecks.Expr.Keyed
import Hecks.Lib.Reading
import Hecks.Parser.Handover

/-! The inclusion the parser writes out: an array literal's inclusion is handed over as equalities
joined by or, and they answer what the inclusion answers. -/
namespace Hecks.Parser

open Panics Operators

/-! ### The expression as it is written -/

mutual

/-- The expression of a tree with its inclusions left as they are. -/
def Evaluator.written : Evaluator → Expr
  | .or left right => .or left.written right.written
  | .and left right => .and left.written right.written
  | .not inner => .not inner.written
  | .compare operator left right => .compare operator.comparison left.written right.written
  | .include haystack needle => .include haystack.written needle.written
  | .resolve expr => expr.written

def Resolver.written : Resolver → Expr
  | .integerLiteral v => .int v
  | .floatLiteral v => .float v
  | .stringLiteral v => .str v
  | .boolLiteral v => .bool v
  | .nilLiteral => .nil
  | .addition left right => .add left.written right.written
  | .subtraction left right => .sub left.written right.written
  | .multiplication left right => .mul left.written right.written
  | .division left right => .div left.written right.written
  | .signTest operator receiver => .signTest operator.comparison receiver.written
  | .empty receiver => .empty receiver.written
  | .toS receiver => .toS receiver.written
  | .modulo receiver divisor => .modulo receiver.written divisor.written
  | .size receiver => .size receiver.written
  | .lookup path => .lookup path
  | .arrayLiteral elements => .array (writtenAll elements)
  | .blockPredicate mode receiver param predicate =>
      .blockPredicate mode receiver.written param predicate.written
  | .matchesRegex receiver pattern flags => .matchesRegex receiver.written pattern flags
  | .presence receiver negated => .presence receiver.written negated
  | .assignment receiver negated => .assignment receiver.written negated
  | .split receiver separator => .split receiver.written separator
  | .strip receiver side => .strip receiver.written side
  | .first receiver => .first receiver.written
  | .last receiver => .last receiver.written
  | .startsWith receiver substring => .startsWith receiver.written substring
  | .endsWith receiver substring => .endsWith receiver.written substring
  | .find receiver param predicate path => .find receiver.written param predicate.written path
  | .sum receiver param predicate => .sum receiver.written param predicate.written

def writtenAll : List Resolver → List Expr
  | [] => []
  | element :: elements => element.written :: writtenAll elements

end

section

variable {escapes : Char → Bool} {regex : RegexBuilder} {debugExpr : Expr → String}
  {ctx : EvalContext}

/-! ### Equalities joined by or -/

/-- The expression evaluates to the boolean. -/
def Tells (escapes : Char → Bool) (regex : RegexBuilder) (debugExpr : Expr → String)
    (ctx : EvalContext) (expr : Expr) (held : Bool) : Prop :=
  interpret escapes regex debugExpr expr ctx = .ok (.bool held)

theorem tells_or {left right : Expr} {a b : Bool} (first : Tells escapes regex debugExpr ctx left a)
    (second : Tells escapes regex debugExpr ctx right b) :
    Tells escapes regex debugExpr ctx (.or left right) (a || b) := by
  rw [Tells, interpret_or, first]
  show (if Value.truthy (.bool a) then pure (.bool true) else
    (interpret escapes regex debugExpr right ctx >>= fun w => pure (.bool w.truthy)) :
      Eval Value) = _
  rw [second]
  cases a <;> cases b <;> rfl

theorem tells_foldl {left : Expr} {a : Bool} {rest : List Expr} {answers : List Bool}
    (first : Tells escapes regex debugExpr ctx left a)
    (each : List.Forall₂ (Tells escapes regex debugExpr ctx) rest answers) :
    Tells escapes regex debugExpr ctx (rest.foldl .or left) (a || answers.any id) := by
  induction each generalizing left a with
  | nil => simpa using first
  | cons head _ ih =>
    have joined := ih (tells_or first head)
    rw [List.foldl_cons, List.any_cons, ← Bool.or_assoc]
    exact joined

theorem tells_either {parts : List Expr} {answers : List Bool}
    (each : List.Forall₂ (Tells escapes regex debugExpr ctx) parts answers) :
    Tells escapes regex debugExpr ctx (eitherExpr parts) (answers.any id) := by
  cases each with
  | nil =>
    rw [Tells, eitherExpr, interpret]
    rfl
  | cons head rest => exact tells_foldl head rest

theorem tells_equal {left right : Expr} {v w : Value}
    (first : interpret escapes regex debugExpr left ctx = .ok v)
    (second : interpret escapes regex debugExpr right ctx = .ok w) :
    Tells escapes regex debugExpr ctx (.compare equality.comparison left right)
      (valuesEqual v w) := by
  rw [Tells, interpret_compare, first]
  show (interpret escapes regex debugExpr right ctx >>= fun w =>
    Operators.compare escapes equality.comparison v w >>= fun held =>
      pure (Value.bool held) : Eval Value) = _
  rw [second]
  show Except.ok (Value.bool (false || (true && valuesEqual v w))) = _
  rw [Bool.false_or, Bool.true_and]

/-- Where the wanted value and every element evaluate, the equalities answer whether the value
is one of the elements. -/
theorem tells_inclusion {elements : List Expr} {needle : Expr} {v : Value} {vs : List Value}
    (keyed : ctx.Keyed) (wanted : interpret escapes regex debugExpr needle ctx = .ok v)
    (listed : elements.mapM (fun e => interpret escapes regex debugExpr e ctx) = .ok vs) :
    Tells escapes regex debugExpr ctx
      (eitherExpr (elements.map (.compare equality.comparison needle)))
      (vs.any fun item => valuesEqual item v) := by
  have needleKeyed := (keyed_interpret needle keyed).holds v wanted
  have answers : List.Forall₂ (Tells escapes regex debugExpr ctx)
      (elements.map (.compare equality.comparison needle))
      (vs.map fun item => valuesEqual item v) := by
    rw [List.forall₂_map_left_iff, List.forall₂_map_right_iff]
    apply (Reading.forall₂_of_mapM listed).imp
    intro e x evaluated
    rw [valuesEqual_comm ((keyed_interpret e keyed).holds x evaluated) needleKeyed]
    exact tells_equal wanted evaluated
  have joined := tells_either answers
  rwa [List.any_map] at joined

/-! ### Every tree, rewritten -/

section

variable {a b c d receiver receiver' predicate predicate' : Expr}

/-- Where the one expression evaluates, so does the other, and to the same. -/
def Preserves (escapes : Char → Bool) (regex : RegexBuilder) (debugExpr : Expr → String)
    (before after : Expr) : Prop :=
  ∀ ctx : EvalContext, ctx.Keyed → Extends (interpret escapes regex debugExpr before ctx)
    (interpret escapes regex debugExpr after ctx)

theorem preserves_rfl (expr : Expr) : Preserves escapes regex debugExpr expr expr :=
  fun _ _ => Extends.refl _

/-- A node of one part. -/
theorem preserves_one {node node' : Expr} {finish : Value → Eval Value}
    (part : Preserves escapes regex debugExpr a b)
    (before : ∀ ctx, interpret escapes regex debugExpr node ctx =
      interpret escapes regex debugExpr a ctx >>= finish)
    (after : ∀ ctx, interpret escapes regex debugExpr node' ctx =
      interpret escapes regex debugExpr b ctx >>= finish) :
    Preserves escapes regex debugExpr node node' := by
  intro ctx keyed
  rw [before, after]
  exact (part ctx keyed).bind fun _ _ => Extends.refl _

/-- A node of two parts, both always evaluated. -/
theorem preserves_strict {node node' : Expr} {op : Value → Value → Eval Value}
    (left : Preserves escapes regex debugExpr a b) (right : Preserves escapes regex debugExpr c d)
    (before : ∀ ctx, interpret escapes regex debugExpr node ctx =
      interpret escapes regex debugExpr a ctx >>= fun v =>
        interpret escapes regex debugExpr c ctx >>= op v)
    (after : ∀ ctx, interpret escapes regex debugExpr node' ctx =
      interpret escapes regex debugExpr b ctx >>= fun v =>
        interpret escapes regex debugExpr d ctx >>= op v) :
    Preserves escapes regex debugExpr node node' := by
  intro ctx keyed
  rw [before, after]
  apply (left ctx keyed).bind
  intro v _
  exact (right ctx keyed).bind fun _ _ => Extends.refl _

theorem preserves_or (left : Preserves escapes regex debugExpr a b)
    (right : Preserves escapes regex debugExpr c d) :
    Preserves escapes regex debugExpr (.or a c) (.or b d) := by
  intro ctx keyed
  rw [interpret_or, interpret_or]
  apply (left ctx keyed).bind
  intro v _
  by_cases truthy : v.truthy = true
  · rw [if_pos truthy, if_pos truthy]
    exact Extends.refl _
  · rw [if_neg truthy, if_neg truthy]
    exact (right ctx keyed).bind fun _ _ => Extends.refl _

theorem preserves_and (left : Preserves escapes regex debugExpr a b)
    (right : Preserves escapes regex debugExpr c d) :
    Preserves escapes regex debugExpr (.and a c) (.and b d) := by
  intro ctx keyed
  rw [interpret_and, interpret_and]
  apply (left ctx keyed).bind
  intro v _
  by_cases truthy : (!v.truthy) = true
  · rw [if_pos truthy, if_pos truthy]
    exact Extends.refl _
  · rw [if_neg truthy, if_neg truthy]
    exact (right ctx keyed).bind fun _ _ => Extends.refl _

/-- An array literal's inclusion, and the equalities in its place. -/
theorem preserves_inclusion {elements elements' : List Expr}
    (each : List.Forall₂ (Preserves escapes regex debugExpr) elements elements')
    (needle : Preserves escapes regex debugExpr a b) :
    Preserves escapes regex debugExpr (.include (.array elements) a)
      (eitherExpr (elements'.map (.compare equality.comparison b))) := by
  intro ctx keyed answer answered
  rw [interpret_include] at answered
  obtain ⟨v, wanted, answered⟩ := Reading.bind_eq_ok.mp answered
  obtain ⟨haystack, evaluated, answered⟩ := Reading.bind_eq_ok.mp answered
  rw [interpret_array] at evaluated
  obtain ⟨vs, listed, made⟩ := Reading.bind_eq_ok.mp evaluated
  cases made
  cases answered
  have listed' := extends_mapM (each.imp fun _ _ part => part ctx keyed) vs listed
  exact tells_inclusion keyed (needle ctx keyed v wanted) listed'

/-! Nodes that look at whether their receiver is a path. -/

/-- Both are one path, or neither is a path. -/
def SamePath (a b : Expr) : Prop :=
  (∃ path, a = .lookup path ∧ b = .lookup path) ∨
    (∀ path, a ≠ .lookup path) ∧ ∀ path, b ≠ .lookup path

theorem extends_elements (same : SamePath a b) (part : Preserves escapes regex debugExpr a b)
    (keyed : ctx.Keyed) (op : String) :
    Extends (elements escapes a ctx op fun _ => interpret escapes regex debugExpr a ctx)
      (elements escapes b ctx op fun _ => interpret escapes regex debugExpr b ctx) := by
  rcases same with ⟨path, rfl, rfl⟩ | ⟨left, right⟩
  · exact Extends.refl _
  · rw [elements, elements]
    · exact (part ctx keyed).bind fun _ _ => Extends.refl _
    · exact right
    · exact left

theorem extends_ends (same : SamePath a b) (part : Preserves escapes regex debugExpr a b)
    (keyed : ctx.Keyed) (op : String) (takeFirst : Bool) :
    Extends (ends escapes op takeFirst a ctx fun _ => interpret escapes regex debugExpr a ctx)
      (ends escapes op takeFirst b ctx fun _ => interpret escapes regex debugExpr b ctx) := by
  rcases same with ⟨path, rfl, rfl⟩ | ⟨left, right⟩
  · exact Extends.refl _
  · rw [ends, ends]
    · exact (part ctx keyed).bind fun _ _ => Extends.refl _
    · exact right
    · exact left

theorem extends_assigned (same : SamePath a b) (part : Preserves escapes regex debugExpr a b)
    (keyed : ctx.Keyed) :
    Extends (assigned escapes a ctx fun _ => interpret escapes regex debugExpr a ctx)
      (assigned escapes b ctx fun _ => interpret escapes regex debugExpr b ctx) := by
  rcases same with ⟨path, rfl, rfl⟩ | ⟨left, right⟩
  · exact Extends.refl _
  · rw [assigned, assigned]
    · exact (part ctx keyed).bind fun _ _ => Extends.refl _
    · exact right
    · exact left

theorem extends_sumItems {f g : Field → Eval Value} {items : List Field} (total : Value)
    (each : ∀ item ∈ items, Extends (f item) (g item)) :
    Extends (sumItems escapes f items total) (sumItems escapes g items total) := by
  induction items generalizing total with
  | nil => exact Extends.refl _
  | cons item items ih =>
    apply (each item List.mem_cons_self).bind
    intro v _
    apply (Extends.refl _).bind
    intro total _
    exact ih total fun item mem => each item (List.mem_cons_of_mem _ mem)

theorem extends_findItem {f g : Field → Eval Value} {items : List Field}
    (each : ∀ item ∈ items, Extends (f item) (g item)) :
    Extends (findItem f items) (findItem g items) := by
  induction items with
  | nil => exact Extends.refl _
  | cons item items ih =>
    apply (each item List.mem_cons_self).bind
    intro v _
    by_cases truthy : v.truthy = true
    · simp only [truthy, if_true]
      exact Extends.refl _
    · simp only [truthy]
      exact ih fun item mem => each item (List.mem_cons_of_mem _ mem)

/-- The elements a block walks are keyed, and its predicate follows on each. -/
theorem extends_block {γ : Type} {x y : List Field → Eval γ} {op : String}
    (same : SamePath a b) (part : Preserves escapes regex debugExpr a b) (keyed : ctx.Keyed)
    (walk : ∀ items : List Field, (∀ f ∈ items, f.Keyed) → Extends (x items) (y items)) :
    Extends ((elements escapes a ctx op fun _ => interpret escapes regex debugExpr a ctx) >>= x)
      ((elements escapes b ctx op fun _ => interpret escapes regex debugExpr b ctx) >>= y) := by
  apply (extends_elements same part keyed op).bind
  intro items answered
  exact walk items ((keyed_elements keyed).holds items answered)

theorem preserves_blockPredicate (mode : BlockMode) (param : String) (same : SamePath a b)
    (part : Preserves escapes regex debugExpr a b) (test : Preserves escapes regex debugExpr c d) :
    Preserves escapes regex debugExpr (.blockPredicate mode a param c)
      (.blockPredicate mode b param d) := by
  intro ctx keyed
  rw [interpret_blockPredicate, interpret_blockPredicate]
  apply extends_block same part keyed
  intro items elements
  apply Extends.bind
  · apply extends_mapM
    rw [List.forall₂_same]
    intro item mem
    exact (test _ (keyed.bind param (elements item mem))).bind fun _ _ => Extends.refl _
  · exact fun _ _ => Extends.refl _

theorem preserves_sum (param : String) (same : SamePath a b)
    (part : Preserves escapes regex debugExpr a b) (test : Preserves escapes regex debugExpr c d) :
    Preserves escapes regex debugExpr (.sum a param c) (.sum b param d) := by
  intro ctx keyed
  rw [interpret_sum, interpret_sum]
  apply extends_block same part keyed
  intro items elements
  apply extends_sumItems
  intro item mem
  exact test _ (keyed.bind param (elements item mem))

theorem preserves_find (param : String) (path : List String) (same : SamePath a b)
    (part : Preserves escapes regex debugExpr a b) (test : Preserves escapes regex debugExpr c d) :
    Preserves escapes regex debugExpr (.find a param c path) (.find b param d path) := by
  intro ctx keyed
  rw [interpret_find, interpret_find]
  apply extends_block same part keyed
  intro items elements
  apply Extends.bind
  · apply extends_findItem
    intro item mem
    exact test _ (keyed.bind param (elements item mem))
  · exact fun _ _ => Extends.refl _

theorem preserves_array {elements elements' : List Expr}
    (each : List.Forall₂ (Preserves escapes regex debugExpr) elements elements') :
    Preserves escapes regex debugExpr (.array elements) (.array elements') := by
  intro ctx keyed
  rw [interpret_array, interpret_array]
  apply (extends_mapM (each.imp fun _ _ part => part ctx keyed)).bind
  exact fun _ _ => Extends.refl _

end

theorem samePath (node : Resolver) : SamePath node.written node.toExpr := by
  cases node with
  | lookup path => exact .inl ⟨path, rfl, rfl⟩
  | _ => exact .inr ⟨fun _ => Expr.noConfusion, fun _ => Expr.noConfusion⟩

mutual

/-- Where a tree's expression evaluates as it is written, it evaluates to the same with its
inclusions written out. -/
theorem preserves_evaluator : (node : Evaluator) →
    Preserves escapes regex debugExpr node.written node.toExpr
  | .or left right => preserves_or (preserves_evaluator left) (preserves_evaluator right)
  | .and left right => preserves_and (preserves_evaluator left) (preserves_evaluator right)
  | .not inner =>
    preserves_one (preserves_evaluator inner) (fun _ => interpret_not _) fun _ => interpret_not _
  | .compare operator left right =>
    preserves_strict (preserves_resolver left) (preserves_resolver right)
      (fun _ => interpret_compare _ _ _) fun _ => interpret_compare _ _ _
  | .include haystack needle => by
    have wanted := preserves_resolver needle
    cases haystack with
    | arrayLiteral elements =>
      rw [Evaluator.toExpr]
      exact preserves_inclusion (preserves_elements elements) wanted
    | _ =>
      exact preserves_strict wanted (preserves_resolver _) (fun _ => interpret_include _ _)
        fun _ => interpret_include _ _
  | .resolve expr => preserves_resolver expr

theorem preserves_resolver : (node : Resolver) →
    Preserves escapes regex debugExpr node.written node.toExpr
  | .integerLiteral _ | .floatLiteral _ | .stringLiteral _ | .boolLiteral _ | .nilLiteral
  | .lookup _ => preserves_rfl _
  | .addition left right =>
    preserves_strict (preserves_resolver left) (preserves_resolver right)
      (fun _ => interpret_add _ _) fun _ => interpret_add _ _
  | .subtraction left right =>
    preserves_strict (preserves_resolver left) (preserves_resolver right)
      (fun _ => interpret_sub _ _) fun _ => interpret_sub _ _
  | .multiplication left right =>
    preserves_strict (preserves_resolver left) (preserves_resolver right)
      (fun _ => interpret_mul _ _) fun _ => interpret_mul _ _
  | .division left right =>
    preserves_strict (preserves_resolver left) (preserves_resolver right)
      (fun _ => interpret_div _ _) fun _ => interpret_div _ _
  | .modulo receiver divisor =>
    preserves_strict (preserves_resolver receiver) (preserves_resolver divisor)
      (fun _ => interpret_modulo _ _) fun _ => interpret_modulo _ _
  | .signTest operator receiver =>
    preserves_one (preserves_resolver receiver) (fun _ => interpret_signTest _)
      fun _ => interpret_signTest _
  | .empty receiver =>
    preserves_one (preserves_resolver receiver) (fun _ => interpret_empty _)
      fun _ => interpret_empty _
  | .toS receiver =>
    preserves_one (preserves_resolver receiver) (fun _ => interpret_toS _) fun _ => interpret_toS _
  | .size receiver =>
    preserves_one (preserves_resolver receiver) (fun _ => interpret_size _)
      fun _ => interpret_size _
  | .matchesRegex receiver pattern flags =>
    preserves_one (preserves_resolver receiver) (fun _ => interpret_matchesRegex _ _)
      fun _ => interpret_matchesRegex _ _
  | .presence receiver negated =>
    preserves_one (preserves_resolver receiver) (fun _ => interpret_presence _)
      fun _ => interpret_presence _
  | .split receiver separator =>
    preserves_one (preserves_resolver receiver) (fun _ => interpret_split _)
      fun _ => interpret_split _
  | .strip receiver side =>
    preserves_one (preserves_resolver receiver) (fun _ => interpret_strip _)
      fun _ => interpret_strip _
  | .startsWith receiver substring =>
    preserves_one (preserves_resolver receiver) (fun _ => interpret_startsWith _)
      fun _ => interpret_startsWith _
  | .endsWith receiver substring =>
    preserves_one (preserves_resolver receiver) (fun _ => interpret_endsWith _)
      fun _ => interpret_endsWith _
  | .assignment receiver negated => by
    intro ctx keyed
    rw [Resolver.written, Resolver.toExpr, interpret_assignment, interpret_assignment]
    apply (extends_assigned (samePath receiver) (preserves_resolver receiver) keyed).bind
    exact fun _ _ => Extends.refl _
  | .first receiver => by
    intro ctx keyed
    rw [Resolver.written, Resolver.toExpr, interpret_first, interpret_first]
    exact extends_ends (samePath receiver) (preserves_resolver receiver) keyed _ _
  | .last receiver => by
    intro ctx keyed
    rw [Resolver.written, Resolver.toExpr, interpret_last, interpret_last]
    exact extends_ends (samePath receiver) (preserves_resolver receiver) keyed _ _
  | .blockPredicate mode receiver param predicate =>
    preserves_blockPredicate mode param (samePath receiver) (preserves_resolver receiver)
      (preserves_evaluator predicate)
  | .sum receiver param predicate =>
    preserves_sum param (samePath receiver) (preserves_resolver receiver)
      (preserves_evaluator predicate)
  | .find receiver param predicate path =>
    preserves_find param path (samePath receiver) (preserves_resolver receiver)
      (preserves_evaluator predicate)
  | .arrayLiteral elements => preserves_array (preserves_elements elements)

theorem preserves_elements : (elements : List Resolver) →
    List.Forall₂ (Preserves escapes regex debugExpr) (writtenAll elements) (elementExprs elements)
  | [] => .nil
  | element :: elements => .cons (preserves_resolver element) (preserves_elements elements)

end

/-- An inclusion answers a boolean or nothing. -/
theorem includes_bool {haystack wanted answer : Value}
    (answered : includes haystack wanted = .ok answer) : ∃ held, answer = .bool held := by
  unfold includes at answered
  cases haystack with
  | array items =>
    cases answered
    exact ⟨_, rfl⟩
  | str text =>
    cases wanted with
    | str part =>
      cases answered
      exact ⟨_, rfl⟩
    | _ => cases answered
  | _ =>
    cases answered
    exact ⟨_, rfl⟩

end

/-- An inclusion in an array literal, over a context whose objects name each key once, as maps do:
where it evaluates, it evaluates to a boolean, and so does what is handed over in its place. -/
theorem inclusion_written_out (escapes : Char → Bool) (regex : RegexBuilder)
    (debugExpr : Expr → String) (elements : List Resolver) (needle : Resolver) (ctx : EvalContext)
    (keyed : ctx.Keyed) (answer : Value)
    (answered : interpret escapes regex debugExpr
      (Evaluator.include (.arrayLiteral elements) needle).written ctx = .ok answer) :
    ∃ held : Bool, answer = .bool held ∧
      interpret escapes regex debugExpr
        (eitherExpr ((elementExprs elements).map (.compare equality.comparison needle.toExpr)))
        ctx = .ok (.bool held) ∧
      ∀ display, (Evaluator.include (.arrayLiteral elements) needle).Finite →
        Host.parse escapes display (emitBool (.include (.arrayLiteral elements) needle)) =
          .ok (eitherExpr
            ((elementExprs elements).map (.compare equality.comparison needle.toExpr))) := by
  have same := preserves_evaluator (.include (.arrayLiteral elements) needle) ctx keyed answer
    answered
  rw [Evaluator.written, interpret_include] at answered
  obtain ⟨v, -, answered⟩ := Reading.bind_eq_ok.mp answered
  obtain ⟨haystack, -, answered⟩ := Reading.bind_eq_ok.mp answered
  obtain ⟨held, rfl⟩ := includes_bool answered
  rw [Evaluator.toExpr] at same
  refine ⟨held, rfl, same, ?_⟩
  intro display finite
  have reads : Reads escapes display
      (emitBool (.include (.arrayLiteral elements) needle)) _ := reads_emitBool _ finite
  rwa [Reads, Evaluator.toExpr] at reads

theorem keyed_noFields : Fielded.noFields.Keyed := by
  constructor
  all_goals
    intros
    contradiction

/-- `["a", 1].include?("a")` is handed over as `"a" == "a" || "a" == 1`, which holds as well. -/
theorem letter_written_out :
    interpret (fun _ => false) (fun _ _ _ _ => .error "") (fun _ => "")
      (.or (.compare equality.comparison (.str "a") (.str "a"))
        (.compare equality.comparison (.str "a") (.int 1)))
      ⟨Fielded.noFields, Fielded.noFields⟩ = .ok (.bool true) := by
  obtain ⟨held, same, told, -⟩ := inclusion_written_out (fun _ => false)
    (fun _ _ _ _ => .error "") (fun _ => "") [.stringLiteral "a", .integerLiteral 1]
    (.stringLiteral "a") ⟨Fielded.noFields, Fielded.noFields⟩ ⟨keyed_noFields, keyed_noFields⟩
    (.bool true) (by
      simp only [Evaluator.written, Resolver.written, writtenAll, interpret_include,
        interpret_array, List.mapM_cons, List.mapM_nil, interpret]
      rfl)
  cases same
  exact told

end Hecks.Parser
