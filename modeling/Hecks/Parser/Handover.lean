import Hecks.Host.ExprJson
import Hecks.Lib.FloatOrder
import Hecks.Parser.AstJson

/-! From the parser to the host: the JSON form of a predicate reads back as the expression the
predicate stands for. -/
namespace Hecks.Parser

open Host

/-! ### The expression a tree stands for -/

def Operator.comparison (operator : Operator) : Comparison :=
  ⟨operator.comparesLessThan, operator.comparesEqual, operator.negated⟩

/-- Inclusion in a written-out list: equal to one of its elements. -/
def eitherExpr : List Expr → Expr
  | [] => .bool false
  | first :: rest => rest.foldl .or first

mutual

def Evaluator.toExpr : Evaluator → Expr
  | .or left right => .or left.toExpr right.toExpr
  | .and left right => .and left.toExpr right.toExpr
  | .not inner => .not inner.toExpr
  | .compare operator left right => .compare operator.comparison left.toExpr right.toExpr
  | .include (.arrayLiteral elements) needle =>
      eitherExpr ((elementExprs elements).map (.compare equality.comparison needle.toExpr))
  | .include haystack needle => .include haystack.toExpr needle.toExpr
  | .resolve expr => expr.toExpr

def Resolver.toExpr : Resolver → Expr
  | .integerLiteral v => .int v
  | .floatLiteral v => .float v
  | .stringLiteral v => .str v
  | .boolLiteral v => .bool v
  | .nilLiteral => .nil
  | .addition left right => .add left.toExpr right.toExpr
  | .subtraction left right => .sub left.toExpr right.toExpr
  | .multiplication left right => .mul left.toExpr right.toExpr
  | .division left right => .div left.toExpr right.toExpr
  | .signTest operator receiver => .signTest operator.comparison receiver.toExpr
  | .empty receiver => .empty receiver.toExpr
  | .toS receiver => .toS receiver.toExpr
  | .modulo receiver divisor => .modulo receiver.toExpr divisor.toExpr
  | .size receiver => .size receiver.toExpr
  | .lookup path => .lookup path
  | .arrayLiteral elements => .array (elementExprs elements)
  | .blockPredicate mode receiver param predicate =>
      .blockPredicate mode receiver.toExpr param predicate.toExpr
  | .matchesRegex receiver pattern flags => .matchesRegex receiver.toExpr pattern flags
  | .presence receiver negated => .presence receiver.toExpr negated
  | .assignment receiver negated => .assignment receiver.toExpr negated
  | .split receiver separator => .split receiver.toExpr separator
  | .strip receiver side => .strip receiver.toExpr side
  | .first receiver => .first receiver.toExpr
  | .last receiver => .last receiver.toExpr
  | .startsWith receiver substring => .startsWith receiver.toExpr substring
  | .endsWith receiver substring => .endsWith receiver.toExpr substring
  | .find receiver param predicate path => .find receiver.toExpr param predicate.toExpr path
  | .sum receiver param predicate => .sum receiver.toExpr param predicate.toExpr

def elementExprs : List Resolver → List Expr
  | [] => []
  | element :: elements => element.toExpr :: elementExprs elements

end

mutual

/-- Every float literal of the tree is a number JSON can write. -/
def Evaluator.Finite : Evaluator → Prop
  | .or left right | .and left right => left.Finite ∧ right.Finite
  | .not inner => inner.Finite
  | .compare _ left right => left.Finite ∧ right.Finite
  | .include haystack needle => haystack.Finite ∧ needle.Finite
  | .resolve expr => expr.Finite

def Resolver.Finite : Resolver → Prop
  | .floatLiteral v => v.isFinite = true
  | .integerLiteral _ | .stringLiteral _ | .boolLiteral _ | .nilLiteral | .lookup _ => True
  | .addition left right | .subtraction left right | .multiplication left right
  | .division left right | .modulo left right => left.Finite ∧ right.Finite
  | .signTest _ receiver | .empty receiver | .toS receiver | .size receiver
  | .matchesRegex receiver _ _ | .presence receiver _ | .assignment receiver _
  | .split receiver _ | .strip receiver _ | .first receiver | .last receiver
  | .startsWith receiver _ | .endsWith receiver _ => receiver.Finite
  | .arrayLiteral elements => AllFinite elements
  | .blockPredicate _ receiver _ predicate | .find receiver _ predicate _
  | .sum receiver _ predicate => receiver.Finite ∧ predicate.Finite

def AllFinite : List Resolver → Prop
  | [] => True
  | element :: elements => element.Finite ∧ AllFinite elements

end

/-! ### Texts -/

theorem segmentsChars_ne_nil (sep : Char) (cs : List Char) : Text.segmentsChars sep cs ≠ [] := by
  induction cs with
  | nil => exact List.cons_ne_nil _ _
  | cons c cs ih =>
    rw [Text.segmentsChars]
    split
    · exact List.cons_ne_nil _ _
    · cases segments : Text.segmentsChars sep cs with
      | nil => exact absurd segments ih
      | cons s ss => exact List.cons_ne_nil _ _

/-- What a path is split into joins to the path again. -/
theorem join_segmentsChars (cs : List Char) :
    Text.join "." ((Text.segmentsChars '.' cs).map String.ofList) = String.ofList cs := by
  induction cs with
  | nil => rfl
  | cons c cs ih =>
    rw [Text.segmentsChars]
    have nonempty := segmentsChars_ne_nil '.' cs
    cases segments : Text.segmentsChars '.' cs with
    | nil => exact absurd segments nonempty
    | cons s ss =>
      rw [segments] at ih
      by_cases dot : c = '.'
      · subst dot
        rw [if_pos rfl, String.ofList_cons, ← ih]
        simp [Text.join]
      · rw [if_neg dot, String.ofList_cons, ← ih]
        cases ss with
        | nil => simp [Text.join, String.ofList_cons]
        | cons t ts => simp [Text.join, String.ofList_cons, String.append_assoc]

theorem join_segments (path : String) : Text.join "." (Text.segments '.' path) = path := by
  rw [Text.segments, join_segmentsChars, String.ofList_toList]

/-- The text of a finite literal is a number, and it reads as the literal. -/
theorem asF64_rubyFloat {n : Float.Model} (finite : n.isFinite = true) :
    Serde.asF64 (.number (rubyFloat n)) = some n := by
  have read : Binary64.parse (rubyFloat n) = some n := by
    obtain ⟨lower, upper⟩ := Decimal.display_no_exponent finite
    unfold rubyFloat
    by_cases point : '.' ∈ (Binary64.display n).toList
    · obtain ⟨-, -, -, -, -, -, -, parsed⟩ := Decimal.display_numeral finite
      simpa [Text.containsChar, point] using parsed
    · have parsed := Decimal.parse_display_point finite point
      rw [String.ofList_append, String.ofList_toList] at parsed
      simpa [Text.containsChar, point, lower, upper] using parsed
  rw [Serde.asF64, read, Option.filter_some, if_pos finite]

/-! ### Reading a node back -/

section

variable (escapes : Char → Bool) (display : Serde → String)

/-- The host reads the value as the expression. -/
def Reads (json : Serde) (expr : Expr) : Prop := Host.parse escapes display json = .ok expr

variable {escapes display} {json first second : Serde} {a b : Expr}

theorem parse_obj (op : String) (fields : List (String × Serde)) :
    Host.parse escapes display (obj (opTag op :: fields)) =
      parseNode escapes display (obj (opTag op :: fields))
        (fun part _ => Host.parse escapes display part) op := by
  rw [Host.parse]
  rfl

theorem reads_one (make : Expr → Expr) (inner : Reads escapes display first a)
    (node : Host.parse escapes display json =
      Host.parse escapes display first >>= fun x => pure (make x)) :
    Reads escapes display json (make a) := by
  rw [Reads, node, inner]
  rfl

theorem reads_two (make : Expr → Expr → Expr) (left : Reads escapes display first a)
    (right : Reads escapes display second b)
    (node : Host.parse escapes display json = Host.parse escapes display first >>= fun x =>
      Host.parse escapes display second >>= fun y => pure (make x y)) :
    Reads escapes display json (make a b) := by
  rw [Reads, node, left]
  show (Host.parse escapes display second >>= fun y => pure (make a y)) = _
  rw [right]
  rfl

theorem mapM_segments (path : List String) (message : String) :
    (path.map Serde.string).mapM (fun item => orError item.asStr message) = .ok path := by
  induction path with
  | nil => rfl
  | cons segment path ih =>
    rw [List.map_cons, List.mapM_cons, ih]
    rfl

theorem mapM_reads {items : List Serde} {exprs : List Expr}
    (each : List.Forall₂ (Reads escapes display) items exprs) :
    items.mapM (Host.parse escapes display) = .ok exprs := by
  induction each with
  | nil => rfl
  | cons head _ ih =>
    rw [List.mapM_cons, head, ih]
    rfl

theorem reads_int {value : Serde} {i : Int64} (reads : value.asI64 = some i) :
    Reads escapes display (obj [opTag "int", ("value", value)]) (.int i) := by
  rw [Reads, parse_obj]
  show (orError value.asI64 _ >>= fun i => pure (Expr.int i)) = _
  rw [reads]
  rfl

theorem reads_float {value : Serde} {n : Float.Model} (reads : value.asF64 = some n) :
    Reads escapes display (obj [opTag "float", ("value", value)]) (.float n) := by
  rw [Reads, parse_obj]
  show (orError value.asF64 _ >>= fun n => pure (Expr.float n)) = _
  rw [reads]
  rfl

theorem reads_array {items : List Serde} {exprs : List Expr}
    (each : List.Forall₂ (Reads escapes display) items exprs) :
    Reads escapes display (obj [opTag "array", ("elements", .array items)]) (.array exprs) := by
  rw [Reads, parse_obj]
  show (items.attach.mapM (fun x => Host.parse escapes display x.1) >>= fun exprs =>
    pure (Expr.array exprs)) = _
  rw [List.mapM_subtype (fun _ _ => rfl), List.unattach_attach, mapM_reads each]
  rfl

theorem reads_either {items : List Serde} {exprs : List Expr}
    (each : List.Forall₂ (Reads escapes display) items exprs) :
    Reads escapes display (emitEither items) (eitherExpr exprs) := by
  have chain : ∀ {left expr items exprs}, Reads escapes display left expr →
      List.Forall₂ (Reads escapes display) items exprs →
      Reads escapes display
        (items.foldl (fun left right => obj [opTag "or", ("left", left), ("right", right)]) left)
        (exprs.foldl .or expr) := by
    intro left expr items exprs start each
    induction each generalizing left expr with
    | nil => exact start
    | cons head _ ih => exact ih (reads_two .or start head (parse_obj _ _))
  cases each with
  | nil => exact parse_obj _ _
  | cons head rest => exact chain head rest

mutual

theorem reads_emitBool : (node : Evaluator) → node.Finite →
    Reads escapes display (emitBool node) node.toExpr
  | .or left right, finite =>
    reads_two .or (reads_emitBool left finite.1) (reads_emitBool right finite.2) (parse_obj _ _)
  | .and left right, finite =>
    reads_two .and (reads_emitBool left finite.1) (reads_emitBool right finite.2) (parse_obj _ _)
  | .not inner, finite => reads_one .not (reads_emitBool inner finite) (parse_obj _ _)
  | .compare operator left right, finite =>
    reads_two (.compare operator.comparison) (reads_emitResolver left finite.1) (reads_emitResolver right finite.2)
      (parse_obj _ _)
  | .include haystack needle, finite => by
    have wanted := reads_emitResolver needle finite.2
    cases haystack with
    | arrayLiteral elements =>
      rw [emitBool, Evaluator.toExpr]
      apply reads_either
      rw [List.forall₂_map_left_iff, List.forall₂_map_right_iff]
      refine (reads_emitElements elements finite.1).imp fun element expr reads => ?_
      exact reads_two (.compare equality.comparison) wanted reads (parse_obj _ _)
    | _ => exact reads_two .include (reads_emitResolver _ finite.1) wanted (parse_obj _ _)
  | .resolve expr, finite => reads_emitResolver expr finite

theorem reads_emitResolver : (node : Resolver) → node.Finite →
    Reads escapes display (emitResolver node) node.toExpr
  | .integerLiteral v, _ => reads_int (Decimal.parseI64_toString v)
  | .floatLiteral v, finite => reads_float (asF64_rubyFloat finite)
  | .stringLiteral v, _ => parse_obj _ _
  | .boolLiteral v, _ => parse_obj _ _
  | .nilLiteral, _ => parse_obj _ _
  | .lookup path, _ => by
    rw [Reads, emitResolver, parse_obj]
    show (do
      let path ← ((Text.segments '.' path).map Serde.string).mapM fun item : Serde =>
        orError item.asStr _
      return Expr.lookup (Text.join "." path)) = _
    rw [mapM_segments]
    show Except.ok (Expr.lookup (Text.join "." (Text.segments '.' path))) = _
    rw [join_segments, Resolver.toExpr]
  | .addition left right, finite =>
    reads_two .add (reads_emitResolver left finite.1) (reads_emitResolver right finite.2)
      (parse_obj _ _)
  | .subtraction left right, finite =>
    reads_two .sub (reads_emitResolver left finite.1) (reads_emitResolver right finite.2)
      (parse_obj _ _)
  | .multiplication left right, finite =>
    reads_two .mul (reads_emitResolver left finite.1) (reads_emitResolver right finite.2)
      (parse_obj _ _)
  | .division left right, finite =>
    reads_two .div (reads_emitResolver left finite.1) (reads_emitResolver right finite.2)
      (parse_obj _ _)
  | .signTest operator receiver, finite =>
    reads_one (.signTest operator.comparison) (reads_emitResolver receiver finite) (parse_obj _ _)
  | .empty receiver, finite => reads_one .empty (reads_emitResolver receiver finite) (parse_obj _ _)
  | .toS receiver, finite => reads_one .toS (reads_emitResolver receiver finite) (parse_obj _ _)
  | .modulo receiver divisor, finite =>
    reads_two .modulo (reads_emitResolver receiver finite.1) (reads_emitResolver divisor finite.2)
      (parse_obj _ _)
  | .size receiver, finite => reads_one .size (reads_emitResolver receiver finite) (parse_obj _ _)
  | .matchesRegex receiver pattern flags, finite =>
    reads_one (.matchesRegex · pattern flags) (reads_emitResolver receiver finite) (parse_obj _ _)
  | .presence receiver negated, finite =>
    reads_one (.presence · negated) (reads_emitResolver receiver finite) (parse_obj _ _)
  | .assignment receiver negated, finite =>
    reads_one (.assignment · negated) (reads_emitResolver receiver finite) (parse_obj _ _)
  | .split receiver separator, finite =>
    reads_one (.split · separator) (reads_emitResolver receiver finite) (parse_obj _ _)
  | .strip receiver side, finite => by
    cases side <;> exact reads_one (.strip · _) (reads_emitResolver receiver finite) (parse_obj _ _)
  | .startsWith receiver substring, finite =>
    reads_one (.startsWith · substring) (reads_emitResolver receiver finite) (parse_obj _ _)
  | .endsWith receiver substring, finite =>
    reads_one (.endsWith · substring) (reads_emitResolver receiver finite) (parse_obj _ _)
  | .first receiver, finite => reads_one .first (reads_emitResolver receiver finite) (parse_obj _ _)
  | .last receiver, finite => reads_one .last (reads_emitResolver receiver finite) (parse_obj _ _)
  | .blockPredicate mode receiver param predicate, finite => by
    cases mode <;>
      exact reads_two (.blockPredicate _ · param ·) (reads_emitResolver receiver finite.1) (reads_emitBool predicate finite.2)
        (parse_obj _ _)
  | .sum receiver param predicate, finite =>
    reads_two (.sum · param ·) (reads_emitResolver receiver finite.1) (reads_emitBool predicate finite.2)
      (parse_obj _ _)
  | .find receiver param predicate path, finite => by
    have list := reads_emitResolver receiver finite.1
    have test := reads_emitBool predicate finite.2
    rw [Reads, emitResolver, parse_obj]
    show (do
      let x ← Host.parse escapes display (emitResolver receiver)
      let y ← Host.parse escapes display (emitBool predicate)
      let path ← (path.map Serde.string).mapM fun item : Serde => orError item.asStr _
      return Expr.find x param y path) = _
    rw [mapM_segments, list, test]
    rfl
  | .arrayLiteral elements, finite => reads_array (reads_emitElements elements finite)

theorem reads_emitElements : (elements : List Resolver) → AllFinite elements →
    List.Forall₂ (Reads escapes display) (emitElements elements) (elementExprs elements)
  | [], _ => .nil
  | element :: elements, finite =>
    .cons (reads_emitResolver element finite.1) (reads_emitElements elements finite.2)

end

/-- The JSON form of every predicate tree is read by the host, and as the expression the tree
stands for. -/
theorem emitted_predicate_reads_back (node : Evaluator) (finite : node.Finite) :
    Host.parse escapes display (emitBool node) = .ok node.toExpr :=
  reads_emitBool node finite

end

/-- `total > 1.5`, handed over. -/
theorem fraction_bound_reads_back :
    Host.parse (fun _ => false) (fun _ => "")
        (emitBool (.compare ⟨">", true, true, true⟩ (.lookup "total")
          (.floatLiteral (Float.Model.ofScientific 15 (-1))))) =
      .ok (.compare ⟨true, true, true⟩ (.lookup "total")
        (.float (Float.Model.ofScientific 15 (-1)))) :=
  emitted_predicate_reads_back (.compare ⟨">", true, true, true⟩ (.lookup "total")
    (.floatLiteral (Float.Model.ofScientific 15 (-1))))
    ⟨trivial, show (Float.Model.ofScientific 15 (-1)).isFinite = true by decide⟩

/-- `["a"].include?(status)` reaches the host as `status == "a"`. -/
theorem literal_inclusion_compares :
    Host.parse (fun _ => false) (fun _ => "")
        (emitBool (.include (.arrayLiteral [.stringLiteral "a"]) (.lookup "status"))) ≠
      .ok (.include (.array [.str "a"]) (.lookup "status")) := by
  have reads : Reads (fun _ => false) (fun _ => "") _ _ :=
    reads_emitBool (.include (.arrayLiteral [.stringLiteral "a"]) (.lookup "status"))
      ⟨⟨trivial, trivial⟩, trivial⟩
  intro included
  rw [Reads, included] at reads
  cases reads

end Hecks.Parser
