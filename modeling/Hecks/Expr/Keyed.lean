import Hecks.Expr.Safety
import Hecks.Lib.FloatOrder
import Hecks.Lib.Answers

/-! Objects that name each key once: what an expression evaluates to keeps the property, and
equality of such values does not ask which side it stands on. -/
namespace Hecks

open Panics Operators

/-! ### Values, fields and contexts -/

/-- No object in the value names a key twice. -/
inductive Value.Keyed : Value → Prop
  | int (i : Int64) : Value.Keyed (.int i)
  | float (n : Float.Model) : Value.Keyed (.float n)
  | str (s : String) : Value.Keyed (.str s)
  | bool (b : Bool) : Value.Keyed (.bool b)
  | list (length : Nat) : Value.Keyed (.list length)
  | nil : Value.Keyed .nil
  | array {items : List Value} (each : ∀ v ∈ items, Value.Keyed v) : Value.Keyed (.array items)
  | object {fields : List (String × Value)} (once : (fields.map (·.1)).Nodup)
      (each : ∀ f ∈ fields, Value.Keyed f.2) : Value.Keyed (.object fields)

mutual

inductive Field.Keyed : Field → Prop
  | value {v : Value} (keyed : v.Keyed) : Field.Keyed (.value v)
  | nested {object : Fielded} (keyed : object.Keyed) : Field.Keyed (.nested object)

inductive Fielded.Keyed : Fielded → Prop
  | mk {object : Fielded} (field : ∀ name f, object.field name = some f → f.Keyed)
      (items : ∀ name fs, object.items name = some fs → ∀ f ∈ fs, f.Keyed)
      (scalar : ∀ v, object.asScalar = some v → v.Keyed)
      (value : ∀ v, object.toValue = some v → v.Keyed) : Fielded.Keyed object

end

structure EvalContext.Keyed (ctx : EvalContext) : Prop where
  args : ctx.args.Keyed
  instance' : ctx.instance'.Keyed

theorem Fielded.Keyed.ofField {object : Fielded} (keyed : object.Keyed) {name : String} {f : Field}
    (held : object.field name = some f) : f.Keyed := by
  cases keyed with
  | mk field items scalar value => exact field name f held

theorem Fielded.Keyed.ofItems {object : Fielded} (keyed : object.Keyed) {name : String}
    {fs : List Field} (held : object.items name = some fs) : ∀ f ∈ fs, f.Keyed := by
  cases keyed with
  | mk field items scalar value => exact items name fs held

theorem Fielded.Keyed.ofScalar {object : Fielded} (keyed : object.Keyed) {v : Value}
    (held : object.asScalar.or object.toValue = some v) : v.Keyed := by
  cases keyed with
  | mk field items scalar value =>
    rcases Option.or_eq_some_iff.mp held with held | ⟨-, held⟩
    · exact scalar v held
    · exact value v held

theorem Fielded.Keyed.bound {object : Fielded} (keyed : object.Keyed) (param : String) {f : Field}
    (element : f.Keyed) : (Fielded.bound param f object).Keyed := by
  constructor
  · intro name g held
    simp only [Fielded.bound, Fielded.field] at held
    by_cases same : name = param
    · rw [if_pos same, Option.some.injEq] at held
      exact held ▸ element
    · rw [if_neg same] at held
      exact keyed.ofField held
  · intro name fs held
    simp only [Fielded.bound, Fielded.items] at held
    by_cases same : name = param
    · rw [if_pos same] at held
      cases held
    · rw [if_neg same] at held
      exact keyed.ofItems held
  · intro v held
    cases held
  · intro v held
    cases held

theorem EvalContext.Keyed.bind {ctx : EvalContext} (keyed : ctx.Keyed) (param : String) {f : Field}
    (element : f.Keyed) : (ctx.bind param f).Keyed :=
  ⟨keyed.args.bound param element, keyed.instance'⟩

/-! ### Equality of values -/

theorem itemsEqual_iff {xs ys : List Value} :
    itemsEqual xs ys = true ↔ List.Forall₂ (fun x y => valuesEqual x y = true) xs ys := by
  induction xs generalizing ys with
  | nil => cases ys <;> simp [itemsEqual]
  | cons x xs ih => cases ys <;> simp [itemsEqual, ih]

theorem fieldsEqual_iff {fields others : List (String × Value)} :
    fieldsEqual fields others = true ↔ ∀ f ∈ fields, ∃ g, others.find? (fun g => g.1 = f.1) =
      some g ∧ valuesEqual f.2 g.2 = true := by
  induction fields with
  | nil => simp [fieldsEqual]
  | cons f fields ih =>
    obtain ⟨key, v⟩ := f
    rw [fieldsEqual, Bool.and_eq_true, ih, List.forall_mem_cons]
    apply and_congr_left'
    cases others.find? fun g => g.1 = key with
    | none => simp
    | some g => simp

/-- In an object that names each key once, a field is found under its key. -/
theorem find_of_once {fields : List (String × Value)} (once : (fields.map (·.1)).Nodup)
    {f : String × Value} (mem : f ∈ fields) : fields.find? (fun g => g.1 = f.1) = some f := by
  induction fields with
  | nil => cases mem
  | cons g fields ih =>
    rw [List.map_cons, List.nodup_cons] at once
    rcases List.mem_cons.mp mem with rfl | mem
    · simp
    · have apart : g.1 ≠ f.1 := by
        intro same
        exact once.1 (same ▸ List.mem_map_of_mem mem)
      rw [List.find?_cons_of_neg (by simpa using apart)]
      exact ih once.2 mem

/-- The keys of one object are the keys of the other where each is found there and there are as
many. -/
theorem keys_subset {fields others : List (String × Value)} (once : (fields.map (·.1)).Nodup)
    (count : fields.length = others.length)
    (found : ∀ f ∈ fields, f.1 ∈ others.map (·.1)) : ∀ g ∈ others, g.1 ∈ fields.map (·.1) := by
  have subset : fields.map (·.1) ⊆ others.map (·.1) := by
    intro key mem
    obtain ⟨f, member, rfl⟩ := List.mem_map.mp mem
    exact found f member
  have same : (fields.map (·.1)).Perm (others.map (·.1)) := by
    apply (List.subperm_of_subset once subset).perm_of_length_le
    rw [List.length_map, List.length_map]
    omega
  intro g mem
  exact same.mem_iff.mpr (List.mem_map_of_mem mem)

theorem valuesEqual_swap {v : Value} (keyed : v.Keyed) : ∀ {w : Value}, w.Keyed →
    valuesEqual v w = true → valuesEqual w v = true := by
  induction keyed with
  | int i => intro w _ equal; cases w <;> simp_all [valuesEqual]
  | float n =>
    intro w _ equal
    cases w with
    | float m =>
      rw [valuesEqual] at equal ⊢
      exact Decimal.beq_symm equal
    | _ => simp_all [valuesEqual]
  | str s => intro w _ equal; cases w <;> simp_all [valuesEqual]
  | bool b => intro w _ equal; cases w <;> simp_all [valuesEqual]
  | list n => intro w _ equal; cases w <;> simp_all [valuesEqual]
  | nil => intro w _ equal; cases w <;> simp_all [valuesEqual]
  | @array xs each ih =>
    intro w right equal
    cases right with
    | @array ys others =>
      rw [valuesEqual, itemsEqual_iff] at equal ⊢
      clear each
      induction equal with
      | nil => exact .nil
      | @cons x y xs ys head _ rest =>
        exact .cons (ih x List.mem_cons_self (others y List.mem_cons_self) head)
          (rest (fun x mem => ih x (List.mem_cons_of_mem _ mem))
            fun y mem => others y (List.mem_cons_of_mem _ mem))
    | _ => simp [valuesEqual] at equal
  | @object fields once each ih =>
    intro w right equal
    cases right with
    | @object others distinct keyed =>
      rw [valuesEqual, Bool.and_eq_true, beq_iff_eq, fieldsEqual_iff] at equal
      obtain ⟨count, found⟩ := equal
      rw [valuesEqual, Bool.and_eq_true, beq_iff_eq, fieldsEqual_iff]
      refine ⟨count.symm, ?_⟩
      intro g mem
      -- the key is one of the first object's, and what that object finds for it is this field
      have named : g.1 ∈ fields.map (·.1) := by
        apply keys_subset once count _ g mem
        intro f mem
        obtain ⟨g, held, -⟩ := found f mem
        have same : g.1 = f.1 := by simpa using List.find?_some held
        exact same ▸ List.mem_map_of_mem (List.mem_of_find?_eq_some held)
      obtain ⟨f, member, same⟩ := List.mem_map.mp named
      obtain ⟨g', held, equal⟩ := found f member
      rw [same, find_of_once distinct mem, Option.some.injEq] at held
      subst held
      refine ⟨f, ?_, ih f member (keyed g mem) equal⟩
      rw [← same]
      exact find_of_once once member
    | _ => simp [valuesEqual] at equal

/-- Equality is symmetric. -/
theorem valuesEqual_comm {v w : Value} (left : v.Keyed) (right : w.Keyed) :
    valuesEqual v w = valuesEqual w v := by
  rw [Bool.eq_iff_iff]
  exact ⟨valuesEqual_swap left right, valuesEqual_swap right left⟩

/-! ### What an operator answers -/

section

variable {escapes : Char → Bool} {regex : RegexBuilder} {debugExpr : Expr → String}

theorem yields_evalError {α : Type} {P : α → Prop} (message : String) :
    Yields P (evalError message : Eval α) := yields_refuse _

/-- After a message is worded, nothing is answered. -/
theorem yields_worded {α β : Type} {P : α → Prop} (x : Eval β) (message : β → String) :
    Yields P (x >>= fun text => evalError (message text) : Eval α) :=
  yields_bind fun _ _ => yields_evalError _

theorem yields_bool (x : Eval Bool) : Yields Value.Keyed (do
    let held ← x
    return .bool held) := yields_bind fun held _ => yields_pure (.bool held)

theorem keyed_finite (name symbol : String) (lhs rhs : Value) (result : Float.Model) :
    Yields Value.Keyed (finite escapes name symbol lhs rhs result) := by
  apply yields_ite
  · intro _
    exact yields_pure (.float result)
  · intro _
    exact yields_bind fun _ _ => yields_worded _ _

theorem keyed_fitting (name symbol : String) (l r : Int64) (result : Option Int64) :
    Yields Value.Keyed (fitting name symbol l r result) := by
  cases result with
  | some n => exact yields_pure (.int n)
  | none => exact yields_evalError _

theorem keyed_checkedOp (name symbol : String) (lhs rhs : Value)
    (intOp : Int64 → Int64 → Option Int64) (floatOp : Float.Model → Float.Model → Float.Model) :
    Yields Value.Keyed (checkedOp escapes name symbol lhs rhs intOp floatOp) := by
  unfold checkedOp
  split
  · exact keyed_fitting _ _ _ _ _
  · exact yields_bind fun _ _ => yields_bind fun _ _ => keyed_finite _ _ _ _ _

theorem keyed_divide (lhs rhs : Value) : Yields Value.Keyed (divide escapes lhs rhs) := by
  apply yields_bind
  intro r _
  apply yields_ite
  · intro _
    exact yields_evalError _
  · intro _
    split
    · exact yields_bind fun _ _ => keyed_fitting _ _ _ _ _
    · exact yields_bind fun _ _ => keyed_finite _ _ _ _ _

theorem keyed_modulo (receiver divisor : Value) :
    Yields Value.Keyed (Operators.modulo receiver divisor) := by
  apply yields_bind
  intro x _
  apply yields_bind
  intro y _
  apply yields_ite
  · intro _
    exact yields_evalError _
  · intro _
    split
    · exact yields_bind fun rest _ => yields_pure (.int rest)
    · exact yields_pure (.float _)

theorem keyed_signTest (op : Comparison) (v : Value) :
    Yields Value.Keyed (Operators.signTest escapes op v) :=
  yields_bind fun _ _ => yields_bool _

theorem keyed_includes (haystack wanted : Value) :
    Yields Value.Keyed (includes haystack wanted) := by
  unfold includes
  cases haystack with
  | array items => exact yields_pure (.bool _)
  | str text =>
    cases wanted with
    | str part => exact yields_pure (.bool _)
    | _ => exact yields_evalError _
  | _ => exact yields_pure (.bool _)

theorem keyed_empty (v : Value) : Yields Value.Keyed (Operators.empty v) := by
  unfold Operators.empty
  split
  · exact yields_pure (.bool _)
  · exact yields_pure (.bool _)
  · exact yields_pure (.bool _)
  · exact yields_worded _ _

theorem keyed_size (v : Value) : Yields Value.Keyed (Operators.size v) := by
  unfold Operators.size
  split
  · exact yields_pure (.int _)
  · exact yields_pure (.int _)
  · exact yields_pure (.int _)
  · exact yields_worded _ _

theorem keyed_toS (v : Value) : Yields Value.Keyed (Operators.toS v) := by
  unfold Operators.toS
  split
  · exact yields_pure (.str _)
  · exact yields_pure (.str _)
  · exact yields_bind fun text _ => yields_pure (.str text)
  · exact yields_pure (.str _)
  · exact yields_pure (.str _)
  · exact yields_worded _ _

theorem keyed_split (text separator : String) :
    Value.Keyed (.array (Operators.split text separator)) := by
  constructor
  intro v mem
  obtain ⟨part, -, rfl⟩ := List.mem_map.mp mem
  exact .str _

theorem mem_of_atEnd {α : Type} {takeFirst : Bool} {items : List α} {x : α}
    (held : atEnd takeFirst items = some x) : x ∈ items := by
  cases takeFirst with
  | true => exact List.mem_of_head? held
  | false => exact List.mem_of_getLast? held

theorem keyed_positionOf {op : String} {takeFirst : Bool} {v : Value} (keyed : v.Keyed) :
    Yields Value.Keyed (positionOf op takeFirst v) := by
  cases keyed with
  | @array items each =>
    apply yields_pure
    cases held : atEnd takeFirst items with
    | none => exact .nil
    | some x => exact each x (mem_of_atEnd held)
  | _ => exact yields_worded _ _

theorem keyed_fieldValue {op : String} {item : Option Field}
    (keyed : ∀ f, item = some f → f.Keyed) : Yields Value.Keyed (fieldValue item op) := by
  cases item with
  | none => exact yields_pure .nil
  | some f =>
    cases keyed f rfl with
    | value plain => exact yields_pure plain
    | nested object => exact yields_evalError _

/-! ### What a path reads -/

theorem keyed_stepValue {v : Value} (keyed : v.Keyed) (seg : String) :
    Yields Field.Keyed (Composite.stepValue v seg) := by
  unfold Composite.stepValue
  cases keyed with
  | @object fields once each =>
    apply yields_pure
    constructor
    cases held : fields.find? fun f => f.1 = seg with
    | none => exact .nil
    | some f => exact each f (List.mem_of_find?_eq_some held)
  | str text =>
    apply yields_pure
    constructor
    split
    · exact .str seg
    · exact .nil
  | nil => exact yields_pure (.value .nil)
  | float n => exact yields_pure (.value .nil)
  | bool b => exact yields_pure (.value .nil)
  | int i => exact yields_worded _ _
  | list n => exact yields_worded _ _
  | array each => exact yields_worded _ _

theorem keyed_walk (head : String) (segs : List String) {f : Field} (keyed : f.Keyed) :
    Yields Field.Keyed (Composite.walk escapes f head segs) := by
  induction segs generalizing f with
  | nil => exact yields_pure keyed
  | cons seg segs ih =>
    have stepped : Yields Field.Keyed (Composite.step escapes f seg head) := by
      cases keyed with
      | value keyed => exact keyed_stepValue keyed seg
      | nested keyed => exact yields_orRefuse fun _ held => keyed.ofField held
    exact stepped.bind fun _ keyed => ih keyed

theorem keyed_finish {f : Field} (keyed : f.Keyed) (path : String) :
    Yields Value.Keyed (Composite.finish f path) := by
  cases keyed with
  | value keyed => exact yields_pure keyed
  | nested keyed => exact yields_orRefuse fun _ held => keyed.ofScalar held

theorem keyed_project {item : Field} (keyed : item.Keyed) (path : List String) :
    Yields Value.Keyed (project escapes item path) :=
  (keyed_walk _ _ keyed).bind fun _ keyed => keyed_finish keyed _

variable {ctx : EvalContext}

theorem keyed_lookupHead (keyed : ctx.Keyed) (head : String) :
    Yields Field.Keyed (lookupHead escapes head ctx) := by
  apply yields_orRefuse
  intro f held
  rcases Option.or_eq_some_iff.mp held with held | ⟨-, held⟩
  · exact keyed.args.ofField held
  · exact keyed.instance'.ofField held

theorem keyed_lookup (keyed : ctx.Keyed) (path : String) :
    Yields Value.Keyed (lookup escapes path ctx) := by
  have read : Yields Field.Keyed (lookupField escapes path ctx) :=
    (keyed_lookupHead keyed _).bind fun _ keyed => keyed_walk _ _ keyed
  exact read.bind fun _ keyed => keyed_finish keyed _

theorem keyed_itemsOf {side : Fielded} (keyed : side.Keyed) (name op : String) :
    Yields (fun fs => ∀ f ∈ fs, Field.Keyed f) (itemsOf side name op) := by
  unfold itemsOf
  cases held : side.items name with
  | some items => exact yields_pure (keyed.ofItems held)
  | none => exact yields_worded _ _

theorem keyed_lookupItems (keyed : ctx.Keyed) (path op : String) :
    Yields (fun fs => ∀ f ∈ fs, Field.Keyed f) (lookupItems escapes path ctx op) := by
  unfold lookupItems
  dsimp only
  cases (pathSegments path).2.getLast? with
  | none =>
    apply keyed_itemsOf
    split
    · exact keyed.args
    · exact keyed.instance'
  | some last =>
    apply (keyed_lookupHead keyed _).bind
    intro f keyed
    apply (keyed_walk _ _ keyed).bind
    intro f keyed
    cases keyed with
    | nested keyed => exact keyed_itemsOf keyed _ _
    | value keyed => exact yields_evalError _

theorem keyed_elements {receiver : Expr} {op : String} {eval : Unit → Eval Value}
    (keyed : ctx.Keyed) :
    Yields (fun fs => ∀ f ∈ fs, Field.Keyed f) (elements escapes receiver ctx op eval) := by
  unfold elements
  split
  · exact keyed_lookupItems keyed _ _
  · exact yields_bind fun _ _ => yields_worded _ _

theorem keyed_sumItems {eval : Field → Eval Value} {total : Value} (keyed : total.Keyed)
    (items : List Field) : Yields Value.Keyed (sumItems escapes eval items total) := by
  induction items generalizing total with
  | nil => exact yields_pure keyed
  | cons item items ih =>
    apply yields_bind
    intro v _
    exact (keyed_checkedOp _ _ _ _ _ _).bind fun total keyed => ih keyed

theorem keyed_findItem {eval : Field → Eval Value} {items : List Field} :
    Yields (fun found => ∀ f, found = some f → f ∈ items) (findItem eval items) := by
  induction items with
  | nil =>
    apply yields_pure
    intro f held
    cases held
  | cons item items ih =>
    apply yields_bind
    intro accepted _
    apply yields_ite
    · intro _
      apply yields_pure
      intro f held
      cases held
      exact List.mem_cons_self
    · intro _
      exact ih.mono fun found sub f held => List.mem_cons_of_mem _ (sub f held)

/-! ### The interpreter -/

theorem keyed_ends {op : String} {takeFirst : Bool} {receiver : Expr} {eval : Unit → Eval Value}
    (keyed : ctx.Keyed) (read : Yields Value.Keyed (eval ())) :
    Yields Value.Keyed (ends escapes op takeFirst receiver ctx eval) := by
  unfold ends
  split
  · apply (keyed_lookupItems keyed _ _).bind
    intro items keyed
    exact keyed_fieldValue fun f held => keyed f (mem_of_atEnd held)
  · exact read.bind fun v keyed => keyed_positionOf keyed

mutual

/-- Over a context whose objects name each key once, every expression evaluates to such a
value. -/
theorem keyed_interpret : (expr : Expr) → ∀ {ctx : EvalContext}, ctx.Keyed →
    Yields Value.Keyed (interpret escapes regex debugExpr expr ctx)
  | .int v, _, _ => by
    rw [interpret]
    exact yields_pure (.int v)
  | .float v, _, _ => by
    rw [interpret]
    exact yields_pure (.float v)
  | .str v, _, _ => by
    rw [interpret]
    exact yields_pure (.str v)
  | .bool v, _, _ => by
    rw [interpret]
    exact yields_pure (.bool v)
  | .nil, _, _ => by
    rw [interpret]
    exact yields_pure .nil
  | .lookup path, _, keyed => by
    rw [interpret]
    exact keyed_lookup keyed path
  | .or l r, _, _ => by
    rw [interpret_or]
    apply yields_bind
    intro v _
    apply yields_ite
    · exact fun _ => yields_pure (.bool true)
    · exact fun _ => yields_bind fun w _ => yields_pure (.bool _)
  | .and l r, _, _ => by
    rw [interpret_and]
    apply yields_bind
    intro v _
    apply yields_ite
    · exact fun _ => yields_pure (.bool false)
    · exact fun _ => yields_bind fun w _ => yields_pure (.bool _)
  | .not e, _, _ => by
    rw [interpret_not]
    exact yields_bind fun v _ => yields_pure (.bool _)
  | .compare op l r, _, _ => by
    rw [interpret_compare]
    exact yields_bind fun _ _ => yields_bind fun _ _ => yields_bool _
  | .include haystack needle, _, _ => by
    rw [interpret_include]
    exact yields_bind fun _ _ => yields_bind fun _ _ => keyed_includes _ _
  | .add l r, _, _ => by
    rw [interpret_add]
    exact yields_bind fun _ _ => yields_bind fun _ _ => keyed_checkedOp _ _ _ _ _ _
  | .sub l r, _, _ => by
    rw [interpret_sub]
    exact yields_bind fun _ _ => yields_bind fun _ _ => keyed_checkedOp _ _ _ _ _ _
  | .mul l r, _, _ => by
    rw [interpret_mul]
    exact yields_bind fun _ _ => yields_bind fun _ _ => keyed_checkedOp _ _ _ _ _ _
  | .div l r, _, _ => by
    rw [interpret_div]
    exact yields_bind fun _ _ => yields_bind fun _ _ => keyed_divide _ _
  | .modulo r d, _, _ => by
    rw [interpret_modulo]
    exact yields_bind fun _ _ => yields_bind fun _ _ => keyed_modulo _ _
  | .signTest op e, _, _ => by
    rw [interpret_signTest]
    exact yields_bind fun _ _ => keyed_signTest _ _
  | .empty e, _, _ => by
    rw [interpret_empty]
    exact yields_bind fun _ _ => keyed_empty _
  | .size e, _, _ => by
    rw [interpret_size]
    exact yields_bind fun _ _ => keyed_size _
  | .toS e, _, _ => by
    rw [interpret_toS]
    exact yields_bind fun _ _ => keyed_toS _
  | .matchesRegex e pattern flags, _, _ => by
    rw [interpret_matchesRegex]
    exact yields_bind fun _ _ => yields_bind fun _ _ => yields_bind fun _ _ => yields_pure (.bool _)
  | .presence e negated, _, _ => by
    rw [interpret_presence]
    exact yields_bind fun _ _ => yields_pure (.bool _)
  | .assignment e negated, _, _ => by
    rw [interpret_assignment]
    exact yields_bind fun _ _ => yields_pure (.bool _)
  | .split e separator, _, _ => by
    rw [interpret_split]
    exact yields_bind fun _ _ => yields_bind fun text _ => yields_pure (keyed_split text separator)
  | .strip e side, _, _ => by
    rw [interpret_strip]
    exact yields_bind fun _ _ => yields_bind fun _ _ => yields_pure (.str _)
  | .startsWith e substring, _, _ => by
    rw [interpret_startsWith]
    exact yields_bind fun _ _ => yields_bind fun _ _ => yields_pure (.bool _)
  | .endsWith e substring, _, _ => by
    rw [interpret_endsWith]
    exact yields_bind fun _ _ => yields_bind fun _ _ => yields_pure (.bool _)
  | .first e, _, keyed => by
    rw [interpret_first]
    exact keyed_ends keyed (keyed_interpret e keyed)
  | .last e, _, keyed => by
    rw [interpret_last]
    exact keyed_ends keyed (keyed_interpret e keyed)
  | .blockPredicate mode receiver param predicate, _, _ => by
    rw [interpret_blockPredicate]
    exact yields_bind fun _ _ => yields_bind fun _ _ => yields_pure (.bool _)
  | .sum receiver param predicate, _, _ => by
    rw [interpret_sum]
    exact yields_bind fun items _ => keyed_sumItems (.int 0) items
  | .find receiver param predicate path, _, keyed => by
    rw [interpret_find]
    apply (keyed_elements keyed).bind
    intro items keyed
    apply keyed_findItem.bind
    intro found listed
    cases found with
    | none => exact yields_pure .nil
    | some item => exact keyed_project (keyed item (listed item rfl)) path
  | .array items, _, keyed => by
    rw [interpret_array]
    exact (yields_mapM (keyed_interpretAll items keyed)).bind fun _ each => yields_pure (.array each)

theorem keyed_interpretAll : (items : List Expr) → ∀ {ctx : EvalContext}, ctx.Keyed →
    ∀ e ∈ items, Yields Value.Keyed (interpret escapes regex debugExpr e ctx)
  | [], _, _, e, mem => absurd mem List.not_mem_nil
  | item :: items, _, keyed, e, mem => by
    rcases List.mem_cons.mp mem with same | mem
    · rw [same]
      exact keyed_interpret item keyed
    · exact keyed_interpretAll items keyed e mem

end

end

end Hecks
