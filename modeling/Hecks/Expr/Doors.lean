import Hecks.Expr.Safety

/-! Two doors to one document: a surface that reads a list as its length and knows no plain
value of an object, and a surface that reads a list as its elements. An expression comes to the
same through both where it never asks for what only one of them can tell. -/
namespace Hecks

open Panics Operators

/-! ### Values and fields read through two doors -/

/-- Two readings of one value: the same, or a list's length and its elements. -/
inductive Value.Like : Value → Value → Prop
  | same (v : Value) : Value.Like v v
  | list (items : List Value) : Value.Like (.list items.length) (.array items)
  | array {xs ys : List Value} (each : List.Forall₂ Value.Like xs ys) :
      Value.Like (.array xs) (.array ys)

mutual

inductive Field.Like : Field → Field → Prop
  | value {v w : Value} (values : Value.Like v w) : Field.Like (.value v) (.value w)
  | nested {k h : Fielded} (objects : Fielded.Like k h) : Field.Like (.nested k) (.nested h)

/-- The second object may answer nil for a field the first one lacks, and may read as a value
where the first one does not. -/
inductive Fielded.Like : Fielded → Fielded → Prop
  | mk {k h : Fielded} (other : String → Field) (others : String → List Field)
      (field : ∀ name f, k.field name = some f → h.field name = some (other name))
      (fields : ∀ name f, k.field name = some f → Field.Like f (other name))
      (lacks : ∀ name, k.field name = none →
        h.field name = none ∨ h.field name = some (.value .nil))
      (list : ∀ name items, k.items name = some items → h.items name = some (others name))
      (lists : ∀ name items, k.items name = some items →
        List.Forall₂ Field.Like items (others name))
      (noList : ∀ name, k.items name = none → h.items name = none)
      (scalar : ∀ v, k.asScalar = some v →
        ∃ w, h.asScalar.or h.toValue = some w ∧ Value.Like v w) :
      Fielded.Like k h

end

/-- The heads of paths: where the first door finds nothing, neither does the second. -/
structure Fielded.Heads (k h : Fielded) : Prop where
  like : Fielded.Like k h
  lacks : ∀ name, k.field name = none → h.field name = none

structure EvalContext.Like (c d : EvalContext) : Prop where
  args : Fielded.Heads c.args d.args
  instance' : Fielded.Heads c.instance' d.instance'

def Value.IsList : Value → Prop
  | .list _ | .array _ => True
  | _ => False

/-- No list is read as its length anywhere in the value. -/
inductive Value.Plain : Value → Prop
  | int (i : Int64) : Value.Plain (.int i)
  | float (n : Float.Model) : Value.Plain (.float n)
  | str (s : String) : Value.Plain (.str s)
  | bool (b : Bool) : Value.Plain (.bool b)
  | nil : Value.Plain .nil
  | object (fields : List (String × Value)) : Value.Plain (.object fields)
  | array {xs : List Value} (each : ∀ x ∈ xs, Value.Plain x) : Value.Plain (.array xs)

theorem Value.Like.cases {v w : Value} (like : Value.Like v w) :
    v = w ∨ (v.IsList ∧ w.IsList) := by
  cases like with
  | same => exact .inl rfl
  | list items => exact .inr ⟨trivial, trivial⟩
  | array each => exact .inr ⟨trivial, trivial⟩

theorem Value.Like.truthy {v w : Value} (like : Value.Like v w) : v.truthy = w.truthy := by
  cases like <;> rfl

theorem Value.Like.isNil {v w : Value} (like : Value.Like v w) : isNil v = isNil w := by
  cases like <;> rfl

theorem Value.Like.eq_of_plain {v w : Value} (like : Value.Like v w) (plain : v.Plain) :
    v = w := by
  induction plain generalizing w with
  | array each ih =>
    cases like with
    | same => rfl
    | array related =>
      congr 1
      induction related with
      | nil => rfl
      | cons head _ tail =>
        rw [ih _ List.mem_cons_self head, tail (fun x mem => each x (List.mem_cons_of_mem _ mem))
          fun x mem => ih x (List.mem_cons_of_mem _ mem)]
  | _ => cases like; rfl

/-! ### Operators on two readings -/

section

variable {escapes : Char → Bool} {α : Type} {v w v' w' : Value}

/-- Two evaluations of one expression: like values, or a fault each. -/
abbrev Alike (x y : Eval Value) : Prop := Agree IsFault Value.Like x y

theorem refuses_evalError (message : String) :
    Refuses IsFault (evalError message : Eval α) := refuses_refuse ⟨message, rfl⟩

/-- An operator no list is an operand of. -/
theorem agree_of_scalar {R : α → α → Prop} {op : Value → Eval α} (like : Value.Like v w)
    (settles : ∀ v, Settles IsFault (op v)) (list : ∀ v, v.IsList → Refuses IsFault (op v))
    (refl : ∀ a, R a a) : Agree IsFault R (op v) (op w) := by
  rcases like.cases with rfl | ⟨left, right⟩
  · exact (settles v).agree refl
  · exact agree_refuses (list v left) (list w right)

/-- An operator of two operands, neither a list. -/
theorem agree_of_scalars {R : α → α → Prop} {op : Value → Value → Eval α}
    (left : Value.Like v w) (right : Value.Like v' w')
    (settles : ∀ v w, Settles IsFault (op v w))
    (list : ∀ v w, v.IsList ∨ w.IsList → Refuses IsFault (op v w)) (refl : ∀ a, R a a) :
    Agree IsFault R (op v v') (op w w') := by
  rcases left.cases with rfl | ⟨first, second⟩
  · exact agree_of_scalar right (settles v) (fun w lists => list v w (.inr lists)) refl
  · exact agree_refuses (list v v' (.inl first)) (list w w' (.inl second))

theorem numeric_list (list : v.IsList) : numeric v = none := by
  cases v <;> first | rfl | exact list.elim

theorem refuses_requireNumber {operation : String} (none : numeric v = none) :
    Refuses IsFault (requireNumber v operation) := by
  unfold requireNumber
  rw [none]
  exact (Rendering.settles_describe v).refuses_bind fun _ _ => refuses_evalError _

theorem refuses_requireStr {operation : String} (list : v.IsList) :
    Refuses IsFault (requireStr v operation) := by
  cases v with
  | list n => exact (Rendering.settles_describe _).refuses_bind fun _ _ => refuses_evalError _
  | array items => exact (Rendering.settles_describe _).refuses_bind fun _ _ => refuses_evalError _
  | _ => exact list.elim

theorem refuses_number {operation : String} {f : Float.Model → Eval α} (none : numeric v = none) :
    Refuses IsFault (requireNumber v operation >>= f) := (refuses_requireNumber none).bind

theorem refuses_checkedOp {name symbol : String} {intOp : Int64 → Int64 → Option Int64}
    {floatOp : Float.Model → Float.Model → Float.Model} (list : v.IsList ∨ w.IsList) :
    Refuses IsFault (checkedOp escapes name symbol v w intOp floatOp) := by
  have floats : Refuses IsFault (do
      let l ← requireNumber v name
      let r ← requireNumber w name
      finite escapes name symbol v w (floatOp l r) : Eval Value) := by
    rcases list with left | right
    · exact refuses_number (numeric_list left)
    · exact (settles_requireNumber v name).refuses_bind fun _ _ =>
        refuses_number (numeric_list right)
  unfold checkedOp
  split
  · exact absurd list (by simp [Value.IsList])
  · exact floats

theorem refuses_divide (list : v.IsList ∨ w.IsList) :
    Refuses IsFault (divide escapes v w) := by
  rcases list with left | right
  · apply (settles_requireNumber w _).refuses_bind
    intro r _
    by_cases zero : (r == zero) = true
    · rw [if_pos zero]
      exact refuses_evalError _
    · rw [if_neg zero]
      cases v with
      | list n => exact refuses_number rfl
      | array items => exact refuses_number rfl
      | _ => exact left.elim
  · exact refuses_number (numeric_list right)

theorem refuses_modulo (list : v.IsList ∨ w.IsList) : Refuses IsFault (Operators.modulo v w) := by
  rcases list with left | right
  · exact refuses_number (numeric_list left)
  · exact (settles_requireNumber v _).refuses_bind fun _ _ => refuses_number (numeric_list right)

theorem refuses_lessThan (list : v.IsList ∨ w.IsList) :
    Refuses IsFault (lessThan escapes v w) := by
  have failed : Refuses IsFault (do
      let text ← describeOperand escapes w
      evalError ("comparison of " ++ Rendering.classOf v ++ " with " ++ text ++ " failed") :
        Eval Bool) :=
    (settles_describeOperand w).refuses_bind fun _ _ => refuses_evalError _
  unfold lessThan
  split
  next l r =>
    rcases list with left | right
    · rw [numeric_list left] at l
      cases l
    · rw [numeric_list right] at r
      cases r
  · split
    · exact absurd list (by simp [Value.IsList])
    · exact failed

/-- A comparison that asks only which is less has no list for an operand, and one that asks for
equality compares values that both doors read the same. -/
theorem agree_compare {op : Comparison} (left : Value.Like v w) (right : Value.Like v' w')
    (plain : op.equal = true → op.lessThan = false → v.Plain ∧ v'.Plain) :
    Agree IsFault Eq (Operators.compare escapes op v v') (Operators.compare escapes op w w') := by
  by_cases less : op.lessThan = true
  · apply agree_of_scalars left right (settles_compare op)
    · intro v w list
      unfold Operators.compare
      rw [if_pos less]
      exact (refuses_lessThan list).bind
    · exact fun _ => rfl
  · rw [Bool.not_eq_true] at less
    by_cases equal : op.equal = true
    · have both := plain equal less
      obtain rfl := left.eq_of_plain both.1
      obtain rfl := right.eq_of_plain both.2
      exact (settles_compare op _ _).agree fun _ => rfl
    · rw [Bool.not_eq_true] at equal
      simp only [Operators.compare, less, equal, Bool.false_eq_true, if_false, Bool.false_and]
      exact agree_pure rfl

theorem agree_signTest {op : Comparison} (like : Value.Like v w) :
    Alike (Operators.signTest escapes op v) (Operators.signTest escapes op w) :=
  agree_of_scalar like (settles_signTest op) (fun _ list => refuses_number (numeric_list list))
    Value.Like.same

theorem refuses_toS (list : v.IsList) : Refuses IsFault (Operators.toS v) := by
  cases v with
  | list n => exact (Rendering.settles_describe _).refuses_bind fun _ _ => refuses_evalError _
  | array items => exact (Rendering.settles_describe _).refuses_bind fun _ _ => refuses_evalError _
  | _ => exact list.elim

theorem refuses_matchesRegex {regex : RegexBuilder} {pattern flags : String} (list : v.IsList) :
    Refuses IsFault (Operators.matchesRegex regex v pattern flags) := by
  cases v with
  | list n => exact (refuses_evalError _).bind
  | array items => exact (refuses_evalError _).bind
  | _ => exact list.elim

/-- Inclusion in a list that both doors read the same, of a value that they do. -/
theorem agree_includes (left : Value.Like v w) (right : Value.Like v' w') (plain : v.Plain)
    (wanted : v.IsList → v'.Plain) : Alike (includes v v') (includes w w') := by
  obtain rfl := left.eq_of_plain plain
  rcases right.cases with rfl | ⟨first, second⟩
  · exact (settles_includes _ _).agree Value.Like.same
  · cases v with
    | array items =>
      obtain rfl := right.eq_of_plain (wanted trivial)
      exact (settles_includes _ _).agree Value.Like.same
    | str text =>
      apply agree_refuses
      · cases v' <;> first | exact refuses_evalError _ | exact first.elim
      · cases w' <;> first | exact refuses_evalError _ | exact second.elim
    | _ => exact agree_pure (.same _)

theorem agree_empty (like : Value.Like v w) : Alike (Operators.empty v) (Operators.empty w) := by
  cases like with
  | same => exact (settles_empty v).agree Value.Like.same
  | list items =>
    have same : (items.length == 0) = items.isEmpty := by cases items <;> rfl
    rw [Operators.empty, Operators.empty, same]
    exact agree_pure (.same _)
  | array each =>
    have same := each.length_eq
    cases each <;> exact agree_pure (.same _)

theorem agree_size (like : Value.Like v w) : Alike (Operators.size v) (Operators.size w) := by
  cases like with
  | same => exact (settles_size v).agree Value.Like.same
  | list items => exact agree_pure (.same _)
  | array each =>
    rw [Operators.size, Operators.size, each.length_eq]
    exact agree_pure (.same _)

/-- Both doors find a value blank, unless it is a list and empty. -/
theorem blank_eq (like : Value.Like v w) (listed : v ≠ .list 0) : blank v = blank w := by
  cases like with
  | same => rfl
  | list items =>
    cases items with
    | nil => exact absurd rfl listed
    | cons => rfl
  | array each => cases each <;> rfl

theorem agree_atEnd {R : α → α → Prop} {xs ys : List α} (each : List.Forall₂ R xs ys)
    (takeFirst : Bool) :
    (atEnd takeFirst xs = none ∧ atEnd takeFirst ys = none) ∨
      ∃ x y, atEnd takeFirst xs = some x ∧ atEnd takeFirst ys = some y ∧ R x y := by
  cases takeFirst with
  | true =>
    cases each with
    | nil => exact .inl ⟨rfl, rfl⟩
    | cons head _ => exact .inr ⟨_, _, rfl, rfl, head⟩
  | false =>
    have backwards := List.rel_reverse each
    simp only [atEnd, Bool.false_eq_true, if_false, ← List.head?_reverse]
    generalize xs.reverse = front, ys.reverse = back at backwards
    cases backwards with
    | nil => exact .inl ⟨rfl, rfl⟩
    | cons head _ => exact .inr ⟨_, _, rfl, rfl, head⟩

theorem agree_positionOf {op : String} {takeFirst : Bool} (like : Value.Like v w)
    (listed : ∀ n, v ≠ .list n) :
    Alike (positionOf op takeFirst v) (positionOf op takeFirst w) := by
  cases like with
  | same => exact (settles_positionOf op takeFirst v).agree Value.Like.same
  | list items => exact absurd rfl (listed items.length)
  | array each =>
    rcases agree_atEnd each takeFirst with ⟨first, second⟩ | ⟨x, y, first, second, like⟩
    · rw [positionOf, positionOf, first, second]
      exact agree_pure (.same _)
    · rw [positionOf, positionOf, first, second]
      exact agree_pure like

/-! ### Paths -/

/-- Every name the path asks of an object is one the object has. -/
def Walkable : Field → List String → Prop
  | _, [] => True
  | .value _, _ :: _ => True
  | .nested obj, seg :: segs => ∃ f, obj.field seg = some f ∧ Walkable f segs

/-- The path ends on a value, or on an object that reads as one value. -/
def Ends (field : Field) : Prop :=
  match field with
  | .value _ => True
  | .nested obj => obj.asScalar.isSome = true

theorem refuses_stepValue {seg : String} (list : v.IsList) :
    Refuses IsFault (Composite.stepValue v seg) := by
  cases v with
  | list n => exact (Rendering.settles_describe _).refuses_bind fun _ _ => refuses_evalError _
  | array items => exact (Rendering.settles_describe _).refuses_bind fun _ _ => refuses_evalError _
  | _ => exact list.elim

/-- A step off a value comes to a value. -/
theorem stepValue_value {seg : String} {f : Field} (read : Composite.stepValue v seg = .ok f) :
    ∃ w, f = .value w := by
  cases v with
  | int i =>
    obtain ⟨e, refused, -⟩ : Refuses IsFault (Composite.stepValue (.int i) seg) :=
      (Rendering.settles_describe _).refuses_bind fun _ _ => refuses_evalError _
    rw [refused] at read
    cases read
  | list n =>
    obtain ⟨e, refused, -⟩ := @refuses_stepValue (.list n) seg trivial
    rw [refused] at read
    cases read
  | array items =>
    obtain ⟨e, refused, -⟩ := @refuses_stepValue (.array items) seg trivial
    rw [refused] at read
    cases read
  | _ =>
    cases read
    exact ⟨_, rfl⟩

theorem agree_stepValue {seg : String} (like : Value.Like v w) :
    Agree IsFault Field.Like (Composite.stepValue v seg) (Composite.stepValue w seg) := by
  rcases like.cases with rfl | ⟨left, right⟩
  · rcases (settles_stepValue v seg).cases with ⟨f, read⟩ | ⟨e, refused, fault⟩
    · obtain ⟨w, rfl⟩ := stepValue_value read
      rw [read]
      exact agree_ok (.value (.same w))
    · rw [refused]
      exact agree_refuses (refuses_refuse fault) (refuses_refuse fault)
  · exact agree_refuses (refuses_stepValue left) (refuses_stepValue right)

theorem agree_walk {head : String} {segs : List String} {f g : Field} (like : Field.Like f g)
    (walkable : Walkable f segs) :
    Agree IsFault Field.Like (Composite.walk escapes f head segs)
      (Composite.walk escapes g head segs) := by
  induction segs generalizing f g with
  | nil => exact agree_pure like
  | cons seg segs ih =>
    cases like with
    | value values =>
      apply (agree_stepValue values).bind
      intro f g read next
      obtain ⟨w, rfl⟩ := stepValue_value read
      exact ih next (by cases segs <;> trivial)
    | nested objects =>
      cases objects with
      | mk other others field fields =>
        obtain ⟨f, found, rest⟩ := walkable
        have step : ∀ {obj : Fielded} {f : Field}, obj.field seg = some f →
            Composite.step escapes (.nested obj) seg head = .ok f := by
          intro obj f found
          rw [Composite.step, found]
          rfl
        rw [Composite.walk, Composite.walk, step found, step (field _ _ found)]
        exact ih (fields _ _ found) rest

theorem agree_finish {path : String} {f g : Field} (like : Field.Like f g) (ends : Ends f) :
    Alike (Composite.finish f path) (Composite.finish g path) := by
  cases like with
  | value values => exact agree_pure values
  | nested objects =>
    cases objects with
    | mk other others field fields lacks list lists noList scalar =>
      obtain ⟨v, reads⟩ := Option.isSome_iff_exists.mp ends
      obtain ⟨w, second, like⟩ := scalar v reads
      rw [Composite.finish, Composite.finish, reads, second]
      exact agree_pure like

theorem Fielded.Heads.field {k h : Fielded} (heads : Fielded.Heads k h) (name : String) :
    (k.field name = none ∧ h.field name = none) ∨
      ∃ f g, k.field name = some f ∧ h.field name = some g ∧ Field.Like f g := by
  cases found : k.field name with
  | none => exact .inl ⟨rfl, heads.lacks name found⟩
  | some f =>
    obtain ⟨other, others, field, fields⟩ := heads.like
    exact .inr ⟨f, _, rfl, field name f found, fields name f found⟩

/-- Both doors resolve the head of a path, or neither does. -/
theorem agree_lookupHead {c d : EvalContext} (like : c.Like d) (head : String) :
    Agree IsFault Field.Like (lookupHead escapes head c) (lookupHead escapes head d) := by
  unfold lookupHead
  rcases like.args.field head with ⟨first, second⟩ | ⟨f, g, first, second, fields⟩
  · rcases like.instance'.field head with ⟨third, fourth⟩ | ⟨f, g, third, fourth, fields⟩
    · rw [first, second, third, fourth]
      exact agree_refuses (refuses_refuse ⟨_, rfl⟩) (refuses_refuse ⟨_, rfl⟩)
    · rw [first, second, third, fourth]
      exact agree_pure fields
  · rw [first, second]
    exact agree_pure fields

/-- The path asks each object it comes to for a field the object has. -/
def Reaches (escapes : Char → Bool) (path : String) (c : EvalContext) : Prop :=
  ∀ f, lookupHead escapes (pathSegments path).1 c = .ok f → Walkable f (pathSegments path).2

theorem agree_lookupField {c d : EvalContext} (like : c.Like d) {path : String}
    (reaches : Reaches escapes path c) :
    Agree IsFault Field.Like (lookupField escapes path c) (lookupField escapes path d) :=
  (agree_lookupHead like _).bind fun f _ found fields => agree_walk fields (reaches f found)

/-- The path reaches its end, and can be read there. -/
structure PathReads (escapes : Char → Bool) (path : String) (c : EvalContext) : Prop where
  reaches : Reaches escapes path c
  ends : ∀ f, lookupField escapes path c = .ok f → Ends f

theorem agree_lookup {c d : EvalContext} (like : c.Like d) {path : String}
    (reads : PathReads escapes path c) :
    Alike (lookup escapes path c) (lookup escapes path d) :=
  (agree_lookupField like reads.reaches).bind fun f _ found fields =>
    agree_finish fields (reads.ends f found)

/-! ### Lists -/

theorem agree_itemsOf {k h : Fielded} (like : Fielded.Like k h) (name op : String) :
    Agree IsFault (List.Forall₂ Field.Like) (itemsOf k name op) (itemsOf h name op) := by
  have unlisted : ∀ side : Fielded, side.items name = none →
      Refuses IsFault (itemsOf side name op) := by
    intro side none
    unfold itemsOf
    rw [none]
    exact (settles_describeField _).refuses_bind fun _ _ => refuses_evalError _
  obtain ⟨other, others, field, fields, lacks, list, lists, noList⟩ := like
  cases found : k.items name with
  | none => exact agree_refuses (unlisted k found) (unlisted h (noList name found))
  | some items =>
    rw [itemsOf, itemsOf, found, list name items found]
    exact agree_pure (lists name items found)

/-- The last step of a path to a list. -/
def lastItems (escapes : Char → Bool) (path last op : String) (current : Field) :
    Eval (List Field) :=
  match current with
  | .nested obj => itemsOf obj last op
  | .value v =>
      evalError (path ++ " — cannot look up " ++ Text.debugStr escapes last ++ " on scalar " ++
        Rendering.debugValue escapes v)

/-- No list is found off a value. -/
theorem refuses_walk_value {path head last op : String} (segs : List String) (v : Value) :
    Refuses IsFault (Composite.walk escapes (.value v) head segs >>=
      lastItems escapes path last op) := by
  induction segs generalizing v with
  | nil => exact refuses_evalError _
  | cons seg segs ih =>
    rw [Composite.walk, bind_assoc]
    apply (settles_stepValue v seg).refuses_bind
    intro f read
    obtain ⟨w, rfl⟩ := stepValue_value read
    exact ih w

/-- A path to a list needs no care: where one door misses a field, the other comes to nil, and
nil has no elements. -/
theorem agree_walk_items {path head last op : String} {segs : List String} {f g : Field}
    (like : Field.Like f g) :
    Agree IsFault (List.Forall₂ Field.Like)
      (Composite.walk escapes f head segs >>= lastItems escapes path last op)
      (Composite.walk escapes g head segs >>= lastItems escapes path last op) := by
  induction segs generalizing f g with
  | nil =>
    cases like with
    | value values => exact agree_refuses (refuses_evalError _) (refuses_evalError _)
    | nested objects => exact agree_itemsOf objects last op
  | cons seg segs ih =>
    cases like with
    | value values =>
      exact agree_refuses (refuses_walk_value _ _) (refuses_walk_value _ _)
    | @nested k h objects =>
      rw [Composite.walk, Composite.walk, bind_assoc, bind_assoc, Composite.step, Composite.step]
      obtain ⟨other, others, field, fields, lacks⟩ := objects
      cases found : k.field seg with
      | none =>
        have first : Refuses IsFault (orRefuse (none : Option Field) (.fault ("cannot resolve " ++
            Text.debugStr escapes seg ++ " on " ++ Text.debugStr escapes head))) :=
          refuses_refuse ⟨_, rfl⟩
        rcases lacks seg found with second | second
        · rw [second]
          exact agree_refuses first.bind first.bind
        · rw [second]
          exact agree_refuses first.bind (refuses_walk_value segs .nil)
      | some f =>
        rw [field seg f found]
        exact ih (fields seg f found)

theorem agree_lookupItems {c d : EvalContext} (like : c.Like d) (path op : String) :
    Agree IsFault (List.Forall₂ Field.Like) (lookupItems escapes path c op)
      (lookupItems escapes path d op) := by
  unfold lookupItems
  dsimp only
  cases (pathSegments path).2.getLast? with
  | none =>
    dsimp only
    rcases like.args.field (pathSegments path).1 with ⟨first, second⟩ | ⟨f, g, first, second, -⟩
    · simp only [first, second, Option.isSome_none, Bool.false_eq_true, if_false]
      exact agree_itemsOf like.instance'.like _ _
    · simp only [first, second, Option.isSome_some, if_true]
      exact agree_itemsOf like.args.like _ _
  | some last =>
    apply (agree_lookupHead like _).bind
    intro f g _ fields
    exact agree_walk_items fields

theorem agree_fieldValue {op : String} {f g : Option Field}
    (like : (f = none ∧ g = none) ∨ ∃ x y, f = some x ∧ g = some y ∧ Field.Like x y) :
    Alike (fieldValue f op) (fieldValue g op) := by
  rcases like with ⟨rfl, rfl⟩ | ⟨x, y, rfl, rfl, like⟩
  · exact agree_pure (.same _)
  · cases like with
    | value values => exact agree_pure values
    | nested objects => exact agree_refuses (refuses_evalError _) (refuses_evalError _)

theorem agree_sumItems {f g : Field → Eval Value} {xs ys : List Field} {total total' : Value}
    (items : List.Forall₂ Field.Like xs ys) (like : Value.Like total total')
    (each : ∀ x ∈ xs, ∀ y, Field.Like x y → Alike (f x) (g y)) :
    Alike (sumItems escapes f xs total) (sumItems escapes g ys total') := by
  induction items generalizing total total' with
  | nil => exact agree_pure like
  | @cons x y xs ys head _ ih =>
    apply (each x List.mem_cons_self y head).bind
    intro v w _ values
    have added : Alike (Operators.sum escapes total v) (Operators.sum escapes total' w) :=
      agree_of_scalars like values (fun _ _ => settles_checkedOp _ _ _ _ _ _)
        (fun _ _ => refuses_checkedOp) .same
    apply added.bind
    intro total total' _ like
    exact ih like fun x mem => each x (List.mem_cons_of_mem _ mem)

/-- An element the test accepts. -/
def Accepted (test : Field → Eval Value) (x : Field) : Prop :=
  ∃ v, test x = .ok v ∧ v.truthy = true

/-- The same element is the first one accepted, or none is. -/
theorem agree_findItem {f g : Field → Eval Value} {xs ys : List Field}
    (items : List.Forall₂ Field.Like xs ys)
    (each : ∀ x ∈ xs, ∀ y, Field.Like x y → Alike (f x) (g y)) :
    Agree IsFault (fun found found' => (found = none ∧ found' = none) ∨
        ∃ x y, found = some x ∧ found' = some y ∧ x ∈ xs ∧ Accepted f x ∧ Field.Like x y)
      (findItem f xs) (findItem g ys) := by
  induction items with
  | nil => exact agree_pure (.inl ⟨rfl, rfl⟩)
  | @cons x y xs ys head _ ih =>
    apply (each x List.mem_cons_self y head).bind
    intro v w tested like
    rw [← like.truthy]
    by_cases accepted : v.truthy = true
    · rw [if_pos accepted, if_pos accepted]
      exact agree_pure (.inr ⟨x, y, rfl, rfl, List.mem_cons_self, ⟨v, tested, accepted⟩, head⟩)
    · rw [if_neg accepted, if_neg accepted]
      apply (ih fun x mem => each x (List.mem_cons_of_mem _ mem)).mono
      rintro found found' (none | ⟨x, y, first, second, mem, accepted, like⟩)
      · exact .inl none
      · exact .inr ⟨x, y, first, second, List.mem_cons_of_mem _ mem, accepted, like⟩

theorem agree_project {x y : Field} {path : List String} (like : Field.Like x y)
    (walkable : Walkable x path)
    (ends : ∀ f, Composite.walk escapes x "find" path = .ok f → Ends f) :
    Alike (project escapes x path) (project escapes y path) :=
  (agree_walk like walkable).bind fun f _ found fields => agree_finish fields (ends f found)

theorem Fielded.bound_field (param : String) (x : Field) (k : Fielded) (name : String) :
    (Fielded.bound param x k).field name = if name = param then some x else k.field name := rfl

theorem Fielded.bound_items (param : String) (x : Field) (k : Fielded) (name : String) :
    (Fielded.bound param x k).items name = if name = param then none else k.items name := rfl

/-- A name bound to one element through both doors. -/
theorem Fielded.Heads.bound {k h : Fielded} (heads : Fielded.Heads k h) (param : String)
    {x y : Field} (like : Field.Like x y) :
    Fielded.Heads (Fielded.bound param x k) (Fielded.bound param y h) := by
  obtain ⟨⟨other, others, field, fields, lacks, list, lists, noList, scalar⟩, heads⟩ := heads
  have elsewhere : ∀ name, (Fielded.bound param x k).field name = none →
      (Fielded.bound param y h).field name = none := by
    intro name none
    rw [bound_field] at none ⊢
    split at none
    · cases none
    next off =>
      rw [if_neg off]
      exact heads name none
  refine ⟨⟨fun name => if name = param then y else other name, others, ?_, ?_,
    fun name none => .inl (elsewhere name none), ?_, ?_, ?_, ?_⟩, elsewhere⟩
  · intro name f found
    rw [bound_field] at found ⊢
    split at found
    next here => simp only [here, if_true]
    next off =>
      simp only [off, if_false]
      exact field name f found
  · intro name f found
    rw [bound_field] at found
    split at found
    next here =>
      cases found
      simp only [here, if_true]
      exact like
    next off =>
      simp only [off, if_false]
      exact fields name f found
  · intro name items found
    rw [bound_items] at found ⊢
    split at found
    · cases found
    next off =>
      rw [if_neg off]
      exact list name items found
  · intro name items found
    rw [bound_items] at found
    split at found
    · cases found
    · exact lists name items found
  · intro name none
    rw [bound_items] at none ⊢
    split at none
    next here => rw [if_pos here]
    next off =>
      rw [if_neg off]
      exact noList name none
  · intro v read
    cases read

theorem EvalContext.Like.bind {c d : EvalContext} (like : c.Like d) (param : String) {x y : Field}
    (items : Field.Like x y) : (c.bind param x).Like (d.bind param y) :=
  ⟨like.args.bound param items, like.instance'⟩

end

/-! ### What an expression asks -/

section

variable (escapes : Char → Bool) (regex : RegexBuilder) (debugExpr : Expr → String)

/-- The expression evaluates to the value. -/
def Answers (expr : Expr) (c : EvalContext) (v : Value) : Prop :=
  interpret escapes regex debugExpr expr c = .ok v

/-- An element of the list the receiver names. -/
def IsElement (receiver : Expr) (c : EvalContext) (item : Field) : Prop :=
  ∃ path op items, receiver = .lookup path ∧ lookupItems escapes path c op = .ok items ∧
    item ∈ items

mutual

/-- Evaluated through the first door, the expression asks only for what both doors tell: no
object is asked for a field it lacks, no path ends on an object that does not read as one value,
and no list is compared, searched, tested for presence while empty, or taken apart by position
off anything but its own path. -/
def Shared : Expr → EvalContext → Prop
  | .int _, _ | .float _, _ | .str _, _ | .bool _, _ | .nil, _ => True
  | .lookup path, c => PathReads escapes path c
  | .or l r, c =>
      Shared l c ∧ ((∃ v, Answers escapes regex debugExpr l c v ∧ v.truthy = false) → Shared r c)
  | .and l r, c =>
      Shared l c ∧ ((∃ v, Answers escapes regex debugExpr l c v ∧ v.truthy = true) → Shared r c)
  | .add l r, c | .sub l r, c | .mul l r, c | .div l r, c | .modulo l r, c =>
      Shared l c ∧ Shared r c
  | .compare op l r, c =>
      Shared l c ∧ Shared r c ∧ (op.equal = true → op.lessThan = false →
        ∀ v w, Answers escapes regex debugExpr l c v → Answers escapes regex debugExpr r c w →
          v.Plain ∧ w.Plain)
  | .include haystack needle, c =>
      Shared haystack c ∧ Shared needle c ∧
        ∀ v w, Answers escapes regex debugExpr haystack c v →
          Answers escapes regex debugExpr needle c w → v.Plain ∧ (v.IsList → w.Plain)
  | .not e, c | .signTest _ e, c | .empty e, c | .toS e, c | .size e, c | .matchesRegex e _ _, c
  | .split e _, c | .strip e _, c | .startsWith e _, c | .endsWith e _, c => Shared e c
  | .presence e _, c => Shared e c ∧ ¬ Answers escapes regex debugExpr e c (.list 0)
  | .assignment e _, c =>
      (∀ path, e = .lookup path → Reaches escapes path c) ∧
        ((∀ path, e ≠ .lookup path) → Shared e c)
  | .first e, c | .last e, c =>
      (∀ path, e ≠ .lookup path) →
        Shared e c ∧ ∀ n, ¬ Answers escapes regex debugExpr e c (.list n)
  | .blockPredicate _ receiver param predicate, c | .sum receiver param predicate, c =>
      ∀ item, IsElement escapes receiver c item → Shared predicate (c.bind param item)
  | .find receiver param predicate path, c =>
      ∀ item, IsElement escapes receiver c item →
        Shared predicate (c.bind param item) ∧
        (Accepted (fun item => interpret escapes regex debugExpr predicate (c.bind param item))
          item → Walkable item path ∧
            ∀ f, Composite.walk escapes item "find" path = .ok f → Ends f)
  | .array items, c => AllShared items c

def AllShared : List Expr → EvalContext → Prop
  | [], _ => True
  | e :: es, c => Shared e c ∧ AllShared es c

end

end

section

variable {escapes : Char → Bool} {regex : RegexBuilder} {debugExpr : Expr → String}
  {receiver : Expr} {c d : EvalContext}

theorem agree_two {left right : Eval Value} {left' right' : Eval Value}
    {op : Value → Value → Eval Value} (first : Alike left left') (second : Alike right right')
    (each : ∀ v w v' w', left = .ok v → right = .ok v' → Value.Like v w → Value.Like v' w' →
      Alike (op v v') (op w w')) :
    Alike (do
      let v ← left
      let w ← right
      op v w) (do
      let v ← left'
      let w ← right'
      op v w) := by
  apply first.bind
  intro v w read like
  apply second.bind
  intro v' w' read' like'
  exact each v w v' w' read read' like like'

/-- Only a path names a list; any other receiver is a fault. -/
theorem agree_elements {op : String} (like : c.Like d) :
    Agree IsFault (List.Forall₂ Field.Like)
      (elements escapes receiver c op fun _ => interpret escapes regex debugExpr receiver c)
      (elements escapes receiver d op fun _ => interpret escapes regex debugExpr receiver d) := by
  cases receiver with
  | lookup path => exact agree_lookupItems like path op
  | _ =>
    apply agree_refuses
    all_goals
      apply (interpret_settles _ _).refuses_bind
      intro v _
      exact (Rendering.settles_describe v).refuses_bind fun _ _ => refuses_evalError _

theorem isElement_of_mem {op : String} {items : List Field} {item : Field}
    (read : (elements escapes receiver c op fun _ =>
      interpret escapes regex debugExpr receiver c) = .ok items) (mem : item ∈ items) :
    IsElement escapes receiver c item := by
  have refused : ∀ receiver : Expr, Refuses IsFault (do
      let v ← interpret escapes regex debugExpr receiver c
      let text ← Rendering.describe v
      evalError (op ++ " expects a list, got " ++ text) : Eval (List Field)) := by
    intro receiver
    apply (interpret_settles _ _).refuses_bind
    intro v _
    exact (Rendering.settles_describe v).refuses_bind fun _ _ => refuses_evalError _
  cases receiver with
  | lookup path => exact ⟨path, op, items, rfl, read, mem⟩
  | _ =>
    obtain ⟨e, refused, -⟩ := refused _
    rw [elements, refused] at read
    · cases read
    · intro path same
      cases same

/-- An operator of one text. -/
theorem agree_text {op : String} {f : String → Value} {v w : Value} (like : Value.Like v w) :
    Alike (do
      let text ← requireStr v op
      return f text) (do
      let text ← requireStr w op
      return f text) := by
  rcases like.cases with rfl | ⟨left, right⟩
  · exact (settles_bind (settles_requireStr v op) fun _ _ => settles_pure _).agree .same
  · exact agree_refuses (refuses_requireStr left).bind (refuses_requireStr right).bind

/-- The end of a list the receiver names, or of a list it evaluates to. -/
theorem agree_ends {op : String} {takeFirst : Bool} (like : c.Like d)
    (other : (∀ path, receiver ≠ .lookup path) →
      Alike (interpret escapes regex debugExpr receiver c)
        (interpret escapes regex debugExpr receiver d) ∧
      ∀ n, ¬ Answers escapes regex debugExpr receiver c (.list n)) :
    Alike
      (ends escapes op takeFirst receiver c fun _ => interpret escapes regex debugExpr receiver c)
      (ends escapes op takeFirst receiver d fun _ =>
        interpret escapes regex debugExpr receiver d) := by
  by_cases named : ∃ path, receiver = .lookup path
  · obtain ⟨path, rfl⟩ := named
    apply (agree_lookupItems like path op).bind
    intro xs ys _ items
    exact agree_fieldValue (agree_atEnd items takeFirst)
  · have unnamed : ∀ path, receiver ≠ .lookup path := fun path same => named ⟨path, same⟩
    have evaluated : ∀ c, (ends escapes op takeFirst receiver c fun _ =>
        interpret escapes regex debugExpr receiver c) = (do
          let v ← interpret escapes regex debugExpr receiver c
          positionOf op takeFirst v) := by
      intro c
      rw [ends]
      exact unnamed
    rw [evaluated, evaluated]
    obtain ⟨alike, listed⟩ := other unnamed
    apply alike.bind
    intro v w read values
    apply agree_positionOf values
    rintro n rfl
    exact listed n read

mutual

/-- An expression that asks only for what both doors tell comes to the same through both. -/
theorem agree_interpret : (expr : Expr) → ∀ {c d : EvalContext}, c.Like d →
    Shared escapes regex debugExpr expr c →
    Alike (interpret escapes regex debugExpr expr c) (interpret escapes regex debugExpr expr d)
  | .int i, c, d, _, _ => by
    rw [interpret, interpret]
    exact agree_pure (.same _)
  | .float n, c, d, _, _ => by
    rw [interpret, interpret]
    exact agree_pure (.same _)
  | .str s, c, d, _, _ => by
    rw [interpret, interpret]
    exact agree_pure (.same _)
  | .bool b, c, d, _, _ => by
    rw [interpret, interpret]
    exact agree_pure (.same _)
  | .nil, c, d, _, _ => by
    rw [interpret, interpret]
    exact agree_pure (.same _)
  | .lookup path, c, d, like, shared => by
    rw [interpret, interpret]
    exact agree_lookup like shared
  | .array items, c, d, like, shared => by
    rw [interpret_array, interpret_array]
    apply (agree_items items like shared).bind
    intro vs ws _ each
    exact agree_pure (.array each)
  | .or l r, c, d, like, shared => by
    rw [interpret_or, interpret_or]
    apply (agree_interpret l like shared.1).bind
    intro v w read values
    rw [← values.truthy]
    by_cases decided : v.truthy = true
    · rw [if_pos decided, if_pos decided]
      exact agree_pure (.same _)
    · rw [if_neg decided, if_neg decided]
      have open' : v.truthy = false := by simpa using decided
      apply (agree_interpret r like (shared.2 ⟨v, read, open'⟩)).bind
      intro v w _ values
      rw [values.truthy]
      exact agree_pure (.same _)
  | .and l r, c, d, like, shared => by
    rw [interpret_and, interpret_and]
    apply (agree_interpret l like shared.1).bind
    intro v w read values
    rw [← values.truthy]
    by_cases held : v.truthy = true
    · rw [held]
      apply (agree_interpret r like (shared.2 ⟨v, read, held⟩)).bind
      intro v w _ values
      rw [values.truthy]
      exact agree_pure (.same _)
    · rw [Bool.not_eq_true] at held
      rw [held]
      exact agree_pure (.same _)
  | .not e, c, d, like, shared => by
    rw [interpret_not, interpret_not]
    apply (agree_interpret e like shared).bind
    intro v w _ values
    rw [values.truthy]
    exact agree_pure (.same _)
  | .compare op l r, c, d, like, ⟨first, second, plain⟩ => by
    rw [interpret_compare, interpret_compare]
    apply agree_two (agree_interpret l like first) (agree_interpret r like second)
    intro v w v' w' left right values values'
    apply (agree_compare values values' fun equal less => plain equal less v v' left right).bind
    rintro held _ _ rfl
    exact agree_pure (.same _)
  | .include haystack needle, c, d, like, ⟨first, second, plain⟩ => by
    rw [interpret_include, interpret_include]
    apply agree_two (agree_interpret needle like second) (agree_interpret haystack like first)
    intro v w v' w' right left values values'
    have both := plain v' v left right
    exact agree_includes values' values both.1 both.2
  | .add l r, c, d, like, shared => by
    rw [interpret_add, interpret_add]
    apply agree_two (agree_interpret l like shared.1) (agree_interpret r like shared.2)
    intro v w v' w' _ _ left right
    exact agree_of_scalars left right (fun _ _ => settles_checkedOp _ _ _ _ _ _) (fun _ _ => refuses_checkedOp) .same
  | .sub l r, c, d, like, shared => by
    rw [interpret_sub, interpret_sub]
    apply agree_two (agree_interpret l like shared.1) (agree_interpret r like shared.2)
    intro v w v' w' _ _ left right
    exact agree_of_scalars left right (fun _ _ => settles_checkedOp _ _ _ _ _ _) (fun _ _ => refuses_checkedOp) .same
  | .mul l r, c, d, like, shared => by
    rw [interpret_mul, interpret_mul]
    apply agree_two (agree_interpret l like shared.1) (agree_interpret r like shared.2)
    intro v w v' w' _ _ left right
    exact agree_of_scalars left right (fun _ _ => settles_checkedOp _ _ _ _ _ _) (fun _ _ => refuses_checkedOp) .same
  | .div l r, c, d, like, shared => by
    rw [interpret_div, interpret_div]
    apply agree_two (agree_interpret l like shared.1) (agree_interpret r like shared.2)
    intro v w v' w' _ _ left right
    exact agree_of_scalars left right settles_divide (fun _ _ => refuses_divide) .same
  | .modulo l r, c, d, like, shared => by
    rw [interpret_modulo, interpret_modulo]
    apply agree_two (agree_interpret l like shared.1) (agree_interpret r like shared.2)
    intro v w v' w' _ _ left right
    exact agree_of_scalars left right settles_modulo (fun _ _ => refuses_modulo) .same
  | .signTest op e, c, d, like, shared => by
    rw [interpret_signTest, interpret_signTest]
    exact (agree_interpret e like shared).bind fun v w _ values => agree_signTest values
  | .empty e, c, d, like, shared => by
    rw [interpret_empty, interpret_empty]
    exact (agree_interpret e like shared).bind fun v w _ values => agree_empty values
  | .size e, c, d, like, shared => by
    rw [interpret_size, interpret_size]
    exact (agree_interpret e like shared).bind fun v w _ values => agree_size values
  | .toS e, c, d, like, shared => by
    rw [interpret_toS, interpret_toS]
    apply (agree_interpret e like shared).bind
    intro v w _ values
    exact agree_of_scalar values settles_toS (fun _ => refuses_toS) .same
  | .matchesRegex e pattern flags, c, d, like, shared => by
    rw [interpret_matchesRegex, interpret_matchesRegex]
    apply (agree_interpret e like shared).bind
    intro v w _ values
    exact agree_of_scalar values (fun _ => settles_matchesRegex _ _ _)
      (fun _ => refuses_matchesRegex) .same
  | .presence e negated, c, d, like, ⟨shared, listed⟩ => by
    rw [interpret_presence, interpret_presence]
    apply (agree_interpret e like shared).bind
    intro v w read values
    have full : v ≠ .list 0 := by
      rintro rfl
      exact listed read
    rw [blank_eq values full]
    exact agree_pure (.same _)
  | .assignment e negated, c, d, like, ⟨path, other⟩ => by
    rw [interpret_assignment, interpret_assignment]
    have alike : Agree IsFault Eq
        (assigned escapes e c fun _ => interpret escapes regex debugExpr e c)
        (assigned escapes e d fun _ => interpret escapes regex debugExpr e d) := by
      by_cases named : ∃ path, e = .lookup path
      · obtain ⟨name, rfl⟩ := named
        apply (agree_lookupField like (path name rfl)).bind
        intro f g _ fields
        cases fields with
        | value values =>
          dsimp only
          rw [values.isNil]
          exact agree_pure rfl
        | nested objects => exact agree_pure rfl
      · have unnamed : ∀ path, e ≠ .lookup path := fun path same => named ⟨path, same⟩
        have evaluated : ∀ c, (assigned escapes e c fun _ =>
            interpret escapes regex debugExpr e c) = (do
              let v ← interpret escapes regex debugExpr e c
              return !isNil v) := by
          intro c
          rw [assigned]
          exact unnamed
        rw [evaluated, evaluated]
        apply (agree_interpret e like (other unnamed)).bind
        intro v w _ values
        rw [values.isNil]
        exact agree_pure rfl
    apply alike.bind
    rintro set _ _ rfl
    exact agree_pure (.same _)
  | .split e separator, c, d, like, shared => by
    rw [interpret_split, interpret_split]
    apply (agree_interpret e like shared).bind
    intro v w _ values
    exact agree_text values
  | .strip e side, c, d, like, shared => by
    rw [interpret_strip, interpret_strip]
    apply (agree_interpret e like shared).bind
    intro v w _ values
    exact agree_text values
  | .startsWith e substring, c, d, like, shared => by
    rw [interpret_startsWith, interpret_startsWith]
    apply (agree_interpret e like shared).bind
    intro v w _ values
    exact agree_text values
  | .endsWith e substring, c, d, like, shared => by
    rw [interpret_endsWith, interpret_endsWith]
    apply (agree_interpret e like shared).bind
    intro v w _ values
    exact agree_text values
  | .first e, c, d, like, shared => by
    rw [interpret_first, interpret_first]
    exact agree_ends like fun unnamed =>
      ⟨agree_interpret e like (shared unnamed).1, (shared unnamed).2⟩
  | .last e, c, d, like, shared => by
    rw [interpret_last, interpret_last]
    exact agree_ends like fun unnamed =>
      ⟨agree_interpret e like (shared unnamed).1, (shared unnamed).2⟩
  | .blockPredicate mode receiver param predicate, c, d, like, shared => by
    rw [interpret_blockPredicate, interpret_blockPredicate]
    apply (agree_elements like).bind
    intro xs ys read items
    have outcomes : Agree IsFault (List.Forall₂ Eq)
        (xs.mapM fun item => do
          let v ← interpret escapes regex debugExpr predicate (c.bind param item)
          return v.truthy)
        (ys.mapM fun item => do
          let v ← interpret escapes regex debugExpr predicate (d.bind param item)
          return v.truthy) := by
      apply agree_mapM items
      intro x mem y fields
      apply (agree_interpret predicate (like.bind param fields)
        (shared x (isElement_of_mem read mem))).bind
      intro v w _ values
      rw [values.truthy]
      exact agree_pure rfl
    apply outcomes.bind
    intro outs outs' _ same
    rw [List.forall₂_eq_eq_eq] at same
    subst same
    exact agree_pure (.same _)
  | .sum receiver param predicate, c, d, like, shared => by
    rw [interpret_sum, interpret_sum]
    apply (agree_elements like).bind
    intro xs ys read items
    apply agree_sumItems items (.same _)
    intro x mem y fields
    exact agree_interpret predicate (like.bind param fields)
      (shared x (isElement_of_mem read mem))
  | .find receiver param predicate path, c, d, like, shared => by
    rw [interpret_find, interpret_find]
    apply (agree_elements like).bind
    intro xs ys read items
    apply (agree_findItem items fun x mem y fields => agree_interpret predicate
      (like.bind param fields) (shared x (isElement_of_mem read mem)).1).bind
    rintro found found' _ (⟨rfl, rfl⟩ | ⟨x, y, rfl, rfl, mem, accepted, fields⟩)
    · exact agree_pure (.same _)
    · obtain ⟨walkable, ends⟩ := (shared x (isElement_of_mem read mem)).2 accepted
      exact agree_project fields walkable ends

theorem agree_items : (items : List Expr) → ∀ {c d : EvalContext}, c.Like d →
    AllShared escapes regex debugExpr items c →
    Agree IsFault (List.Forall₂ Value.Like)
      (items.mapM fun e => interpret escapes regex debugExpr e c)
      (items.mapM fun e => interpret escapes regex debugExpr e d)
  | [], _, _, _, _ => agree_pure .nil
  | e :: es, c, d, like, ⟨first, rest⟩ => by
    rw [List.mapM_cons, List.mapM_cons]
    apply (agree_interpret e like first).bind
    intro v w _ head
    apply (agree_items es like rest).bind
    intro vs ws _ tail
    exact agree_pure (.cons head tail)

end

end

end Hecks
