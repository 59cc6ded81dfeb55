import Hecks.Expr.Interpret

/-! Evaluation is safe: whatever the expression and the context, it ends in a value or in a
fault. No arithmetic runs out of range, no index misses, and the router never asks a leaf for
its category or hands a node to the wrong operator. -/
namespace Hecks

open Panics Operators

/-! ### Arithmetic on 64-bit integers -/

section

variable {P : Refusal → Prop}

/-- What is known of a truncated quotient and its remainder. -/
theorem tdiv_facts (a b : Int) : b * a.tdiv b + a.tmod b = a ∧ (0 ≤ a → 0 ≤ a.tmod b) ∧
    (a ≤ 0 → a.tmod b ≤ 0) ∧ (a.tmod b).natAbs ≤ a.natAbs := by
  refine ⟨Int.mul_tdiv_add_tmod a b, Int.tmod_nonneg b, ?_, ?_⟩
  · intro nonpos
    have := Int.tmod_nonneg b (show 0 ≤ -a by omega)
    rw [Int.neg_tmod] at this
    omega
  · rw [Int.natAbs_tmod]
    exact Nat.mod_le _ _

theorem sign_ne {l r : Int64} (h : decide (l < 0) ≠ decide (r < 0)) :
    (l.toInt < 0 ∧ 0 ≤ r.toInt) ∨ (0 ≤ l.toInt ∧ r.toInt < 0) := by
  simp only [Int64.lt_iff_toInt_lt, Int64.toInt_zero] at h
  by_cases hl : l.toInt < 0
  · simp only [hl, decide_true] at h
    have : ¬ r.toInt < 0 := by simpa using h
    omega
  · simp only [hl, decide_false] at h
    have : r.toInt < 0 := by simpa using h
    omega

/-- The floored quotient is one below the truncated one only where that still fits. -/
theorem settles_flooredDiv (l r : Int64) : Settles P (flooredDiv l r) := by
  unfold flooredDiv
  cases eq : checkedDiv l r with
  | none => exact settles_pure _
  | some quotient =>
    unfold checkedDiv at eq
    split at eq
    next => cases eq
    next nonzero =>
      obtain ⟨fits, value⟩ := checked_eq_some eq
      apply settles_bind (settles_rem nonzero fits)
      intro rest hrest
      rw [rem, if_neg nonzero, if_pos fits] at hrest
      cases hrest
      apply settles_ite
      · rintro ⟨some, signs⟩
        have low := (fits_iff.mp (fits_toInt l)).1
        have high := (fits_iff.mp (fits_toInt l)).2
        obtain ⟨whole, nonneg, nonpos, -⟩ := tdiv_facts l.toInt r.toInt
        have left : l.toInt.tmod r.toInt ≠ 0 := by
          intro none
          rw [none] at some
          exact some rfl
        have below : Fits (quotient.toInt - 1) := by
          rw [value]
          rw [fits_iff] at fits ⊢
          refine ⟨?_, by omega⟩
          by_contra least
          have : l.toInt.tdiv r.toInt = -9223372036854775808 := by omega
          rw [this] at whole
          rcases sign_ne signs with ⟨neg, pos⟩ | ⟨pos, neg⟩
          · have := nonpos (by omega)
            have : r.toInt ≠ 0 := by
              intro zero
              exact nonzero (Int64.toInt_inj.mp zero)
            omega
          · have := nonneg pos
            omega
        apply settles_bind (settles_exactly below)
        intro lower _
        exact settles_pure _
      · intro _
        exact settles_pure _

theorem settles_flooredMod {r d : Int64} (nonzero : d ≠ 0) : Settles P (flooredMod r d) := by
  unfold flooredMod
  apply settles_ite
  · intro _
    exact settles_pure _
  intro notMinusOne
  have low := (fits_iff.mp (fits_toInt r)).1
  have high := (fits_iff.mp (fits_toInt r)).2
  have lowD := (fits_iff.mp (fits_toInt d)).1
  have highD := (fits_iff.mp (fits_toInt d)).2
  have nonzero' : d.toInt ≠ 0 := fun zero => nonzero (Int64.toInt_inj.mp zero)
  have notMinusOne' : d.toInt ≠ -1 := fun one => notMinusOne (Int64.toInt_inj.mp one)
  obtain ⟨-, nonneg, nonpos, small⟩ := tdiv_facts r.toInt d.toInt
  have fits : Fits (r.toInt.tdiv d.toInt) := by
    rw [fits_iff]
    by_cases one : d.toInt = 1
    · rw [one, Int.tdiv_one]
      exact ⟨low, high⟩
    · have size := Int.natAbs_tdiv r.toInt d.toInt
      have half : r.toInt.natAbs.div d.toInt.natAbs ≤ r.toInt.natAbs / 2 :=
        Nat.div_le_div_left (by omega) (by omega)
      omega
  have fitsRest : Fits (r.toInt.tmod d.toInt) := by
    rw [fits_iff]
    by_cases neg : r.toInt < 0
    · have := nonpos (by omega)
      omega
    · have := nonneg (by omega)
      omega
  apply settles_bind (settles_rem nonzero fits)
  intro raw hraw
  rw [rem, if_neg nonzero, if_pos fits] at hraw
  cases hraw
  apply settles_ite
  · rintro ⟨-, signs⟩
    apply settles_exactly
    have raw := Int64.toInt_ofInt_of_le fitsRest.1 (Int.lt_add_one_of_le fitsRest.2)
    have := sign_ne signs
    rw [raw] at this ⊢
    rw [fits_iff] at fitsRest ⊢
    omega
  · intro _
    exact settles_pure _

end

/-! ### Operators -/

section

variable {escapes : Char → Bool} {regex : RegexBuilder}

theorem settles_requireNumber (v : Value) (operation : String) :
    Settles IsFault (requireNumber v operation) := by
  unfold requireNumber
  cases numeric v with
  | some n => exact settles_pure n
  | none => exact settles_bind (Rendering.settles_describe v) fun _ _ => settles_evalError _

theorem settles_quoted {P : Refusal → Prop} (v : Value) : Settles P (quoted escapes v) := by
  unfold quoted
  split
  · exact settles_pure _
  · exact RubyFloat.settles_toS _
  · exact settles_pure _

theorem settles_finite (name symbol : String) (lhs rhs : Value) (result : Float.Model) :
    Settles IsFault (finite escapes name symbol lhs rhs result) := by
  unfold finite
  apply settles_ite
  · intro _
    exact settles_pure _
  · intro _
    exact settles_bind (settles_quoted lhs) fun _ _ =>
      settles_bind (settles_quoted rhs) fun _ _ => settles_evalError _

theorem settles_fitting (name symbol : String) (l r : Int64) (result : Option Int64) :
    Settles IsFault (fitting name symbol l r result) := by
  cases result with
  | some n => exact settles_pure _
  | none => exact settles_evalError _

theorem settles_checkedOp (name symbol : String) (lhs rhs : Value)
    (intOp : Int64 → Int64 → Option Int64)
    (floatOp : Float.Model → Float.Model → Float.Model) :
    Settles IsFault (checkedOp escapes name symbol lhs rhs intOp floatOp) := by
  unfold checkedOp
  split
  · exact settles_fitting _ _ _ _ _
  · exact settles_bind (settles_requireNumber _ _) fun _ _ =>
      settles_bind (settles_requireNumber _ _) fun _ _ => settles_finite _ _ _ _ _

theorem settles_divide (lhs rhs : Value) : Settles IsFault (divide escapes lhs rhs) := by
  unfold divide
  apply settles_bind (settles_requireNumber rhs _)
  intro r _
  apply settles_ite
  · intro _
    exact settles_evalError _
  · intro _
    split
    · exact settles_bind (settles_flooredDiv _ _) fun _ _ => settles_fitting _ _ _ _ _
    · exact settles_bind (settles_requireNumber _ _) fun _ _ => settles_finite _ _ _ _ _

/-- A divisor that is not zero as a float is not zero as an integer. -/
theorem settles_modulo (receiver divisor : Value) :
    Settles IsFault (Operators.modulo receiver divisor) := by
  unfold Operators.modulo
  apply settles_bind (settles_requireNumber receiver _)
  intro x _
  apply settles_bind (settles_requireNumber divisor _)
  intro y hy
  apply settles_ite
  · intro _
    exact settles_evalError _
  · intro nonzero
    cases receiver with
    | int r =>
      cases divisor with
      | int d =>
        have divides : d ≠ 0 := by
          rintro rfl
          cases hy
          exact nonzero (by decide)
        exact settles_bind (settles_flooredMod divides) fun _ _ => settles_pure _
      | _ => exact settles_pure _
    | _ => exact settles_pure _

mutual

theorem settles_describeOperand : (v : Value) → Settles IsFault (describeOperand escapes v)
  | .nil => settles_pure _
  | .int _ => settles_pure _
  | .bool _ => settles_pure _
  | .float n => RubyFloat.settles_toS n
  | .str _ => settles_pure _
  | .list _ => settles_pure _
  | .array items => settles_bind (settles_describeItems items) fun _ _ => settles_pure _
  | .object fields => settles_bind (settles_describeFields fields) fun _ _ => settles_pure _

theorem settles_describeItems : (vs : List Value) → Settles IsFault (describeItems escapes vs)
  | [] => settles_pure _
  | v :: vs => by
    have rest := settles_describeItems vs
    have one := settles_describeOperand v
    cases v with
    | nil => exact settles_bind rest fun _ _ => settles_pure _
    | _ => exact settles_bind one fun _ _ => settles_bind rest fun _ _ => settles_pure _

theorem settles_describeFields :
    (fs : List (String × Value)) → Settles IsFault (describeFields escapes fs)
  | [] => settles_pure _
  | (key, v) :: fs => by
    have rest := settles_describeFields fs
    have one := settles_describeOperand v
    cases v with
    | nil => exact settles_bind rest fun _ _ => settles_pure _
    | _ => exact settles_bind one fun _ _ => settles_bind rest fun _ _ => settles_pure _

end

theorem settles_compare (op : Comparison) (lhs rhs : Value) :
    Settles IsFault (Operators.compare escapes op lhs rhs) := by
  have less : Settles IsFault (lessThan escapes lhs rhs) := by
    unfold lessThan
    split
    · exact settles_pure _
    · split
      · exact settles_pure _
      · exact settles_bind (settles_describeOperand _) fun _ _ => settles_evalError _
  unfold Operators.compare
  have asked : Settles IsFault
      (if op.lessThan then lessThan escapes lhs rhs else pure false : Eval Bool) :=
    settles_ite (fun _ => less) fun _ => settles_pure _
  exact settles_bind asked fun _ _ => settles_pure _

theorem settles_signTest (op : Comparison) (v : Value) :
    Settles IsFault (Operators.signTest escapes op v) :=
  settles_bind (settles_requireNumber v _) fun _ _ =>
    settles_bind (settles_compare op v _) fun _ _ => settles_pure _

theorem settles_includes (haystack wanted : Value) :
    Settles IsFault (includes haystack wanted) := by
  unfold includes
  split
  · exact settles_pure _
  · split
    · exact settles_pure _
    · exact settles_evalError _
  · exact settles_pure _

theorem settles_unsized (op : String) (v : Value) : Settles IsFault (unsized op v) :=
  settles_bind (Rendering.settles_describe v) fun _ _ => settles_evalError _

theorem settles_empty (v : Value) : Settles IsFault (Operators.empty v) := by
  unfold Operators.empty
  split
  · exact settles_pure _
  · exact settles_pure _
  · exact settles_pure _
  · exact settles_unsized _ _

theorem settles_size (v : Value) : Settles IsFault (Operators.size v) := by
  unfold Operators.size
  split
  · exact settles_pure _
  · exact settles_pure _
  · exact settles_pure _
  · exact settles_unsized _ _

theorem settles_toS (v : Value) : Settles IsFault (Operators.toS v) := by
  unfold Operators.toS
  split
  · exact settles_pure _
  · exact settles_pure _
  · exact settles_bind (RubyFloat.settles_toS _) fun _ _ => settles_pure _
  · exact settles_pure _
  · exact settles_pure _
  · exact settles_bind (Rendering.settles_describe _) fun _ _ => settles_evalError _

theorem settles_requireStr (v : Value) (op : String) : Settles IsFault (requireStr v op) := by
  unfold requireStr
  split
  · exact settles_pure _
  · exact settles_bind (Rendering.settles_describe _) fun _ _ => settles_evalError _

theorem settles_matchesRegex (v : Value) (pattern flags : String) :
    Settles IsFault (Operators.matchesRegex regex v pattern flags) := by
  have text : Settles IsFault (coerceText v) := by
    unfold coerceText
    split
    · exact settles_pure _
    · exact settles_pure _
    · exact RubyFloat.settles_toS _
    · exact settles_pure _
    · exact settles_evalError _
  have compiled : Settles IsFault (rubyRegex regex pattern flags) := by
    unfold rubyRegex
    dsimp only
    split
    · exact settles_pure _
    · exact settles_evalError _
  exact settles_bind text fun _ _ => settles_bind compiled fun _ _ => settles_pure _

theorem settles_fieldValue (item : Option Field) (op : String) :
    Settles IsFault (fieldValue item op) := by
  unfold fieldValue
  split
  · exact settles_pure _
  · exact settles_pure _
  · exact settles_evalError _

theorem settles_positionOf (op : String) (takeFirst : Bool) (v : Value) :
    Settles IsFault (Operators.positionOf op takeFirst v) := by
  unfold Operators.positionOf
  split
  · exact settles_pure _
  · exact settles_bind (Rendering.settles_describe _) fun _ _ => settles_evalError _

theorem settles_project (item : Field) (path : List String) :
    Settles IsFault (project escapes item path) :=
  settles_bind (settles_walk _ _ _) fun _ _ => settles_finish _ _

/-! ### Blocks -/

theorem settles_elements {receiver : Expr} {ctx : EvalContext} {op : String}
    {eval : Unit → Eval Value} (h : Settles IsFault (eval ())) :
    Settles IsFault (elements escapes receiver ctx op eval) := by
  unfold elements
  split
  · exact settles_lookupItems _ _ _
  · exact settles_bind h fun v _ =>
      settles_bind (Rendering.settles_describe v) fun _ _ => settles_evalError _

theorem settles_sumItems {eval : Field → Eval Value} (h : ∀ item, Settles IsFault (eval item))
    (items : List Field) (total : Value) : Settles IsFault (sumItems escapes eval items total) := by
  induction items generalizing total with
  | nil => exact settles_pure _
  | cons item items ih =>
    exact settles_bind (h item) fun _ _ =>
      settles_bind (settles_checkedOp _ _ _ _ _ _) fun total _ => ih total

theorem settles_findItem {eval : Field → Eval Value} (h : ∀ item, Settles IsFault (eval item))
    (items : List Field) : Settles IsFault (findItem eval items) := by
  induction items with
  | nil => exact settles_pure _
  | cons item items ih =>
    exact settles_bind (h item) fun _ _ => settles_ite (fun _ => settles_pure _) fun _ => ih

theorem settles_ends {op : String} {takeFirst : Bool} {receiver : Expr} {ctx : EvalContext}
    {eval : Unit → Eval Value} (h : Settles IsFault (eval ())) :
    Settles IsFault (ends escapes op takeFirst receiver ctx eval) := by
  unfold ends
  split
  · exact settles_bind (settles_lookupItems _ _ _) fun _ _ => settles_fieldValue _ _
  · exact settles_bind h fun _ _ => settles_positionOf _ _ _

end

/-! ### The router -/

section

variable {escapes : Char → Bool} {regex : RegexBuilder} {debugExpr : Expr → String} {expr : Expr}
  {ctx : EvalContext} {eval : Parts expr}

theorem settles_logical (routed : categoryOf expr = pure .logical)
    (h : ∀ e lt ctx, Settles IsFault (eval e lt ctx)) :
    Settles IsFault (logical debugExpr expr ctx eval) := by
  cases expr with
  | or l r =>
    apply settles_bind (h l _ ctx)
    intro left _
    apply settles_ite
    · intro _
      exact settles_pure _
    · intro _
      exact settles_bind (h r _ ctx) fun _ _ => settles_pure _
  | and l r =>
    apply settles_bind (h l _ ctx)
    intro left _
    apply settles_ite
    · intro _
      exact settles_pure _
    · intro _
      exact settles_bind (h r _ ctx) fun _ _ => settles_pure _
  | not n => exact settles_bind (h n _ ctx) fun _ _ => settles_pure _
  | _ => cases routed

theorem settles_membership (routed : categoryOf expr = pure .membership)
    (h : ∀ e lt ctx, Settles IsFault (eval e lt ctx)) :
    Settles IsFault (membership debugExpr expr ctx eval) := by
  cases expr with
  | «include» haystack needle =>
    exact settles_bind (h needle _ ctx) fun _ _ =>
      settles_bind (h haystack _ ctx) fun _ _ => settles_includes _ _
  | _ => cases routed

theorem settles_comparison (routed : categoryOf expr = pure .comparison)
    (h : ∀ e lt ctx, Settles IsFault (eval e lt ctx)) :
    Settles IsFault (comparison escapes debugExpr expr ctx eval) := by
  cases expr with
  | compare op left right =>
    exact settles_bind (h left _ ctx) fun _ _ => settles_bind (h right _ ctx) fun _ _ =>
      settles_bind (settles_compare _ _ _) fun _ _ => settles_pure _
  | _ => cases routed

theorem settles_arithmetic (routed : categoryOf expr = pure .arithmetic)
    (h : ∀ e lt ctx, Settles IsFault (eval e lt ctx)) :
    Settles IsFault (arithmetic escapes debugExpr expr ctx eval) := by
  cases expr with
  | add l r =>
    exact settles_bind (h l _ ctx) fun _ _ => settles_bind (h r _ ctx) fun _ _ =>
      settles_checkedOp _ _ _ _ _ _
  | sub l r =>
    exact settles_bind (h l _ ctx) fun _ _ => settles_bind (h r _ ctx) fun _ _ =>
      settles_checkedOp _ _ _ _ _ _
  | mul l r =>
    exact settles_bind (h l _ ctx) fun _ _ => settles_bind (h r _ ctx) fun _ _ =>
      settles_checkedOp _ _ _ _ _ _
  | div l r =>
    exact settles_bind (h l _ ctx) fun _ _ => settles_bind (h r _ ctx) fun _ _ =>
      settles_divide _ _
  | modulo receiver divisor =>
    exact settles_bind (h receiver _ ctx) fun _ _ => settles_bind (h divisor _ ctx) fun _ _ =>
      settles_modulo _ _
  | _ => cases routed

theorem settles_signTests (routed : categoryOf expr = pure .signTest)
    (h : ∀ e lt ctx, Settles IsFault (eval e lt ctx)) :
    Settles IsFault (signTests escapes debugExpr expr ctx eval) := by
  cases expr with
  | signTest op receiver =>
    exact settles_bind (h receiver _ ctx) fun _ _ => settles_signTest _ _
  | _ => cases routed

theorem settles_sized (routed : categoryOf expr = pure .sized)
    (h : ∀ e lt ctx, Settles IsFault (eval e lt ctx)) :
    Settles IsFault (sized debugExpr expr ctx eval) := by
  cases expr with
  | empty receiver => exact settles_bind (h receiver _ ctx) fun _ _ => settles_empty _
  | size receiver => exact settles_bind (h receiver _ ctx) fun _ _ => settles_size _
  | _ => cases routed

theorem settles_toStrings (routed : categoryOf expr = pure .toString)
    (h : ∀ e lt ctx, Settles IsFault (eval e lt ctx)) :
    Settles IsFault (toStrings debugExpr expr ctx eval) := by
  cases expr with
  | toS receiver => exact settles_bind (h receiver _ ctx) fun _ _ => settles_toS _
  | _ => cases routed

theorem settles_enumeration (routed : categoryOf expr = pure .enumeration)
    (h : ∀ e lt ctx, Settles IsFault (eval e lt ctx)) :
    Settles IsFault (enumeration escapes debugExpr expr ctx eval) := by
  cases expr with
  | blockPredicate mode receiver param predicate =>
    apply settles_bind (settles_elements (h receiver _ ctx))
    intro items _
    have outcomes : ∀ item ∈ items, Settles IsFault (do
        let v ← eval predicate (by simp <;> omega) (ctx.bind param item)
        return v.truthy) :=
      fun item _ => settles_bind (h predicate _ _) fun _ _ => settles_pure _
    exact settles_bind (settles_mapM outcomes) fun _ _ => settles_pure _
  | sum receiver param predicate =>
    exact settles_bind (settles_elements (h receiver _ ctx)) fun _ _ =>
      settles_sumItems (fun _ => h predicate _ _) _ _
  | find receiver param predicate path =>
    apply settles_bind (settles_elements (h receiver _ ctx))
    intro items _
    apply settles_bind (settles_findItem (fun _ => h predicate _ _) items)
    intro found _
    cases found with
    | some item => exact settles_project item path
    | none => exact settles_pure _
  | _ => cases routed

theorem settles_patternMatch (routed : categoryOf expr = pure .patternMatch)
    (h : ∀ e lt ctx, Settles IsFault (eval e lt ctx)) :
    Settles IsFault (patternMatch regex debugExpr expr ctx eval) := by
  cases expr with
  | matchesRegex receiver pattern flags =>
    exact settles_bind (h receiver _ ctx) fun _ _ => settles_matchesRegex _ _ _
  | _ => cases routed

theorem settles_presences (routed : categoryOf expr = pure .presence)
    (h : ∀ e lt ctx, Settles IsFault (eval e lt ctx)) :
    Settles IsFault (presences escapes debugExpr expr ctx eval) := by
  cases expr with
  | presence receiver negated =>
    exact settles_bind (h receiver _ ctx) fun _ _ => settles_pure _
  | assignment receiver negated =>
    have set : Settles IsFault
        (assigned escapes receiver ctx fun _ => eval receiver (by simp <;> omega) ctx) := by
      unfold assigned
      split
      · exact settles_bind (settles_lookupField _ _) fun _ _ => settles_pure _
      · exact settles_bind (h receiver _ ctx) fun _ _ => settles_pure _
    exact settles_bind set fun _ _ => settles_pure _
  | _ => cases routed

theorem settles_texts (routed : categoryOf expr = pure .text)
    (h : ∀ e lt ctx, Settles IsFault (eval e lt ctx)) :
    Settles IsFault (texts debugExpr expr ctx eval) := by
  cases expr with
  | split receiver separator =>
    exact settles_bind (h receiver _ ctx) fun _ _ =>
      settles_bind (settles_requireStr _ _) fun _ _ => settles_pure _
  | strip receiver side =>
    exact settles_bind (h receiver _ ctx) fun _ _ =>
      settles_bind (settles_requireStr _ _) fun _ _ => settles_pure _
  | startsWith receiver substring =>
    exact settles_bind (h receiver _ ctx) fun _ _ =>
      settles_bind (settles_requireStr _ _) fun _ _ => settles_pure _
  | endsWith receiver substring =>
    exact settles_bind (h receiver _ ctx) fun _ _ =>
      settles_bind (settles_requireStr _ _) fun _ _ => settles_pure _
  | _ => cases routed

theorem settles_positional (routed : categoryOf expr = pure .positional)
    (h : ∀ e lt ctx, Settles IsFault (eval e lt ctx)) :
    Settles IsFault (positional escapes debugExpr expr ctx eval) := by
  cases expr with
  | first receiver =>
    unfold positional
    exact settles_ends (h receiver _ ctx)
  | last receiver =>
    unfold positional
    exact settles_ends (h receiver _ ctx)
  | _ => cases routed

/-- A node goes to the operator of its own category. -/
theorem settles_dispatchOperator {category : OperatorCategory}
    (routed : categoryOf expr = pure category)
    (h : ∀ e lt ctx, Settles IsFault (eval e lt ctx)) :
    Settles IsFault (dispatchOperator escapes regex debugExpr category expr ctx eval) := by
  cases category with
  | logical => exact settles_logical routed h
  | membership => exact settles_membership routed h
  | comparison => exact settles_comparison routed h
  | arithmetic => exact settles_arithmetic routed h
  | signTest => exact settles_signTests routed h
  | sized => exact settles_sized routed h
  | toString => exact settles_toStrings routed h
  | enumeration => exact settles_enumeration routed h
  | patternMatch => exact settles_patternMatch routed h
  | presence => exact settles_presences routed h
  | text => exact settles_texts routed h
  | positional => exact settles_positional routed h

/-- Evaluation ends in a value or in a fault, for every expression and every context. -/
theorem interpret_settles (expr : Expr) (ctx : EvalContext) :
    Settles IsFault (interpret escapes regex debugExpr expr ctx) := by
  have parts : ∀ e, sizeOf e < sizeOf expr → ∀ ctx,
      Settles IsFault (interpret escapes regex debugExpr e ctx) :=
    fun e _ ctx => interpret_settles e ctx
  have node : ∀ category, categoryOf expr = pure category →
      Settles IsFault (interpret escapes regex debugExpr expr ctx) := by
    intro category routed
    rw [interpret_node category routed]
    exact settles_dispatchOperator routed parts
  cases expr with
  | int v =>
    rw [interpret]
    exact settles_pure _
  | float v =>
    rw [interpret]
    exact settles_pure _
  | str v =>
    rw [interpret]
    exact settles_pure _
  | bool v =>
    rw [interpret]
    exact settles_pure _
  | nil =>
    rw [interpret]
    exact settles_pure _
  | lookup path =>
    rw [interpret]
    exact settles_lookup path ctx
  | array items =>
    rw [interpret]
    refine settles_bind (settles_mapM ?_) fun _ _ => settles_pure _
    rintro ⟨e, mem⟩ _
    have := List.sizeOf_lt_of_mem mem
    exact parts e (by simp <;> omega) ctx
  | _ => exact node _ rfl
termination_by sizeOf expr

/-- `interpret` returns a value or a fault: no arithmetic leaves 64 bits, no router arm is missed,
no index is out of range. -/
theorem interpret_answers_or_faults (expr : Expr) (ctx : EvalContext) :
    (∃ v, interpret escapes regex debugExpr expr ctx = .ok v) ∨
      ∃ message, interpret escapes regex debugExpr expr ctx =
        .error (.refused (.fault message)) := by
  rcases (interpret_settles expr ctx).cases with ⟨v, answered⟩ | ⟨e, refused, message, rfl⟩
  · exact .inl ⟨v, answered⟩
  · exact .inr ⟨message, refused⟩

end

end Hecks
