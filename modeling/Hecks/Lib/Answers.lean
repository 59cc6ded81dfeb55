import Hecks.Lib.Panics

/-! What holds of the answers of a computation that may also stop, and computations that answer
at least where another does, and alike. -/
namespace Panics

section

variable {ε α β : Type} {P : α → Prop} {Q : β → Prop} {x : Run ε α} {f : α → Run ε β}

/-- Whatever the computation answers satisfies `P`. -/
structure Yields (P : α → Prop) (x : Run ε α) : Prop where
  holds : ∀ a, x = .ok a → P a

theorem yields_pure {a : α} (h : P a) : Yields P (pure a : Run ε α) := by
  constructor
  intro b eq
  cases eq
  exact h

theorem yields_refuse (e : ε) : Yields P (refuse e : Run ε α) := by
  constructor
  intro a eq
  cases eq

theorem yields_orRefuse {o : Option α} {e : ε} (h : ∀ a, o = some a → P a) :
    Yields P (orRefuse o e) := by
  cases o with
  | none => exact yields_refuse e
  | some a => exact yields_pure (h a rfl)

theorem yields_bind (h : ∀ a, x = .ok a → Yields Q (f a)) : Yields Q (x >>= f) := by
  cases x with
  | error halt =>
    constructor
    intro b eq
    cases eq
  | ok a => exact h a rfl

theorem Yields.bind (hx : Yields P x) (hf : ∀ a, P a → Yields Q (f a)) : Yields Q (x >>= f) :=
  yields_bind fun a answered => hf a (hx.holds a answered)

theorem Yields.mono {P' : α → Prop} (hx : Yields P x) (imp : ∀ a, P a → P' a) : Yields P' x :=
  ⟨fun a answered => imp a (hx.holds a answered)⟩

theorem yields_ite {c : Prop} [Decidable c] {y : Run ε α} (hx : c → Yields P x)
    (hy : ¬ c → Yields P y) : Yields P (if c then x else y) := by
  by_cases h : c
  · rw [if_pos h]
    exact hx h
  · rw [if_neg h]
    exact hy h

theorem yields_mapM {xs : List α} (each : ∀ a ∈ xs, Yields Q (f a)) :
    Yields (fun bs => ∀ b ∈ bs, Q b) (xs.mapM f) := by
  induction xs with
  | nil => exact yields_pure fun b mem => absurd mem List.not_mem_nil
  | cons a xs ih =>
    rw [List.mapM_cons]
    have later := ih fun a mem => each a (List.mem_cons_of_mem _ mem)
    apply (each a List.mem_cons_self).bind
    intro b first
    apply Yields.bind later
    intro bs rest
    apply yields_pure
    intro c mem
    rcases List.mem_cons.mp mem with rfl | mem
    · exact first
    · exact rest c mem

end

/-! ### Answering where another does -/

section

variable {ε α β : Type} {x y : Run ε α} {f g : α → Run ε β}

/-- Where the first computation answers, so does the second, and alike. -/
def Extends (x y : Run ε α) : Prop := ∀ a, x = .ok a → y = .ok a

theorem Extends.refl (x : Run ε α) : Extends x x := fun _ answered => answered

theorem Extends.bind (h : Extends x y) (hf : ∀ a, x = .ok a → Extends (f a) (g a)) :
    Extends (x >>= f) (y >>= g) := by
  cases x with
  | error halt =>
    intro b eq
    cases eq
  | ok a =>
    rw [h a rfl]
    exact hf a rfl

theorem extends_mapM {xs ys : List α} (each : List.Forall₂ (fun a b => Extends (f a) (g b)) xs ys) :
    Extends (xs.mapM f) (ys.mapM g) := by
  induction each with
  | nil => exact Extends.refl _
  | cons head _ ih =>
    rw [List.mapM_cons, List.mapM_cons]
    apply head.bind
    intro b _
    apply ih.bind
    intro bs _
    exact Extends.refl _

end

end Panics
