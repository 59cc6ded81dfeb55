import Mathlib

/-! Recursions along a relation. Where finitely many places are reached every walk ends exactly when
none comes back to where it was, and a run with fuel ends exactly there. -/
namespace Loops

open Relation

section

variable {α : Type} {r : α → α → Prop} {a b : α}

theorem not_self_of_acc (acc : Acc r a) : ¬r a a := by
  induction acc with
  | intro a _ ih =>
    intro self
    exact ih a self self

theorem acc_of_reached (acc : Acc (flip r) a) (reached : ReflTransGen r a b) : Acc (flip r) b := by
  induction reached with
  | refl => exact acc
  | tail _ step ih => exact ih.inv step

/-- No walk that ends comes back to where it was. -/
theorem no_loop_of_acc (acc : Acc (flip r) a) (reached : ReflTransGen r a b) :
    ¬TransGen r b b := by
  intro loop
  have ends : Acc (TransGen (flip r)) b := (acc_of_reached acc reached).transGen
  exact not_self_of_acc ends (transGen_swap.mp loop)

/-- Of finitely many places, every walk ends when none comes back. -/
theorem acc_of_no_loop (finite : {b | ReflTransGen r a b}.Finite)
    (apart : ∀ b, ReflTransGen r a b → ¬TransGen r b b) : Acc (flip r) a := by
  have : Finite {b // ReflTransGen r a b} := finite.to_subtype
  let later : {b // ReflTransGen r a b} → {b // ReflTransGen r a b} → Prop :=
    fun x y => TransGen r y.1 x.1
  have : IsTrans _ later := ⟨fun _ _ _ second first => first.trans second⟩
  have : Std.Irrefl later := ⟨fun x => apart x.1 x.2⟩
  have wf : WellFounded later := Finite.wellFounded_of_trans_of_irrefl later
  have each : ∀ x, Acc later x → Acc (flip r) x.1 := by
    intro x acc
    induction acc with
    | intro x _ ih =>
      constructor
      intro y step
      exact ih ⟨y, x.2.tail step⟩ (.single step)
  exact each ⟨a, .refl⟩ (wf.apply _)

end

/-- A run with fuel, which goes on at the places `r` leads to and at no others. -/
structure Fueled {α : Type} (ends : Nat → α → Prop) (r : α → α → Prop) : Prop where
  more {fuel : Nat} {a : α} : ends fuel a → ends (fuel + 1) a
  down {fuel : Nat} {a b : α} : ends fuel a → r a b → ∃ less < fuel, ends less b
  up {fuel : Nat} {a : α} : (∀ b, r a b → ends fuel b) → ∃ more, ends more a

namespace Fueled

variable {α : Type} {ends : Nat → α → Prop} {r : α → α → Prop} {a : α} (run : Fueled ends r)

include run

theorem mono {fuel fuel' : Nat} (le : fuel ≤ fuel') (h : ends fuel a) : ends fuel' a := by
  induction le with
  | refl => exact h
  | step _ ih => exact run.more ih

theorem acc_of_ends {fuel : Nat} (h : ends fuel a) : Acc (flip r) a := by
  induction fuel using Nat.strong_induction_on generalizing a with
  | h fuel ih =>
    constructor
    intro b step
    obtain ⟨less, lt, h⟩ := run.down h step
    exact ih less lt h

/-- From finitely many places on there is fuel enough for all of them. -/
theorem ends_of_acc (finite : {b | ReflTransGen r a b}.Finite) (acc : Acc (flip r) a) :
    ∃ fuel, ends fuel a := by
  induction acc with
  | intro a _ ih =>
    have next : ∀ b, r a b → ∃ fuel, ends fuel b := by
      intro b step
      exact ih b step (finite.subset fun _ reached => .head step reached)
    choose fuel enough using next
    have steps : {b | r a b}.Finite := finite.subset fun _ step => .single step
    have := steps.to_subtype
    obtain ⟨most, bound⟩ := (Set.finite_range fun b : {b | r a b} => fuel b.1 b.2).bddAbove
    exact run.up fun b step => run.mono (bound ⟨⟨b, step⟩, rfl⟩) (enough b step)

/-- A run over finitely many places ends exactly when no walk comes back to where it was. -/
theorem ends_iff_no_loop (finite : {b | ReflTransGen r a b}.Finite) :
    (∃ fuel, ends fuel a) ↔ ∀ b, ReflTransGen r a b → ¬TransGen r b b := by
  constructor
  · rintro ⟨fuel, h⟩ b reached
    exact no_loop_of_acc (run.acc_of_ends h) reached
  · intro apart
    exact run.ends_of_acc finite (acc_of_no_loop finite apart)

end Fueled

end Loops
