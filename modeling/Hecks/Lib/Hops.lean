import Mathlib

/-! Walks along a list of labelled steps to a state that is accepted: one relation for each label,
and what a walk gains where further steps are allowed beside them. -/
namespace Hops

section

variable {ℓ α : Type} (step extra : ℓ → α → α → Prop) (accepts : α → Prop)

/-- The labels lead, one step for each, to a state that is accepted. -/
def Reaches : List ℓ → α → Prop
  | [], a => accepts a
  | label :: labels, a => ∃ b, step label a b ∧ Reaches labels b

/-- A step of either kind. -/
def Either (label : ℓ) (a b : α) : Prop := step label a b ∨ extra label a b

/-- The labels lead there with one further step at least. -/
def Crosses : List ℓ → α → Prop
  | [], _ => False
  | label :: labels, a =>
      (∃ b, extra label a b ∧ Reaches (Either step extra) accepts labels b) ∨
        ∃ b, step label a b ∧ Crosses labels b

variable {step extra accepts} {labels : List ℓ} {a : α}

theorem Crosses.reaches (crosses : Crosses step extra accepts labels a) :
    Reaches (Either step extra) accepts labels a := by
  induction labels generalizing a with
  | nil => exact crosses.elim
  | cons label labels ih =>
    rcases crosses with ⟨b, further, rest⟩ | ⟨b, here, rest⟩
    · exact ⟨b, .inr further, rest⟩
    · exact ⟨b, .inl here, ih rest⟩

theorem Reaches.either (reaches : Reaches step accepts labels a) :
    Reaches (Either step extra) accepts labels a := by
  induction labels generalizing a with
  | nil => exact reaches
  | cons label labels ih =>
    obtain ⟨b, here, rest⟩ := reaches
    exact ⟨b, .inl here, ih rest⟩

end

end Hops
