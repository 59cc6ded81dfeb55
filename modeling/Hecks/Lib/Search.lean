import Mathlib

/-! The first hit of a search along a list, and when two searches of one list have the same. -/
namespace Search

variable {α β : Type}

/-- Searching the list finds this first. -/
def First (f : α → Option β) (xs : List α) (b : β) : Prop :=
  ∃ before x after, xs = before ++ x :: after ∧ (∀ y ∈ before, f y = none) ∧ f x = some b

theorem first_iff {f : α → Option β} {xs : List α} {b : β} :
    First f xs b ↔ xs.findSome? f = some b := by
  constructor
  · rintro ⟨before, x, after, rfl, none, hit⟩
    rw [List.findSome?_append, List.findSome?_eq_none_iff.mpr none, Option.none_or,
      List.findSome?_cons, hit]
  · intro h
    obtain ⟨before, x, after, same, hit, none⟩ := List.findSome?_eq_some_iff.mp h
    exact ⟨before, x, after, same, none, hit⟩

/-- Two searches that agree wherever both hit have the same first hit exactly when, wherever one
of them hits first and alone, the other finds the same thing next. -/
theorem findSome?_eq_iff {f g : α → Option β}
    (compatible : ∀ x, f x = none ∨ g x = none ∨ f x = g x) (xs : List α) :
    xs.findSome? f = xs.findSome? g ↔
      ∀ before x after, xs = before ++ x :: after → (∀ y ∈ before, f y = none ∧ g y = none) →
        (∀ b, f x = some b → g x = none → First g after b) ∧
          (∀ b, g x = some b → f x = none → First f after b) := by
  induction xs with
  | nil => simp
  | cons a as ih =>
    constructor
    · rintro same before x after split quiet
      cases before with
      | nil =>
        cases split
        rw [List.findSome?_cons, List.findSome?_cons] at same
        constructor
        · intro b hit miss
          rw [hit, miss] at same
          exact first_iff.mpr same.symm
        · intro b hit miss
          rw [hit, miss] at same
          exact first_iff.mpr same
      | cons c before =>
        obtain ⟨rfl, rest⟩ := List.cons.inj split
        obtain ⟨missF, missG⟩ := quiet a List.mem_cons_self
        rw [List.findSome?_cons, List.findSome?_cons, missF, missG] at same
        exact ih.mp same before x after rest fun y mem => quiet y (List.mem_cons_of_mem a mem)
    · intro h
      have here := h [] a as rfl (by simp)
      rw [List.findSome?_cons, List.findSome?_cons]
      cases hitF : f a with
      | none =>
        cases hitG : g a with
        | none =>
          apply ih.mpr
          intro before x after split quiet
          apply h (a :: before) x after (by rw [split]; rfl)
          intro y mem
          rcases List.mem_cons.mp mem with rfl | mem
          · exact ⟨hitF, hitG⟩
          · exact quiet y mem
        | some b => exact first_iff.mp (here.2 b hitG hitF)
      | some b =>
        cases hitG : g a with
        | none => exact (first_iff.mp (here.1 b hitF hitG)).symm
        | some c =>
          rcases compatible a with miss | miss | same
          · rw [hitF] at miss
            cases miss
          · rw [hitG] at miss
            cases miss
          · rw [hitF, hitG] at same
            exact same

end Search
