import Mathlib

/-! State machines read off a history: what each line does to the state, and which lines a state
admits. A history is legal when every line of it is admitted by the state before it, so every
beginning of a legal history is legal, and an invariant of the lines is an invariant of the
history. -/

/-- A machine: the effect of a line, and when the line may happen. -/
structure Machine (σ μ : Type) where
  next : σ → μ → σ
  legal : σ → μ → Prop

namespace Machine

variable {σ μ : Type} (M : Machine σ μ)

/-- The state a history leads to. -/
def replay (s : σ) (history : List μ) : σ := history.foldl M.next s

/-- Every line of the history was admitted when it happened. -/
def Runs (s : σ) (history : List μ) : Prop :=
  ∀ before m after, history = before ++ m :: after → M.legal (M.replay s before) m

@[simp] theorem replay_nil (s : σ) : M.replay s [] = s := rfl

@[simp] theorem replay_cons (s : σ) (m : μ) (ms : List μ) :
    M.replay s (m :: ms) = M.replay (M.next s m) ms := rfl

@[simp] theorem replay_append (s : σ) (xs ys : List μ) :
    M.replay s (xs ++ ys) = M.replay (M.replay s xs) ys := List.foldl_append

variable {M} {s : σ}

theorem Runs.nil : M.Runs s [] := by
  intro before m after h
  cases before <;> cases h

theorem Runs.snoc {ms : List μ} {m : μ} (h : M.Runs s ms) (hm : M.legal (M.replay s ms) m) :
    M.Runs s (ms ++ [m]) := by
  intro before m' after he
  rcases List.eq_nil_or_concat after with rfl | ⟨after, x, rfl⟩
  · obtain ⟨rfl, hm'⟩ := List.append_inj' he rfl
    cases hm'
    exact hm
  · rw [List.concat_eq_append, ← List.cons_append, ← List.append_assoc] at he
    exact h before m' after (List.append_inj' he rfl).1

theorem Runs.left {xs ys : List μ} (h : M.Runs s (xs ++ ys)) : M.Runs s xs := by
  rintro before m after rfl
  exact h before m (after ++ ys) (by simp)

theorem Runs.right {xs ys : List μ} (h : M.Runs s (xs ++ ys)) : M.Runs (M.replay s xs) ys := by
  rintro before m after rfl
  rw [← replay_append]
  exact h (xs ++ before) m after (by simp)

theorem Runs.legal {xs ys : List μ} {m : μ} (h : M.Runs s (xs ++ m :: ys)) :
    M.legal (M.replay s xs) m := h xs m ys rfl

theorem Runs.head {m : μ} {ms : List μ} (h : M.Runs s (m :: ms)) : M.legal s m := h [] m ms rfl

theorem Runs.tail {m : μ} {ms : List μ} (h : M.Runs s (m :: ms)) : M.Runs (M.next s m) ms := by
  have hms : M.Runs s ([m] ++ ms) := h
  exact hms.right

/-- What holds at the start and is kept by every admitted line holds all along. -/
theorem Runs.invariant {I : σ → Prop} {ms : List μ} (h : M.Runs s ms) (hs : I s)
    (hstep : ∀ t m, I t → M.legal t m → I (M.next t m)) : I (M.replay s ms) := by
  induction ms generalizing s with
  | nil => exact hs
  | cons m ms ih => exact ih h.tail (hstep s m hs h.head)

end Machine
