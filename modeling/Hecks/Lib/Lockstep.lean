import Mathlib

/-! Two readings of one list of steps, taken side by side. Where they answer alike at every state
the first of them comes to, they answer alike at the end. -/
namespace Lockstep

section

variable {ε δ σ τ α : Type}

/-- The same value, or a refusal of each. -/
def Alike (x : Except ε σ) (y : Except δ σ) : Prop := x.toOption = y.toOption

@[simp] theorem Alike.results (s : σ) :
    Alike (.ok s : Except ε σ) (.ok s : Except δ σ) := rfl

@[simp] theorem Alike.refusals (e : ε) (d : δ) :
    Alike (.error e : Except ε σ) (.error d : Except δ σ) := rfl

theorem Alike.trans {γ : Type} {x : Except ε σ} {y : Except δ σ} {z : Except γ σ} (h : Alike x y)
    (next : Alike y z) : Alike x z :=
  Eq.trans h next

theorem Alike.ok_iff {x : Except ε σ} {y : Except δ σ} (h : Alike x y) (s : σ) :
    x = .ok s ↔ y = .ok s := by
  cases x <;> cases y <;> simp_all [Alike, Except.toOption]

theorem Alike.bind {x : Except ε σ} {y : Except δ σ} {f : σ → Except ε τ} {g : σ → Except δ τ}
    (h : Alike x y) (next : ∀ s, x = .ok s → Alike (f s) (g s)) : Alike (x >>= f) (y >>= g) := by
  cases x with
  | error e =>
    cases y with
    | error d => exact Alike.refusals e d
    | ok s => simp [Alike, Except.toOption] at h
  | ok s =>
    have hy : y = .ok s := (h.ok_iff s).mp (rfl)
    rw [hy]
    exact next s (rfl)

/-- Every step of a list meets the condition at the state the run comes to it with. -/
def Along (step : σ → α → Except ε σ) (clear : σ → α → Prop) : List α → σ → Prop
  | [], _ => True
  | a :: as, s => clear s a ∧ ∀ t, step s a = .ok t → Along step clear as t

theorem along_true (step : σ → α → Except ε σ) (as : List α) (s : σ) :
    Along step (fun _ _ => True) as s := by
  induction as generalizing s with
  | nil => trivial
  | cons a as ih => exact ⟨trivial, fun t _ => ih t⟩

/-- Step by step alike, then alike as a whole. -/
theorem Along.foldlM {step : σ → α → Except ε σ} {other : σ → α → Except δ σ}
    {clear : σ → α → Prop} {as : List α}
    (alike : ∀ a ∈ as, ∀ s, clear s a → Alike (step s a) (other s a)) :
    ∀ {s : σ}, Along step clear as s → Alike (as.foldlM step s) (as.foldlM other s) := by
  induction as with
  | nil => exact fun _ => rfl
  | cons a as ih =>
    intro s h
    rw [List.foldlM_cons, List.foldlM_cons]
    apply Alike.bind (alike a List.mem_cons_self s h.1)
    intro t ht
    exact ih (fun b hb => alike b (List.mem_cons_of_mem a hb)) (h.2 t ht)

end

end Lockstep

/-! Two runs of steps that may be refused: started from related states they are refused together,
or come to related states. -/
namespace TwoRuns

section

variable {ε δ σ σ' τ τ' α : Type} {R : σ → τ → Prop} {S : σ' → τ' → Prop}

/-- Refused on both sides, or accepted on both with what `R` relates. -/
def Related (R : σ → τ → Prop) : Except ε σ → Except δ τ → Prop
  | .ok s, .ok t => R s t
  | .error _, .error _ => True
  | _, _ => False

theorem Related.bind {x : Except ε σ} {y : Except δ τ} {f : σ → Except ε σ'}
    {g : τ → Except δ τ'} (h : Related R x y) (next : ∀ s t, R s t → Related S (f s) (g t)) :
    Related S (x >>= f) (y >>= g) := by
  cases x with
  | error e =>
    cases y with
    | error d => trivial
    | ok t => exact h.elim
  | ok s =>
    cases y with
    | error d => exact h.elim
    | ok t => exact next s t h

/-- A step that is the same on both sides. -/
theorem Related.after {x : Except ε σ} {f : σ → Except ε σ'} {g : σ → Except ε τ'}
    (next : ∀ s, x = .ok s → Related S (f s) (g s)) : Related S (x >>= f) (x >>= g) := by
  cases x with
  | error e => trivial
  | ok s => exact next s rfl

theorem related_prefix {R : List α → σ → τ → Prop} {f : σ → α → Except ε σ}
    {g : τ → α → Except δ τ} (done rest : List α)
    (step : ∀ before a after, done ++ rest = before ++ a :: after → ∀ s t, R before s t →
      Related (R (before ++ [a])) (f s a) (g t a)) {s : σ} {t : τ} (start : R done s t) :
    Related (R (done ++ rest)) (rest.foldlM f s) (rest.foldlM g t) := by
  induction rest generalizing done s t with
  | nil =>
    rw [List.append_nil]
    exact start
  | cons a rest ih =>
    rw [List.foldlM_cons, List.foldlM_cons]
    apply (step done a rest rfl s t start).bind
    intro s t related
    rw [List.append_cons] at step ⊢
    exact ih (done ++ [a]) step related

/-- What one step preserves, given the steps taken before it, a whole list of steps preserves. -/
theorem Related.foldlM {R : List α → σ → τ → Prop} {f : σ → α → Except ε σ}
    {g : τ → α → Except δ τ} {as : List α}
    (step : ∀ before a after, as = before ++ a :: after → ∀ s t, R before s t →
      Related (R (before ++ [a])) (f s a) (g t a)) {s : σ} {t : τ} (start : R [] s t) :
    Related (R as) (as.foldlM f s) (as.foldlM g t) :=
  related_prefix [] as step start

end

end TwoRuns
