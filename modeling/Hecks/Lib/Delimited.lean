import Mathlib

/-! Texts that say where they end: whatever follows one, it is read off the front as the value
it was written for, and what follows is what is left. -/
namespace Delimited

variable {σ α : Type} {text : α → List σ}

/-- The text of this value is taken for that of no other, whatever follows either. -/
def At (text : α → List σ) (a : α) : Prop :=
  ∀ b rest rest', text a ++ rest = text b ++ rest' → a = b ∧ rest = rest'

theorem At.inj {a b : α} (h : At text a) (same : text a = text b) : a = b := by
  have ends : text a ++ [] = text b ++ [] := by rw [same]
  exact (h b [] [] ends).1

/-- Each value after its separator, up to the closing symbol. -/
theorem At.each {sep close : σ} (ne : sep ≠ close) {xs : List α} (each : ∀ x ∈ xs, At text x)
    (ys : List α) {rest rest' : List σ}
    (h : xs.flatMap (fun x => sep :: text x) ++ close :: rest =
      ys.flatMap (fun y => sep :: text y) ++ close :: rest') : xs = ys ∧ rest = rest' := by
  induction xs generalizing ys with
  | nil =>
    cases ys with
    | nil => exact ⟨rfl, (List.cons.inj h).2⟩
    | cons y ys => exact absurd (List.cons.inj h).1.symm ne
  | cons x xs ih =>
    cases ys with
    | nil => exact absurd (List.cons.inj h).1 ne
    | cons y ys =>
      simp only [List.flatMap_cons, List.cons_append, List.append_assoc] at h
      obtain ⟨first, others⟩ := each x List.mem_cons_self y _ _ (List.cons.inj h).2
      obtain ⟨same, ends⟩ := ih (fun x mem => each x (List.mem_cons_of_mem _ mem)) ys others
      exact ⟨by rw [first, same], ends⟩

/-- The values with a separator between them. -/
def listed (text : α → List σ) (front sep close : σ) (xs : List α) : List σ :=
  front :: (List.intercalate [sep] (xs.map text) ++ [close])

theorem intercalate_cons (sep : σ) (x : α) (xs : List α) :
    List.intercalate [sep] ((x :: xs).map text) = text x ++ xs.flatMap fun y => sep :: text y := by
  induction xs generalizing x with
  | nil => simp [List.intercalate]
  | cons y ys ih =>
    have next := ih y
    simp only [List.map_cons, List.intercalate, List.intersperse_cons₂, List.flatten_cons,
      List.flatMap_cons, List.cons_append, List.nil_append] at next ⊢
    rw [next]

/-- A list of such texts is one, when none of them starts as the list closes. -/
theorem At.listed {front sep close : σ} (ne : sep ≠ close) {xs : List α}
    (each : ∀ x ∈ xs, At text x) (starts : ∀ x, ∃ c cs, text x = c :: cs ∧ c ≠ close) :
    At (listed text front sep close) xs := by
  intro ys rest rest' h
  simp only [Delimited.listed, List.cons_append, List.append_assoc, List.nil_append] at h
  have body := (List.cons.inj h).2
  cases xs with
  | nil =>
    cases ys with
    | nil => exact ⟨rfl, (List.cons.inj body).2⟩
    | cons y ys =>
      obtain ⟨c, cs, first, other⟩ := starts y
      rw [intercalate_cons, first] at body
      exact absurd (List.cons.inj body).1.symm other
  | cons x xs =>
    cases ys with
    | nil =>
      obtain ⟨c, cs, first, other⟩ := starts x
      rw [intercalate_cons, first] at body
      exact absurd (List.cons.inj body).1 other
    | cons y ys =>
      rw [intercalate_cons, intercalate_cons, List.append_assoc, List.append_assoc] at body
      obtain ⟨first, others⟩ := each x List.mem_cons_self y _ _ body
      obtain ⟨same, ends⟩ :=
        At.each ne (fun x mem => each x (List.mem_cons_of_mem _ mem)) ys others
      exact ⟨by rw [first, same], ends⟩

end Delimited
