import Mathlib

/-! A list cut at the first place where a mark stands and what came before it passes a test. -/
namespace FirstCut

variable {α : Type} [DecidableEq α] {stop : List α → Bool} {mark : α}

structure Cut (stop : List α → Bool) (mark : α) (xs before behind : List α) : Prop where
  whole : xs = before ++ mark :: behind
  stops : stop before = true
  first : ∀ p q, xs = p ++ mark :: q → stop p = true → before.length ≤ p.length

/-- Cuts what follows `read`. -/
def cutFrom (stop : List α → Bool) (mark : α) (read : List α) :
    List α → Option (List α × List α)
  | [] => none
  | x :: xs =>
      if x = mark ∧ stop read = true then some (read, xs) else cutFrom stop mark (read ++ [x]) xs

theorem cutFrom_eq_some_iff {read xs before behind : List α} :
    cutFrom stop mark read xs = some (before, behind) ↔
      ∃ p, before = read ++ p ∧ xs = p ++ mark :: behind ∧ stop before = true ∧
        ∀ p' q', xs = p' ++ mark :: q' → stop (read ++ p') = true → p.length ≤ p'.length := by
  induction xs generalizing read with
  | nil => simp [cutFrom]
  | cons x xs ih =>
    by_cases here : x = mark ∧ stop read = true
    · rw [cutFrom, if_pos here, Option.some.injEq, Prod.mk.injEq]
      constructor
      · rintro ⟨rfl, rfl⟩
        exact ⟨[], by simp, by rw [here.1]; rfl, here.2, fun _ _ _ _ => Nat.zero_le _⟩
      · rintro ⟨p, rfl, whole, -, first⟩
        have none : p.length ≤ 0 := first [] xs (by rw [here.1]; rfl) (by simpa using here.2)
        obtain rfl := List.length_eq_zero_iff.mp (Nat.le_zero.mp none)
        exact ⟨(List.append_nil _).symm, (List.cons.inj whole).2⟩
    · rw [cutFrom, if_neg here, ih]
      constructor
      · rintro ⟨p, rfl, rfl, stops, first⟩
        refine ⟨x :: p, by simp, rfl, stops, ?_⟩
        intro p' q' whole passes
        cases p' with
        | nil =>
          rw [List.append_nil] at passes
          exact absurd ⟨(List.cons.inj whole).1, passes⟩ here
        | cons y p' =>
          obtain ⟨rfl, rest⟩ := List.cons.inj whole
          have shorter := first p' q' rest (by rwa [List.append_assoc])
          rw [List.length_cons, List.length_cons]
          exact Nat.succ_le_succ shorter
      · rintro ⟨p, rfl, whole, stops, first⟩
        cases p with
        | nil =>
          rw [List.append_nil] at stops
          exact absurd ⟨(List.cons.inj whole).1, stops⟩ here
        | cons y p =>
          obtain ⟨rfl, rest⟩ := List.cons.inj whole
          refine ⟨p, by simp, rest, stops, ?_⟩
          rintro p' q' rfl passes
          have shorter := first (x :: p') q' rfl (by rwa [List.append_assoc] at passes)
          rw [List.length_cons, List.length_cons] at shorter
          exact Nat.succ_le_succ_iff.mp shorter

theorem cutFrom_nil_iff {xs before behind : List α} :
    cutFrom stop mark [] xs = some (before, behind) ↔ Cut stop mark xs before behind := by
  rw [cutFrom_eq_some_iff]
  constructor
  · rintro ⟨p, rfl, whole, stops, first⟩
    exact ⟨whole, stops, first⟩
  · rintro ⟨whole, stops, first⟩
    exact ⟨before, rfl, whole, stops, first⟩

theorem exists_cutFrom {read p : List α} (stops : stop (read ++ p) = true) (q : List α) :
    ∃ found, cutFrom stop mark read (p ++ mark :: q) = some found := by
  induction p generalizing read with
  | nil =>
    rw [List.append_nil] at stops
    exact ⟨_, if_pos ⟨rfl, stops⟩⟩
  | cons x p ih =>
    rw [List.cons_append, cutFrom]
    split_ifs with here
    · exact ⟨_, rfl⟩
    · exact ih (by rwa [List.append_assoc])

/-- What has a place to cut at is cut. -/
theorem exists_cut {p : List α} (stops : stop p = true) (q : List α) :
    ∃ before behind, Cut stop mark (p ++ mark :: q) before behind := by
  obtain ⟨⟨before, behind⟩, found⟩ : ∃ found, cutFrom stop mark [] (p ++ mark :: q) = some found :=
    exists_cutFrom stops q
  exact ⟨before, behind, cutFrom_nil_iff.mp found⟩

end FirstCut
