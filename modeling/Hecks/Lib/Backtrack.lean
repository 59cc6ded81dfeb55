import Mathlib

/-! Backtracking search over the positions of a text, written with continuations. A search
is handed the place it starts at and a test for what comes after it, and succeeds when one of
its ways to go on passes the test. The places it can end at are a relation on positions; a
search finds that relation when the test is put to exactly those places. -/
namespace Backtrack

/-- What is asked of the place a search ends at: one at or after `i`, within `n`. -/
abbrev Rest (n i : Nat) := (j : Nat) → i ≤ j → j ≤ n → Bool

abbrev Search (n : Nat) := (i : Nat) → i ≤ n → Rest n i → Bool

variable {n : Nat}

/-- The search succeeds exactly when some place it can end at passes the test. -/
structure Finds (search : Search n) (R : Nat → Nat → Prop) : Prop where
  forward : ∀ i j, R i j → i ≤ j
  succeeds : ∀ i hi rest, search i hi rest = true ↔ ∃ j h h', R i j ∧ rest j h h' = true

/-- Ends where it starts, when the place is one of `here`. -/
def stay (here : Nat → Bool) : Search n := fun i hi rest => here i && rest i (Nat.le_refl i) hi

/-- Moves one place on, when the place is one of `here`. -/
def step (here : Nat → Bool) : Search n := fun i _ rest =>
  if h : i < n then here i && rest (i + 1) (Nat.le_succ i) h else false

/-- One search after the other. -/
def followedBy (first second : Search n) : Search n := fun i hi rest =>
  first i hi fun j hij hj => second j hj fun k hjk hk => rest k (Nat.le_trans hij hjk) hk

/-- Fails wherever it starts. -/
def nowhere : Search n := fun _ _ _ => false

/-- The first search, or else the second. -/
def either (first second : Search n) : Search n := fun i hi rest =>
  first i hi rest || second i hi rest

/-- Repeats `body`, `count` times so far, trying one repetition more before it stops. A
repetition that ends where it started is not taken. -/
def again (body : Search n) (min : Nat) (max : Option Nat) (count : Nat) : Search n :=
  fun i hi rest =>
    (max.all (count < ·) && body i hi fun j hij hj =>
      if _h : j = i then false
      else again body min max (count + 1) j hj fun k hjk hk => rest k (Nat.le_trans hij hjk) hk)
    || (min ≤ count && rest i (Nat.le_refl i) hi)
termination_by i => n - i

/-- `k` pieces of `R`, end to end. -/
def Pieces (R : Nat → Nat → Prop) : Nat → Nat → Nat → Prop
  | 0, i, j => i = j
  | k + 1, i, j => ∃ m, R i m ∧ Pieces R k m j

/-- The pieces of `R` that are not empty. -/
def Advancing (R : Nat → Nat → Prop) (i j : Nat) : Prop := R i j ∧ i ≠ j

/-- As many pieces of `R` as the bounds allow. -/
def Repeats (R : Nat → Nat → Prop) (min : Nat) (max : Option Nat) (i j : Nat) : Prop :=
  ∃ k, min ≤ k ∧ (∀ m ∈ max, k ≤ m) ∧ Pieces R k i j

theorem Pieces.mono {R S : Nat → Nat → Prop} (sub : ∀ i j, R i j → S i j) {k i j : Nat}
    (h : Pieces R k i j) : Pieces S k i j := by
  induction k generalizing i with
  | zero => exact h
  | succ k ih =>
    obtain ⟨m, first, others⟩ := h
    exact ⟨m, sub i m first, ih others⟩

theorem Repeats.mono {R S : Nat → Nat → Prop} (sub : ∀ i j, R i j → S i j) {min : Nat}
    {max : Option Nat} {i j : Nat} (h : Repeats R min max i j) : Repeats S min max i j := by
  obtain ⟨k, low, high, pieces⟩ := h
  exact ⟨k, low, high, pieces.mono sub⟩

/-- A search finds a relation however the relation is spelled. -/
theorem Finds.congr {search : Search n} {R S : Nat → Nat → Prop} (h : Finds search R)
    (same : ∀ i j, R i j ↔ S i j) : Finds search S where
  forward := by
    intro i j s
    exact h.forward i j ((same i j).mpr s)
  succeeds := by
    intro i hi rest
    simp only [h.succeeds, same]

theorem finds_stay (here : Nat → Bool) :
    Finds (stay here : Search n) fun i j => here i = true ∧ i = j where
  forward := by
    rintro i j ⟨_, rfl⟩
    exact Nat.le_refl i
  succeeds := by
    intro i hi rest
    simp only [stay, Bool.and_eq_true]
    constructor
    · rintro ⟨h, passes⟩
      exact ⟨i, Nat.le_refl i, hi, ⟨h, rfl⟩, passes⟩
    · rintro ⟨j, hij, hj, ⟨h, rfl⟩, passes⟩
      exact ⟨h, passes⟩

theorem finds_step (here : Nat → Bool) :
    Finds (step here : Search n) fun i j => i < n ∧ here i = true ∧ j = i + 1 where
  forward := by
    rintro i j ⟨_, _, rfl⟩
    exact Nat.le_succ i
  succeeds := by
    intro i hi rest
    by_cases h : i < n
    · simp only [step, h, dite_true, Bool.and_eq_true, true_and]
      constructor
      · rintro ⟨ok, passes⟩
        exact ⟨i + 1, Nat.le_succ i, h, ⟨ok, rfl⟩, passes⟩
      · rintro ⟨j, hij, hj, ⟨ok, rfl⟩, passes⟩
        exact ⟨ok, passes⟩
    · simp [step, h]

theorem finds_followedBy {first second : Search n} {R S : Nat → Nat → Prop}
    (hR : Finds first R) (hS : Finds second S) :
    Finds (followedBy first second) fun i j => ∃ m, R i m ∧ S m j where
  forward := by
    rintro i j ⟨m, r, s⟩
    exact Nat.le_trans (hR.forward i m r) (hS.forward m j s)
  succeeds := by
    intro i hi rest
    constructor
    · intro h
      obtain ⟨m, him, hm, r, h⟩ := (hR.succeeds i hi _).mp h
      obtain ⟨j, hmj, hj, s, passes⟩ := (hS.succeeds m hm _).mp h
      exact ⟨j, Nat.le_trans him hmj, hj, ⟨m, r, s⟩, passes⟩
    · rintro ⟨j, hij, hj, ⟨m, r, s⟩, passes⟩
      have hmj := hS.forward m j s
      have hm := Nat.le_trans hmj hj
      apply (hR.succeeds i hi _).mpr
      refine ⟨m, hR.forward i m r, hm, r, ?_⟩
      exact (hS.succeeds m hm _).mpr ⟨j, hmj, hj, s, passes⟩

theorem finds_nowhere : Finds (nowhere : Search n) fun _ _ => False where
  forward := by
    intro i j h
    exact h.elim
  succeeds := by
    intro i hi rest
    simp [nowhere]

theorem finds_either {first second : Search n} {R S : Nat → Nat → Prop} (hR : Finds first R)
    (hS : Finds second S) : Finds (either first second) fun i j => R i j ∨ S i j where
  forward := by
    rintro i j (r | s)
    · exact hR.forward i j r
    · exact hS.forward i j s
  succeeds := by
    intro i hi rest
    rw [either, Bool.or_eq_true, hR.succeeds, hS.succeeds]
    constructor
    · rintro (⟨j, h, h', r, passes⟩ | ⟨j, h, h', s, passes⟩)
      · exact ⟨j, h, h', .inl r, passes⟩
      · exact ⟨j, h, h', .inr s, passes⟩
    · rintro ⟨j, h, h', r | s, passes⟩
      · exact .inl ⟨j, h, h', r, passes⟩
      · exact .inr ⟨j, h, h', s, passes⟩

/-- The pieces a repetition that has taken `count` of them may still take. -/
def More (R : Nat → Nat → Prop) (min : Nat) (max : Option Nat) (count i j : Nat) : Prop :=
  ∃ k, min ≤ count + k ∧ (∀ m ∈ max, k = 0 ∨ count + k ≤ m) ∧ Pieces (Advancing R) k i j

theorem Pieces.forward {R : Nat → Nat → Prop} (fwd : ∀ i j, R i j → i ≤ j) {k i j : Nat}
    (h : Pieces R k i j) : i ≤ j := by
  induction k generalizing i with
  | zero => exact Nat.le_of_eq h
  | succ k ih =>
    obtain ⟨m, first, others⟩ := h
    exact Nat.le_trans (fwd i m first) (ih others)

theorem more_iff {R : Nat → Nat → Prop} {min count i j : Nat} {max : Option Nat} :
    More R min max count i j ↔
      (min ≤ count ∧ i = j) ∨
      ((∀ m ∈ max, count < m) ∧ ∃ m, Advancing R i m ∧ More R min max (count + 1) m j) := by
  constructor
  · rintro ⟨k, low, high, pieces⟩
    cases k with
    | zero => exact .inl ⟨low, pieces⟩
    | succ k =>
      obtain ⟨m, first, others⟩ := pieces
      have room : ∀ b ∈ max, count + (k + 1) ≤ b := by
        intro b hb
        have := high b hb
        omega
      refine .inr ⟨fun b hb => by have := room b hb; omega, m, first, k, by omega, ?_, others⟩
      intro b hb
      have := room b hb
      omega
  · rintro (⟨low, rfl⟩ | ⟨room, m, first, k, low, high, others⟩)
    · exact ⟨0, low, fun _ _ => .inl rfl, rfl⟩
    · refine ⟨k + 1, by omega, ?_, m, first, others⟩
      intro b hb
      have := room b hb
      have := high b hb
      omega

theorem finds_again {body : Search n} {R : Nat → Nat → Prop} (hR : Finds body R) (min : Nat)
    (max : Option Nat) (count : Nat) :
    Finds (again body min max count) (More R min max count) where
  forward := by
    rintro i j ⟨k, _, _, pieces⟩
    exact pieces.forward fun i j h => hR.forward i j h.1
  succeeds := by
    intro i hi rest
    -- induction on what is left of the text: every repetition taken moves on
    induction hd : n - i using Nat.strongRecOn generalizing i count with
    | _ d ih =>
    have room : max.all (fun m => decide (count < m)) = true ↔ ∀ m ∈ max, count < m := by
      cases max <;> simp
    rw [again, Bool.or_eq_true, Bool.and_eq_true, Bool.and_eq_true, decide_eq_true_iff, room,
      hR.succeeds]
    constructor
    · rintro (⟨hmax, m, him, hm, r, h⟩ | ⟨low, passes⟩)
      · by_cases e : m = i
        · simp [e] at h
        · simp only [e, dite_false] at h
          obtain ⟨j, hmj, hj, more, passes⟩ := (ih _ (by omega) _ _ hm _ rfl).mp h
          exact ⟨j, Nat.le_trans him hmj, hj,
            more_iff.mpr (.inr ⟨hmax, m, ⟨r, Ne.symm e⟩, more⟩), passes⟩
      · exact ⟨i, Nat.le_refl i, hi, more_iff.mpr (.inl ⟨low, rfl⟩), passes⟩
    · rintro ⟨j, hij, hj, more, passes⟩
      rcases more_iff.mp more with ⟨low, rfl⟩ | ⟨hmax, m, ⟨r, e⟩, more⟩
      · exact .inr ⟨low, passes⟩
      · have him := hR.forward i m r
        have hmj : m ≤ j := by
          obtain ⟨k, _, _, pieces⟩ := more
          exact pieces.forward fun i j h => hR.forward i j h.1
        refine .inl ⟨hmax, m, him, Nat.le_trans hmj hj, r, ?_⟩
        simp only [Ne.symm e, dite_false]
        exact (ih _ (by omega) _ _ (Nat.le_trans hmj hj) _ rfl).mpr ⟨j, hmj, hj, more, passes⟩

/-- A repetition from its start takes as many non-empty pieces as the bounds allow. -/
theorem finds_repeat {body : Search n} {R : Nat → Nat → Prop} (hR : Finds body R) (min : Nat)
    (max : Option Nat) : Finds (again body min max 0) (Repeats (Advancing R) min max) := by
  have same : ∀ i j, More R min max 0 i j ↔ Repeats (Advancing R) min max i j := by
    intro i j
    constructor
    · rintro ⟨k, low, high, pieces⟩
      refine ⟨k, by omega, ?_, pieces⟩
      intro m hm
      have := high m hm
      omega
    · rintro ⟨k, low, high, pieces⟩
      refine ⟨k, by omega, ?_, pieces⟩
      intro m hm
      have := high m hm
      omega
  exact (finds_again hR min max 0).congr same

end Backtrack
