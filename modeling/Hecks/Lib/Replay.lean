import Mathlib

/-! Replaying edits over a table: for each key the last edit that names it decides, so a replay
comes out the same over any table that differs only at keys it names. -/
namespace Replay

variable {κ ν : Type} [DecidableEq κ]

/-- A key is given a value, or loses the one it has. -/
structure Edit (κ ν : Type) where
  key : κ
  value : Option ν

def apply (table : κ → Option ν) (e : Edit κ ν) : κ → Option ν :=
  Function.update table e.key e.value

def replay (edits : List (Edit κ ν)) (table : κ → Option ν) : κ → Option ν := edits.foldl apply table

variable {edits others : List (Edit κ ν)} {f g : κ → Option ν}

theorem replay_nil : replay [] f = f := rfl

/-- A key no edit names keeps its value. -/
theorem replay_other {k : κ} (h : ∀ e ∈ edits, e.key ≠ k) : replay edits f k = f k := by
  induction edits generalizing f with
  | nil => rfl
  | cons e edits ih =>
    have rest := ih (f := apply f e) fun d mem => h d (List.mem_cons_of_mem e mem)
    have other : k ≠ e.key := (h e List.mem_cons_self).symm
    have kept : apply f e k = f k := by rw [apply, Function.update_of_ne other]
    exact rest.trans kept

theorem replay_congr (agree : ∀ k, (∀ e ∈ edits, e.key ≠ k) → f k = g k) :
    replay edits f = replay edits g := by
  induction edits generalizing f g with
  | nil =>
    funext k
    exact agree k fun e mem => absurd mem List.not_mem_nil
  | cons e edits ih =>
    apply ih
    intro k others
    by_cases named : k = e.key
    · rw [named, apply, apply, Function.update_self, Function.update_self]
    · have same : f k = g k := by
        apply agree
        intro d mem
        rcases List.mem_cons.mp mem with rfl | mem
        · exact fun eq => named eq.symm
        · exact others d mem
      rw [apply, apply, Function.update_of_ne named, Function.update_of_ne named, same]

/-- What a replay names, edits made before it cannot change. -/
theorem replay_absorbs (h : ∀ d ∈ others, ∃ e ∈ edits, e.key = d.key) :
    replay edits (replay others f) = replay edits f := by
  apply replay_congr
  intro k unnamed
  apply replay_other
  intro d mem named
  obtain ⟨e, inEdits, same⟩ := h d mem
  exact unnamed e inEdits (same.trans named)

/-- A replay over a table that holds a part of it already comes out the same. -/
theorem replay_over_part (part : ∀ d ∈ others, d ∈ edits) :
    replay edits (replay others f) = replay edits f :=
  replay_absorbs fun d mem => ⟨d, part d mem, rfl⟩

end Replay
