import Mathlib

/-! Steps of a recursive-descent reader. A step answers a value and the text it leaves, which
is never longer than the text it was given, so a reader that calls itself behind a character
it consumed terminates. -/
namespace Reading

/-- What a parse step read, and what it left: no more than `n` characters. -/
structure Read (α : Type) (n : Nat) where
  value : α
  rest : List Char
  within : rest.length ≤ n

/-! ### Steps that may be refused -/

/-- The step succeeds with this value and leaves this text. -/
def Reads {α : Type} {n : Nat} (x : Except String (Read α n)) (value : α) (rest : List Char) :
    Prop :=
  ∃ r, x = .ok r ∧ r.value = value ∧ r.rest = rest

theorem Reads.unique {α : Type} {n : Nat} {x : Except String (Read α n)} {v w : α}
    {rest rest' : List Char} (h : Reads x v rest) (h' : Reads x w rest') :
    v = w ∧ rest = rest' := by
  obtain ⟨r, eq, rfl, rfl⟩ := h
  obtain ⟨r', eq', rfl, rfl⟩ := h'
  cases eq.symm.trans eq'
  exact ⟨rfl, rfl⟩

theorem Reads.length_le {α : Type} {n : Nat} {x : Except String (Read α n)} {v : α}
    {rest : List Char} (h : Reads x v rest) : rest.length ≤ n := by
  obtain ⟨r, -, -, rfl⟩ := h
  exact r.within

theorem bind_eq_ok {ε α β : Type} {x : Except ε α} {f : α → Except ε β} {b : β} :
    (x >>= f) = .ok b ↔ ∃ a, x = .ok a ∧ f a = .ok b := by
  rcases x with e | a
  · constructor
    · intro h
      cases h
    · rintro ⟨_, h, _⟩
      cases h
  · exact ⟨fun h => ⟨a, rfl, h⟩, fun ⟨_, same, h⟩ => by cases same; exact h⟩

theorem bind_ok_eq {ε α β : Type} {x : Except ε α} {f : α → Except ε β} {a : α}
    (h : x = .ok a) : (x >>= f) = f a := by rw [h]; rfl

theorem pure_eq_ok {ε α : Type} {a b : α} : (pure a : Except ε α) = .ok b ↔ a = b :=
  ⟨Except.ok.inj, congrArg _⟩

/-- What a list of optional answers holds, each from a member, one for each. -/
theorem mapM_some {α β : Type} {f : α → Option β} {xs : List α} {ys : List β}
    (h : xs.mapM f = some ys) :
    (∀ x ∈ xs, ∃ y ∈ ys, f x = some y) ∧ ∀ y ∈ ys, ∃ x ∈ xs, f x = some y := by
  induction xs generalizing ys with
  | nil =>
    cases h
    constructor
    · intro x mem
      cases mem
    · intro y mem
      cases mem
  | cons x xs ih =>
    rw [List.mapM_cons] at h
    obtain ⟨y, first, rest⟩ := Option.bind_eq_some_iff.mp h
    obtain ⟨ys, others, same⟩ := Option.bind_eq_some_iff.mp rest
    cases same
    obtain ⟨there, back⟩ := ih others
    constructor
    · intro z mem
      rcases List.mem_cons.mp mem with rfl | mem
      · exact ⟨y, List.mem_cons_self, first⟩
      · obtain ⟨w, inYs, same⟩ := there z mem
        exact ⟨w, List.mem_cons_of_mem y inYs, same⟩
    · intro w mem
      rcases List.mem_cons.mp mem with rfl | mem
      · exact ⟨x, List.mem_cons_self, first⟩
      · obtain ⟨z, inXs, same⟩ := back w mem
        exact ⟨z, List.mem_cons_of_mem x inXs, same⟩

theorem mapM_total {α β : Type} {f : α → Option β} {xs : List α} (each : ∀ x ∈ xs, ∃ y, f x = some y) :
    ∃ ys, xs.mapM f = some ys := by
  induction xs with
  | nil => exact ⟨[], rfl⟩
  | cons x xs ih =>
    obtain ⟨y, first⟩ := each x List.mem_cons_self
    obtain ⟨ys, rest⟩ := ih fun z mem => each z (List.mem_cons_of_mem x mem)
    exact ⟨y :: ys, by rw [List.mapM_cons, first, rest]; rfl⟩

/-- Steps that all succeed, in turn. -/
theorem forall₂_of_mapM {ε α β : Type} {f : α → Except ε β} {xs : List α} {ys : List β}
    (mapped : xs.mapM f = .ok ys) : List.Forall₂ (fun x y => f x = .ok y) xs ys := by
  induction xs generalizing ys with
  | nil =>
    cases mapped
    exact .nil
  | cons x xs ih =>
    rw [List.mapM_cons] at mapped
    obtain ⟨y, first, mapped⟩ := bind_eq_ok.mp mapped
    obtain ⟨rest, others, mapped⟩ := bind_eq_ok.mp mapped
    cases mapped
    exact .cons first (ih others)

theorem ok_of_mapM {ε α β : Type} {f : α → Except ε β} {xs : List α} {ys : List β}
    (mapped : xs.mapM f = .ok ys) {x : α} (mem : x ∈ xs) : ∃ y, f x = .ok y := by
  have each := forall₂_of_mapM mapped
  clear mapped
  induction each with
  | nil => exact absurd mem List.not_mem_nil
  | cons first _ ih =>
    obtain same | later := List.mem_cons.mp mem
    · exact ⟨_, same ▸ first⟩
    · exact ih later

theorem mapM_congr {m : Type → Type} [Monad m] [LawfulMonad m] {α β : Type} {f g : α → m β}
    {xs : List α} (same : ∀ x ∈ xs, f x = g x) : xs.mapM f = xs.mapM g := by
  induction xs with
  | nil => rw [List.mapM_nil, List.mapM_nil]
  | cons x xs ih =>
    rw [List.mapM_cons, List.mapM_cons, same x List.mem_cons_self,
      ih fun y mem => same y (List.mem_cons_of_mem x mem)]

/-- A step that only reshapes the value of the step before it. -/
theorem reads_map {α β : Type} {n m : Nat} {x : Except String (Read α n)} {f : α → β}
    {within : ∀ r : Read α n, r.rest.length ≤ m} {v : β} {rest : List Char} :
    Reads (x >>= fun r => pure (⟨f r.value, r.rest, within r⟩ : Read β m)) v rest ↔
      ∃ u, Reads x u rest ∧ v = f u := by
  constructor
  · rintro ⟨r, eq, rfl, rfl⟩
    obtain ⟨a, hx, done⟩ := bind_eq_ok.mp eq
    cases pure_eq_ok.mp done
    exact ⟨a.value, ⟨a, hx, rfl, rfl⟩, rfl⟩
  · rintro ⟨u, ⟨a, rfl, rfl, rfl⟩, rfl⟩
    exact ⟨_, rfl, rfl, rfl⟩

/-- A step passed on as it is, under a wider bound. -/
theorem reads_widen {α : Type} {n m : Nat} {x : Except String (Read α n)}
    {within : ∀ r : Read α n, r.rest.length ≤ m} {v : α} {rest : List Char} :
    Reads (x >>= fun r => pure (⟨r.value, r.rest, within r⟩ : Read α m)) v rest ↔
      Reads x v rest := by
  refine (reads_map (f := id)).trans ⟨?_, fun h => ⟨v, h, rfl⟩⟩
  rintro ⟨u, h, rfl⟩
  exact h

end Reading
