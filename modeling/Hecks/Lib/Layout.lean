import Mathlib

/-! Blocks told by indentation. A block is what follows a heading and stands further in; its own
items are those as far in as its first, and each may head a block in turn. -/
namespace Layout

section

variable {α : Type} (depth : α → Nat)

/-- Each item with what comes after it. -/
def places : List α → List (α × List α)
  | [] => []
  | x :: xs => (x, xs) :: places xs

/-- Whether the item stands further in than the heading, where there is one. -/
def inside (parent : Option Nat) (x : α) : Bool := parent.all (· < depth x)

/-- What is left after the items deeper than `d`. -/
def skip (d : Nat) (xs : List α) : List α := xs.dropWhile (d < depth ·)

/-- The places at depth `e` of the block these items start with. -/
def ownAt (parent : Option Nat) (e : Nat) (xs : List α) : List (α × List α) :=
  ((places xs).takeWhile fun place => inside depth parent place.1).filter
    fun place => depth place.1 = e

/-- The places of the block under depth `d` that are as far in as its first item. -/
def own (d : Nat) (xs : List α) : List (α × List α) :=
  ownAt depth (some d) ((xs.head?.map depth).getD 0) xs

theorem skip_sublist (d : Nat) (xs : List α) : (skip depth d xs).Sublist xs :=
  List.dropWhile_sublist _

variable {depth} {parent : Option Nat} {d e : Nat}

theorem inside_of_le {x : α} (under : parent.all (· < e)) (le : e ≤ depth x) :
    inside depth parent x = true := by
  cases parent with
  | none => rfl
  | some p =>
    have below : p < e := of_decide_eq_true under
    exact decide_eq_true (Nat.lt_of_lt_of_le below le)

theorem ownAt_ended {x : α} {xs : List α} (ended : inside depth parent x = false) :
    ownAt depth parent e (x :: xs) = [] := by
  simp only [ownAt, places, List.takeWhile_cons, ended, Bool.false_eq_true, if_false,
    List.filter_nil]

theorem ownAt_here (under : parent.all (· < e)) {x : α} (level : depth x = e) (xs : List α) :
    ownAt depth parent e (x :: xs) = (x, xs) :: ownAt depth parent e xs := by
  have within := inside_of_le under level.ge
  simp only [ownAt, places, List.takeWhile_cons, within, if_true, List.filter_cons, level,
    decide_true]

theorem ownAt_deeper (under : parent.all (· < e)) {x : α} (deeper : e < depth x) (xs : List α) :
    ownAt depth parent e (x :: xs) = ownAt depth parent e xs := by
  have within := inside_of_le under deeper.le
  have apart : ¬ depth x = e := by omega
  simp only [ownAt, places, List.takeWhile_cons, within, if_true, List.filter_cons, apart,
    decide_false, Bool.false_eq_true, if_false]

theorem skip_deeper {x : α} (deeper : e < depth x) (xs : List α) :
    skip depth e (x :: xs) = skip depth e xs := by
  simp only [skip, List.dropWhile_cons, deeper, decide_true, if_true]

theorem skip_of_head {xs : List α} (head : ∀ x ∈ xs.head?, depth x ≤ e) :
    skip depth e xs = xs := by
  cases xs with
  | nil => rfl
  | cons x xs =>
    have shallow : ¬ e < depth x := Nat.not_lt.mpr (head x rfl)
    simp only [skip, List.dropWhile_cons, shallow, decide_false, Bool.false_eq_true, if_false]

/-- What an own item heads is no part of its block's own items. -/
theorem ownAt_skip (under : parent.all (· < e)) (xs : List α) :
    ownAt depth parent e (skip depth e xs) = ownAt depth parent e xs := by
  induction xs with
  | nil => rfl
  | cons x xs ih =>
    by_cases deeper : e < depth x
    · rw [skip_deeper deeper, ownAt_deeper under deeper, ih]
    · rw [skip_of_head]
      intro y head
      cases head
      exact Nat.le_of_not_lt deeper

theorem dropWhile_skip (under : parent.all (· < e)) (xs : List α) :
    (skip depth e xs).dropWhile (inside depth parent) = xs.dropWhile (inside depth parent) := by
  induction xs with
  | nil => rfl
  | cons x xs ih =>
    by_cases deeper : e < depth x
    · rw [skip_deeper deeper, ih, List.dropWhile_cons, if_pos (inside_of_le under deeper.le)]
    · rw [skip_of_head]
      intro y head
      cases head
      exact Nat.le_of_not_lt deeper

/-! ### Reading a block item by item -/

variable {σ : Type}

/-- Reads a block's own items in turn, each `act` taking the item, what follows it and the state,
and passing over what the item heads. -/
inductive Chain (depth : α → Nat) (parent : Option Nat) (e : Nat)
    (act : σ → α → List α → σ → Prop) : σ → List α → σ → List α → Prop
  | done {s : σ} {xs : List α} (ended : ∀ x ∈ xs.head?, inside depth parent x = false) :
      Chain depth parent e act s xs s xs
  | next {s t s' : σ} {x : α} {xs ys : List α} (level : depth x = e) (acts : act s x xs t)
      (later : Chain depth parent e act t (skip depth e xs) s' ys) :
      Chain depth parent e act s (x :: xs) s' ys

variable {act : σ → α → List α → σ → Prop} {s s' : σ} {xs ys : List α}

theorem Chain.rest (h : Chain depth parent e act s xs s' ys) (under : parent.all (· < e)) :
    ys = xs.dropWhile (inside depth parent) := by
  induction h with
  | @done s xs ended =>
    cases xs with
    | nil => rfl
    | cons x xs => rw [List.dropWhile_cons, ended x rfl, if_neg Bool.false_ne_true]
  | @next s t s' x xs ys level acts later ih =>
    rw [ih, dropWhile_skip under, List.dropWhile_cons, if_pos (inside_of_le under level.ge)]

theorem Chain.ownAt_ended (ended : ∀ x ∈ xs.head?, inside depth parent x = false) :
    ownAt depth parent e xs = [] := by
  cases xs with
  | nil => rfl
  | cons x xs => exact Layout.ownAt_ended (ended x rfl)

/-- What an item is given of the list is shorter than the list. -/
theorem Chain.shorter (h : Chain depth parent e act s xs s' ys) {n : Nat} (le : xs.length ≤ n) :
    Chain depth parent e (fun s x xs t => act s x xs t ∧ xs.length < n) s xs s' ys := by
  induction h with
  | done ended => exact .done ended
  | @next s t s' x xs ys level acts later ih =>
    rw [List.length_cons] at le
    have skipped := (skip_sublist depth e xs).length_le
    exact .next level ⟨acts, le⟩ (ih (by omega))

/-- What every item keeps is kept by the whole block. -/
theorem Chain.invariant (h : Chain depth parent e act s xs s' ys) {I : σ → Prop}
    (keeps : ∀ {s t x xs}, act s x xs t → I s → I t) : I s → I s' := by
  induction h with
  | done => exact id
  | next level acts later ih => exact fun held => ih (keeps acts held)

/-- What an item brings about and no later item undoes holds of every own item at the end. -/
theorem Chain.settles (h : Chain depth parent e act s xs s' ys) (under : parent.all (· < e))
    {P : α → List α → σ → Prop} (here : ∀ {s t x xs}, act s x xs t → P x xs t)
    (keeps : ∀ {s t x xs y ys}, act s x xs t → P y ys s → P y ys t) :
    (∀ y ys, P y ys s → P y ys s') ∧ ∀ place ∈ ownAt depth parent e xs, P place.1 place.2 s' := by
  induction h with
  | done ended =>
    rw [Chain.ownAt_ended ended]
    exact ⟨fun _ _ held => held, fun _ mem => absurd mem List.not_mem_nil⟩
  | next level acts later ih =>
    obtain ⟨kept, others⟩ := ih
    rw [ownAt_here under level]
    rw [ownAt_skip under] at others
    refine ⟨fun y ys held => kept y ys (keeps acts held), ?_⟩
    intro place mem
    cases List.mem_cons.mp mem with
    | inl same =>
      subst same
      exact kept _ _ (here acts)
    | inr later => exact others place later

/-- Where an item of a kind fills a slot, refuses a slot that is filled, and no item empties it,
there is no second item of the kind. -/
theorem Chain.once (h : Chain depth parent e act s xs s' ys) (under : parent.all (· < e))
    (filled : σ → Bool) {kind : α → Bool}
    (fills : ∀ {s t x xs}, act s x xs t → kind x = true → filled s = false ∧ filled t = true)
    (keeps : ∀ {s t x xs}, act s x xs t → filled s = true → filled t = true) :
    (ownAt depth parent e xs).countP (kind ·.1) ≤ if filled s then 0 else 1 := by
  induction h with
  | done ended =>
    rw [Chain.ownAt_ended ended]
    exact Nat.zero_le _
  | @next s t s' x xs ys level acts later ih =>
    rw [ownAt_here under level, List.countP_cons]
    rw [ownAt_skip under] at ih
    cases named : kind x with
    | true =>
      obtain ⟨empty, full⟩ := fills acts named
      rw [full, if_pos rfl] at ih
      rw [empty, if_neg Bool.false_ne_true, if_pos rfl]
      omega
    | false =>
      rw [if_neg Bool.false_ne_true, Nat.add_zero]
      apply ih.trans
      cases held : filled s with
      | true => rw [keeps acts held]
      | false =>
        rw [if_neg Bool.false_ne_true]
        split <;> omega

end

end Layout
