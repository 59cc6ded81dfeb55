import Mathlib

/-! Reading a sequence page by page. Whoever asks for a page gets its rows and, while there
are more, the token of the place the page ended at; the next page holds what follows that
place. When the rows follow one another, the pages put together are the sequence. -/
namespace Paging

variable {α τ ε : Type}

/-- Each row follows the ones before it, and no row follows itself or a later one. -/
structure Sequenced (follows : α → α → Bool) (rows : List α) : Prop where
  later : rows.Pairwise fun a b => follows b a = true
  earlier : rows.Pairwise fun a b => follows a b = false
  self : ∀ a ∈ rows, follows a a = false

/-- What follows a row is the rest of the sequence. -/
theorem Sequenced.filter_follows {follows : α → α → Bool} {front rest : List α} {a : α}
    (h : Sequenced follows (front ++ a :: rest)) :
    (front ++ a :: rest).filter (follows · a) = rest := by
  have before : front.filter (follows · a) = [] := by
    apply List.filter_eq_nil_iff.mpr
    intro b hb
    have := (List.pairwise_append.mp h.earlier).2.2 b hb a List.mem_cons_self
    simp [this]
  have itself : follows a a = false := h.self a (by simp)
  have after : rest.filter (follows · a) = rest := by
    apply List.filter_eq_self.mpr
    have tail := (List.pairwise_append.mp h.later).2.1
    exact (List.pairwise_cons.mp tail).1
  rw [List.filter_append, before, List.nil_append, List.filter_cons, itself, after]
  rfl

/-- The pages of a reader who asks with each page's token for the next one. The last page
carries none. -/
inductive Walk (page : Option τ → Except ε (List α × Option τ)) :
    Option τ → List (List α) → Prop
  | last {position rows} : page position = .ok (rows, none) → Walk page position [rows]
  | more {position rows next pages} : page position = .ok (rows, some next) →
      Walk page (some next) pages → Walk page position (rows :: pages)

/-- One page of the rows, with the token of its last row while rows are left. -/
def cut (token : α → τ) (size : Nat) (rows : List α) : List α × Option τ :=
  if rows.length ≤ size then (rows, none)
  else (rows.take size, (rows.take size).getLast?.map token)

section

variable {page : Option τ → Except ε (List α × Option τ)} {follows : α → α → Bool}
  {token : α → τ} {size : Nat} {rows : List α}

/-- A page cut off in the middle names its last row. -/
theorem cut_more {rest : List α} (positive : 0 < size) (long : size < rest.length) :
    ∃ front a tail, rest = front ++ a :: tail ∧ (front ++ [a]).length = size ∧
      cut token size rest = (front ++ [a], some (token a)) := by
  have nonempty : rest.take size ≠ [] := by
    intro none
    have := congrArg List.length none
    simp only [List.length_take, List.length_nil] at this
    omega
  obtain ⟨front, a, split⟩ := (List.eq_nil_or_concat (rest.take size)).resolve_left nonempty
  rw [List.concat_eq_append] at split
  refine ⟨front, a, rest.drop size, ?_, ?_, ?_⟩
  · have whole := List.take_append_drop size rest
    rw [split, List.append_assoc] at whole
    exact whole.symm
  · rw [← split, List.length_take]
    omega
  · rw [cut, if_neg (by omega), split]
    simp

/-- From the page that starts with `rest`, the walk goes through `rest`. -/
theorem walk_rest (sequenced : Sequenced follows rows) (positive : 0 < size)
    (asked : ∀ a ∈ rows, page (some (token a)) = .ok (cut token size (rows.filter (follows · a))))
    (n : Nat) : ∀ (front rest : List α) (position : Option τ), rest.length ≤ n →
      rows = front ++ rest → page position = .ok (cut token size rest) →
        ∃ pages, Walk page position pages ∧ pages.flatten = rest := by
  induction n with
  | zero =>
    intro front rest position short split answer
    have : rest.length ≤ size := by omega
    rw [cut, if_pos this] at answer
    exact ⟨[rest], .last answer, by simp⟩
  | succ n ih =>
    intro front rest position short split answer
    by_cases fits : rest.length ≤ size
    · rw [cut, if_pos fits] at answer
      exact ⟨[rest], .last answer, by simp⟩
    have long : size < rest.length := by omega
    obtain ⟨before, a, tail, parts, length, eq⟩ := @cut_more _ _ token _ _ positive long
    rw [eq] at answer
    have whole : rows = (front ++ before) ++ a :: tail := by rw [split, parts, List.append_assoc]
    have next : page (some (token a)) = .ok (cut token size tail) := by
      have follows : rows.filter (follows · a) = tail := by
        rw [whole] at sequenced ⊢
        exact sequenced.filter_follows
      rw [asked a (by simp [whole]), follows]
    have shorter : tail.length ≤ n := by
      have := congrArg List.length parts
      simp only [List.length_append, List.length_cons] at this
      omega
    obtain ⟨pages, walk, joined⟩ :=
      ih (front ++ before ++ [a]) tail _ shorter (by rw [whole]; simp) next
    refine ⟨(before ++ [a]) :: pages, .more answer walk, ?_⟩
    rw [List.flatten_cons, joined, parts]
    simp

/-- A walk from the first page goes through all rows, once each and in order. -/
theorem walk_rows (sequenced : Sequenced follows rows) (positive : 0 < size)
    (first : page none = .ok (cut token size rows))
    (asked : ∀ a ∈ rows,
      page (some (token a)) = .ok (cut token size (rows.filter (follows · a)))) :
    ∃ pages, Walk page none pages ∧ pages.flatten = rows :=
  walk_rest sequenced positive asked rows.length [] rows none (Nat.le_refl _) rfl first

end

end Paging
