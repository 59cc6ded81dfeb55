import Mathlib

/-! Tarjan's walk of a finite graph. The groups it pops are loops exactly where the graph has one:
a group of one node holds no loop when its successors were all popped before it. -/
namespace Components

section

variable {α : Type} [DecidableEq α]

/-- `stack` has the node pushed last first. -/
structure Walk (α : Type) where
  index : α → Option Nat
  size : Nat
  low : α → Nat
  stack : List α
  found : List (List α)

def start : Walk α := ⟨fun _ => none, 0, fun _ => 0, [], []⟩

def Walk.enter (s : Walk α) (node : α) : Walk α where
  index := Function.update s.index node (some s.size)
  size := s.size + 1
  low := Function.update s.low node s.size
  stack := node :: s.stack
  found := s.found

def Walk.lower (s : Walk α) (node : α) (mark : Nat) : Walk α :=
  { s with low := Function.update s.low node (min (s.low node) mark) }

/-- The stack down to the root, and what is below it. -/
def popGroup (root : α) : List α → List α × List α
  | [] => ([], [])
  | x :: stack =>
      if x = root then ([x], stack)
      else ((x :: (popGroup root stack).1), (popGroup root stack).2)

def Walk.close (s : Walk α) (node : α) : Walk α :=
  if s.index node = some (s.low node) then
    { s with stack := (popGroup node s.stack).2, found := s.found ++ [(popGroup node s.stack).1] }
  else s

variable (succ : α → List α)

def visit (connect : α → Walk α → Option (Walk α)) (node : α) (s : Walk α) (next : α) :
    Option (Walk α) :=
  if (s.index next).isSome then
    some (if s.stack.contains next then s.lower node ((s.index next).getD 0) else s)
  else (connect next s).map fun t => t.lower node (t.low next)

/-- No answer when the walk is deeper than the fuel. -/
def connect : Nat → α → Walk α → Option (Walk α)
  | 0, _, _ => none
  | fuel + 1, node, s =>
      ((succ node).foldlM (visit (connect fuel) node) (s.enter node)).map fun t => t.close node

def walkAll (fuel : Nat) (nodes : List α) : Option (Walk α) :=
  nodes.foldlM (fun s node => if (s.index node).isSome then some s else connect succ fuel node s)
    start

def isLoop (group : List α) : Bool :=
  decide (1 < group.length) ||
    match group with
    | [] => false
    | x :: _ => (succ x).contains x

/-- Each loop's nodes in the order of the list. -/
def groups (fuel : Nat) (nodes : List α) : Option (List (List α)) :=
  (walkAll succ fuel nodes).map fun s =>
    (s.found.filter (isLoop succ)).map fun group =>
      group.mergeSort fun a b => decide (nodes.idxOf a ≤ nodes.idxOf b)

end

section

variable {α : Type} [DecidableEq α] {succ : α → List α} {node : α} {s t : Walk α}

theorem popGroup_of_not_mem {above base : List α} (fresh : node ∉ above) :
    popGroup node (above ++ node :: base) = (above ++ [node], base) := by
  induction above with
  | nil => simp [popGroup]
  | cons x above ih =>
    have other : x ≠ node := fun same => fresh (same ▸ List.mem_cons_self)
    have rest := ih fun mem => fresh (List.mem_cons_of_mem x mem)
    simp [popGroup, other, rest]

theorem enter_index_other {x : α} (other : x ≠ node) : (s.enter node).index x = s.index x :=
  Function.update_of_ne other _ _

theorem enter_low_other {x : α} (other : x ≠ node) : (s.enter node).low x = s.low x :=
  Function.update_of_ne other _ _

theorem ne_of_fresh {x : α} (fresh : s.index node = none) (seen : (s.index x).isSome) :
    x ≠ node := by
  rintro rfl
  rw [fresh] at seen
  cases seen

/-! ### A graph without a loop -/

section

variable (rank : α → Nat)

/-- The walk has come back to its stack, and popped single nodes only. -/
structure Singly (s t : Walk α) : Prop where
  stack : t.stack = s.stack
  size : s.size ≤ t.size
  index : ∀ x i, s.index x = some i → t.index x = some i
  low : ∀ x, (s.index x).isSome → t.low x = s.low x
  found : ∃ xs : List α, t.found = s.found ++ xs.map fun x => [x]

omit [DecidableEq α] in
theorem Singly.refl (s : Walk α) : Singly s s :=
  ⟨rfl, le_rfl, fun _ _ h => h, fun _ _ => rfl, [], by simp⟩

omit [DecidableEq α] in
theorem Singly.trans {u : Walk α} (h : Singly s t) (k : Singly t u) : Singly s u := by
  obtain ⟨xs, first⟩ := h.found
  obtain ⟨ys, second⟩ := k.found
  refine ⟨k.stack.trans h.stack, h.size.trans k.size, ?_, ?_, xs ++ ys, ?_⟩
  · intro x i found
    exact k.index x i (h.index x i found)
  · intro x seen
    obtain ⟨i, found⟩ := Option.isSome_iff_exists.mp seen
    rw [k.low x (by rw [h.index x i found]; rfl), h.low x seen]
  · rw [second, first, List.map_append, List.append_assoc]

variable {rank}

/-- Visiting the successors of a node whose stack holds only what is above it in rank leaves the
walk as it was, the node's own low mark included. -/
theorem visits_singly {fuel : Nat} (falls : ∀ u, ∀ w ∈ succ u, rank w < rank u)
    (ih : ∀ (next : α) (s : Walk α), rank next < fuel → s.index next = none →
      (∀ x ∈ s.stack, rank next < rank x) →
      ∃ t, connect succ fuel next s = some t ∧ Singly s t ∧ t.low next = s.size ∧
        (t.index next).isSome)
    {k : Nat} (nexts : List α) (inSucc : ∀ w ∈ nexts, w ∈ succ node) (deep : rank node < fuel + 1)
    (s : Walk α) (entered : s.index node = some k) (low : s.low node = k) (counted : k < s.size)
    (upper : ∀ x ∈ s.stack, rank node ≤ rank x) :
    ∃ t, nexts.foldlM (visit (connect succ fuel) node) s = some t ∧ Singly s t := by
  induction nexts generalizing s with
  | nil => exact ⟨s, rfl, Singly.refl s⟩
  | cons next nexts step =>
    have lower : rank next < rank node := falls node next (inSucc next List.mem_cons_self)
    have others : ∀ w ∈ nexts, w ∈ succ node := fun w mem => inSucc w (List.mem_cons_of_mem _ mem)
    have notHeld : next ∉ s.stack := fun mem => absurd (upper next mem) (by omega)
    by_cases seen : (s.index next).isSome
    · obtain ⟨t, ran, singly⟩ := step others s entered low counted upper
      refine ⟨t, ?_, singly⟩
      have visited : visit (connect succ fuel) node s next = some s := by
        rw [visit, if_pos seen, if_neg (by simpa using notHeld)]
      rw [List.foldlM_cons, visited]
      exact ran
    · have unseen : s.index next = none := by simpa using seen
      obtain ⟨u, connected, singly, mark, -⟩ := ih next s (by omega) unseen fun x mem =>
        lt_of_lt_of_le lower (upper x mem)
      have kept : u.low node = k := by rw [singly.low node (by rw [entered]; rfl), low]
      -- the successor's mark is no lower than the node's own
      have same : u.lower node (u.low next) = u := by
        have least : min (u.low node) (u.low next) = u.low node := by
          rw [kept, mark]
          omega
        rw [Walk.lower, least, Function.update_eq_self]
      have visited : visit (connect succ fuel) node s next = some u := by
        rw [visit, if_neg seen, connected, Option.map_some, same]
      obtain ⟨t, ran, rest⟩ := step others u (singly.index node k entered) kept
        (lt_of_lt_of_le counted singly.size) (by rw [singly.stack]; exact upper)
      refine ⟨t, ?_, singly.trans rest⟩
      rw [List.foldlM_cons, visited]
      exact ran

theorem connect_singly {fuel : Nat} (falls : ∀ u, ∀ w ∈ succ u, rank w < rank u) (node : α)
    (s : Walk α) (deep : rank node < fuel) (fresh : s.index node = none)
    (upper : ∀ x ∈ s.stack, rank node < rank x) :
    ∃ t, connect succ fuel node s = some t ∧ Singly s t ∧ t.low node = s.size ∧
      (t.index node).isSome := by
  induction fuel generalizing node s with
  | zero => omega
  | succ fuel ih =>
    have entered : (s.enter node).index node = some s.size := by simp [Walk.enter]
    have low : (s.enter node).low node = s.size := by simp [Walk.enter]
    obtain ⟨t, ran, singly⟩ := visits_singly falls ih (succ node) (fun w mem => mem) deep
      (s.enter node) entered low (Nat.lt_succ_self _) (by
        intro x mem
        rcases List.mem_cons.mp mem with rfl | mem
        · exact le_rfl
        · exact (upper x mem).le)
    have mark : t.low node = s.size := by rw [singly.low node (by rw [entered]; rfl), low]
    have known : t.index node = some s.size := singly.index node _ entered
    have stack : t.stack = node :: s.stack := singly.stack
    have popped : popGroup node t.stack = ([node], s.stack) := by
      rw [stack]
      exact popGroup_of_not_mem (List.not_mem_nil (a := node))
    have closed : t.close node = { t with stack := s.stack, found := t.found ++ [[node]] } := by
      rw [Walk.close, known, mark, if_pos rfl, popped]
    refine ⟨t.close node, ?_, ?_, ?_, ?_⟩
    · rw [connect, ran]
      rfl
    · rw [closed]
      obtain ⟨xs, found⟩ := singly.found
      refine ⟨rfl, ?_, ?_, ?_, xs ++ [node], ?_⟩
      · exact (Nat.le_succ _).trans singly.size
      · intro x i seen
        have other : x ≠ node := ne_of_fresh fresh (by rw [seen]; rfl)
        exact singly.index x i ((enter_index_other other).trans seen)
      · intro x seen
        have other : x ≠ node := ne_of_fresh fresh seen
        have marked := singly.low x (by rw [enter_index_other other]; exact seen)
        exact marked.trans (enter_low_other other)
      · show t.found ++ [[node]] = s.found ++ (xs ++ [node]).map fun x => [x]
        rw [found, List.map_append, List.append_assoc]
        rfl
    · rw [closed]
      exact mark
    · rw [closed]
      show (t.index node).isSome
      rw [known]
      rfl

end

/-! ### A walk that finds no loop -/

variable (succ) in
/-- What every walk keeps: the stack stands in the order of the indices, every node met is on it
or popped, and the successors of a node popped by itself are itself or were popped before. -/
structure Kept (s : Walk α) : Prop where
  held : ∀ x ∈ s.stack, ∃ i, s.index x = some i ∧ i < s.size
  order : s.stack.Pairwise fun x y => ∀ i j, s.index x = some i → s.index y = some j → j < i
  known : ∀ x, (s.index x).isSome → x ∈ s.stack ∨ x ∈ s.found.flatten
  filled : ∀ g ∈ s.found, g ≠ []
  single : ∀ pre u post, s.found = pre ++ [u] :: post →
    ∀ w ∈ succ u, w = u ∨ w ∈ pre.flatten

/-- The walk has gone on: what it put on the stack is new. -/
structure Grown (s t : Walk α) : Prop where
  stack : ∃ above, t.stack = above ++ s.stack ∧ ∀ x ∈ above, ∃ i, t.index x = some i ∧ s.size ≤ i
  size : s.size ≤ t.size
  index : ∀ x i, s.index x = some i → t.index x = some i
  found : ∃ later, t.found = s.found ++ later

/-- No node on the stack has an index below this one. -/
def Floor (b : Nat) (s : Walk α) : Prop :=
  b ≤ s.size ∧ ∀ x ∈ s.stack, ∀ i, s.index x = some i → b ≤ i

omit [DecidableEq α] in
theorem Grown.refl (s : Walk α) : Grown s s :=
  ⟨⟨[], rfl, fun _ mem => absurd mem List.not_mem_nil⟩, le_rfl, fun _ _ h => h, [], by simp⟩

omit [DecidableEq α] in
theorem Grown.trans {u : Walk α} (h : Grown s t) (k : Grown t u) : Grown s u := by
  obtain ⟨above, stack, new⟩ := h.stack
  obtain ⟨higher, stack', new'⟩ := k.stack
  obtain ⟨later, found⟩ := h.found
  obtain ⟨last, found'⟩ := k.found
  refine ⟨⟨higher ++ above, ?_, ?_⟩, h.size.trans k.size, ?_, later ++ last, ?_⟩
  · rw [stack', stack, List.append_assoc]
  · intro x mem
    rcases List.mem_append.mp mem with mem | mem
    · obtain ⟨i, index, large⟩ := new' x mem
      exact ⟨i, index, h.size.trans large⟩
    · obtain ⟨i, index, large⟩ := new x mem
      exact ⟨i, k.index x i index, large⟩
  · intro x i index
    exact k.index x i (h.index x i index)
  · rw [found', found, List.append_assoc]

omit [DecidableEq α] in
theorem Floor.grown {b : Nat} (h : Floor b s) (kept : Kept succ s) (grown : Grown s t) :
    Floor b t := by
  obtain ⟨above, stack, new⟩ := grown.stack
  refine ⟨h.1.trans grown.size, ?_⟩
  intro x mem i index
  rw [stack] at mem
  rcases List.mem_append.mp mem with mem | mem
  · obtain ⟨j, found, large⟩ := new x mem
    cases found.symm.trans index
    exact h.1.trans large
  · obtain ⟨j, found, -⟩ := kept.held x mem
    cases (grown.index x j found).symm.trans index
    exact h.2 x mem i found

omit [DecidableEq α] in
theorem mem_flatten_of_grown (grown : Grown s t) {w : α} (mem : w ∈ s.found.flatten) :
    w ∈ t.found.flatten := by
  obtain ⟨later, found⟩ := grown.found
  rw [found, List.flatten_append]
  exact List.mem_append_left _ mem

theorem Kept.enter (kept : Kept succ s) (fresh : s.index node = none) :
    Kept succ (s.enter node) := by
  have other : ∀ x ∈ s.stack, x ≠ node := by
    intro x mem
    obtain ⟨i, index, -⟩ := kept.held x mem
    exact ne_of_fresh fresh (by rw [index]; rfl)
  have entered : (s.enter node).index node = some s.size := Function.update_self _ _ _
  refine ⟨?_, ?_, ?_, kept.filled, kept.single⟩
  · intro x mem
    rcases List.mem_cons.mp mem with rfl | mem
    · exact ⟨s.size, entered, Nat.lt_succ_self _⟩
    · obtain ⟨i, index, small⟩ := kept.held x mem
      exact ⟨i, (enter_index_other (other x mem)).trans index, Nat.lt_succ_of_lt small⟩
  · apply List.pairwise_cons.mpr
    constructor
    · intro y mem i j first second
      obtain ⟨l, index, small⟩ := kept.held y mem
      cases entered.symm.trans first
      cases ((enter_index_other (other y mem)).trans index).symm.trans second
      exact small
    · apply kept.order.imp_of_mem
      intro x y inX inY lt i j first second
      rw [enter_index_other (other x inX)] at first
      rw [enter_index_other (other y inY)] at second
      exact lt i j first second
  · intro x seen
    by_cases same : x = node
    · exact Or.inl (same ▸ List.mem_cons_self)
    · rw [enter_index_other same] at seen
      exact (kept.known x seen).imp_left (List.mem_cons_of_mem node)

theorem grown_enter (fresh : s.index node = none) : Grown s (s.enter node) := by
  refine ⟨⟨[node], rfl, ?_⟩, Nat.le_succ _, ?_, [], (List.append_nil _).symm⟩
  · intro x mem
    cases List.mem_singleton.mp mem
    exact ⟨s.size, Function.update_self _ _ _, le_rfl⟩
  · intro x i index
    exact (enter_index_other (ne_of_fresh fresh (by rw [index]; rfl))).trans index

theorem Kept.lower (kept : Kept succ s) (node : α) (mark : Nat) : Kept succ (s.lower node mark) :=
  ⟨kept.held, kept.order, kept.known, kept.filled, kept.single⟩

theorem grown_lower (node : α) (mark : Nat) : Grown s (s.lower node mark) :=
  ⟨⟨[], rfl, fun _ mem => absurd mem List.not_mem_nil⟩, le_rfl, fun _ _ h => h, [], by
    rw [List.append_nil]; rfl⟩

/-- A visited successor is popped, or on the stack where the node's low mark is down to it or it
is above the node. -/
def Seen (s : Walk α) (node : α) (k : Nat) (w : α) : Prop :=
  w ∈ s.found.flatten ∨ w ∈ s.stack ∧ ∃ i, s.index w = some i ∧ (s.low node ≤ i ∨ k < i)

omit [DecidableEq α] in
theorem Seen.grown {k : Nat} {w : α} (h : Seen s node k w) (grown : Grown s t)
    (low : t.low node ≤ s.low node) : Seen t node k w := by
  rcases h with popped | ⟨held, i, index, marked⟩
  · exact Or.inl (mem_flatten_of_grown grown popped)
  · right
    obtain ⟨above, stack, -⟩ := grown.stack
    refine ⟨?_, i, grown.index w i index, marked.imp_left low.trans⟩
    rw [stack]
    exact List.mem_append_right _ held

variable (succ) in
/-- What a call of `connect` that returns does. -/
structure Connected (next : α) (s t : Walk α) : Prop where
  kept : Kept succ t
  grown : Grown s t
  met : (t.index next).isSome
  low : ∀ x, (s.index x).isSome → t.low x = s.low x
  floor : ∀ b, Floor b s → b ≤ t.low next
  emptied : s.stack = [] → t.stack = []

variable (succ) in
/-- What visiting these successors of the node does. -/
structure Visited (node : α) (k : Nat) (nexts : List α) (s t : Walk α) : Prop where
  kept : Kept succ t
  grown : Grown s t
  falls : t.low node ≤ s.low node
  low : ∀ x, x ≠ node → (s.index x).isSome → t.low x = s.low x
  floor : ∀ b, Floor b s → b ≤ s.low node → b ≤ t.low node
  seen : ∀ w ∈ nexts, Seen t node k w

theorem visit_visited {fuel k : Nat} {next : α}
    (ih : ∀ (next : α) (s t : Walk α), connect succ fuel next s = some t → s.index next = none →
      Kept succ s → Connected succ next s t)
    (entered : s.index node = some k) (kept : Kept succ s) (counted : k < s.size)
    (ran : visit (connect succ fuel) node s next = some t) :
    Visited succ node k [next] s t := by
  have onlyNext : ∀ {p : α → Prop}, p next → ∀ w ∈ [next], p w := by
    intro p holds w mem
    cases List.mem_singleton.mp mem
    exact holds
  have marked : ∀ (u : Walk α) (mark : Nat), (u.lower node mark).low node = min (u.low node) mark :=
    fun u mark => Function.update_self _ _ _
  have unmarked : ∀ (u : Walk α) (mark : Nat) (x : α), x ≠ node →
      (u.lower node mark).low x = u.low x := fun u mark x other => Function.update_of_ne other _ _
  unfold visit at ran
  by_cases met : (s.index next).isSome
  · rw [if_pos met] at ran
    obtain ⟨i, index⟩ := Option.isSome_iff_exists.mp met
    by_cases held : next ∈ s.stack
    · rw [if_pos (by simpa using held), index] at ran
      cases ran
      refine ⟨kept.lower node _, grown_lower node _, ?_, ?_, ?_, ?_⟩
      · rw [marked]
        exact Nat.min_le_left _ _
      · intro x other _
        exact unmarked s _ x other
      · intro b floor low
        rw [marked]
        exact Nat.le_min.mpr ⟨low, floor.2 next held i index⟩
      · apply onlyNext
        refine Or.inr ⟨held, i, index, Or.inl ?_⟩
        rw [marked]
        exact Nat.min_le_right _ _
    · rw [if_neg (by simpa using held)] at ran
      cases ran
      refine ⟨kept, Grown.refl s, le_rfl, fun _ _ _ => rfl, fun _ _ low => low, ?_⟩
      apply onlyNext
      exact Or.inl ((kept.known next met).resolve_left held)
  · rw [if_neg met] at ran
    obtain ⟨u, connected, rfl⟩ := Option.map_eq_some_iff.mp ran
    have done := ih next s u connected (by simpa using met) kept
    have same : u.low node = s.low node := done.low node (by rw [entered]; rfl)
    have grown : Grown s (u.lower node (u.low next)) := done.grown.trans (grown_lower node _)
    refine ⟨done.kept.lower node _, grown, ?_, ?_, ?_, ?_⟩
    · rw [marked, same]
      exact Nat.min_le_left _ _
    · intro x other seen
      rw [unmarked u _ x other]
      exact done.low x seen
    · intro b floor low
      rw [marked, same]
      exact Nat.le_min.mpr ⟨low, done.floor b floor⟩
    · apply onlyNext
      obtain ⟨i, index⟩ := Option.isSome_iff_exists.mp done.met
      rcases done.kept.known next done.met with held | popped
      · right
        refine ⟨held, i, index, Or.inr ?_⟩
        obtain ⟨above, stack, new⟩ := done.grown.stack
        rw [stack] at held
        rcases List.mem_append.mp held with inAbove | inStack
        · obtain ⟨j, found, large⟩ := new next inAbove
          cases found.symm.trans index
          omega
        · obtain ⟨j, found, -⟩ := kept.held next inStack
          rw [found] at met
          exact absurd rfl met
      · exact Or.inl popped

theorem visits_visited {fuel k : Nat}
    (ih : ∀ (next : α) (s t : Walk α), connect succ fuel next s = some t → s.index next = none →
      Kept succ s → Connected succ next s t)
    (nexts : List α) (entered : s.index node = some k) (kept : Kept succ s) (counted : k < s.size)
    (ran : nexts.foldlM (visit (connect succ fuel) node) s = some t) :
    Visited succ node k nexts s t := by
  induction nexts generalizing s with
  | nil =>
    cases ran
    exact ⟨kept, Grown.refl _, le_rfl, fun _ _ _ => rfl, fun _ _ low => low,
      fun w mem => absurd mem List.not_mem_nil⟩
  | cons next nexts step =>
    obtain ⟨u, visited, rest⟩ := Option.bind_eq_some_iff.mp ran
    have one := visit_visited ih entered kept counted visited
    have others := step (one.grown.index node k entered) one.kept
      (lt_of_lt_of_le counted one.grown.size) rest
    refine ⟨others.kept, one.grown.trans others.grown, others.falls.trans one.falls, ?_, ?_, ?_⟩
    · intro x other seen
      obtain ⟨i, index⟩ := Option.isSome_iff_exists.mp seen
      rw [others.low x other (by rw [one.grown.index x i index]; rfl), one.low x other seen]
    · intro b floor low
      exact others.floor b (floor.grown kept one.grown) (one.floor b floor low)
    · intro w mem
      rcases List.mem_cons.mp mem with rfl | mem
      · exact (one.seen w List.mem_cons_self).grown others.grown others.falls
      · exact others.seen w mem

/-- Only a group of one node is a list of one. -/
theorem group_of_append {found pre post : List (List α)} {g : List α} {u : α}
    (same : found ++ [g] = pre ++ [u] :: post) :
    (found = pre ∧ g = [u]) ∨ ∃ rest, found = pre ++ [u] :: rest := by
  rcases List.eq_nil_or_concat post with rfl | ⟨rest, last, rfl⟩
  · obtain ⟨front, group⟩ := List.append_inj' same rfl
    exact Or.inl ⟨front, (List.cons.inj group).1⟩
  · right
    refine ⟨rest, ?_⟩
    have shape : found ++ [g] = (pre ++ [u] :: rest) ++ [last] := by
      rw [same]
      simp
    exact (List.append_inj' shape rfl).1

theorem connect_connected {fuel : Nat} (node : α) (s t : Walk α)
    (ran : connect succ fuel node s = some t) (fresh : s.index node = none)
    (kept : Kept succ s) : Connected succ node s t := by
  induction fuel generalizing node s t with
  | zero => cases ran
  | succ fuel ih =>
    obtain ⟨u, visited, rfl⟩ := Option.map_eq_some_iff.mp ran
    have entered : (s.enter node).index node = some s.size := Function.update_self _ _ _
    have mark : (s.enter node).low node = s.size := Function.update_self _ _ _
    have done := visits_visited ih (succ node) entered (kept.enter fresh) (Nat.lt_succ_self _)
      visited
    have grown := (grown_enter fresh).trans done.grown
    have index : u.index node = some s.size := done.grown.index node _ entered
    obtain ⟨above, stack, new⟩ := done.grown.stack
    have stack : u.stack = above ++ node :: s.stack := stack
    have falls : u.low node ≤ s.size := mark ▸ done.falls
    have low : ∀ x, (s.index x).isSome → u.low x = s.low x := by
      intro x seen
      have other : x ≠ node := ne_of_fresh fresh seen
      rw [done.low x other (by rw [enter_index_other other]; exact seen), enter_low_other other]
    have floor : ∀ b, Floor b s → b ≤ u.low node := by
      intro b h
      exact done.floor b (h.grown kept (grown_enter fresh)) (mark.symm ▸ h.1)
    have order := done.kept.order
    rw [stack] at order
    obtain ⟨-, below, apart⟩ := List.pairwise_append.mp order
    have apartNode : node ∉ above := by
      intro mem
      exact absurd (apart node mem node List.mem_cons_self _ _ index index) (Nat.lt_irrefl _)
    have under := (List.pairwise_cons.mp below).1
    by_cases root : u.index node = some (u.low node)
    · have level : u.low node = s.size := (Option.some.inj (index.symm.trans root)).symm
      have popped : popGroup node u.stack = (above ++ [node], s.stack) := by
        rw [stack]
        exact popGroup_of_not_mem apartNode
      have closed : u.close node =
          { u with stack := s.stack, found := u.found ++ [above ++ [node]] } := by
        rw [Walk.close, if_pos root, popped]
      rw [closed]
      refine ⟨⟨?_, ?_, ?_, ?_, ?_⟩, ⟨⟨[], rfl, fun _ mem => absurd mem List.not_mem_nil⟩,
        grown.size, grown.index, ?_⟩, ?_, low, floor, fun none => none⟩
      · intro x mem
        exact done.kept.held x (by rw [stack]; simp [mem])
      · exact (List.pairwise_cons.mp below).2
      · intro x seen
        rcases done.kept.known x seen with held | found
        · rw [stack] at held
          simp only [List.mem_append, List.mem_cons] at held
          rcases held with mem | rfl | mem
          · right
            simp [mem]
          · right
            simp
          · exact Or.inl mem
        · right
          rw [List.flatten_append]
          exact List.mem_append_left _ found
      · intro g mem
        rcases List.mem_append.mp mem with mem | mem
        · exact done.kept.filled g mem
        · cases List.mem_singleton.mp mem
          simp
      · intro pre v post same w inSucc
        rcases group_of_append same with ⟨front, group⟩ | ⟨rest, earlier⟩
        · -- popped by itself: nothing was above it
          have none : above = [] := by
            have size := congrArg List.length group
            simp only [List.length_append, List.length_cons, List.length_nil] at size
            exact List.length_eq_zero_iff.mp (by omega)
          subst none
          obtain ⟨rfl, -⟩ := List.cons.inj group
          rw [← front]
          rcases done.seen w inSucc with found | ⟨held, i, at', marked⟩
          · exact Or.inr found
          · left
            rw [stack] at held
            rcases List.mem_cons.mp held with rfl | mem
            · rfl
            · have lt := under w mem _ _ index at'
              omega
        · exact done.kept.single pre v rest earlier w inSucc
      · obtain ⟨later, found⟩ := grown.found
        refine ⟨later ++ [above ++ [node]], ?_⟩
        show u.found ++ [above ++ [node]] = _
        rw [found, List.append_assoc]
      · show (u.index node).isSome
        rw [index]
        rfl
    · have closed : u.close node = u := by rw [Walk.close, if_neg root]
      rw [closed]
      refine ⟨done.kept, grown, by rw [index]; rfl, low, floor, ?_⟩
      intro empty
      -- with nothing below it the node is a root
      have ground : Floor s.size s := ⟨le_rfl, fun x mem => by rw [empty] at mem; cases mem⟩
      have level : u.low node = s.size := le_antisymm falls (floor s.size ground)
      exact absurd (by rw [index, level]) root

omit [DecidableEq α] in
theorem kept_start : Kept succ (start : Walk α) := by
  refine ⟨?_, List.Pairwise.nil, ?_, ?_, ?_⟩
  · intro x mem
    cases mem
  · intro x met
    cases met
  · intro g mem
    cases mem
  · intro pre u post same
    cases pre <;> cases same

theorem walkAll_kept {fuel : Nat} {nodes : List α} (ran : walkAll succ fuel nodes = some t) :
    Kept succ t ∧ ∀ x ∈ nodes, x ∈ t.found.flatten := by
  have run : ∀ (nodes : List α) (s t : Walk α), Kept succ s → s.stack = [] →
      nodes.foldlM (fun s node => if (s.index node).isSome then some s else
        connect succ fuel node s) s = some t →
      Kept succ t ∧ t.stack = [] ∧ Grown s t ∧ ∀ x ∈ nodes, (t.index x).isSome := by
    intro nodes
    induction nodes with
    | nil =>
      intro s t kept empty ran
      cases ran
      exact ⟨kept, empty, Grown.refl _, fun x mem => absurd mem List.not_mem_nil⟩
    | cons node nodes ih =>
      intro s t kept empty ran
      obtain ⟨u, first, rest⟩ := Option.bind_eq_some_iff.mp ran
      have step : Kept succ u ∧ u.stack = [] ∧ Grown s u ∧ (u.index node).isSome := by
        dsimp only at first
        split at first
        · rename_i met
          cases first
          exact ⟨kept, empty, Grown.refl _, met⟩
        · rename_i unmet
          have done := connect_connected node s u first (by simpa using unmet) kept
          exact ⟨done.kept, done.emptied empty, done.grown, done.met⟩
      obtain ⟨keptU, emptyU, grown, met⟩ := step
      obtain ⟨keptT, emptyT, further, all⟩ := ih u t keptU emptyU rest
      refine ⟨keptT, emptyT, grown.trans further, ?_⟩
      intro x mem
      rcases List.mem_cons.mp mem with rfl | mem
      · obtain ⟨i, index⟩ := Option.isSome_iff_exists.mp met
        rw [further.index x i index]
        rfl
      · exact all x mem
  obtain ⟨keptT, empty, -, met⟩ := run nodes start t kept_start rfl ran
  refine ⟨keptT, ?_⟩
  intro x mem
  rcases keptT.known x (met x mem) with held | found
  · rw [empty] at held
    cases held
  · exact found

omit [DecidableEq α] in
theorem eq_map_singleton {found : List (List α)} (one : ∀ g ∈ found, ∃ x, g = [x]) :
    ∃ xs : List α, found = xs.map fun x => [x] := by
  induction found with
  | nil => exact ⟨[], rfl⟩
  | cons g found ih =>
    obtain ⟨x, rfl⟩ := one g List.mem_cons_self
    obtain ⟨xs, rfl⟩ := ih fun g mem => one g (List.mem_cons_of_mem _ mem)
    exact ⟨x :: xs, rfl⟩

omit [DecidableEq α] in
theorem flatten_map_singleton (xs : List α) : (xs.map fun x => [x]).flatten = xs := by
  rw [← List.flatMap_def, List.flatMap_singleton']

theorem eq_singleton_of_not_isLoop {g : List α} (filled : g ≠ []) (not : isLoop succ g = false) :
    ∃ x, g = [x] ∧ x ∉ succ x := by
  cases g with
  | nil => exact absurd rfl filled
  | cons x g =>
    rw [isLoop, Bool.or_eq_false_iff] at not
    have short : g = [] := by
      have size := of_decide_eq_false not.1
      rw [List.length_cons] at size
      exact List.length_eq_zero_iff.mp (by omega)
    subst short
    exact ⟨x, rfl, by simpa using not.2⟩

/-- Where no group is a loop the graph has a rank that falls along every edge. -/
theorem rank_of_groups_eq_nil {fuel : Nat} {nodes : List α} (all : ∀ x, x ∈ nodes)
    (none : groups succ fuel nodes = some []) :
    ∃ rank : α → Nat, ∀ u, ∀ w ∈ succ u, rank w < rank u := by
  obtain ⟨t, ran, empty⟩ := Option.map_eq_some_iff.mp none
  obtain ⟨kept, found⟩ := walkAll_kept ran
  have noLoop : ∀ g ∈ t.found, isLoop succ g = false := by
    intro g mem
    have filtered := List.map_eq_nil_iff.mp empty
    simpa using List.filter_eq_nil_iff.mp filtered g mem
  have each : ∀ g ∈ t.found, ∃ x, g = [x] ∧ x ∉ succ x := fun g mem =>
    eq_singleton_of_not_isLoop (kept.filled g mem) (noLoop g mem)
  obtain ⟨xs, singles⟩ := eq_map_singleton fun g mem => (each g mem).imp fun _ h => h.1
  have flat : t.found.flatten = xs := by rw [singles, flatten_map_singleton]
  refine ⟨fun u => xs.idxOf u, ?_⟩
  intro u w inSucc
  obtain ⟨pre, post, rfl, fresh⟩ :=
    List.eq_append_cons_of_mem (show u ∈ xs from flat ▸ found u (all u))
  have mem : w ∈ pre := by
    have shape : t.found = pre.map (fun x => [x]) ++ [u] :: post.map fun x => [x] := by
      rw [singles, List.map_append, List.map_cons]
    rcases kept.single _ u _ shape w inSucc with rfl | earlier
    · obtain ⟨x, same, away⟩ := each [w] (by rw [shape]; simp)
      cases same
      exact absurd inSucc away
    · rwa [flatten_map_singleton] at earlier
  have first : (pre ++ u :: post).idxOf w < pre.length := by
    rw [List.idxOf_append_of_mem mem]
    exact List.idxOf_lt_length_of_mem mem
  have second : (pre ++ u :: post).idxOf u = pre.length := by
    rw [List.idxOf_append_of_notMem fresh]
    simp
  show (pre ++ u :: post).idxOf w < (pre ++ u :: post).idxOf u
  rw [second]
  exact first

/-- Where a rank falls along every edge the walk ends, and no group is a loop. -/
theorem groups_eq_nil_of_rank {rank : α → Nat} {fuel : Nat}
    (falls : ∀ u, ∀ w ∈ succ u, rank w < rank u) (deep : ∀ u, rank u < fuel) (nodes : List α) :
    groups succ fuel nodes = some [] := by
  have run : ∀ (nodes : List α) (s : Walk α), s.stack = [] →
      ∃ t, nodes.foldlM (fun s node => if (s.index node).isSome then some s else
        connect succ fuel node s) s = some t ∧ Singly s t := by
    intro nodes
    induction nodes with
    | nil =>
      intro s empty
      exact ⟨s, rfl, Singly.refl s⟩
    | cons node nodes ih =>
      intro s empty
      have step : ∃ u, (if (s.index node).isSome then some s else connect succ fuel node s) =
          some u ∧ Singly s u := by
        by_cases met : (s.index node).isSome
        · exact ⟨s, if_pos met, Singly.refl s⟩
        · obtain ⟨u, connected, singly, -⟩ := connect_singly falls node s (deep node)
            (by simpa using met) (by rw [empty]; intro x mem; cases mem)
          exact ⟨u, by rw [if_neg met, connected], singly⟩
      obtain ⟨u, first, singly⟩ := step
      obtain ⟨t, rest, further⟩ := ih u (singly.stack.trans empty)
      refine ⟨t, ?_, singly.trans further⟩
      rw [List.foldlM_cons, first]
      exact rest
  obtain ⟨t, ran, singly⟩ := run nodes start rfl
  obtain ⟨xs, found⟩ := singly.found
  have alone : ∀ x : α, isLoop succ [x] = false := by
    intro x
    have away : x ∉ succ x := fun mem => Nat.lt_irrefl _ (falls x x mem)
    simpa [isLoop] using away
  have none : t.found.filter (isLoop succ) = [] := by
    rw [found]
    apply List.filter_eq_nil_iff.mpr
    intro g mem
    simp only [start, List.nil_append, List.mem_map] at mem
    obtain ⟨x, -, rfl⟩ := mem
    rw [alone x]
    exact Bool.false_ne_true
  rw [groups, walkAll, ran, Option.map_some, none]
  rfl

omit [DecidableEq α] in
/-- A finite graph without a cycle has a rank that falls along every edge. -/
theorem rank_of_acyclic [Fintype α]
    (acyclic : ∀ u, ¬Relation.TransGen (fun u w => w ∈ succ u) u u) :
    ∃ rank : α → Nat, (∀ u, ∀ w ∈ succ u, rank w < rank u) ∧
      ∀ u, rank u ≤ Fintype.card α := by
  classical
  refine ⟨fun u => (Finset.univ.filter
    fun w => Relation.TransGen (fun u w => w ∈ succ u) u w).card, ?_, fun u => ?_⟩
  · intro u w edge
    apply Finset.card_lt_card
    rw [Finset.ssubset_iff_of_subset]
    · refine ⟨w, ?_, ?_⟩
      · simpa using Relation.TransGen.single edge
      · simpa using acyclic w
    · intro v reached
      simp only [Finset.mem_filter, Finset.mem_univ, true_and] at reached ⊢
      exact Relation.TransGen.head edge reached
  · exact Finset.card_le_univ _

omit [DecidableEq α] in
theorem acyclic_of_rank {rank : α → Nat} (falls : ∀ u, ∀ w ∈ succ u, rank w < rank u) (u : α) :
    ¬Relation.TransGen (fun u w => w ∈ succ u) u u := by
  intro cycle
  have lower : ∀ w, Relation.TransGen (fun u w => w ∈ succ u) u w → rank w < rank u := by
    intro w reached
    induction reached with
    | single edge => exact falls u _ edge
    | tail _ edge ih => exact (falls _ _ edge).trans ih
  exact Nat.lt_irrefl _ (lower u cycle)

end

end Components
