import Hecks.Lib.Components

/-! What Tarjan's walk pops: the strongly connected components of the graph, each when every node
that leaves it was popped before. -/
namespace Components

section

variable {α : Type} [DecidableEq α] {succ : α → List α} {node : α} {s t : Walk α}

variable (succ) in
/-- There is a path. -/
abbrev Leads : α → α → Prop := Relation.ReflTransGen fun u w => w ∈ succ u

variable (succ) in
/-- What every walk keeps about paths: a node on the stack leads to all that were pushed after it,
the nodes of a group lead to one another, and no edge leaves a group but to groups popped before. -/
structure Sound (s : Walk α) : Prop where
  kept : Kept succ s
  reach : ∀ x ∈ s.stack, ∀ y ∈ s.stack, ∀ i j, s.index x = some i → s.index y = some j → i ≤ j →
    Leads succ x y
  popped : ∀ x ∈ s.found.flatten, (s.index x).isSome
  apart : (s.found.flatten ++ s.stack).Nodup
  linked : ∀ g ∈ s.found, ∀ x ∈ g, ∀ y ∈ g, Leads succ x y
  closed : ∀ pre g post, s.found = pre ++ g :: post →
    ∀ x ∈ g, ∀ w ∈ succ x, w ∈ g ∨ w ∈ pre.flatten

variable (succ) in
/-- What a call of `connect` that returns does about paths: what it leaves on the stack leads back
to the stack it found, and its low mark is down to all that is led back to at once. -/
structure Spread (next : α) (s t : Walk α) : Prop where
  sound : Sound succ t
  back : ∀ y ∈ t.stack, y ∉ s.stack → ∃ w ∈ s.stack, Leads succ y w
  edge : ∀ y ∈ t.stack, y ∉ s.stack → ∀ w ∈ succ y, w ∈ s.stack →
    ∃ i, s.index w = some i ∧ t.low next ≤ i
  mark : t.low next < s.size → ∃ w ∈ s.stack, Leads succ next w ∧ s.index w = some (t.low next)
  ended : ∀ x, (t.index x).isSome → s.index x = none →
    Leads succ next x ∧ ∀ w ∈ succ x, (t.index w).isSome

variable (succ) in
/-- What visiting successors of the node does about paths. -/
structure Explored (node : α) (nexts : List α) (s t : Walk α) : Prop where
  sound : Sound succ t
  toward : ∀ y ∈ t.stack, Leads succ y node
  edge : ∀ y ∈ t.stack, y ∉ s.stack → ∀ w ∈ succ y, w ∈ s.stack →
    ∃ i, s.index w = some i ∧ t.low node ≤ i
  mark : ∃ w ∈ t.stack, Leads succ node w ∧ t.index w = some (t.low node)
  ended : ∀ x, (t.index x).isSome → s.index x = none →
    Leads succ node x ∧ ∀ w ∈ succ x, (t.index w).isSome
  met : ∀ w ∈ nexts, (t.index w).isSome

omit [DecidableEq α] in
theorem mem_stack_of_grown (grown : Grown s t) {x : α} (mem : x ∈ s.stack) : x ∈ t.stack := by
  obtain ⟨above, stack, -⟩ := grown.stack
  rw [stack]
  exact List.mem_append_right _ mem

omit [DecidableEq α] in
theorem isSome_of_grown (grown : Grown s t) {x : α} (met : (s.index x).isSome) :
    (t.index x).isSome := by
  obtain ⟨i, index⟩ := Option.isSome_iff_exists.mp met
  rw [grown.index x i index]
  rfl

omit [DecidableEq α] in
/-- What is on the stack in the end and was met before was on the stack before. -/
theorem Sound.mem_stack (after : Sound succ t) (before : Sound succ s) (grown : Grown s t) {x : α}
    (mem : x ∈ t.stack) (met : (s.index x).isSome) : x ∈ s.stack := by
  obtain held | popped := before.kept.known x met
  · exact held
  · have flat := mem_flatten_of_grown grown popped
    exact absurd mem (List.disjoint_of_nodup_append after.apart flat)

theorem Sound.lower (sound : Sound succ s) (node : α) (mark : Nat) :
    Sound succ (s.lower node mark) :=
  ⟨sound.kept.lower node mark, sound.reach, sound.popped, sound.apart, sound.linked, sound.closed⟩

theorem Sound.enter (sound : Sound succ s) (fresh : s.index node = none)
    (toward : ∀ x ∈ s.stack, Leads succ x node) : Sound succ (s.enter node) := by
  have entered : (s.enter node).index node = some s.size := Function.update_self _ _ _
  have held : ∀ x ∈ s.stack, ∃ i, (s.enter node).index x = some i ∧ i < s.size := by
    intro x mem
    obtain ⟨i, index, small⟩ := sound.kept.held x mem
    exact ⟨i, (enter_index_other (ne_of_fresh fresh (by rw [index]; rfl))).trans index, small⟩
  refine ⟨sound.kept.enter fresh, ?_, ?_, ?_, sound.linked, sound.closed⟩
  · intro x heldX y heldY i j first second le
    obtain rfl | inX := List.mem_cons.mp heldX
    · obtain rfl | inY := List.mem_cons.mp heldY
      · exact .refl
      · -- nothing was pushed after the node
        obtain ⟨l, index, small⟩ := held y inY
        rw [entered] at first
        rw [index] at second
        cases first
        cases second
        omega
    · obtain rfl | inY := List.mem_cons.mp heldY
      · exact toward x inX
      · obtain ⟨m, before, -⟩ := sound.kept.held x inX
        obtain ⟨l, before', -⟩ := sound.kept.held y inY
        rw [enter_index_other (ne_of_fresh fresh (by rw [before]; rfl))] at first
        rw [enter_index_other (ne_of_fresh fresh (by rw [before']; rfl))] at second
        exact sound.reach x inX y inY i j first second le
  · intro x mem
    exact isSome_of_grown (grown_enter fresh) (sound.popped x mem)
  · apply List.Perm.nodup (List.perm_middle (a := node)).symm
    refine List.nodup_cons.mpr ⟨?_, sound.apart⟩
    intro mem
    obtain mem | mem := List.mem_append.mp mem
    · have met := sound.popped node mem
      rw [fresh] at met
      cases met
    · obtain ⟨i, index, -⟩ := sound.kept.held node mem
      rw [fresh] at index
      cases index

omit [DecidableEq α] in
theorem Explored.refl (sound : Sound succ s) (toward : ∀ y ∈ s.stack, Leads succ y node)
    (mark : ∃ w ∈ s.stack, Leads succ node w ∧ s.index w = some (s.low node)) :
    Explored succ node [] s s := by
  refine ⟨sound, toward, fun y mem new => absurd mem new, mark, ?_, ?_⟩
  · intro x met unmet
    rw [unmet] at met
    cases met
  · intro w mem
    cases mem

theorem visit_explored {fuel k : Nat} {next : α}
    (ih : ∀ (next : α) (s t : Walk α), connect succ fuel next s = some t → s.index next = none →
      Sound succ s → (∀ x ∈ s.stack, Leads succ x next) → Spread succ next s t)
    (edge : next ∈ succ node) (entered : s.index node = some k) (counted : k < s.size)
    (sound : Sound succ s) (toward : ∀ y ∈ s.stack, Leads succ y node) (low : s.low node ≤ k)
    (mark : ∃ w ∈ s.stack, Leads succ node w ∧ s.index w = some (s.low node))
    (ran : visit (connect succ fuel) node s next = some t) :
    Explored succ node [next] s t := by
  have marked : ∀ (u : Walk α) (mark : Nat), (u.lower node mark).low node = min (u.low node) mark :=
    fun u mark => Function.update_self _ _ _
  have onlyNext : ∀ {u : Walk α}, (u.index next).isSome → ∀ w ∈ [next], (u.index w).isSome := by
    intro u met w mem
    cases List.mem_singleton.mp mem
    exact met
  have still : ∀ {u : Walk α}, u.index = s.index → ∀ x, (u.index x).isSome → s.index x = none →
      Leads succ node x ∧ ∀ w ∈ succ x, (u.index w).isSome := by
    intro u same x met unmet
    rw [same, unmet] at met
    cases met
  unfold visit at ran
  by_cases met : (s.index next).isSome
  · rw [if_pos met] at ran
    obtain ⟨i, index⟩ := Option.isSome_iff_exists.mp met
    by_cases held : next ∈ s.stack
    · rw [if_pos (by simpa using held), index] at ran
      cases ran
      refine ⟨sound.lower node _, toward, fun y mem new => absurd mem new, ?_, still rfl,
        onlyNext met⟩
      rw [marked]
      obtain le | lt := le_or_gt (s.low node) i
      · rw [Option.getD_some, Nat.min_eq_left le]
        exact mark
      · rw [Option.getD_some, Nat.min_eq_right (Nat.le_of_lt lt)]
        exact ⟨next, held, .single edge, index⟩
    · rw [if_neg (by simpa using held)] at ran
      cases ran
      exact ⟨sound, toward, fun y mem new => absurd mem new, mark, still rfl, onlyNext met⟩
  · rw [if_neg met] at ran
    obtain ⟨u, connected, rfl⟩ := Option.map_eq_some_iff.mp ran
    have fresh : s.index next = none := by simpa using met
    have done := connect_connected next s u connected fresh sound.kept
    have spread := ih next s u connected fresh sound fun x mem => (toward x mem).tail edge
    have same : u.low node = s.low node := done.low node (by rw [entered]; rfl)
    refine ⟨spread.sound.lower node _, ?_, ?_, ?_, ?_, onlyNext done.met⟩
    · intro y mem
      by_cases old : y ∈ s.stack
      · exact toward y old
      · obtain ⟨w, held, path⟩ := spread.back y mem old
        exact path.trans (toward w held)
    · intro y mem new w out held
      obtain ⟨i, index, le⟩ := spread.edge y mem new w out held
      refine ⟨i, index, ?_⟩
      rw [marked]
      exact (Nat.min_le_right _ _).trans le
    · rw [marked, same]
      obtain le | lt := le_or_gt (s.low node) (u.low next)
      · rw [Nat.min_eq_left le]
        obtain ⟨w, held, path, index⟩ := mark
        exact ⟨w, mem_stack_of_grown done.grown held, path, done.grown.index w _ index⟩
      · rw [Nat.min_eq_right (Nat.le_of_lt lt)]
        obtain ⟨w, held, path, index⟩ := spread.mark (by omega)
        exact ⟨w, mem_stack_of_grown done.grown held, .head edge path,
          done.grown.index w _ index⟩
    · intro x met' unmet
      obtain ⟨path, out⟩ := spread.ended x met' unmet
      exact ⟨.head edge path, out⟩

theorem visits_explored {fuel k : Nat}
    (ih : ∀ (next : α) (s t : Walk α), connect succ fuel next s = some t → s.index next = none →
      Sound succ s → (∀ x ∈ s.stack, Leads succ x next) → Spread succ next s t)
    (nexts : List α) (edges : ∀ next ∈ nexts, next ∈ succ node) (entered : s.index node = some k)
    (counted : k < s.size) (sound : Sound succ s) (toward : ∀ y ∈ s.stack, Leads succ y node)
    (low : s.low node ≤ k)
    (mark : ∃ w ∈ s.stack, Leads succ node w ∧ s.index w = some (s.low node))
    (ran : nexts.foldlM (visit (connect succ fuel) node) s = some t) :
    Explored succ node nexts s t := by
  induction nexts generalizing s with
  | nil =>
    cases ran
    exact .refl sound toward mark
  | cons next nexts step =>
    obtain ⟨edge, edges⟩ := List.forall_mem_cons.mp edges
    obtain ⟨u, visited, rest⟩ := Option.bind_eq_some_iff.mp ran
    have known := visit_visited connect_connected entered sound.kept counted visited
    have knowns := visits_visited connect_connected nexts (known.grown.index node k entered)
      known.kept (lt_of_lt_of_le counted known.grown.size) rest
    have one := visit_explored ih edge entered counted sound toward low mark visited
    have others := step edges (known.grown.index node k entered)
      (lt_of_lt_of_le counted known.grown.size) one.sound one.toward (known.falls.trans low) one.mark
      rest
    refine ⟨others.sound, others.toward, ?_, others.mark, ?_, ?_⟩
    · intro y mem new w out held
      by_cases first : y ∈ u.stack
      · obtain ⟨i, index, le⟩ := one.edge y first new w out held
        exact ⟨i, index, knowns.falls.trans le⟩
      · obtain ⟨i, index, le⟩ := others.edge y mem first w out (mem_stack_of_grown known.grown held)
        obtain ⟨j, before, -⟩ := sound.kept.held w held
        cases (known.grown.index w j before).symm.trans index
        exact ⟨i, before, le⟩
    · intro x met unmet
      cases first : u.index x with
      | none => exact others.ended x met first
      | some i =>
        obtain ⟨path, out⟩ := one.ended x (by rw [first]; rfl) unmet
        exact ⟨path, fun w mem => isSome_of_grown knowns.grown (out w mem)⟩
    · intro w mem
      obtain rfl | mem := List.mem_cons.mp mem
      · exact isSome_of_grown knowns.grown (one.met w List.mem_cons_self)
      · exact others.met w mem

variable (succ) in
/-- A node whose successors were all visited, before it is closed: `above` was pushed after it. -/
structure Ready (node : α) (above : List α) (s u : Walk α) : Prop where
  sound : Sound succ u
  stack : u.stack = above ++ node :: s.stack
  index : u.index node = some s.size
  grown : Grown s u
  new : ∀ x ∈ above, ∃ i, u.index x = some i ∧ s.size < i
  falls : u.low node ≤ s.size
  toward : ∀ y ∈ u.stack, Leads succ y node
  down : ∀ y ∈ above ++ [node], ∀ w ∈ succ y, w ∈ s.stack → ∃ i, s.index w = some i ∧ u.low node ≤ i
  mark : ∃ w ∈ u.stack, Leads succ node w ∧ u.index w = some (u.low node)
  ended : ∀ x, (u.index x).isSome → s.index x = none →
    Leads succ node x ∧ ∀ w ∈ succ x, (u.index w).isSome
  unmet : ∀ x ∈ above ++ [node], s.index x = none

theorem ready_of_visits {fuel : Nat} {u : Walk α}
    (ih : ∀ (next : α) (s t : Walk α), connect succ fuel next s = some t → s.index next = none →
      Sound succ s → (∀ x ∈ s.stack, Leads succ x next) → Spread succ next s t)
    (fresh : s.index node = none) (sound : Sound succ s) (toward : ∀ x ∈ s.stack, Leads succ x node)
    (visited : (succ node).foldlM (visit (connect succ fuel) node) (s.enter node) = some u) :
    ∃ above, Ready succ node above s u := by
  have entered : (s.enter node).index node = some s.size := Function.update_self _ _ _
  have start : (s.enter node).low node = s.size := Function.update_self _ _ _
  have soundE := sound.enter fresh toward
  have top : ∀ y ∈ (s.enter node).stack, Leads succ y node := by
    intro y mem
    obtain rfl | mem := List.mem_cons.mp mem
    · exact .refl
    · exact toward y mem
  have known := visits_visited connect_connected (succ node) entered soundE.kept
    (Nat.lt_succ_self _) visited
  have explored := visits_explored ih (succ node) (fun _ mem => mem) entered
    (Nat.lt_succ_self _) soundE top (Nat.le_of_eq start)
    ⟨node, List.mem_cons_self, .refl, by rw [entered, start]⟩ visited
  obtain ⟨above, stack, new⟩ := known.grown.stack
  have stack : u.stack = above ++ node :: s.stack := stack
  have falls : u.low node ≤ s.size := start ▸ known.falls
  have apart := explored.sound.apart
  rw [stack] at apart
  have apartStack := (List.nodup_append.mp apart).2.1
  have unmet : ∀ x ∈ above, (s.enter node).index x = none := by
    intro x mem
    by_contra met
    have held := explored.sound.mem_stack soundE known.grown (x := x)
      (by rw [stack]; exact List.mem_append_left _ mem) (Option.isSome_iff_ne_none.mpr met)
    exact List.disjoint_of_nodup_append apartStack mem held
  refine ⟨above, explored.sound, stack, known.grown.index node _ entered,
    (grown_enter fresh).trans known.grown, new, falls, explored.toward, ?_, explored.mark, ?_, ?_⟩
  · -- what is above, and the node, lead down no further than the low mark at once
    intro y mem w out held
    obtain ⟨i, before, -⟩ := sound.kept.held w held
    have next : (s.enter node).index w = some i := (grown_enter fresh).index w i before
    obtain mem | mem := List.mem_append.mp mem
    · obtain ⟨j, index', le⟩ := explored.edge y (by rw [stack]; simp [mem])
        (fun heldY => List.disjoint_of_nodup_append apartStack mem heldY) w out
        (List.mem_cons_of_mem _ held)
      cases next.symm.trans index'
      exact ⟨i, before, le⟩
    · cases List.mem_singleton.mp mem
      refine ⟨i, before, ?_⟩
      have heldU := mem_stack_of_grown known.grown (List.mem_cons_of_mem node held)
      obtain popped | ⟨-, j, index', marked⟩ := known.seen w out
      · exact absurd heldU (List.disjoint_of_nodup_append explored.sound.apart popped)
      · cases (known.grown.index w i next).symm.trans index'
        have small : i < s.size := by
          obtain ⟨l, index, small⟩ := sound.kept.held w held
          cases before.symm.trans index
          exact small
        omega
  · intro x met unmet'
    by_cases same : x = node
    · subst same
      exact ⟨.refl, explored.met⟩
    · exact explored.ended x met ((enter_index_other same).trans unmet')
  · intro x mem
    obtain mem | mem := List.mem_append.mp mem
    · have other : x ≠ node := by
        intro same
        have none := unmet x mem
        rw [same, entered] at none
        cases none
      rw [← enter_index_other other]
      exact unmet x mem
    · cases List.mem_singleton.mp mem
      exact fresh

omit [DecidableEq α] in
theorem last_of_append {found pre post : List (List α)} {g g' : List α}
    (same : found ++ [g] = pre ++ g' :: post) :
    (found = pre ∧ g = g') ∨ ∃ rest, found = pre ++ g' :: rest := by
  obtain rfl | ⟨rest, last, rfl⟩ := List.eq_nil_or_concat post
  · obtain ⟨front, group⟩ := List.append_inj' same rfl
    exact Or.inl ⟨front, (List.cons.inj group).1⟩
  · right
    refine ⟨rest, ?_⟩
    have shape : found ++ [g] = (pre ++ g' :: rest) ++ [last] := by
      rw [same]
      simp
    exact (List.append_inj' shape rfl).1

/-- A root's group is left by no edge but to what was popped, and is strongly connected. -/
theorem Ready.close_root {u : Walk α} {above : List α} (ready : Ready succ node above s u)
    (sound : Sound succ s) (root : u.low node = s.size) (kept : Kept succ (u.close node)) :
    Spread succ node s (u.close node) := by
  have stack := ready.stack
  have apart := ready.sound.apart
  rw [stack] at apart
  have apartStack := (List.nodup_append.mp apart).2.1
  have apartNode : node ∉ above := fun mem =>
    List.disjoint_of_nodup_append apartStack mem List.mem_cons_self
  have popped : popGroup node u.stack = (above ++ [node], s.stack) := by
    rw [stack]
    exact popGroup_of_not_mem apartNode
  have closed : u.close node =
      { u with stack := s.stack, found := u.found ++ [above ++ [node]] } := by
    rw [Walk.close, if_pos (by rw [ready.index, root]), popped]
  have inGroup : ∀ x, x ∈ above ++ [node] → x ∈ u.stack := by
    intro x mem
    rw [stack, List.append_cons]
    exact List.mem_append_left _ mem
  rw [closed] at kept ⊢
  refine ⟨⟨kept, ?_, ?_, ?_, ?_, ?_⟩, fun y mem old => absurd mem old,
    fun y mem old => absurd mem old, ?_, ready.ended⟩
  · intro x inX y inY
    exact ready.sound.reach x (mem_stack_of_grown ready.grown inX) y
      (mem_stack_of_grown ready.grown inY)
  · intro x mem
    rw [List.flatten_append] at mem
    obtain mem | mem := List.mem_append.mp mem
    · exact ready.sound.popped x mem
    · rw [List.flatten_singleton] at mem
      obtain ⟨i, index, -⟩ := ready.sound.kept.held x (inGroup x mem)
      rw [index]
      rfl
  · rw [List.flatten_append, List.flatten_singleton, List.append_assoc, List.append_assoc]
    exact apart
  · intro g mem x inX y inY
    obtain mem | mem := List.mem_append.mp mem
    · exact ready.sound.linked g mem x inX y inY
    · cases List.mem_singleton.mp mem
      refine (ready.toward x (inGroup x inX)).trans ?_
      obtain mem | mem := List.mem_append.mp inY
      · obtain ⟨i, index, large⟩ := ready.new y mem
        exact ready.sound.reach node (inGroup node (by simp)) y (inGroup y inY) _ i ready.index index
          (Nat.le_of_lt large)
      · cases List.mem_singleton.mp mem
        exact .refl
  · intro pre g post same x inX w out
    obtain ⟨front, rfl⟩ | ⟨rest, earlier⟩ := last_of_append same
    · rw [← front]
      obtain ⟨i, index, -⟩ := ready.sound.kept.held x (inGroup x inX)
      have met := (ready.ended x (by rw [index]; rfl) (ready.unmet x inX)).2 w out
      obtain held | found := ready.sound.kept.known w met
      · left
        rw [stack, List.append_cons] at held
        obtain mem | below := List.mem_append.mp held
        · exact mem
        · obtain ⟨j, before, le⟩ := ready.down x inX w out below
          obtain ⟨i, before', small⟩ := sound.kept.held w below
          cases before.symm.trans before'
          omega
      · exact Or.inr found
    · exact ready.sound.closed pre g rest earlier x inX w out
  · intro small
    rw [root] at small
    exact absurd small (Nat.lt_irrefl _)

/-- A node that is no root leads to one that was on the stack before it. -/
theorem Ready.close_other {u : Walk α} {above : List α} (ready : Ready succ node above s u)
    (sound : Sound succ s) (other : u.low node ≠ s.size) :
    Spread succ node s (u.close node) := by
  have closed : u.close node = u := by
    rw [Walk.close, if_neg]
    intro root
    exact other (Option.some.inj (root.symm.trans ready.index))
  have lower : u.low node < s.size := lt_of_le_of_ne ready.falls other
  -- the low mark is the index of a node below
  have below : ∃ w ∈ s.stack, Leads succ node w ∧ s.index w = some (u.low node) := by
    obtain ⟨w, held, path, index⟩ := ready.mark
    rw [ready.stack] at held
    obtain mem | held := List.mem_append.mp held
    · obtain ⟨i, index', large⟩ := ready.new w mem
      cases index.symm.trans index'
      omega
    · obtain rfl | held := List.mem_cons.mp held
      · exact absurd (Option.some.inj (index.symm.trans ready.index)) other
      · obtain ⟨i, before, -⟩ := sound.kept.held w held
        cases (ready.grown.index w i before).symm.trans index
        exact ⟨w, held, path, before⟩
  have split : ∀ y ∈ u.stack, y ∉ s.stack → y ∈ above ++ [node] := by
    intro y mem new
    rw [ready.stack, List.append_cons] at mem
    exact (List.mem_append.mp mem).resolve_right new
  rw [closed]
  refine ⟨ready.sound, ?_, fun y mem new => ready.down y (split y mem new), fun _ => below,
    ready.ended⟩
  intro y mem new
  obtain ⟨w, held, path, -⟩ := below
  exact ⟨w, held, (ready.toward y mem).trans path⟩

theorem connect_spread {fuel : Nat} (node : α) (s t : Walk α)
    (ran : connect succ fuel node s = some t) (fresh : s.index node = none)
    (sound : Sound succ s) (toward : ∀ x ∈ s.stack, Leads succ x node) :
    Spread succ node s t := by
  induction fuel generalizing node s t with
  | zero => cases ran
  | succ fuel ih =>
    have kept := (connect_connected node s t ran fresh sound.kept).kept
    obtain ⟨u, visited, rfl⟩ := Option.map_eq_some_iff.mp ran
    obtain ⟨above, ready⟩ := ready_of_visits ih fresh sound toward visited
    by_cases root : u.low node = s.size
    · exact ready.close_root sound root kept
    · exact ready.close_other sound root

/-! ### The whole walk -/

omit [DecidableEq α] in
theorem leads_within {nodes : List α} (within : ∀ x ∈ nodes, ∀ w ∈ succ x, w ∈ nodes) {x y : α}
    (mem : x ∈ nodes) (path : Leads succ x y) : y ∈ nodes := by
  induction path with
  | refl => exact mem
  | tail _ edge ih => exact within _ ih _ edge

/-- How many of the nodes were not met yet. -/
def left (nodes : List α) (s : Walk α) : Nat := (nodes.filter fun x => (s.index x).isNone).length

omit [DecidableEq α] in
theorem left_grown {nodes : List α} (grown : Grown s t) : left nodes t ≤ left nodes s := by
  apply List.Sublist.length_le
  apply List.monotone_filter_right
  intro x unmet
  cases index : s.index x with
  | none => rfl
  | some i =>
    rw [grown.index x i index] at unmet
    cases unmet

theorem left_enter {nodes : List α} (mem : node ∈ nodes) (fresh : s.index node = none) :
    left nodes (s.enter node) < left nodes s := by
  have entered : (s.enter node).index node = some s.size := Function.update_self _ _ _
  have fewer : ∀ x, ((s.enter node).index x).isNone = (decide (x ≠ node) && (s.index x).isNone) := by
    intro x
    by_cases same : x = node
    · subst same
      simp [entered]
    · simp [enter_index_other same, same]
  unfold left
  simp only [fewer]
  rw [← List.filter_filter]
  apply List.length_filter_lt_length_iff_exists.mpr
  exact ⟨node, List.mem_filter.mpr ⟨mem, by rw [fresh]; rfl⟩, by simp⟩

/-- With as much fuel as there are nodes left the walk ends. -/
theorem connect_total {nodes : List α} (within : ∀ x ∈ nodes, ∀ w ∈ succ x, w ∈ nodes) {fuel : Nat}
    (mem : node ∈ nodes) (fresh : s.index node = none) (kept : Kept succ s)
    (deep : left nodes s ≤ fuel) : ∃ t, connect succ fuel node s = some t := by
  induction fuel generalizing node s with
  | zero =>
    have fewer := left_enter mem fresh
    omega
  | succ fuel ih =>
    have entered : (s.enter node).index node = some s.size := Function.update_self _ _ _
    have visits : ∀ (nexts : List α) (u : Walk α), (∀ next ∈ nexts, next ∈ nodes) →
        u.index node = some s.size → s.size < u.size → Kept succ u → left nodes u ≤ fuel →
        ∃ t, nexts.foldlM (visit (connect succ fuel) node) u = some t := by
      intro nexts
      induction nexts with
      | nil => exact fun u _ _ _ _ _ => ⟨u, rfl⟩
      | cons next nexts more =>
        intro u inNodes index counted keptU few
        obtain ⟨inNext, inNodes⟩ := List.forall_mem_cons.mp inNodes
        have visited : ∃ v, visit (connect succ fuel) node u next = some v := by
          unfold visit
          by_cases met : (u.index next).isSome
          · exact ⟨_, if_pos met⟩
          · obtain ⟨v, ran⟩ := ih inNext (by simpa using met) keptU few
            exact ⟨_, by rw [if_neg met, ran]; rfl⟩
        obtain ⟨v, visited⟩ := visited
        have known := visit_visited connect_connected index keptU counted visited
        obtain ⟨t, rest⟩ := more v inNodes (known.grown.index node _ index)
          (lt_of_lt_of_le counted known.grown.size) known.kept ((left_grown known.grown).trans few)
        refine ⟨t, ?_⟩
        rw [List.foldlM_cons, visited]
        exact rest
    have fewer := left_enter mem fresh
    obtain ⟨u, visited⟩ := visits (succ node) (s.enter node) (within node mem) entered
      (Nat.lt_succ_self _) (kept.enter fresh) (by omega)
    exact ⟨_, by rw [connect, visited]; rfl⟩

/-- The walk of all nodes ends, has met them and nothing else, and left nothing on the stack. -/
theorem walkAll_sound {nodes : List α} (within : ∀ x ∈ nodes, ∀ w ∈ succ x, w ∈ nodes) {fuel : Nat}
    (deep : nodes.length ≤ fuel) :
    ∃ t, walkAll succ fuel nodes = some t ∧ Sound succ t ∧ t.stack = [] ∧
      ∀ x, x ∈ t.found.flatten ↔ x ∈ nodes := by
  have run : ∀ (rest : List α) (s : Walk α), (∀ x ∈ rest, x ∈ nodes) → Sound succ s → s.stack = [] →
      (∀ x, (s.index x).isSome → x ∈ nodes) →
      ∃ t, rest.foldlM (fun s node => if (s.index node).isSome then some s else
        connect succ fuel node s) s = some t ∧ Sound succ t ∧ t.stack = [] ∧ Grown s t ∧
        (∀ x, (t.index x).isSome → x ∈ nodes) ∧ ∀ x ∈ rest, (t.index x).isSome := by
    intro rest
    induction rest with
    | nil =>
      intro s _ sound empty only
      exact ⟨s, rfl, sound, empty, .refl s, only, fun x mem => absurd mem List.not_mem_nil⟩
    | cons node rest ih =>
      intro s inNodes sound empty only
      obtain ⟨inNode, inNodes⟩ := List.forall_mem_cons.mp inNodes
      have step : ∃ u, (if (s.index node).isSome then some s else connect succ fuel node s) = some u ∧
          Sound succ u ∧ u.stack = [] ∧ Grown s u ∧ (∀ x, (u.index x).isSome → x ∈ nodes) ∧
          (u.index node).isSome := by
        by_cases met : (s.index node).isSome
        · exact ⟨s, if_pos met, sound, empty, .refl s, only, met⟩
        · have fresh : s.index node = none := by simpa using met
          have few : left nodes s ≤ fuel := (List.length_filter_le _ _).trans deep
          obtain ⟨u, ran⟩ := connect_total within inNode fresh sound.kept few
          have known := connect_connected node s u ran fresh sound.kept
          have spread := connect_spread node s u ran fresh sound (by rw [empty]; nofun)
          refine ⟨u, by rw [if_neg met, ran], spread.sound, known.emptied empty, known.grown, ?_,
            known.met⟩
          intro x metU
          by_cases old : (s.index x).isSome
          · exact only x old
          · obtain ⟨path, -⟩ := spread.ended x metU (by simpa using old)
            exact leads_within within inNode path
      obtain ⟨u, first, soundU, emptyU, grown, onlyU, met⟩ := step
      obtain ⟨t, others, soundT, emptyT, further, onlyT, all⟩ := ih u inNodes soundU emptyU onlyU
      refine ⟨t, ?_, soundT, emptyT, grown.trans further, onlyT, ?_⟩
      · rw [List.foldlM_cons, first]
        exact others
      · exact List.forall_mem_cons.mpr ⟨isSome_of_grown further met, all⟩
  have sound : Sound succ (start : Walk α) := by
    refine ⟨kept_start, ?_, ?_, List.nodup_nil, ?_, ?_⟩
    · intro x mem
      cases mem
    · intro x mem
      cases mem
    · intro g mem
      cases mem
    · intro pre g post same
      cases pre <;> cases same
  obtain ⟨t, ran, soundT, empty, -, only, met⟩ := run nodes start (fun _ mem => mem) sound rfl nofun
  refine ⟨t, ran, soundT, empty, fun x => ⟨fun mem => only x (soundT.popped x mem), fun mem => ?_⟩⟩
  obtain held | found := soundT.kept.known x (met x mem)
  · rw [empty] at held
    cases held
  · exact found

/-! ### The groups -/

omit [DecidableEq α] in
/-- No path leaves the groups popped up to some moment. -/
theorem Sound.leads_back (sound : Sound succ t) {pre post : List (List α)}
    (split : t.found = pre ++ post) {x y : α} (mem : x ∈ pre.flatten) (path : Leads succ x y) :
    y ∈ pre.flatten := by
  induction path with
  | refl => exact mem
  | @tail y w _ edge ih =>
    obtain ⟨g, inPre, inG⟩ := List.mem_flatten.mp ih
    obtain ⟨a, b, rfl⟩ := List.append_of_mem inPre
    have shape : t.found = a ++ g :: (b ++ post) := by rw [split, List.append_assoc, List.cons_append]
    rw [List.flatten_append, List.mem_append]
    obtain here | earlier := sound.closed a g _ shape y inG w edge
    · exact Or.inr (List.mem_flatten.mpr ⟨g, List.mem_cons_self, here⟩)
    · exact Or.inl earlier

omit [DecidableEq α] in
/-- A group holds the nodes that lead to one of its nodes and that it leads to. -/
theorem Sound.mem_iff (sound : Sound succ t) {g : List α} (found : g ∈ t.found) {x : α}
    (inG : x ∈ g) (y : α) : y ∈ g ↔ Leads succ x y ∧ Leads succ y x := by
  constructor
  · exact fun inY => ⟨sound.linked g found x inG y inY, sound.linked g found y inY x inG⟩
  · rintro ⟨there, back⟩
    obtain ⟨pre, post, split⟩ := List.append_of_mem found
    have upTo : t.found = (pre ++ [g]) ++ post := by rw [split, List.append_cons]
    have reached := sound.leads_back upTo (x := x) (by simp [inG]) there
    rw [List.flatten_append, List.flatten_singleton] at reached
    obtain earlier | here := List.mem_append.mp reached
    · -- then `x` was popped before its own group
      have before := sound.leads_back split earlier back
      have apart := (List.nodup_append.mp sound.apart).1
      rw [split, List.flatten_append] at apart
      exact absurd (List.mem_flatten.mpr ⟨g, List.mem_cons_self, inG⟩)
        (List.disjoint_of_nodup_append apart before)
    · exact here

variable (succ) in
/-- A strongly connected component that has a cycle, its nodes in the order of the list. -/
structure LoopOf (nodes group : List α) : Prop where
  ordered : group.Sublist nodes
  component : ∃ x ∈ group, ∀ y, y ∈ group ↔ Leads succ x y ∧ Leads succ y x
  cycle : 1 < group.length ∨ ∃ x ∈ group, x ∈ succ x

/-- Sorting a group by place picks its nodes out of the list. -/
theorem sort_eq_filter {nodes group : List α} (distinct : nodes.Nodup) (once : group.Nodup)
    (within : ∀ x ∈ group, x ∈ nodes) :
    (group.mergeSort fun a b => decide (nodes.idxOf a ≤ nodes.idxOf b)) =
      nodes.filter (· ∈ group) := by
  have same : (group.mergeSort fun a b => decide (nodes.idxOf a ≤ nodes.idxOf b)).Perm
      (nodes.filter (· ∈ group)) := by
    refine (List.mergeSort_perm _ _).trans ?_
    apply (List.perm_ext_iff_of_nodup once (distinct.filter _)).mpr
    intro x
    simp only [List.mem_filter, decide_eq_true_eq]
    exact ⟨fun mem => ⟨within x mem, mem⟩, And.right⟩
  have places : nodes.Pairwise fun a b => decide (nodes.idxOf a ≤ nodes.idxOf b) = true := by
    rw [List.pairwise_iff_getElem]
    intro i j hi hj lt
    rw [distinct.idxOf_getElem, distinct.idxOf_getElem, decide_eq_true_eq]
    exact Nat.le_of_lt lt
  refine List.Perm.eq_of_pairwise ?_ (List.pairwise_mergeSort ?_ ?_ group) (places.filter _) same
  · intro a b inA _ le ge
    have inNodes : a ∈ nodes := within a (List.mem_mergeSort.mp inA)
    exact (List.idxOf_inj inNodes).mp
      (Nat.le_antisymm (of_decide_eq_true le) (of_decide_eq_true ge))
  · intro a b c first second
    exact decide_eq_true ((of_decide_eq_true first).trans (of_decide_eq_true second))
  · intro a b
    rw [Bool.or_eq_true, decide_eq_true_eq, decide_eq_true_eq]
    exact Nat.le_total _ _

theorem isLoop_iff {group : List α} (filled : group ≠ []) :
    isLoop succ group = true ↔ 1 < group.length ∨ ∃ x ∈ group, x ∈ succ x := by
  cases group with
  | nil => exact absurd rfl filled
  | cons x group =>
    rw [isLoop, Bool.or_eq_true, decide_eq_true_eq, List.contains_iff_mem]
    constructor
    · rintro (long | edge)
      · exact Or.inl long
      · exact Or.inr ⟨x, List.mem_cons_self, edge⟩
    · rintro (long | ⟨y, mem, edge⟩)
      · exact Or.inl long
      · cases group with
        | nil =>
          cases List.mem_singleton.mp mem
          exact Or.inr edge
        | cons y group => exact Or.inl (by simp)

/-- A part of the list is picked out of it by its nodes. -/
theorem filter_of_sublist {nodes group : List α} (sub : group.Sublist nodes)
    (distinct : nodes.Nodup) : nodes.filter (· ∈ group) = group := by
  induction sub with
  | slnil => rfl
  | @cons group nodes x sub ih =>
    obtain ⟨new, distinct⟩ := List.nodup_cons.mp distinct
    rw [List.filter_cons_of_neg (by simpa using fun mem => new (sub.subset mem)), ih distinct]
  | @cons_cons group nodes x sub ih =>
    obtain ⟨new, distinct⟩ := List.nodup_cons.mp distinct
    rw [List.filter_cons_of_pos (by simp)]
    congr 1
    rw [← ih distinct]
    apply List.filter_congr
    intro y mem
    have other : y ≠ x := by
      rintro rfl
      exact new mem
    rw [ih distinct]
    simp [other]

/-- The walk ends and answers each component that has a cycle, once. -/
theorem groups_spec {nodes : List α} (distinct : nodes.Nodup)
    (within : ∀ x ∈ nodes, ∀ w ∈ succ x, w ∈ nodes) {fuel : Nat} (deep : nodes.length ≤ fuel) :
    ∃ gs, groups succ fuel nodes = some gs ∧ gs.Nodup ∧
      ∀ group, group ∈ gs ↔ LoopOf succ nodes group := by
  obtain ⟨t, ran, sound, empty, all⟩ := walkAll_sound within deep
  have flat := (List.nodup_append.mp sound.apart).1
  obtain ⟨once, apart⟩ := List.nodup_flatten.mp flat
  have inNodes : ∀ g ∈ t.found, ∀ x ∈ g, x ∈ nodes := fun g mem x inG =>
    (all x).mp (List.mem_flatten.mpr ⟨g, mem, inG⟩)
  have sorted : ∀ g ∈ t.found, (g.mergeSort fun a b => decide (nodes.idxOf a ≤ nodes.idxOf b)) =
      nodes.filter (· ∈ g) := fun g mem => sort_eq_filter distinct (once g mem) (inNodes g mem)
  refine ⟨_, by rw [groups, ran]; rfl, ?_, ?_⟩
  · have filled := sound.kept.filled
    have distinctFound : t.found.Nodup := by
      apply apart.imp_of_mem
      rintro g h inFound - disjoint rfl
      obtain ⟨x, inG⟩ := List.exists_mem_of_ne_nil g (filled g inFound)
      exact disjoint inG inG
    refine List.Nodup.map_on ?_ (distinctFound.filter _)
    intro g inG h inH same
    have inG := List.mem_of_mem_filter inG
    have inH := List.mem_of_mem_filter inH
    obtain ⟨x, mem⟩ := List.exists_mem_of_ne_nil g (filled g inG)
    by_contra differ
    have memH : x ∈ h := List.mem_mergeSort.mp (same ▸ List.mem_mergeSort.mpr mem)
    have symm : Std.Symm (List.Disjoint : List α → List α → Prop) := ⟨fun _ _ d => d.symm⟩
    exact apart.forall inG inH differ mem memH
  · intro group
    constructor
    · intro mem
      obtain ⟨g, kept, rfl⟩ := List.mem_map.mp mem
      obtain ⟨found, loop⟩ := List.mem_filter.mp kept
      obtain ⟨x, inG⟩ := List.exists_mem_of_ne_nil g (sound.kept.filled g found)
      refine ⟨?_, ⟨x, List.mem_mergeSort.mpr inG, fun y => ?_⟩, ?_⟩
      · rw [sorted g found]
        exact List.filter_sublist
      · rw [List.mem_mergeSort]
        exact sound.mem_iff found inG y
      · rw [List.length_mergeSort]
        simp only [List.mem_mergeSort]
        exact (isLoop_iff (sound.kept.filled g found)).mp loop
    · rintro ⟨ordered, ⟨x, inGroup, component⟩, cycle⟩
      obtain ⟨g, found, inG⟩ := List.mem_flatten.mp ((all x).mpr (ordered.subset inGroup))
      have same : ∀ y, y ∈ g ↔ y ∈ group := fun y =>
        (sound.mem_iff found inG y).trans (component y).symm
      have whole : (g.mergeSort fun a b => decide (nodes.idxOf a ≤ nodes.idxOf b)) = group := by
        rw [sorted g found]
        refine Eq.trans ?_ (filter_of_sublist ordered distinct)
        apply List.filter_congr
        exact fun y _ => decide_eq_decide.mpr (same y)
      refine List.mem_map.mpr ⟨g, List.mem_filter.mpr ⟨found, ?_⟩, whole⟩
      rw [isLoop_iff (sound.kept.filled g found)]
      rw [← whole, List.length_mergeSort] at cycle
      simpa only [List.mem_mergeSort] using cycle

end

end Components
