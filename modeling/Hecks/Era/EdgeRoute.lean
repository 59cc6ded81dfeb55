import Hecks.Lib.Routes
import Hecks.Era.Compose

/-! The run of translation edges that leads one shape label to another, found by search: an edge
that leaves a label off the run does not stop the route. -/
namespace Hecks.Era.EdgeRoute

open Routes (unmet Run Shortest Searched)

/-- The run to each label reached, and the labels to leave next. -/
structure Walk where
  paths : String → Option (List Translation)
  frontier : List String

def extendRun (label : String) (s : Walk) (edge : Translation) : Walk :=
  if edge.source = label ∧ (s.paths edge.target).isNone then
    { paths := Function.update s.paths edge.target (some ((s.paths label).getD [] ++ [edge]))
      frontier := s.frontier ++ [edge.target] }
  else s

def extendRuns (edges : List Translation) (label : String) (s : Walk) : Walk :=
  edges.foldl (extendRun label) s

/-- What bounds the search: each label left takes one off, each label found one edge. -/
def Walk.left (edges : List Translation) (s : Walk) : Nat :=
  unmet edges (·.target) (fun label => (s.paths label).isSome) + s.frontier.length

theorem extendRun_left {edges : List Translation} {label : String} {edge : Translation}
    (listed : edge ∈ edges) (s : Walk) : (extendRun label s edge).left edges ≤ s.left edges := by
  unfold extendRun
  split
  · rename_i fresh
    have unknown : (s.paths edge.target).isSome = false := by
      rw [Option.isNone_iff_eq_none.mp fresh.2]
      rfl
    have fewer :
        unmet edges (·.target) (fun other => (Function.update s.paths edge.target
            (some ((s.paths label).getD [] ++ [edge])) other).isSome) +
          edges.countP (fun other => other.target == edge.target) ≤
        unmet edges (·.target) fun label => (s.paths label).isSome :=
      Routes.unmet_add ?_ ?_ ?_
    · have one : 0 < edges.countP fun other => other.target == edge.target :=
        List.countP_pos_iff.mpr ⟨edge, listed, by simp⟩
      unfold Walk.left
      dsimp only
      rw [List.length_append, List.length_singleton]
      omega
    · intro other known
      by_cases same : other = edge.target
      · rw [same, Function.update_self]
        rfl
      · rw [Function.update_of_ne same]
        exact known
    · intro other same
      rw [beq_iff_eq.mp same]
      exact unknown
    · intro other _ same
      rw [beq_iff_eq.mp same, Function.update_self]
      rfl
  · exact Nat.le_refl _

theorem extendRuns_left {edges : List Translation} (label : String) (s : Walk) :
    (extendRuns edges label s).left edges ≤ s.left edges := by
  have run : ∀ es ⊆ edges, ∀ s : Walk,
      (es.foldl (extendRun label) s).left edges ≤ s.left edges := by
    intro es listed
    induction es with
    | nil => exact fun s => Nat.le_refl _
    | cons edge es ih =>
      intro s
      obtain ⟨here, rest⟩ := List.cons_subset.mp listed
      exact Nat.le_trans (ih rest _) (extendRun_left here s)
  exact run edges (List.Subset.refl _) s

/-- Breadth-first over labels, keeping the first run found to each one. -/
def walk (edges : List Translation) (stop : String) (s : Walk) : Walk :=
  match _h : s.frontier with
  | [] => s
  | label :: frontier =>
      if (s.paths stop).isSome then s
      else walk edges stop (extendRuns edges label { s with frontier := frontier })
termination_by s.left edges
decreasing_by
  have fewer : (extendRuns edges label { s with frontier := frontier }).left edges ≤ _ :=
    extendRuns_left label _
  unfold Walk.left at fewer ⊢
  dsimp only at fewer
  rw [_h, List.length_cons]
  omega

def noRoute (start stop : String) : String := s!"no translation edge leads {start} to {stop}"

/-- The shortest run of edges from one label to another; when the two are one label, its self
edge if there is one. -/
def route (edges : List Translation) (start stop : String) :
    Except String (List Translation) :=
  if start = stop then
    .ok ((edges.filter fun edge => edge.source = start ∧ edge.target = start).take 1)
  else
    match (walk edges stop ⟨Function.update (fun _ => none) start (some []), [start]⟩).paths stop with
    | some run => .ok run
    | none => .error (noRoute start stop)

def successors (edges : List Translation) (seen : List String) (label : String) : List String :=
  edges.filterMap fun edge =>
    if edge.source = label ∧ edge.target ∉ seen then some edge.target else none

theorem mem_successors {edges : List Translation} {seen : List String} {label next : String} :
    next ∈ successors edges seen label ↔
      ∃ edge ∈ edges, edge.source = label ∧ edge.target ∉ seen ∧ edge.target = next := by
  simp only [successors, List.mem_filterMap, Option.ite_none_right_eq_some, Option.some.injEq,
    and_assoc]

theorem successors_length (edges : List Translation) (seen : List String) (label : String) :
    (successors edges seen label).length =
      edges.countP fun edge => edge.source = label ∧ edge.target ∉ seen := by
  induction edges with
  | nil => rfl
  | cons edge edges ih =>
    unfold successors at ih ⊢
    rw [List.filterMap_cons, List.countP_cons]
    by_cases new : edge.source = label ∧ edge.target ∉ seen
    · simp only [new, ih, not_false_eq_true, and_self, if_true, List.length_cons,
        decide_true]
    · simp only [new, ih, if_false, decide_false, Bool.false_eq_true, Nat.add_zero]

/-- `reached`, from the labels seen and those to leave next. -/
def reachedFrom (edges : List Translation) (seen : List String) : List String → List String
  | [] => seen
  | label :: frontier =>
      let found := successors edges seen label
      reachedFrom edges (seen ++ found) (frontier ++ found)
termination_by frontier => unmet edges (·.target) (seen.contains ·) + frontier.length
decreasing_by
  have fewer :
      unmet edges (·.target) ((seen ++ successors edges seen label).contains ·) +
        edges.countP (fun edge => edge.source = label ∧ edge.target ∉ seen) ≤
      unmet edges (·.target) (seen.contains ·) :=
    Routes.unmet_add ?_ ?_ ?_
  · rw [← successors_length] at fewer
    rw [List.length_append, List.length_cons]
    omega
  · intro other known
    simp only [List.contains_eq_mem, decide_eq_true_eq] at known ⊢
    exact List.mem_append_left _ known
  · intro edge new
    simpa using (of_decide_eq_true new).2
  · intro edge listed new
    obtain ⟨leads, fresh⟩ := of_decide_eq_true new
    simp only [List.contains_eq_mem, decide_eq_true_eq]
    exact List.mem_append_right _ (mem_successors.mpr ⟨edge, listed, leads, fresh, rfl⟩)

def reached (start : String) (edges : List Translation) : List String :=
  reachedFrom edges [start] [start]

def reachable (start stop : String) (edges : List Translation) : Bool :=
  (reached start edges).contains stop

/-! ### The route -/

section

variable {edges : List Translation} {start stop label : String}

theorem extendRuns_searched {s : Walk}
    (searched : Searched edges (·.source) (·.target) start s.paths (label :: s.frontier)) :
    Searched edges (·.source) (·.target) start (extendRuns edges label s).paths
        (label :: (extendRuns edges label s).frontier) ∧
      ∀ edge ∈ edges, edge.source = label →
        ((extendRuns edges label s).paths edge.target).isSome := by
  have kept : ∀ (es : List Translation) (s : Walk) (other : String), (s.paths other).isSome →
      ((es.foldl (extendRun label) s).paths other).isSome := by
    intro es
    induction es with
    | nil => exact fun _ _ known => known
    | cons edge es ih =>
      intro s other known
      apply ih
      unfold extendRun
      split
      · dsimp only
        by_cases same : other = edge.target
        · rw [same, Function.update_self]
          rfl
        · rw [Function.update_of_ne same]
          exact known
      · exact known
  have run : ∀ es ⊆ edges, ∀ s : Walk,
      Searched edges (·.source) (·.target) start s.paths (label :: s.frontier) →
      Searched edges (·.source) (·.target) start (es.foldl (extendRun label) s).paths
          (label :: (es.foldl (extendRun label) s).frontier) ∧
        ∀ edge ∈ es, edge.source = label →
          ((es.foldl (extendRun label) s).paths edge.target).isSome := by
    intro es listed
    induction es with
    | nil => exact fun s searched => ⟨searched, fun _ none => absurd none List.not_mem_nil⟩
    | cons edge es ih =>
      intro s searched
      obtain ⟨here, rest⟩ := List.cons_subset.mp listed
      have step : Searched edges (·.source) (·.target) start (extendRun label s edge).paths
          (label :: (extendRun label s edge).frontier) ∧
          (edge.source = label → ((extendRun label s edge).paths edge.target).isSome) := by
        unfold extendRun
        split
        · rename_i fresh
          have unknown := Option.isNone_iff_eq_none.mp fresh.2
          refine ⟨searched.extend here fresh.1 unknown, fun _ => ?_⟩
          dsimp only
          rw [Function.update_self]
          rfl
        · rename_i known
          refine ⟨searched, fun leads => ?_⟩
          cases held : s.paths edge.target with
          | some run => rfl
          | none => exact absurd ⟨leads, by rw [held]; rfl⟩ known
      obtain ⟨whole, met⟩ := ih rest _ step.1
      refine ⟨whole, ?_⟩
      intro other mem leads
      cases List.mem_cons.mp mem with
      | inl same =>
        subst same
        exact kept es _ _ (step.2 leads)
      | inr later => exact met other later leads
  exact run edges (List.Subset.refl _) s searched

/-- The walk ends with a shortest run to the label it looks for, or with none leading there. -/
theorem walk_finds {s : Walk}
    (searched : Searched edges (·.source) (·.target) start s.paths s.frontier) :
    (∃ run, (walk edges stop s).paths stop = some run ∧
      Shortest edges (·.source) (·.target) start run stop) ∨
    ((walk edges stop s).paths stop = none ∧
      ∀ run, ¬Run edges (·.source) (·.target) start run stop) := by
  fun_induction walk edges stop s with
  | case1 s empty =>
    rw [empty] at searched
    cases found : s.paths stop with
    | some run => exact Or.inl ⟨run, rfl, searched.shortest stop run found⟩
    | none =>
      right
      refine ⟨rfl, ?_⟩
      intro run leading
      have known := searched.reached leading
      rw [found] at known
      cases known
  | case2 s label frontier waiting known =>
    obtain ⟨run, found⟩ := Option.isSome_iff_exists.mp known
    exact Or.inl ⟨run, found, searched.shortest stop run found⟩
  | case3 s label frontier waiting unknown ih =>
    rw [waiting] at searched
    obtain ⟨whole, met⟩ :=
      @extendRuns_searched edges start label { s with frontier := frontier } searched
    exact ih (whole.drop met)

/-- The labels seen are reached, and all that leaves one not to be left any more is seen. -/
structure Seen (edges : List Translation) (start : String) (seen frontier : List String) :
    Prop where
  starts : start ∈ seen
  reached : ∀ label ∈ seen, ∃ run, Run edges (·.source) (·.target) start run label
  waits : ∀ label ∈ frontier, label ∈ seen
  left : ∀ label ∈ seen, label ∉ frontier →
    ∀ edge ∈ edges, edge.source = label → edge.target ∈ seen

theorem seen_successors {seen frontier : List String}
    (held : Seen edges start seen (label :: frontier)) :
    Seen edges start (seen ++ successors edges seen label)
      (frontier ++ successors edges seen label) := by
  have here := held.waits label List.mem_cons_self
  constructor
  · exact List.mem_append_left _ held.starts
  · intro other mem
    cases List.mem_append.mp mem with
    | inl before => exact held.reached other before
    | inr found =>
      obtain ⟨edge, listed, leads, -, rfl⟩ := mem_successors.mp found
      obtain ⟨run, leading⟩ := held.reached label here
      exact ⟨run ++ [edge], Routes.run_snoc (leads.symm ▸ leading) listed⟩
  · intro other mem
    cases List.mem_append.mp mem with
    | inl later => exact List.mem_append_left _ (held.waits other (List.mem_cons_of_mem _ later))
    | inr found => exact List.mem_append_right _ found
  · intro other mem gone edge listed leads
    rw [List.mem_append, not_or] at gone
    have before : other ∈ seen := by
      cases List.mem_append.mp mem with
      | inl before => exact before
      | inr found => exact absurd found gone.2
    by_cases same : other = label
    · by_cases old : edge.target ∈ seen
      · exact List.mem_append_left _ old
      · apply List.mem_append_right
        exact mem_successors.mpr ⟨edge, listed, leads.trans same, old, rfl⟩
    · apply List.mem_append_left
      exact held.left other before (by simp [same, gone.1]) edge listed leads

theorem reachedFrom_seen {seen frontier : List String} (held : Seen edges start seen frontier) :
    Seen edges start (reachedFrom edges seen frontier) [] := by
  fun_induction reachedFrom edges seen frontier with
  | case1 seen => exact held
  | case2 seen label frontier found ih => exact ih (seen_successors held)

theorem reachable_iff : reachable start stop edges = true ↔
    ∃ run, Run edges (·.source) (·.target) start run stop := by
  have first : Seen edges start [start] [start] := by
    constructor
    · exact List.mem_singleton_self start
    · intro label mem
      exact ⟨[], (List.mem_singleton.mp mem).symm⟩
    · exact fun _ mem => mem
    · exact fun _ mem gone => absurd mem gone
  have last := reachedFrom_seen first
  rw [reachable, reached, List.contains_iff_mem]
  constructor
  · exact last.reached stop
  · rintro ⟨run, leading⟩
    by_contra unseen
    obtain ⟨-, edge, -, -, -, listed, known, fresh⟩ :=
      Routes.leaves (P := fun label => label ∈ reachedFrom edges [start] [start]) leading
        last.starts unseen
    exact fresh (last.left _ known List.not_mem_nil edge listed rfl)

/-- Between two different labels the route is a shortest run where `reachable?` holds, and a
refusal where it does not. -/
theorem route_iff_reachable (apart : start ≠ stop) :
    (reachable start stop edges = true → ∃ run, route edges start stop = .ok run ∧
      Shortest edges (·.source) (·.target) start run stop) ∧
    (reachable start stop edges = false →
      route edges start stop = .error (noRoute start stop)) := by
  have found := @walk_finds edges start stop
    ⟨Function.update (fun _ => none) start (some []), [start]⟩ Routes.searched_start
  unfold route
  rw [if_neg apart]
  constructor
  · intro reaches
    obtain ⟨run, leading⟩ := reachable_iff.mp reaches
    obtain ⟨run, recorded, shortest⟩ | ⟨-, no⟩ := found
    · rw [recorded]
      exact ⟨run, rfl, shortest⟩
    · exact absurd leading (no run)
  · intro misses
    obtain ⟨run, -, shortest⟩ | ⟨none, -⟩ := found
    · have reaches := reachable_iff.mpr ⟨run, shortest.1⟩
      rw [misses] at reaches
      cases reaches
    · rw [none]

/-- A fork off the way, an edge twice and a cycle back. -/
def forked : List Translation :=
  [⟨"Shop", "a", "x", [], []⟩, ⟨"Shop", "a", "b", [], []⟩, ⟨"Shop", "a", "b", [], []⟩,
    ⟨"Shop", "b", "a", [], []⟩, ⟨"Shop", "b", "c", [], []⟩]

theorem forked_route :
    (reachable "a" "c" forked = true → ∃ run, route forked "a" "c" = .ok run ∧
      Shortest forked (·.source) (·.target) "a" run "c") ∧
    (reachable "a" "c" forked = false → route forked "a" "c" = .error (noRoute "a" "c")) :=
  route_iff_reachable (by decide)

end

end Hecks.Era.EdgeRoute
