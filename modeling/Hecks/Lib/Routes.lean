import Mathlib

/-! Runs of edges from one label to another, and what a breadth-first search knows of them: each
label it has reached with a shortest run, and the labels it has still to leave. -/
namespace Routes

section

variable {ε ℓ : Type} (edges : List ε) (source target : ε → ℓ)

/-- Listed edges, each starting where the one before ends. -/
def Run (start : ℓ) : List ε → ℓ → Prop
  | [], stop => start = stop
  | edge :: run, stop => edge ∈ edges ∧ source edge = start ∧ Run (target edge) run stop

/-- A run to the label, no longer than any other. -/
def Shortest (start : ℓ) (run : List ε) (stop : ℓ) : Prop :=
  Run edges source target start run stop ∧
    ∀ other, Run edges source target start other stop → run.length ≤ other.length

/-- How many edges are left to a label that is not known. -/
def unmet (known : ℓ → Bool) : Nat := edges.countP fun edge => !known (target edge)

end

section

variable {ε ℓ : Type} {edges : List ε} {source target : ε → ℓ} {start stop : ℓ} {run : List ε}

theorem run_append {run' : List ε} : Run edges source target start (run ++ run') stop ↔
    ∃ middle, Run edges source target start run middle ∧
      Run edges source target middle run' stop := by
  induction run generalizing start with
  | nil => simp [Run]
  | cons edge run ih =>
    simp only [List.cons_append, Run, ih]
    constructor
    · rintro ⟨listed, starts, middle, before, after⟩
      exact ⟨middle, ⟨listed, starts, before⟩, after⟩
    · rintro ⟨middle, ⟨listed, starts, before⟩, after⟩
      exact ⟨listed, starts, middle, before, after⟩

theorem run_snoc {edge : ε} (before : Run edges source target start run (source edge))
    (listed : edge ∈ edges) : Run edges source target start (run ++ [edge]) (target edge) :=
  run_append.mpr ⟨source edge, before, listed, rfl, rfl⟩

/-- A run out of a set of labels has an edge that leaves it. -/
theorem leaves {P : ℓ → Prop} (whole : Run edges source target start run stop) (inside : P start)
    (outside : ¬P stop) : ∃ before edge after, run = before ++ edge :: after ∧
      Run edges source target start before (source edge) ∧ edge ∈ edges ∧
      P (source edge) ∧ ¬P (target edge) := by
  induction run generalizing start with
  | nil =>
    have same : start = stop := whole
    exact absurd (same ▸ inside) outside
  | cons edge run ih =>
    obtain ⟨listed, rfl, rest⟩ := whole
    by_cases further : P (target edge)
    · obtain ⟨before, last, after, rfl, leading, rest⟩ := ih rest further
      exact ⟨edge :: before, last, after, rfl, ⟨listed, rfl, leading⟩, rest⟩
    · exact ⟨[], edge, run, rfl, rfl, listed, inside, further⟩

/-! ### Edges left to labels that are not known -/

/-- What is known grows by the ends of some edges, of which none is left. -/
theorem unmet_add {known known' : ℓ → Bool} {met : ε → Bool}
    (grows : ∀ label, known label = true → known' label = true)
    (fresh : ∀ edge, met edge = true → known (target edge) = false)
    (ends : ∀ edge ∈ edges, met edge = true → known' (target edge) = true) :
    unmet edges target known' + edges.countP met ≤ unmet edges target known := by
  induction edges with
  | nil => exact Nat.le_refl _
  | cons edge edges ih =>
    have rest := ih fun other mem => ends other (List.mem_cons_of_mem edge mem)
    unfold unmet at rest ⊢
    simp only [List.countP_cons]
    cases new : met edge with
    | true =>
      rw [fresh edge new, ends edge List.mem_cons_self new]
      simp only [Bool.not_true, Bool.not_false, Bool.false_eq_true, if_false, if_true]
      omega
    | false =>
      cases old : known (target edge) with
      | true =>
        rw [grows _ old]
        simpa using rest
      | false =>
        simp only [Bool.not_false, if_true, Bool.false_eq_true, if_false]
        split <;> omega

/-! ### The search -/

/-- The number of edges of the run recorded for a label. -/
def depth (found : ℓ → Option (List ε)) (label : ℓ) : Nat := ((found label).getD []).length

/-- What a breadth-first search keeps, with the labels found and not yet left in the order they are
to be left in. -/
structure Searched (edges : List ε) (source target : ε → ℓ) (start : ℓ)
    (found : ℓ → Option (List ε)) (pending : List ℓ) : Prop where
  starts : found start = some []
  shortest : ∀ label run, found label = some run → Shortest edges source target start run label
  held : ∀ label ∈ pending, (found label).isSome
  left : ∀ label, (found label).isSome → label ∉ pending →
    ∀ edge ∈ edges, source edge = label → (found (target edge)).isSome
  sorted : pending.Pairwise fun first second => depth found first ≤ depth found second
  level : ∀ first ∈ pending, ∀ second ∈ pending, depth found second ≤ depth found first + 1

variable [DecidableEq ℓ] {found : ℓ → Option (List ε)} {pending : List ℓ} {label : ℓ}

theorem searched_start : Searched edges source target start
    (Function.update (fun _ => none) start (some [])) [start] := by
  constructor
  · rw [Function.update_self]
  · intro label run known
    by_cases same : label = start
    · rw [same, Function.update_self] at known
      cases known
      exact ⟨same ▸ rfl, fun _ _ => Nat.zero_le _⟩
    · rw [Function.update_of_ne same] at known
      cases known
  · intro label mem
    rw [List.mem_singleton.mp mem, Function.update_self]
    rfl
  · intro label known away
    rw [List.mem_singleton] at away
    rw [Function.update_of_ne away] at known
    cases known
  · exact List.pairwise_singleton _ _
  · intro first here second there
    rw [List.mem_singleton.mp here, List.mem_singleton.mp there]
    exact Nat.le_succ _

/-- The first pending label is the nearest: no run of fewer edges leaves what is found. -/
theorem Searched.far (searched : Searched edges source target start found (label :: pending))
    {outside : ℓ} (unknown : found outside = none)
    {other : List ε} (leading : Run edges source target start other outside) :
    depth found label + 1 ≤ other.length := by
  have inside : (found start).isSome := by rw [searched.starts]; rfl
  have away : ¬(found outside).isSome := by rw [unknown]; exact Bool.false_ne_true
  obtain ⟨before, edge, after, rfl, front, listed, known, fresh⟩ :=
    leaves (P := fun label => (found label).isSome) leading inside away
  have waits : source edge ∈ label :: pending := by
    by_contra gone
    exact fresh (searched.left _ known gone edge listed rfl)
  obtain ⟨run, recorded⟩ := Option.isSome_iff_exists.mp known
  have minimal := (searched.shortest _ _ recorded).2 before front
  have nearer : depth found label ≤ depth found (source edge) := by
    cases List.mem_cons.mp waits with
    | inl first => rw [first]
    | inr later => exact List.rel_of_pairwise_cons searched.sorted later
  have length : depth found (source edge) = run.length := by rw [depth, recorded]; rfl
  rw [List.length_append, List.length_cons]
  omega

/-- An edge from the first pending label to one not found yet gives it a shortest run. -/
theorem Searched.extend (searched : Searched edges source target start found (label :: pending))
    {edge : ε} (listed : edge ∈ edges) (leads : source edge = label)
    (fresh : found (target edge) = none) :
    Searched edges source target start
      (Function.update found (target edge) (some ((found label).getD [] ++ [edge])))
      (label :: (pending ++ [target edge])) := by
  obtain ⟨run, recorded⟩ := Option.isSome_iff_exists.mp (searched.held label List.mem_cons_self)
  have known : ∀ other, (found other).isSome → other ≠ target edge := by
    rintro other some rfl
    rw [fresh] at some
    cases some
  have same : ∀ other ∈ label :: pending, depth (Function.update found (target edge)
      (some ((found label).getD [] ++ [edge]))) other = depth found other := by
    intro other mem
    rw [depth, Function.update_of_ne (known other (searched.held other mem)), depth]
  have new : depth (Function.update found (target edge)
      (some ((found label).getD [] ++ [edge]))) (target edge) = depth found label + 1 := by
    rw [depth, Function.update_self, Option.getD_some, List.length_append, depth]
    rfl
  have isSome : ∀ other, (found other).isSome → (Function.update found (target edge)
      (some ((found label).getD [] ++ [edge])) other).isSome := by
    intro other some
    rw [Function.update_of_ne (known other some)]
    exact some
  constructor
  · rw [Function.update_of_ne (known start (by rw [searched.starts]; rfl)), searched.starts]
  · intro other run' recorded'
    by_cases this : other = target edge
    · subst this
      rw [Function.update_self, recorded, Option.getD_some] at recorded'
      cases recorded'
      have shortest := searched.shortest label run recorded
      refine ⟨run_snoc (leads.symm ▸ shortest.1) listed, ?_⟩
      intro another leading
      have far := searched.far fresh leading
      rw [depth, recorded, Option.getD_some] at far
      rw [List.length_append]
      exact far
    · rw [Function.update_of_ne this] at recorded'
      exact searched.shortest other run' recorded'
  · intro other mem
    rw [← List.cons_append] at mem
    cases List.mem_append.mp mem with
    | inl before => exact isSome other (searched.held other before)
    | inr last =>
      rw [List.mem_singleton.mp last, Function.update_self]
      rfl
  · intro other some gone next mem from_other
    rw [← List.cons_append, List.mem_append, not_or, List.mem_singleton] at gone
    rw [Function.update_of_ne gone.2] at some
    exact isSome _ (searched.left other some gone.1 next mem from_other)
  · rw [← List.cons_append, List.pairwise_append]
    refine ⟨?_, List.pairwise_singleton _ _, ?_⟩
    · apply searched.sorted.imp_of_mem
      intro first second here there before
      rw [same first here, same second there]
      exact before
    · intro first here second there
      rw [List.mem_singleton.mp there, same first here, new]
      exact searched.level label List.mem_cons_self first here
  · intro first here second there
    rw [← List.cons_append] at here there
    cases List.mem_append.mp here with
    | inl here =>
      cases List.mem_append.mp there with
      | inl there =>
        rw [same first here, same second there]
        exact searched.level first here second there
      | inr last =>
        rw [List.mem_singleton.mp last, same first here, new]
        apply Nat.succ_le_succ
        cases List.mem_cons.mp here with
        | inl front => rw [front]
        | inr later => exact List.rel_of_pairwise_cons searched.sorted later
    | inr last =>
      rw [List.mem_singleton.mp last, new]
      cases List.mem_append.mp there with
      | inl there =>
        rw [same second there]
        have near := searched.level label List.mem_cons_self second there
        omega
      | inr last =>
        rw [List.mem_singleton.mp last, new]
        omega

/-- A label all whose successors are found has been left. -/
theorem Searched.drop (searched : Searched edges source target start found (label :: pending))
    (done : ∀ edge ∈ edges, source edge = label → (found (target edge)).isSome) :
    Searched edges source target start found pending := by
  constructor
  · exact searched.starts
  · exact searched.shortest
  · exact fun other mem => searched.held other (List.mem_cons_of_mem _ mem)
  · intro other known gone
    by_cases this : other = label
    · rw [this]
      exact done
    · apply searched.left other known
      simp [this, gone]
  · exact (List.pairwise_cons.mp searched.sorted).2
  · exact fun first here second there =>
      searched.level first (List.mem_cons_of_mem _ here) second (List.mem_cons_of_mem _ there)

omit [DecidableEq ℓ] in
/-- With nothing pending, what a run leads to is found. -/
theorem Searched.reached (searched : Searched edges source target start found [])
    (leading : Run edges source target start run stop) : (found stop).isSome := by
  by_contra unknown
  have inside : (found start).isSome := by rw [searched.starts]; rfl
  obtain ⟨-, edge, -, -, -, listed, known, fresh⟩ :=
    leaves (P := fun label => (found label).isSome) leading inside unknown
  exact fresh (searched.left _ known List.not_mem_nil edge listed rfl)

end

end Routes
