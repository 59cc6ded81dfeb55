import Hecks.Lib.Unfolding

/-! Trees whose members stand in no order. Declarations that list their members by name, no two of
one name, write out the same tree exactly where the trees agree up to the order of the members. -/
namespace Unfolding

/-- Lists in the order of a key that tells their elements apart are known by their elements. -/
theorem eq_of_ascending {γ ν : Type} [LinearOrder ν] (key : γ → ν) {xs ys : List γ}
    (sorted : xs.Pairwise fun x y => key x < key y) (sorted' : ys.Pairwise fun x y => key x < key y)
    (same : ∀ z, z ∈ xs ↔ z ∈ ys) : xs = ys := by
  have nodup : ∀ {zs : List γ}, (zs.Pairwise fun x y => key x < key y) → zs.Nodup := by
    intro zs sorted
    exact sorted.imp fun less same => absurd (congrArg key same) less.ne
  have perm := (List.perm_ext_iff_of_nodup (nodup sorted) (nodup sorted')).mpr same
  refine List.Perm.eq_of_pairwise ?_ sorted sorted' perm
  intro x y _ _ less more
  exact absurd more less.asymm

section

variable {κ ℓ : Type}

mutual

/-- The same at every node but for the order of the members. -/
def Tree.Alike : Tree κ ℓ → Tree κ ℓ → Prop
  | .leaf t, .leaf u => t = u
  | .node t ms, .node u ns => t = u ∧ AllAmong ms ns ∧ ∀ n ∈ ns, Among ms n
  | _, _ => False

def AllAmong : List (ℓ × Tree κ ℓ) → List (ℓ × Tree κ ℓ) → Prop
  | [], _ => True
  | (label, child) :: ms, ns => (∃ n ∈ ns, n.1 = label ∧ child.Alike n.2) ∧ AllAmong ms ns

def Among : List (ℓ × Tree κ ℓ) → ℓ × Tree κ ℓ → Prop
  | [], _ => False
  | (label, child) :: ms, n => (n.1 = label ∧ child.Alike n.2) ∨ Among ms n

end

variable {ms ns : List (ℓ × Tree κ ℓ)} {n : ℓ × Tree κ ℓ} {t u : κ}

theorem allAmong_iff : AllAmong ms ns ↔ ∀ m ∈ ms, ∃ n ∈ ns, n.1 = m.1 ∧ m.2.Alike n.2 := by
  induction ms with
  | nil => simp [AllAmong]
  | cons m ms ih =>
    rw [List.forall_mem_cons, ← ih]
    exact Iff.rfl

theorem among_iff : Among ms n ↔ ∃ m ∈ ms, n.1 = m.1 ∧ m.2.Alike n.2 := by
  induction ms with
  | nil => simp [Among]
  | cons m ms ih =>
    simp only [List.mem_cons, exists_eq_or_imp, ← ih]
    exact Iff.rfl

@[simp] theorem alike_leaf : (Tree.leaf t : Tree κ ℓ).Alike (.leaf u) ↔ t = u := by
  rw [Tree.Alike]

@[simp] theorem not_alike_leaf_node : ¬(Tree.leaf t : Tree κ ℓ).Alike (.node u ns) := by
  simp [Tree.Alike]

@[simp] theorem not_alike_node_leaf : ¬(Tree.node t ms).Alike (.leaf u) := by
  simp [Tree.Alike]

theorem alike_node : (Tree.node t ms).Alike (.node u ns) ↔
    t = u ∧ (∀ m ∈ ms, ∃ n ∈ ns, n.1 = m.1 ∧ m.2.Alike n.2) ∧
      ∀ n ∈ ns, ∃ m ∈ ms, n.1 = m.1 ∧ m.2.Alike n.2 := by
  rw [Tree.Alike, allAmong_iff]
  simp only [among_iff]

theorem Tree.Alike.root_eq {x y : Tree κ ℓ} (alike : x.Alike y) : x.root = y.root := by
  cases x with
  | leaf t =>
    cases y with
    | leaf u => exact alike_leaf.mp alike
    | node u ns => exact absurd alike not_alike_leaf_node
  | node t ms =>
    cases y with
    | leaf u => exact absurd alike not_alike_node_leaf
    | node u ns => exact (alike_node.mp alike).1

/-! ### Members listed by name -/

variable {ν : Type} [LinearOrder ν] (name : ℓ → ν)

/-- The same members, in the order of their names, and no two of one name. -/
structure ByName (ms ordered : List (ℓ × κ)) : Prop where
  perm : ordered.Perm ms
  ascending : ordered.Pairwise fun m n => name m.1 < name n.1

/-- The same declarations, each listed by name. -/
structure Listed (D ordered : Declarations κ ℓ) : Prop where
  names : ordered.names = D.names
  undeclared (t : κ) : D.members t = none → ordered.members t = none
  declared (t : κ) (ms : List (ℓ × κ)) : D.members t = some ms →
    ∃ ms', ordered.members t = some ms' ∧ ByName name ms ms'

variable {name} {D E D' E' : Declarations κ ℓ} {seen : List κ}

/-- Two lists of members, each by name, with what each member stands for. -/
theorem ByName.map_eq_iff {ms ms' ns ns' : List (ℓ × κ)} (byName : ByName name ms ms')
    (byName' : ByName name ns ns') {τ σ : Type} (f f' : ℓ × κ → τ) (g g' : ℓ × κ → σ)
    (alike : σ → σ → Prop)
    (each : ∀ m ∈ ms, ∀ n ∈ ns, f m = f' n ↔ alike (g m) (g' n)) :
    (ms'.map fun m => (m.1, f m)) = (ns'.map fun n => (n.1, f' n)) ↔
      (∀ m ∈ ms.map fun m => (m.1, g m), ∃ n ∈ ns.map fun n => (n.1, g' n),
          n.1 = m.1 ∧ alike m.2 n.2) ∧
        ∀ n ∈ ns.map fun n => (n.1, g' n), ∃ m ∈ ms.map fun m => (m.1, g m),
          n.1 = m.1 ∧ alike m.2 n.2 := by
  rw [List.forall_mem_map, List.forall_mem_map]
  simp only [List.mem_map, exists_exists_and_eq_and]
  constructor
  · intro same
    constructor
    · intro m mem
      have listed := List.mem_map_of_mem (f := fun m => (m.1, f m)) (byName.perm.mem_iff.mpr mem)
      rw [same] at listed
      obtain ⟨n, mem', equal⟩ := List.mem_map.mp listed
      obtain ⟨labels, values⟩ := Prod.mk.inj equal
      have mem' := byName'.perm.mem_iff.mp mem'
      exact ⟨n, mem', labels, (each m mem n mem').mp values.symm⟩
    · intro n mem
      have listed := List.mem_map_of_mem (f := fun n => (n.1, f' n)) (byName'.perm.mem_iff.mpr mem)
      rw [← same] at listed
      obtain ⟨m, mem', equal⟩ := List.mem_map.mp listed
      obtain ⟨labels, values⟩ := Prod.mk.inj equal
      have mem' := byName.perm.mem_iff.mp mem'
      exact ⟨m, mem', labels.symm, (each m mem' n mem).mp values⟩
  · rintro ⟨forth, back⟩
    apply eq_of_ascending fun z => name z.1
    · exact List.pairwise_map.mpr byName.ascending
    · exact List.pairwise_map.mpr byName'.ascending
    · intro z
      constructor
      · intro listed
        obtain ⟨m, mem, rfl⟩ := List.mem_map.mp listed
        have mem := byName.perm.mem_iff.mp mem
        obtain ⟨n, mem', labels, alike⟩ := forth m mem
        refine List.mem_map.mpr ⟨n, byName'.perm.mem_iff.mpr mem', ?_⟩
        rw [labels, (each m mem n mem').mpr alike]
      · intro listed
        obtain ⟨n, mem, rfl⟩ := List.mem_map.mp listed
        have mem := byName'.perm.mem_iff.mp mem
        obtain ⟨m, mem', labels, alike⟩ := back n mem
        refine List.mem_map.mpr ⟨m, byName.perm.mem_iff.mpr mem', ?_⟩
        rw [labels, (each m mem' n mem).mpr alike]

variable [DecidableEq κ]

/-- Listed by name, trees are the same where unlisted they are alike. -/
theorem written_eq_iff_alike (listed : Listed name D D') (listed' : Listed name E E') :
    written D' seen t = written E' seen u ↔ (written D seen t).Alike (written E seen u) := by
  induction size : unseen D.names seen using Nat.strong_induction_on generalizing seen t u with
  | _ left ih =>
    by_cases roots : t = u
    · subst roots
      by_cases mem : t ∈ seen
      · simp [written_seen mem]
      cases inD : D.members t with
      | none =>
        rw [written_undeclared inD, written_undeclared (listed.undeclared t inD)]
        cases inE : E.members t with
        | none =>
          rw [written_undeclared inE, written_undeclared (listed'.undeclared t inE)]
          simp
        | some ns =>
          obtain ⟨ns', inE', -⟩ := listed'.declared t ns inE
          rw [written_declared inE mem, written_declared inE' mem]
          simp
      | some ms =>
        obtain ⟨ms', inD', byName⟩ := listed.declared t ms inD
        rw [written_declared inD mem, written_declared inD' mem]
        cases inE : E.members t with
        | none =>
          rw [written_undeclared inE, written_undeclared (listed'.undeclared t inE)]
          simp
        | some ns =>
          obtain ⟨ns', inE', byName'⟩ := listed'.declared t ns inE
          have smaller : unseen D.names (seen ++ [t]) < left := by
            rw [← size]
            exact unseen_lt (D.named inD) (by simpa using mem)
          rw [written_declared inE mem, written_declared inE' mem, alike_node]
          simp only [Tree.node.injEq, true_and]
          exact byName.map_eq_iff byName' _ _ _ _ _ fun m _ n _ => ih _ smaller rfl
    · constructor
      · intro same
        have same := congrArg Tree.root same
        rw [root_written, root_written] at same
        exact absurd same roots
      · intro alike
        have same := alike.root_eq
        rw [root_written, root_written] at same
        exact absurd same roots

end

end Unfolding
