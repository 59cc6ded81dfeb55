import Hecks.Lib.StrongComponents
import Hecks.ModelCheck.ReactionDepth

/-! The loops of a reaction graph, found with Tarjan's walk: the policies that can each reach the
others through the commands they dispatch. -/
namespace Hecks.ModelCheck

/-- The graph's policies in the order they are declared, and those each one's dispatch can start. -/
structure ReactionCycles (α : Type) where
  policies : List α
  successors : α → List α
  distinct : policies.Nodup
  within : ∀ p ∈ policies, ∀ q ∈ successors p, q ∈ policies

namespace ReactionCycles

variable {α : Type} [DecidableEq α]

/-- Each loop's policies in the order they are declared. No answer when the walk is deeper than the
fuel. -/
def groups (c : ReactionCycles α) (fuel : Nat) : Option (List (List α)) :=
  Components.groups c.successors fuel c.policies

omit [DecidableEq α] in
/-- Policies each of which the other can come to start. -/
def Mutual (c : ReactionCycles α) (p q : α) : Prop :=
  Relation.ReflTransGen (fun p q => q ∈ c.successors p) p q ∧
    Relation.ReflTransGen (fun p q => q ∈ c.successors p) q p

/-- A strongly connected component with a cycle in it: more than one policy, or one that is its own
successor. -/
structure IsLoop (c : ReactionCycles α) (group : List α) : Prop where
  ordered : group.Sublist c.policies
  component : ∃ p ∈ group, ∀ q, q ∈ group ↔ c.Mutual p q
  cycle : 1 < group.length ∨ ∃ p, group = [p] ∧ p ∈ c.successors p

theorem isLoop_iff (c : ReactionCycles α) (group : List α) :
    c.IsLoop group ↔ Components.LoopOf c.successors c.policies group := by
  have cycle : (1 < group.length ∨ ∃ p, group = [p] ∧ p ∈ c.successors p) ↔
      1 < group.length ∨ ∃ p ∈ group, p ∈ c.successors p := by
    constructor
    · rintro (long | ⟨p, rfl, edge⟩)
      · exact Or.inl long
      · exact Or.inr ⟨p, List.mem_cons_self, edge⟩
    · rintro (long | ⟨p, mem, edge⟩)
      · exact Or.inl long
      · cases group with
        | nil => cases mem
        | cons q group =>
          cases group with
          | nil =>
            cases List.mem_singleton.mp mem
            exact Or.inr ⟨p, rfl, edge⟩
          | cons r group => exact Or.inl (by simp)
  constructor
  · intro h
    exact ⟨h.ordered, h.component, cycle.mp h.cycle⟩
  · intro h
    exact ⟨h.ordered, h.component, cycle.mpr h.cycle⟩

/-- The walk ends, and answers each strongly connected component with a cycle in it once, its
policies in the order they are declared. -/
theorem groups_loops (c : ReactionCycles α) {fuel : Nat} (deep : c.policies.length ≤ fuel) :
    ∃ gs, c.groups fuel = some gs ∧ gs.Nodup ∧ ∀ group, group ∈ gs ↔ c.IsLoop group := by
  obtain ⟨gs, ran, once, loops⟩ := Components.groups_spec c.distinct c.within deep
  exact ⟨gs, ran, once, fun group => (loops group).trans (c.isLoop_iff group).symm⟩

/-- The first and the third start each other, the second itself, and the last starts all of them. -/
def four : ReactionCycles (Fin 4) where
  policies := [0, 1, 2, 3]
  successors := ![[2], [1], [0], [0, 1, 2]]
  distinct := by decide
  within := by decide

theorem groups_of_four : four.policies.length ≤ 4 ∧
    ∃ gs, four.groups 4 = some gs ∧ gs.Nodup ∧ ∀ group, group ∈ gs ↔ four.IsLoop group :=
  ⟨by decide, groups_loops four (by decide)⟩

end ReactionCycles

/-! ### The reactions of a bluebook -/

section

variable (snake : String → String) (b : Bluebook)

def reactionCycles : ReactionCycles (Node b) where
  policies := List.finRange _
  successors := successors snake b
  distinct := List.nodup_finRange _
  within := fun _ _ q _ => List.mem_finRange q

/-- A bluebook's loops are the components of its reaction graph that have a cycle. -/
theorem cycles_loops {fuel : Nat} (deep : (reacting b).length ≤ fuel) :
    ∃ gs, cycles snake b fuel = some gs ∧
      ∀ group, group ∈ gs ↔ (reactionCycles snake b).IsLoop group := by
  have policies : (reactionCycles snake b).policies.length ≤ fuel := by
    rw [reactionCycles, List.length_finRange]
    exact deep
  obtain ⟨gs, ran, once, loops⟩ :=
    Components.groups_spec (reactionCycles snake b).distinct (reactionCycles snake b).within policies
  exact ⟨gs, ran, fun group => (loops group).trans (ReactionCycles.isLoop_iff _ group).symm⟩

end

end Hecks.ModelCheck
