import Mathlib

/-! Recursive declarations read as trees. A declared name stands for its members, each with a
label and a name of its own. A name can be unfolded to a depth, or written out down to the names
that are being written out already; the two tell declarations apart equally well. -/
namespace Unfolding

section

variable {κ ℓ : Type}

/-- The members of the declared names, which are finitely many. -/
structure Declarations (κ ℓ : Type) where
  names : List κ
  members : κ → Option (List (ℓ × κ))
  named : ∀ {t : κ} {ms : List (ℓ × κ)}, members t = some ms → t ∈ names

inductive Tree (κ ℓ : Type) where
  | leaf (t : κ)
  | node (t : κ) (members : List (ℓ × Tree κ ℓ))

def Tree.root : Tree κ ℓ → κ
  | leaf t => t
  | node t _ => t

section

variable [DecidableEq κ] [DecidableEq ℓ]

mutual

def Tree.decEq : (s t : Tree κ ℓ) → Decidable (s = t)
  | .leaf t, .leaf u => decidable_of_iff (t = u) (by rw [Tree.leaf.injEq])
  | .leaf _, .node _ _ => .isFalse (by rintro ⟨⟩)
  | .node _ _, .leaf _ => .isFalse (by rintro ⟨⟩)
  | .node t ms, .node u ns =>
      have := membersDecEq ms ns
      decidable_of_iff (t = u ∧ ms = ns) (by rw [Tree.node.injEq])

def membersDecEq : (ms ns : List (ℓ × Tree κ ℓ)) → Decidable (ms = ns)
  | [], [] => .isTrue rfl
  | [], _ :: _ => .isFalse (by rintro ⟨⟩)
  | _ :: _, [] => .isFalse (by rintro ⟨⟩)
  | m :: ms, n :: ns =>
      have := memberDecEq m n
      have := membersDecEq ms ns
      decidable_of_iff (m = n ∧ ms = ns) (by rw [List.cons.injEq])

def memberDecEq : (m n : ℓ × Tree κ ℓ) → Decidable (m = n)
  | (l, s), (k, t) =>
      have := Tree.decEq s t
      decidable_of_iff (l = k ∧ s = t) (by rw [Prod.mk.injEq])

end

instance : DecidableEq (Tree κ ℓ) := Tree.decEq

end

/-- The members of a name down to this depth. -/
def unfold (members : κ → Option (List (ℓ × κ))) : Nat → κ → Tree κ ℓ
  | 0, t => .leaf t
  | n + 1, t =>
      match members t with
      | none => .leaf t
      | some ms => .node t (ms.map fun m => (m.1, unfold members n m.2))

section

variable [DecidableEq κ]

/-- How many of the names have not been seen. -/
def unseen (names seen : List κ) : Nat := (names.filter fun t => !seen.contains t).length

theorem unseen_lt {names seen : List κ} {t : κ} (mem : t ∈ names)
    (fresh : ¬seen.contains t = true) : unseen names (seen ++ [t]) < unseen names seen := by
  have split : names.filter (fun u => !(seen ++ [t]).contains u) =
      (names.filter fun u => !seen.contains u).filter fun u => !(u == t) := by
    rw [List.filter_filter]
    apply List.filter_congr
    intro u _
    simp only [List.contains_eq_mem, List.mem_append, List.mem_singleton]
    by_cases h : u ∈ seen
    · simp [h]
    · simp [h, beq_eq_decide]
  unfold unseen
  rw [split]
  apply List.length_filter_lt_length_iff_exists.mpr
  refine ⟨t, List.mem_filter.mpr ⟨mem, ?_⟩, ?_⟩
  · simpa using fresh
  · simp

/-- The members of a name, where a name that is being written out is not written out again. -/
def written (D : Declarations κ ℓ) (seen : List κ) (t : κ) : Tree κ ℓ :=
  match declared : D.members t with
  | none => .leaf t
  | some ms =>
      if already : seen.contains t = true then .leaf t
      else .node t (ms.map fun m => (m.1, written D (seen ++ [t]) m.2))
termination_by unseen D.names seen
decreasing_by exact unseen_lt (D.named declared) already

variable {D E : Declarations κ ℓ} {seen : List κ} {t : κ} {ms : List (ℓ × κ)}

theorem written_undeclared (h : D.members t = none) : written D seen t = .leaf t := by
  rw [written]
  split
  · rfl
  · rename_i found
    rw [h] at found
    cases found

theorem written_seen (h : t ∈ seen) : written D seen t = .leaf t := by
  rw [written]
  split
  · rfl
  · rw [dif_pos (by simpa using h)]

theorem written_declared (h : D.members t = some ms) (fresh : t ∉ seen) :
    written D seen t = .node t (ms.map fun m => (m.1, written D (seen ++ [t]) m.2)) := by
  rw [written]
  split
  · rename_i found
    rw [h] at found
    cases found
  · rename_i found
    cases h.symm.trans found
    rw [dif_neg (by simpa using fresh)]

theorem root_written : (written D seen t).root = t := by
  by_cases h : t ∈ seen
  · rw [written_seen h, Tree.root]
  cases declared : D.members t with
  | none => rw [written_undeclared declared, Tree.root]
  | some ms => rw [written_declared declared h, Tree.root]

end

theorem root_unfold (members : κ → Option (List (ℓ × κ))) (n : Nat) (t : κ) :
    (unfold members n t).root = t := by
  cases n with
  | zero => rfl
  | succ n =>
    rw [unfold]
    split
    · rfl
    · rfl

/-- Lists that agree under every one of these functions agree under each function that tells
apart no more than they do. -/
theorem map_eq_of_map_eq {ι α β γ δ : Type} [Nonempty ι] {f : ι → α → γ} {g : ι → β → γ}
    {f' : α → δ} {g' : β → δ} {xs : List α} {ys : List β}
    (finer : ∀ x ∈ xs, ∀ y, (∀ n, f n x = g n y) → f' x = g' y)
    (same : ∀ n, xs.map (f n) = ys.map (g n)) : xs.map f' = ys.map g' := by
  induction xs generalizing ys with
  | nil =>
    have empty := same (Classical.arbitrary ι)
    cases ys with
    | nil => rfl
    | cons y ys => cases empty
  | cons x xs ih =>
    cases ys with
    | nil => cases same (Classical.arbitrary ι)
    | cons y ys =>
      have heads : ∀ n, f n x = g n y := fun n => (List.cons.inj (same n)).1
      have tails : ∀ n, xs.map (f n) = ys.map (g n) := fun n => (List.cons.inj (same n)).2
      rw [List.map_cons, List.map_cons, finer x List.mem_cons_self y heads,
        ih (fun x mem => finer x (List.mem_cons_of_mem _ mem)) tails]

section

variable [DecidableEq κ] {D E : Declarations κ ℓ} {seen : List κ} {t u : κ}

/-- Each name was written out the same in both before it was seen. -/
inductive Agreed (D E : Declarations κ ℓ) : List κ → Prop
  | nil : Agreed D E []
  | snoc {seen : List κ} {t : κ} {ms : List (ℓ × κ)} (earlier : Agreed D E seen)
      (fresh : t ∉ seen) (declared : D.members t = some ms)
      (same : written D seen t = written E seen t) : Agreed D E (seen ++ [t])

theorem Agreed.origin (h : Agreed D E seen) (mem : t ∈ seen) :
    ∃ before ms, Agreed D E before ∧ t ∉ before ∧ D.members t = some ms ∧
      written D before t = written E before t := by
  induction h with
  | nil => cases mem
  | snoc earlier fresh declared same ih =>
    rcases List.mem_append.mp mem with mem | mem
    · exact ih mem
    · cases List.mem_singleton.mp mem
      exact ⟨_, _, earlier, fresh, declared, same⟩

/-- A name written out the same in both is undeclared in both, or has the same members. -/
theorem written_eq_cases (fresh : t ∉ seen) (same : written D seen t = written E seen t) :
    (D.members t = none ∧ E.members t = none) ∨
      ∃ ms ns, D.members t = some ms ∧ E.members t = some ns ∧
        (ms.map fun m => (m.1, written D (seen ++ [t]) m.2)) =
          ns.map fun m => (m.1, written E (seen ++ [t]) m.2) := by
  cases inD : D.members t with
  | none =>
    cases inE : E.members t with
    | none => exact Or.inl ⟨rfl, rfl⟩
    | some ns =>
      rw [written_undeclared inD, written_declared inE fresh] at same
      cases same
  | some ms =>
    cases inE : E.members t with
    | none =>
      rw [written_declared inD fresh, written_undeclared inE] at same
      cases same
    | some ns =>
      rw [written_declared inD fresh, written_declared inE fresh] at same
      exact Or.inr ⟨ms, ns, rfl, rfl, (Tree.node.inj same).2⟩

/-- What is cut off was written out the same where it was not. -/
theorem Agreed.unfold_eq (n : Nat) (agreed : Agreed D E seen)
    (same : written D seen t = written E seen u) :
    unfold D.members n t = unfold E.members n u := by
  induction n generalizing seen t u with
  | zero =>
    have roots := congrArg Tree.root same
    rw [root_written, root_written] at roots
    rw [roots, unfold, unfold]
  | succ n ih =>
    have roots := congrArg Tree.root same
    rw [root_written, root_written] at roots
    subst roots
    have here : ∀ seen, Agreed D E seen → t ∉ seen → written D seen t = written E seen t →
        unfold D.members (n + 1) t = unfold E.members (n + 1) t := by
      intro seen agreed fresh same
      rcases written_eq_cases fresh same with ⟨inD, inE⟩ | ⟨ms, ns, inD, inE, children⟩
      · rw [unfold, unfold, inD, inE]
      · have deeper := agreed.snoc fresh inD same
        have members : (ms.map fun m => (m.1, unfold D.members n m.2)) =
            ns.map fun m => (m.1, unfold E.members n m.2) := by
          refine map_eq_of_map_eq ?_ fun _ : Unit => children
          intro m _ m' equal
          have parts := Prod.mk.inj (equal ())
          rw [parts.1, ih deeper parts.2]
        rw [unfold, unfold, inD, inE]
        exact congrArg (Tree.node t) members
    by_cases mem : t ∈ seen
    · obtain ⟨before, ms, earlier, fresh, -, equal⟩ := agreed.origin mem
      exact here before earlier fresh equal
    · exact here seen agreed mem same

/-- Names with the same members at every depth are written out the same. -/
theorem written_eq (same : ∀ n, unfold D.members n t = unfold E.members n u) :
    written D seen t = written E seen u := by
  induction size : unseen D.names seen using Nat.strong_induction_on generalizing seen t u with
  | _ left ih =>
    have roots := congrArg Tree.root (same 0)
    rw [root_unfold, root_unfold] at roots
    subst roots
    by_cases mem : t ∈ seen
    · rw [written_seen mem, written_seen mem]
    have one := same 1
    cases inD : D.members t with
    | none =>
      cases inE : E.members t with
      | none => rw [written_undeclared inD, written_undeclared inE]
      | some ns =>
        rw [unfold, unfold, inD, inE] at one
        cases one
    | some ms =>
      cases inE : E.members t with
      | none =>
        rw [unfold, unfold, inD, inE] at one
        cases one
      | some ns =>
        rw [written_declared inD mem, written_declared inE mem]
        apply congrArg (Tree.node t)
        have smaller : unseen D.names (seen ++ [t]) < left := by
          rw [← size]
          exact unseen_lt (D.named inD) (by simpa using mem)
        have children : ∀ n, (ms.map fun m => (m.1, unfold D.members n m.2)) =
            ns.map fun m => (m.1, unfold E.members n m.2) := by
          intro n
          have deeper := same (n + 1)
          rw [unfold, unfold, inD, inE] at deeper
          exact (Tree.node.inj deeper).2
        refine map_eq_of_map_eq ?_ children
        intro m _ m' equal
        have labels := (Prod.mk.inj (equal 0)).1
        have trees : ∀ n, unfold D.members n m.2 = unfold E.members n m'.2 := fun n =>
          (Prod.mk.inj (equal n)).2
        rw [labels, ih _ smaller trees rfl]

/-- Cutting off the names that are being written out loses nothing. -/
theorem written_eq_iff :
    written D [] t = written E [] u ↔
      ∀ n, unfold D.members n t = unfold E.members n u :=
  ⟨fun same n => Agreed.nil.unfold_eq n same, written_eq⟩

end

end

end Unfolding
