import Mathlib

/-! Grouping a list by keys. An element joins the first group whose key is the same as its own and
founds one where there is none. "The same" is any test, which need not be an equivalence; a key is
written as a text, and what the texts tell apart is compared with what the test does. -/
namespace Grouping

section

variable {α β κ : Type} (key : α → κ) (same : κ → κ → Bool)

/-- One more element, at the end of its group. -/
def join (x : α) : List (κ × List α) → List (κ × List α)
  | [] => [(key x, [x])]
  | (k, xs) :: groups =>
      if same k (key x) then (k, xs ++ [x]) :: groups else (k, xs) :: join x groups

/-- The groups in the order of their first elements. -/
def group (xs : List α) : List (κ × List α) := xs.foldl (fun groups x => join key same x groups) []

variable {key same} {x : α} {xs : List α} {groups : List (κ × List α)}

theorem group_snoc : group key same (xs ++ [x]) = join key same x (group key same xs) :=
  List.foldl_concat _ _ _ _

theorem join_perm :
    ((join key same x groups).flatMap (·.2)).Perm (groups.flatMap (·.2) ++ [x]) := by
  induction groups with
  | nil => exact List.Perm.refl _
  | cons g groups ih =>
    obtain ⟨k, ys⟩ := g
    rw [join]
    split
    · simp only [List.flatMap_cons, List.append_assoc]
      exact List.perm_append_comm.append_left ys
    · simp only [List.flatMap_cons, List.append_assoc]
      exact ih.append_left ys

/-- Every element is in one group. -/
theorem group_perm (xs : List α) : ((group key same xs).flatMap (·.2)).Perm xs := by
  induction xs using List.reverseRecOn with
  | nil => exact List.Perm.refl _
  | append_singleton xs x ih =>
    rw [group_snoc]
    exact join_perm.trans (ih.append_right [x])

theorem join_map (f : β → α) (y : β) (groups : List (κ × List β)) :
    join key same (f y) (groups.map fun g => (g.1, g.2.map f)) =
      (join (fun y => key (f y)) same y groups).map fun g => (g.1, g.2.map f) := by
  induction groups with
  | nil => rfl
  | cons first groups ih =>
    obtain ⟨k, ys⟩ := first
    rw [List.map_cons, join, join]
    split
    · simp
    · rw [ih, List.map_cons]

/-- Elements replaced keep the groups. -/
theorem group_map (f : β → α) (ys : List β) :
    group key same (ys.map f) =
      (group (fun y => key (f y)) same ys).map fun g => (g.1, g.2.map f) := by
  induction ys using List.reverseRecOn with
  | nil => rfl
  | append_singleton ys y ih =>
    rw [List.map_append, List.map_singleton, group_snoc, group_snoc, ih, join_map]

end

/-! ### What texts tell apart -/

section

variable {α κ τ : Type} [DecidableEq τ] (key : α → κ) (same : κ → κ → Bool) (text : κ → τ)

/-- The groups are told apart by their texts, and each element stands under its own. -/
structure Sorted (groups : List (κ × List α)) : Prop where
  apart : (groups.map fun g => text g.1).Nodup
  own : ∀ g ∈ groups, ∀ x ∈ g.2, text (key x) = text g.1

/-- The first element of each text. -/
def firsts : List α → List α
  | [] => []
  | x :: xs => x :: (firsts xs).filter fun y => text (key y) ≠ text (key x)

/-- The elements by their texts. -/
def classes (xs : List α) : List (κ × List α) :=
  (firsts key text xs).map fun r => (key r, xs.filter fun x => text (key x) = text (key r))

/-- Among the elements before it, the first of each text, every element finds by the test the one
of its own text, and none where there is none. -/
def Recognised (xs : List α) : Prop :=
  ∀ before x after, xs = before ++ x :: after →
    (firsts key text before).find? (fun r => same (key r) (key x)) =
      (firsts key text before).find? fun r => text (key r) = text (key x)

variable {key same text} {x : α} {xs rs : List α} {groups : List (κ × List α)}

theorem mem_of_mem_firsts (mem : x ∈ firsts key text xs) : x ∈ xs := by
  induction xs with
  | nil => exact mem
  | cons y xs ih =>
    rcases List.mem_cons.mp mem with rfl | mem
    · exact List.mem_cons_self
    · exact List.mem_cons_of_mem _ (ih (List.mem_of_mem_filter mem))

theorem firsts_nodup (xs : List α) :
    ((firsts key text xs).map fun r => text (key r)).Nodup := by
  induction xs with
  | nil => exact List.nodup_nil
  | cons x xs ih =>
    rw [firsts, List.map_cons, List.nodup_cons]
    constructor
    · intro mem
      obtain ⟨y, kept, equal⟩ := List.mem_map.mp mem
      have differs := List.of_mem_filter kept
      simp [equal] at differs
    · exact ih.sublist (List.filter_sublist.map _)

theorem exists_first (mem : x ∈ xs) : ∃ r ∈ firsts key text xs, text (key r) = text (key x) := by
  induction xs with
  | nil => cases mem
  | cons y xs ih =>
    by_cases equal : text (key y) = text (key x)
    · exact ⟨y, List.mem_cons_self, equal⟩
    · rcases List.mem_cons.mp mem with rfl | mem
      · exact absurd rfl equal
      · obtain ⟨r, first, own⟩ := ih mem
        refine ⟨r, List.mem_cons_of_mem _ (List.mem_filter.mpr ⟨first, ?_⟩), own⟩
        simpa [own] using Ne.symm equal

theorem firsts_snoc : firsts key text (xs ++ [x]) =
    if ∃ y ∈ xs, text (key y) = text (key x) then firsts key text xs
    else firsts key text xs ++ [x] := by
  induction xs with
  | nil => simp [firsts]
  | cons y xs ih =>
    rw [List.cons_append, firsts, ih, firsts]
    by_cases later : ∃ z ∈ xs, text (key z) = text (key x)
    · rw [if_pos later, if_pos]
      obtain ⟨z, mem, own⟩ := later
      exact ⟨z, List.mem_cons_of_mem _ mem, own⟩
    · rw [if_neg later, List.filter_append]
      by_cases here : text (key y) = text (key x)
      · rw [if_pos ⟨y, List.mem_cons_self, here⟩]
        simp [here]
      · rw [if_neg]
        · simp [Ne.symm here]
        · rintro ⟨z, mem, own⟩
          rcases List.mem_cons.mp mem with rfl | mem
          · exact here own
          · exact later ⟨z, mem, own⟩

theorem classes_sorted (xs : List α) : Sorted key text (classes key text xs) := by
  constructor
  · have texts : ((firsts key text xs).map fun r => text (key r)).Nodup := firsts_nodup xs
    simpa [classes, Function.comp_def] using texts
  · intro g mem x inside
    obtain ⟨r, -, rfl⟩ := List.mem_map.mp mem
    simpa using List.of_mem_filter inside

/-- An element that finds by the test what it finds by its text joins the group of its text. -/
theorem join_of_find {held : α → List α} (apart : (rs.map fun r => text (key r)).Nodup)
    (found : rs.find? (fun r => same (key r) (key x)) =
      rs.find? fun r => text (key r) = text (key x)) :
    join key same x (rs.map fun r => (key r, held r)) =
      if ∃ r ∈ rs, text (key r) = text (key x) then
        rs.map fun r => (key r, held r ++ if text (key r) = text (key x) then [x] else [])
      else (rs.map fun r => (key r, held r)) ++ [(key x, [x])] := by
  induction rs with
  | nil => simp [join]
  | cons r rs ih =>
    obtain ⟨fresh, apart⟩ := List.nodup_cons.mp apart
    have others : ∀ q ∈ rs, text (key q) ≠ text (key r) := fun q mem equal =>
      fresh (List.mem_map.mpr ⟨q, mem, equal⟩)
    rw [List.map_cons, join]
    by_cases match_ : same (key r) (key x) = true
    · -- the first that the test finds is the first by text
      rw [List.find?_cons_of_pos (p := fun r => same (key r) (key x)) match_] at found
      have own : text (key r) = text (key x) := by
        simpa using List.find?_some found.symm
      rw [if_pos match_, if_pos ⟨r, List.mem_cons_self, own⟩, List.map_cons, if_pos own]
      congr 1
      apply List.map_congr_left
      intro q mem
      rw [if_neg (own ▸ others q mem), List.append_nil]
    · rw [List.find?_cons_of_neg (p := fun r => same (key r) (key x)) match_] at found
      have differs : text (key r) ≠ text (key x) := by
        intro own
        rw [List.find?_cons_of_pos (by simpa using own)] at found
        exact others r (List.mem_of_find?_eq_some found) rfl
      rw [List.find?_cons_of_neg (by simpa using differs)] at found
      rw [if_neg match_, ih apart found]
      by_cases some : ∃ q ∈ rs, text (key q) = text (key x)
      · obtain ⟨q, mem, own⟩ := some
        rw [if_pos ⟨q, mem, own⟩, if_pos ⟨q, List.mem_cons_of_mem _ mem, own⟩, List.map_cons,
          if_neg differs, List.append_nil]
      · rw [if_neg some, if_neg]
        · rfl
        · rintro ⟨q, mem, own⟩
          rcases List.mem_cons.mp mem with rfl | mem
          · exact differs own
          · exact some ⟨q, mem, own⟩

theorem classes_snoc : classes key text (xs ++ [x]) =
    if ∃ r ∈ firsts key text xs, text (key r) = text (key x) then
      (firsts key text xs).map fun r => (key r,
        (xs.filter fun y => text (key y) = text (key r)) ++
          if text (key r) = text (key x) then [x] else [])
    else classes key text xs ++ [(key x, [x])] := by
  have same : (∃ r ∈ firsts key text xs, text (key r) = text (key x)) ↔
      ∃ y ∈ xs, text (key y) = text (key x) := by
    constructor
    · rintro ⟨r, mem, own⟩
      exact ⟨r, mem_of_mem_firsts mem, own⟩
    · rintro ⟨y, mem, own⟩
      obtain ⟨r, first, equal⟩ : ∃ r ∈ firsts key text xs, text (key r) = text (key y) :=
        exists_first mem
      exact ⟨r, first, equal.trans own⟩
  have singleton : ∀ r, ([x].filter fun y => text (key y) = text (key r)) =
      if text (key r) = text (key x) then [x] else [] := by
    intro r
    by_cases own : text (key r) = text (key x)
    · simp [own]
    · simp [own, Ne.symm own]
  unfold classes
  rw [firsts_snoc]
  by_cases some : ∃ y ∈ xs, text (key y) = text (key x)
  · rw [if_pos some, if_pos (same.mpr some)]
    apply List.map_congr_left
    intro r _
    rw [List.filter_append, singleton]
  · rw [if_neg some, if_neg (fun first => some (same.mp first)), List.map_append,
      List.map_singleton]
    have none : ∀ y ∈ xs, ¬ text (key y) = text (key x) := fun y mem own => some ⟨y, mem, own⟩
    congr 1
    · apply List.map_congr_left
      intro r mem
      rw [List.filter_append, singleton, if_neg (none r (mem_of_mem_firsts mem)), List.append_nil]
    · rw [List.filter_append, List.filter_eq_nil_iff.mpr (by simpa using none)]
      simp

/-- Where elements are recognised, the groups are the classes of their texts. -/
theorem group_eq_classes (recognised : Recognised key same text xs) :
    group key same xs = classes key text xs := by
  induction xs using List.reverseRecOn with
  | nil => rfl
  | append_singleton xs x ih =>
    have before : Recognised key same text xs := by
      intro front y back split
      exact recognised front y (back ++ [x]) (by rw [split]; simp)
    rw [group_snoc, ih before, classes_snoc]
    exact join_of_find (firsts_nodup xs) (recognised xs x [] rfl)

/-! ### Sorted groups are recognised -/

theorem Sorted.tail {g : κ × List α} (sorted : Sorted key text (g :: groups)) :
    Sorted key text groups where
  apart := (List.nodup_cons.mp sorted.apart).2
  own other mem := sorted.own other (List.mem_cons_of_mem _ mem)

/-- The keys stay, with the element's own behind them where it founds a group. -/
theorem join_keys : (join key same x groups).map (·.1) = groups.map (·.1) ∨
    (join key same x groups).map (·.1) = groups.map (·.1) ++ [key x] := by
  induction groups with
  | nil => exact .inr rfl
  | cons g groups ih =>
    obtain ⟨k, ys⟩ := g
    rw [join]
    split
    · exact .inl rfl
    · rcases ih with kept | longer
      · exact .inl (by rw [List.map_cons, kept, List.map_cons])
      · exact .inr (by rw [List.map_cons, longer, List.map_cons, List.cons_append])

theorem exists_joined {g : κ × List α} (mem : g ∈ groups) :
    ∃ h ∈ join key same x groups, h.1 = g.1 ∧ ∀ y ∈ g.2, y ∈ h.2 := by
  induction groups with
  | nil => cases mem
  | cons first groups ih =>
    obtain ⟨k, ys⟩ := first
    rw [join]
    split
    · rcases List.mem_cons.mp mem with rfl | mem
      · exact ⟨_, List.mem_cons_self, rfl, fun y inside => List.mem_append_left _ inside⟩
      · exact ⟨g, List.mem_cons_of_mem _ mem, rfl, fun y inside => inside⟩
    · rcases List.mem_cons.mp mem with rfl | mem
      · exact ⟨_, List.mem_cons_self, rfl, fun y inside => inside⟩
      · obtain ⟨h, joined, kept⟩ := ih mem
        exact ⟨h, List.mem_cons_of_mem _ joined, kept⟩

theorem sorted_of_join (sorted : Sorted key text (join key same x groups)) :
    Sorted key text groups := by
  constructor
  · have texts : ∀ gs : List (κ × List α), gs.map (fun g => text g.1) = (gs.map (·.1)).map text :=
      fun gs => by simp
    have apart := sorted.apart
    rw [texts] at apart ⊢
    have keys : (join key same x groups).map (·.1) = groups.map (·.1) ∨
        (join key same x groups).map (·.1) = groups.map (·.1) ++ [key x] := join_keys
    rcases keys with kept | longer
    · rwa [kept] at apart
    · rw [longer, List.map_append] at apart
      exact (List.nodup_append.mp apart).1
  · intro g mem y inside
    obtain ⟨h, joined, equal, more⟩ : ∃ h ∈ join key same x groups, h.1 = g.1 ∧
        ∀ y ∈ g.2, y ∈ h.2 := exists_joined mem
    rw [← equal]
    exact sorted.own h joined y (more y inside)

/-- The element stands under its own text. -/
theorem own_of_join (sorted : Sorted key text (join key same x groups)) :
    ∃ g ∈ join key same x groups, text g.1 = text (key x) := by
  have inside : x ∈ (join key same x groups).flatMap (·.2) :=
    join_perm.mem_iff.mpr (List.mem_append_right _ (List.mem_singleton_self x))
  obtain ⟨g, mem, held⟩ := List.mem_flatMap.mp inside
  exact ⟨g, mem, (sorted.own g mem x held).symm⟩

/-- Where an element joins and the groups stay sorted, it finds by the test what it finds by its
text. -/
theorem find_of_sorted {held : α → List α}
    (sorted : Sorted key text (join key same x (rs.map fun r => (key r, held r)))) :
    rs.find? (fun r => same (key r) (key x)) =
      rs.find? fun r => text (key r) = text (key x) := by
  induction rs with
  | nil => rfl
  | cons r rs ih =>
    rw [List.map_cons, join] at sorted
    by_cases match_ : same (key r) (key x) = true
    · rw [if_pos match_] at sorted
      have own : text (key x) = text (key r) := sorted.own _ List.mem_cons_self x (by simp)
      rw [List.find?_cons_of_pos (p := fun r => same (key r) (key x)) match_,
        List.find?_cons_of_pos (by simp [own])]
    · rw [if_neg match_] at sorted
      have differs : text (key r) ≠ text (key x) := by
        intro own
        obtain ⟨g, mem, equal⟩ := own_of_join sorted.tail
        apply (List.nodup_cons.mp sorted.apart).1
        exact List.mem_map.mpr ⟨g, mem, equal.trans own.symm⟩
      rw [List.find?_cons_of_neg (p := fun r => same (key r) (key x)) match_,
        List.find?_cons_of_neg (by simpa using differs)]
      exact ih sorted.tail

theorem recognised_of_sorted (sorted : Sorted key text (group key same xs)) :
    Recognised key same text xs := by
  induction xs using List.reverseRecOn with
  | nil =>
    intro before x after split
    simp at split
  | append_singleton xs x ih =>
    rw [group_snoc] at sorted
    have before := ih (sorted_of_join sorted)
    rw [group_eq_classes before] at sorted
    intro front y back split
    rcases List.eq_nil_or_concat back with rfl | ⟨back, last, rfl⟩
    · obtain ⟨rfl, same⟩ := List.append_inj' split rfl
      cases same
      exact find_of_sorted sorted
    · have split' : xs ++ [x] = (front ++ y :: back) ++ [last] := by
        rw [split]
        simp
      obtain ⟨rfl, -⟩ := List.append_inj' split' rfl
      exact before front y back rfl

/-- The groups are sorted by their texts exactly where every element is recognised. -/
theorem group_sorted_iff : Sorted key text (group key same xs) ↔ Recognised key same text xs := by
  constructor
  · exact recognised_of_sorted
  · intro recognised
    rw [group_eq_classes recognised]
    exact classes_sorted xs

end

end Grouping
