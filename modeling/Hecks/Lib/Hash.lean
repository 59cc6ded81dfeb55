import Mathlib

/-! A hash that keeps its keys in the order they were first set, each one once. -/

structure Hash (K V : Type) where
  entries : List (K × V)
  distinct : (entries.map Prod.fst).Nodup

namespace Hash

section

variable {K V : Type} [DecidableEq K]

def empty : Hash K V := ⟨[], List.nodup_nil⟩

def get (h : Hash K V) (key : K) : Option V := (h.entries.find? fun e => e.1 = key).map (·.2)

def delete (h : Hash K V) (key : K) : Hash K V where
  entries := h.entries.filter fun e => e.1 ≠ key
  distinct := h.distinct.sublist (List.filter_sublist.map Prod.fst)

/-- A key that is there keeps its place. -/
def put (key : K) (value : V) : List (K × V) → List (K × V)
  | [] => [(key, value)]
  | e :: es => if e.1 = key then (key, value) :: es else e :: put key value es

theorem mem_keys_put {key k : K} {value : V} (es : List (K × V)) :
    k ∈ (put key value es).map Prod.fst ↔ k = key ∨ k ∈ es.map Prod.fst := by
  induction es with
  | nil => simp [put]
  | cons e es ih =>
    rw [put]
    split
    · rename_i same
      subst same
      simp
    · simp only [List.map_cons, List.mem_cons, ih]
      tauto

theorem nodup_keys_put (key : K) (value : V) {es : List (K × V)} (h : (es.map Prod.fst).Nodup) :
    ((put key value es).map Prod.fst).Nodup := by
  induction es with
  | nil => exact List.nodup_singleton key
  | cons e es ih =>
    obtain ⟨fresh, rest⟩ := List.nodup_cons.mp h
    rw [put]
    split
    · rename_i same
      rw [← same]
      exact h
    · rename_i other
      rw [List.map_cons, List.nodup_cons, mem_keys_put]
      exact ⟨not_or.mpr ⟨other, fresh⟩, ih rest⟩

def set (h : Hash K V) (key : K) (value : V) : Hash K V where
  entries := put key value h.entries
  distinct := nodup_keys_put key value h.distinct

@[simp] theorem get_empty (key : K) : (empty : Hash K V).get key = none := rfl

theorem find?_put (key k : K) (value : V) (es : List (K × V)) :
    (put key value es).find? (fun e => e.1 = k) =
      if key = k then some (key, value) else es.find? fun e => e.1 = k := by
  induction es with
  | nil => by_cases found : key = k <;> simp [put, found]
  | cons e es ih =>
    rw [put]
    by_cases same : e.1 = key
    · rw [if_pos same, List.find?_cons, List.find?_cons, same]
      by_cases found : key = k <;> simp [found]
    · rw [if_neg same, List.find?_cons, List.find?_cons, ih]
      by_cases found : key = k
      · subst found
        simp [same]
      · simp [found]

@[simp] theorem get_set_self (h : Hash K V) (key : K) (value : V) :
    (h.set key value).get key = some value := by
  simp [get, set, find?_put]

theorem get_set_of_ne {key k : K} (ne : k ≠ key) (h : Hash K V) (value : V) :
    (h.set key value).get k = h.get k := by
  simp [get, set, find?_put, Ne.symm ne]

@[simp] theorem get_delete_self (h : Hash K V) (key : K) : (h.delete key).get key = none := by
  simp [get, delete, List.find?_eq_none]

theorem get_delete_of_ne {key k : K} (ne : k ≠ key) (h : Hash K V) :
    (h.delete key).get k = h.get k := by
  unfold get delete
  rw [List.find?_filter]
  congr 2
  funext e
  by_cases same : e.1 = k
  · simp [same, ne]
  · simp [same]

theorem mem_iff_find? {key : K} {value : V} {es : List (K × V)} (h : (es.map Prod.fst).Nodup) :
    (key, value) ∈ es ↔ (es.find? fun e => e.1 = key).map (·.2) = some value := by
  induction es with
  | nil => simp
  | cons e es ih =>
    obtain ⟨fresh, rest⟩ := List.nodup_cons.mp h
    rw [List.mem_cons, List.find?_cons]
    by_cases same : e.1 = key
    · simp only [same, decide_true, Option.map_some, Option.some_inj]
      constructor
      · rintro (rfl | found)
        · rfl
        · rw [same] at fresh
          exact absurd (List.mem_map_of_mem found) fresh
      · rintro rfl
        exact .inl (Prod.ext same.symm rfl)
    · simp only [same, decide_false]
      rw [← ih rest]
      constructor
      · rintro (rfl | found)
        · exact absurd rfl same
        · exact found
      · exact .inr

theorem put_fresh {key : K} {es : List (K × V)} (fresh : key ∉ es.map Prod.fst) (value : V) :
    put key value es = es ++ [(key, value)] := by
  induction es with
  | nil => rfl
  | cons e es ih =>
    rw [List.map_cons, List.mem_cons, not_or] at fresh
    rw [put, if_neg (Ne.symm fresh.1), ih fresh.2, List.cons_append]

/-- Sets one key after another. -/
def setAll (h : Hash K V) (pairs : List (K × V)) : Hash K V :=
  pairs.foldl (fun h p => h.set p.1 p.2) h

theorem entries_setAll_append (h : Hash K V) {pairs : List (K × V)}
    (once : ((h.entries ++ pairs).map Prod.fst).Nodup) :
    (h.setAll pairs).entries = h.entries ++ pairs := by
  induction pairs generalizing h with
  | nil => exact (List.append_nil _).symm
  | cons p pairs ih =>
    have shifted : h.entries ++ p :: pairs = h.entries ++ [p] ++ pairs := by
      rw [List.append_assoc, List.singleton_append]
    have fresh : p.1 ∉ h.entries.map Prod.fst := by
      rw [List.map_append, List.map_cons] at once
      exact fun there => List.disjoint_of_nodup_append once there List.mem_cons_self
    have here : (h.set p.1 p.2).entries = h.entries ++ [p] := put_fresh fresh p.2
    rw [shifted, ← here] at once
    rw [shifted, ← here]
    exact ih (h.set p.1 p.2) once

/-- Keys that come once are kept as they come. -/
theorem entries_setAll {pairs : List (K × V)} (once : (pairs.map Prod.fst).Nodup) :
    ((empty : Hash K V).setAll pairs).entries = pairs :=
  entries_setAll_append empty once

theorem mem_put {key : K} {value : V} {e : K × V} {es : List (K × V)}
    (h : e ∈ put key value es) : e = (key, value) ∨ e ∈ es := by
  induction es with
  | nil => exact Or.inl (List.mem_singleton.mp h)
  | cons d es ih =>
    rw [put] at h
    split at h
    · cases List.mem_cons.mp h with
      | inl here => exact Or.inl here
      | inr later => exact Or.inr (List.mem_cons_of_mem _ later)
    · cases List.mem_cons.mp h with
      | inl here => exact Or.inr (here ▸ List.mem_cons_self)
      | inr later => exact (ih later).imp_right (List.mem_cons_of_mem _)

/-- What was set is there, or what was there before. -/
theorem mem_entries_setAll {h : Hash K V} {pairs : List (K × V)} {e : K × V}
    (mem : e ∈ (h.setAll pairs).entries) : e ∈ h.entries ∨ e ∈ pairs := by
  induction pairs generalizing h with
  | nil => exact Or.inl mem
  | cons p pairs ih =>
    cases ih mem with
    | inl early =>
      cases mem_put early with
      | inl here => exact Or.inr (here ▸ List.mem_cons_self)
      | inr before => exact Or.inl before
    | inr later => exact Or.inr (List.mem_cons_of_mem _ later)

theorem length_put_le (key : K) (value : V) (es : List (K × V)) :
    (put key value es).length ≤ es.length + 1 := by
  induction es with
  | nil => exact Nat.le_refl 1
  | cons e es ih =>
    rw [put]
    split
    · exact Nat.le_succ _
    · rw [List.length_cons, List.length_cons]
      omega

theorem length_put_of_mem {key : K} {es : List (K × V)} (there : key ∈ es.map Prod.fst)
    (value : V) : (put key value es).length = es.length := by
  induction es with
  | nil => cases there
  | cons e es ih =>
    rw [put]
    split
    · rfl
    · rename_i other
      have later := (List.mem_cons.mp there).resolve_left (Ne.symm other)
      rw [List.length_cons, List.length_cons, ih later]

theorem length_setAll_le (h : Hash K V) (pairs : List (K × V)) :
    (h.setAll pairs).entries.length ≤ h.entries.length + pairs.length := by
  induction pairs generalizing h with
  | nil => exact Nat.le_refl _
  | cons p pairs ih =>
    have rest := ih (h.set p.1 p.2)
    have one : (h.set p.1 p.2).entries.length ≤ h.entries.length + 1 := length_put_le _ _ _
    rw [List.length_cons]
    exact le_trans rest (by omega)

/-- As many entries as were set: no key came twice. -/
theorem nodup_of_length_setAll {h : Hash K V} {pairs : List (K × V)}
    (all : (h.setAll pairs).entries.length = h.entries.length + pairs.length) :
    ((h.entries ++ pairs).map Prod.fst).Nodup := by
  induction pairs generalizing h with
  | nil =>
    rw [List.append_nil]
    exact h.distinct
  | cons p pairs ih =>
    have rest := length_setAll_le (h.set p.1 p.2) pairs
    have whole : ((h.set p.1 p.2).setAll pairs).entries.length =
        h.entries.length + (pairs.length + 1) := all
    have fresh : p.1 ∉ h.entries.map Prod.fst := by
      intro there
      have kept : (h.set p.1 p.2).entries.length = h.entries.length :=
        length_put_of_mem there p.2
      omega
    have here : (h.set p.1 p.2).entries = h.entries ++ [p] := put_fresh fresh p.2
    have longer : (h.set p.1 p.2).entries.length = h.entries.length + 1 := by
      rw [here, List.length_append, List.length_singleton]
    have tail := ih (h := h.set p.1 p.2) (by omega)
    rw [here, List.append_assoc, List.singleton_append] at tail
    exact tail

/-- The entries are the answers. -/
theorem mem_entries {h : Hash K V} {key : K} {value : V} :
    (key, value) ∈ h.entries ↔ h.get key = some value :=
  mem_iff_find? h.distinct

end

end Hash
