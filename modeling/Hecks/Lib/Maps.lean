import Mathlib

/-! Maps with ordered keys as sorted lists, and what is kept of an unordered one. -/

namespace Maps

section Ordered

variable {κ ν : Type} [LinearOrder κ]

/-- `BTreeMap::insert`: the keys stay in order, and a key that is there gets the new value. -/
def insert (key : κ) (value : ν) : List (κ × ν) → List (κ × ν)
  | [] => [(key, value)]
  | (k, v) :: rest =>
      if key < k then (key, value) :: (k, v) :: rest
      else if key = k then (key, value) :: rest
      else (k, v) :: insert key value rest

/-- `BTreeMap::remove`. -/
def remove (key : κ) (entries : List (κ × ν)) : List (κ × ν) := entries.filter fun e => e.1 ≠ key

/-- The keys are in order. -/
def Sorted (entries : List (κ × ν)) : Prop := entries.Pairwise fun a b => a.1 < b.1

/-- A key above every other one goes to the end. -/
theorem insert_above {key : κ} {value : ν} {entries : List (κ × ν)}
    (above : ∀ e ∈ entries, e.1 < key) : insert key value entries = entries ++ [(key, value)] := by
  induction entries with
  | nil => rfl
  | cons e rest ih =>
    have below : e.1 < key := above e List.mem_cons_self
    have later : ∀ d ∈ rest, d.1 < key := fun d mem => above d (List.mem_cons_of_mem e mem)
    rw [insert, if_neg (lt_asymm below), if_neg (ne_of_gt below), ih later, List.cons_append]

theorem mem_remove {key : κ} {e : κ × ν} {entries : List (κ × ν)} :
    e ∈ remove key entries ↔ e ∈ entries ∧ e.1 ≠ key := by
  simp [remove]

theorem Sorted.remove {entries : List (κ × ν)} (sorted : Sorted entries) (key : κ) :
    Sorted (remove key entries) :=
  List.Pairwise.filter _ sorted

theorem Sorted.snoc {entries : List (κ × ν)} (sorted : Sorted entries) {key : κ} {value : ν}
    (above : ∀ e ∈ entries, e.1 < key) : Sorted (entries ++ [(key, value)]) := by
  refine List.pairwise_append.mpr ⟨sorted, List.pairwise_singleton _ _, ?_⟩
  intro a mem b last
  rw [List.mem_singleton.mp last]
  exact above a mem

theorem Sorted.nodup {entries : List (κ × ν)} (sorted : Sorted entries) :
    (entries.map Prod.fst).Nodup := by
  rw [List.Nodup, List.pairwise_map]
  exact List.Pairwise.imp (fun less => ne_of_lt less) sorted

end Ordered

section Unordered

variable {κ ν : Type}

/-- `HashMap::retain`. -/
def retain (keep : κ → ν → Bool) (entries : AList fun _ : κ => ν) : AList fun _ : κ => ν :=
  ⟨entries.entries.filter fun e => keep e.1 e.2,
    entries.nodupKeys.sublist List.filter_sublist⟩

theorem lookup_retain [DecidableEq κ] (keep : κ → ν → Bool) (entries : AList fun _ : κ => ν)
    (key : κ) (value : ν) :
    (retain keep entries).lookup key = some value ↔
      entries.lookup key = some value ∧ keep key value = true := by
  have held := AList.mem_lookup_iff (a := key) (b := value) (s := entries)
  have kept := AList.mem_lookup_iff (a := key) (b := value) (s := retain keep entries)
  rw [Option.mem_def] at held kept
  rw [held, kept, retain, List.mem_filter]

end Unordered

end Maps
