import Mathlib

/-! Moving values between the keys of a store: all at once, or one key after the other. -/
namespace Renaming

section

variable {K V : Type} [DecidableEq K]

/-- A store of values by key. -/
abbrev Store (K V : Type) := K → Option V

namespace Store

def delete (s : Store K V) (key : K) : Store K V := Function.update s key none

def put (s : Store K V) (key : K) (value : V) : Store K V := Function.update s key (some value)

@[simp] theorem delete_self (s : Store K V) (key : K) : s.delete key key = none := by
  simp [delete]

@[simp] theorem put_self (s : Store K V) (key : K) (value : V) :
    s.put key value key = some value := by
  simp [put]

theorem delete_of_ne {key other : K} (h : other ≠ key) (s : Store K V) :
    s.delete key other = s other := by
  simp [delete, h]

theorem put_of_ne {key other : K} (h : other ≠ key) (s : Store K V) (value : V) :
    s.put key value other = s other := by
  simp [put, h]

/-- Writing back what is there changes nothing. -/
theorem put_of_eq {s : Store K V} {key : K} {value : V} (h : s key = some value) :
    s.put key value = s := by
  unfold put
  rw [← h]
  exact Function.update_eq_self key s

theorem delete_of_none {s : Store K V} {key : K} (h : s key = none) : s.delete key = s := by
  unfold delete
  rw [← h]
  exact Function.update_eq_self key s

@[simp] theorem put_put (s : Store K V) (key : K) (first value : V) :
    (s.put key first).put key value = s.put key value := by
  simp [put]

theorem put_delete_comm {key other : K} (h : key ≠ other) (s : Store K V) (value : V) :
    (s.put key value).delete other = (s.delete other).put key value := by
  simp only [put, delete]
  rw [Function.update_comm h]

end Store

/-- The renames whose source is there, with the value each carries. -/
def carried (s : Store K V) (renames : List (K × K)) : List (K × K × V) :=
  renames.filterMap fun r => (s r.1).map fun value => (r.1, r.2, value)

def deleteAll (s : Store K V) (keys : List K) : Store K V := keys.foldl Store.delete s

def putAll (s : Store K V) (entries : List (K × V)) : Store K V :=
  entries.foldl (fun s e => s.put e.1 e.2) s

/-- Every value is taken out before the first is put back. -/
def simultaneous (s : Store K V) (renames : List (K × K)) : Store K V :=
  let carried := carried s renames
  putAll (deleteAll s (carried.map (·.1))) (carried.map fun c => (c.2.1, c.2.2))

def renameOne (s : Store K V) (r : K × K) : Store K V :=
  match s r.1 with
  | some value => (s.delete r.1).put r.2 value
  | none => s

/-- Each value is put back before the next is taken out. -/
def sequential (s : Store K V) (renames : List (K × K)) : Store K V := renames.foldl renameOne s

/-- No value is put where a later rename takes one out. -/
def NoHandOn (s : Store K V) (renames : List (K × K)) : Prop :=
  renames.Pairwise fun earlier later => (s earlier.1).isSome → earlier.2 ≠ later.1

theorem carried_congr {s t : Store K V} {renames : List (K × K)}
    (h : ∀ r ∈ renames, s r.1 = t r.1) : carried s renames = carried t renames := by
  unfold carried
  apply List.filterMap_congr
  intro r hr
  rw [h r hr]

theorem carried_subset {s : Store K V} {renames : List (K × K)} {key : K}
    (h : key ∈ (carried s renames).map (·.1)) : ∃ r ∈ renames, r.1 = key := by
  obtain ⟨c, hc, rfl⟩ := List.mem_map.mp h
  obtain ⟨r, hr, hcarried⟩ := List.mem_filterMap.mp hc
  obtain ⟨value, -, rfl⟩ := Option.map_eq_some_iff.mp hcarried
  exact ⟨r, hr, rfl⟩

theorem deleteAll_put {key : K} (value : V) (keys : List K) (h : key ∉ keys) :
    ∀ s : Store K V, deleteAll (s.put key value) keys = (deleteAll s keys).put key value := by
  induction keys with
  | nil => exact fun _ => rfl
  | cons k keys ih =>
    intro s
    rw [List.mem_cons, not_or] at h
    simp only [deleteAll, List.foldl_cons]
    rw [Store.put_delete_comm h.1]
    exact ih h.2 (s.delete k)

/-- Where nothing is handed on, moving key after key is moving all at once. -/
theorem sequential_eq_simultaneous (renames : List (K × K)) :
    ∀ s : Store K V, (renames.map Prod.fst).Nodup → NoHandOn s renames →
      sequential s renames = simultaneous s renames := by
  induction renames with
  | nil => exact fun _ _ _ => rfl
  | cons r renames ih =>
    intro s distinct handed
    obtain ⟨source, target⟩ := r
    obtain ⟨fresh, distinct⟩ := List.nodup_cons.mp distinct
    obtain ⟨free, handed⟩ := List.pairwise_cons.mp handed
    cases hs : s source with
    | none =>
      have step : sequential s ((source, target) :: renames) = sequential s renames := by
        simp [sequential, renameOne, hs]
      have same : carried s ((source, target) :: renames) = carried s renames := by
        simp [carried, hs]
      rw [step, ih s distinct handed, simultaneous, simultaneous, same]
    | some value =>
      have step : sequential s ((source, target) :: renames) =
          sequential ((s.delete source).put target value) renames := by
        simp [sequential, renameOne, hs]
      -- no later source is touched by this rename
      have later : ∀ r ∈ renames, (s.delete source).put target value r.1 = s r.1 := by
        intro r hr
        have hsource : r.1 ≠ source := by
          intro h
          have listed : r.1 ∈ renames.map Prod.fst := List.mem_map_of_mem hr
          rw [h] at listed
          exact fresh listed
        have htarget : r.1 ≠ target := (free r hr (by simp [hs])).symm
        rw [Store.put_of_ne htarget, Store.delete_of_ne hsource]
      have handed' : NoHandOn ((s.delete source).put target value) renames := by
        apply List.Pairwise.imp_of_mem _ handed
        intro earlier _ hearlier _ h
        rwa [later earlier hearlier]
      have same : carried ((s.delete source).put target value) renames = carried s renames :=
        carried_congr later
      have untouched : target ∉ (carried s renames).map (·.1) := by
        intro h
        obtain ⟨r, hr, hkey⟩ := carried_subset h
        exact free r hr (by simp [hs]) hkey.symm
      have all : carried s ((source, target) :: renames) =
          (source, target, value) :: carried s renames := by
        simp [carried, hs]
      rw [step, ih _ distinct handed', simultaneous, simultaneous, same, all,
        deleteAll_put value _ untouched]
      rfl

end

end Renaming
