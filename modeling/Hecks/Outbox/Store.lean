import Mathlib

/-! The transactional outbox as a store: rows that move from pending through claimed to settled, each
call of the store in one piece. -/
namespace Hecks.Outbox

inductive Status where
  | pending
  | claimed
  | delivered
  | failed
  | refused
  deriving DecidableEq

structure Row where
  deliveryId : String
  status : Status
  attempts : Nat
  error : Option String

def Row.pending (row : Row) : Bool := row.status = .pending

/-- An id is the row's place, counted from one; rows are never removed. -/
def outboxRow (rows : List Row) (id : Nat) : Option Row :=
  if id = 0 then none else rows[id - 1]?

def put (rows : List Row) (id : Nat) (row : Row) : List Row := rows.set (id - 1) row

/-- The rows, and the ids of those accepted: a delivery id that is held already is skipped. -/
def outboxEnqueue (rows : List Row) : List String → List Row × List Nat
  | [] => (rows, [])
  | deliveryId :: rest =>
      if rows.any fun row => row.deliveryId == deliveryId then outboxEnqueue rows rest
      else
        let held := outboxEnqueue (rows ++ [⟨deliveryId, .pending, 0, none⟩]) rest
        (held.1, (rows.length + 1) :: held.2)

/-- Claims a pending row and counts the attempt. -/
def outboxClaim (rows : List Row) (id : Nat) : Option (List Row) :=
  match outboxRow rows id with
  | none => none
  | some row =>
      if row.pending then
        some (put rows id { row with status := .claimed, attempts := row.attempts + 1 })
      else none

/-- Whatever status the row held. -/
def outboxSettle (rows : List Row) (id : Nat) (status : Status) (error : Option String) :
    List Row :=
  match outboxRow rows id with
  | none => rows
  | some row => put rows id { row with status := status, error := error }

/-- The rows of this status with their ids, in the order they were enqueued. -/
def outboxRows (rows : List Row) (status : Status) : List (Nat × Row) :=
  ((rows.zipIdx 1).map fun held => (held.2, held.1)).filter fun held => held.2.status = status

section

variable {rows rows' : List Row} {row : Row} {id other : Nat}

theorem outboxRow_pos (h : outboxRow rows id = some row) : id ≠ 0 := by
  rintro rfl
  cases h

theorem outboxRow_put (h : outboxRow rows id = some row) (new : Row) :
    outboxRow (put rows id new) id = some new := by
  have pos := outboxRow_pos h
  rw [outboxRow, if_neg pos] at h
  have small : id - 1 < rows.length := (List.getElem?_eq_some_iff.mp h).1
  rw [outboxRow, if_neg pos, put, List.getElem?_set_self small]

theorem outboxRow_put_other (pos : id ≠ 0) (ne : other ≠ id) (new : Row) :
    outboxRow (put rows id new) other = outboxRow rows other := by
  by_cases zero : other = 0
  · rw [outboxRow, outboxRow, if_pos zero, if_pos zero]
  · rw [outboxRow, outboxRow, if_neg zero, if_neg zero, put, List.getElem?_set_ne (by omega)]

theorem outboxClaim_some (h : outboxClaim rows id = some rows') :
    ∃ row, outboxRow rows id = some row ∧ row.status = .pending ∧
      rows' = put rows id { row with status := .claimed, attempts := row.attempts + 1 } := by
  cases found : outboxRow rows id with
  | none =>
    rw [outboxClaim, found] at h
    cases h
  | some row =>
    rw [outboxClaim, found] at h
    dsimp only at h
    split at h
    · rename_i pending
      cases h
      exact ⟨row, rfl, of_decide_eq_true pending, rfl⟩
    · cases h

theorem outboxRow_append (h : outboxRow rows id = some row) (new : Row) :
    outboxRow (rows ++ [new]) id = some row := by
  have pos := outboxRow_pos h
  rw [outboxRow, if_neg pos] at h ⊢
  exact List.getElem?_append_left (List.getElem?_eq_some_iff.mp h).1 ▸ h

theorem outboxRow_append_new {new : Row} (h : outboxRow (rows ++ [new]) id = some row) :
    outboxRow rows id = some row ∨ outboxRow rows id = none ∧ row = new := by
  have pos := outboxRow_pos h
  rw [outboxRow, if_neg pos] at h ⊢
  rcases Nat.lt_or_ge (id - 1) rows.length with small | large
  · left
    rwa [List.getElem?_append_left small] at h
  · right
    rw [List.getElem?_append_right large] at h
    have mem := List.mem_of_getElem? h
    exact ⟨List.getElem?_eq_none large, List.mem_singleton.mp mem⟩

/-- What is enqueued is pending and new; what is held stays as it is. -/
theorem outboxRow_enqueue (deliveryIds : List String) :
    (∀ id row, outboxRow rows id = some row →
      outboxRow (outboxEnqueue rows deliveryIds).1 id = some row) ∧
    ∀ id row, outboxRow (outboxEnqueue rows deliveryIds).1 id = some row →
      outboxRow rows id = some row ∨
        outboxRow rows id = none ∧ row.status = .pending ∧ row.attempts = 0 := by
  induction deliveryIds generalizing rows with
  | nil => exact ⟨fun _ _ h => h, fun _ _ h => Or.inl h⟩
  | cons deliveryId rest ih =>
    rw [outboxEnqueue]
    split
    · exact ih
    · obtain ⟨kept, new⟩ := @ih (rows ++ [⟨deliveryId, .pending, 0, none⟩])
      constructor
      · intro id row h
        exact kept id row (outboxRow_append h _)
      · intro id row h
        rcases new id row h with held | ⟨absent, pending, zero⟩
        · rcases outboxRow_append_new held with held | ⟨absent, rfl⟩
          · exact Or.inl held
          · exact Or.inr ⟨absent, rfl, rfl⟩
        · right
          refine ⟨?_, pending, zero⟩
          cases found : outboxRow rows id with
          | none => rfl
          | some row => exact absurd ((outboxRow_append found _).symm.trans absent) (by simp)

theorem outboxRow_settle (id : Nat) (status : Status) (error : Option String)
    (h : outboxRow rows other = some row) :
    outboxRow (outboxSettle rows id status error) other =
      some (if other = id then { row with status := status, error := error } else row) := by
  by_cases same : other = id
  · subst same
    rw [if_pos rfl, outboxSettle, h]
    exact outboxRow_put h _
  · rw [if_neg same, outboxSettle]
    cases found : outboxRow rows id with
    | none => exact h
    | some held => exact (outboxRow_put_other (outboxRow_pos found) same _).trans h

theorem outboxRow_of_settle {status : Status} {error : Option String}
    (h : outboxRow (outboxSettle rows id status error) other = some row) :
    ∃ held, outboxRow rows other = some held ∧
      row = if other = id then { held with status := status, error := error } else held := by
  cases found : outboxRow rows other with
  | some held =>
    exact ⟨held, rfl, Option.some.inj (h.symm.trans (outboxRow_settle id status error found))⟩
  | none =>
    have absent : outboxRow (outboxSettle rows id status error) other = none := by
      rw [outboxSettle]
      cases target : outboxRow rows id with
      | none => exact found
      | some held =>
        have ne : other ≠ id := by
          rintro rfl
          cases target.symm.trans found
        exact (outboxRow_put_other (outboxRow_pos target) ne _).trans found
    cases absent.symm.trans h

end

end Hecks.Outbox
