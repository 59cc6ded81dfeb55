import Hecks.Orchestrate.Discipline

/-! What becomes of a compensation. When the `REFUSED` leg of an instance is taken its ledger is
drained; a drain that ended leaves no entry unaccounted for. An entry can still be dropped: the
drain stops early when an event of the cascade ends the instance. -/
namespace Hecks

open Book

variable {S H : Type}

/-- The entry left the ledger in one of four ways: its compensation was delivered, or failed and
is logged so; its own forward dispatch was refused; its instance was ended. -/
inductive Accounted (d : Cascade S H) (b : Book) (key : SagaKey) (id : EntryId)
    (entry : CompletedCompensation) : Prop where
  | delivered (mem : id ∈ b.delivered)
  | failed (mem : id ∈ b.failed) (log : CompensationFailed d key entry)
  | withdrawn (mem : id ∈ b.withdrawn)
  | lost (mem : id ∈ b.lost)

/-- Where an entry is that was on the ledger under a key. -/
inductive Fate (d : Cascade S H) (b : Book) (key : SagaKey) (id : EntryId)
    (entry : CompletedCompensation) : Prop where
  | held (mem : (id, entry) ∈ b.ledger key)
  | due (due : b.due = .firing key id entry ∨ b.due = .calling key id entry ∨
      b.due = .failing key id entry)
  | accounted (h : Accounted d b key id entry)

section Step

variable {tables : Tables} {start : Nat} {b : Book} {m : Mark} {key : SagaKey} {id : EntryId}
  {entry : CompletedCompensation} {d : Cascade S H}

theorem Accounted.step (h : Accounted d b key id entry) (m : Mark) :
    Accounted d (b.next m) key id entry := by
  cases h with
  | delivered mem =>
      refine .delivered ?_
      cases m with
      | called depth verb args answer => exact List.mem_append_left _ mem
      | _ => exact mem
  | failed mem log =>
      refine .failed ?_ log
      cases m with
      | attempted depth cause withheld => exact List.mem_append_left _ mem
      | failed k e => exact List.mem_append_left _ mem
      | _ => exact mem
  | withdrawn mem =>
      refine .withdrawn ?_
      cases m with
      | unrecorded k => exact List.mem_append_left _ mem
      | _ => exact mem
  | lost mem =>
      refine .lost ?_
      cases m with
      | ended pm event correlation => exact List.mem_append_left _ mem
      | _ => exact mem

theorem mem_ledger_popLive (h : (id, entry) ∈ b.ledger key) (k : SagaKey) :
    (id, entry) ∈ (b.popLive k).ledger key ∨
      (k = key ∧ (b.ledger key).getLast? = some (id, entry)) := by
  rw [ledger_popLive]
  split
  · rename_i hk
    subst hk
    rcases List.eq_nil_or_concat' (b.ledger key) with hnil | ⟨rest, last, hrest⟩
    · rw [hnil] at h
      cases h
    · rw [hrest] at h ⊢
      rcases List.mem_append.mp h with h | h
      · exact .inl (by simpa using h)
      · exact .inr ⟨rfl, by simp [List.mem_singleton.mp h]⟩
  · exact .inl h

/-- An entry stays on its ledger unless it is the newest and popped, or its instance ends. -/
theorem Fate.of_held (hm : Legal tables start b m) (h : (id, entry) ∈ b.ledger key) :
    Fate d (b.next m) key id entry := by
  cases m with
  | began pm event correlation =>
      refine .held ?_
      change _ ∈ (b.setLive _ _).ledger key
      rw [ledger_setLive]
      split
      · rename_i hk
        rw [ledger, hk, hm.2.2.2] at h
        cases h
      · exact h
  | moved pm event correlation trigger handler =>
      refine .held ?_
      change _ ∈ (b.setLive _ _).ledger key
      rw [ledger_setLive]
      split
      · rename_i hk
        subst hk
        simpa [ledger, Function.comp_def] using h
      · exact h
  | ended pm event correlation =>
      by_cases hk : key = (pm.name, correlation)
      · subst hk
        exact .accounted (.lost (List.mem_append_right _ (List.mem_map_of_mem h)))
      · refine .held ?_
        change _ ∈ (b.setLive _ _).ledger key
        rw [ledger_setLive, if_neg hk]
        exact h
  | pushed k e =>
      refine .held ?_
      change _ ∈ (b.updateLive k _).ledger key
      rw [ledger_push hm.2]
      split
      · rename_i hk
        subst hk
        exact List.mem_append_left _ h
      · exact h
  | unrecorded k =>
      rcases mem_ledger_popLive h k with h | ⟨rfl, hlast⟩
      · exact .held h
      · refine .accounted (.withdrawn (List.mem_append_right _ ?_))
        rw [newest, getLast?_ids hlast]
        exact List.mem_singleton_self id
  | fired k e =>
      rcases mem_ledger_popLive h k with h | ⟨rfl, hlast⟩
      · exact .held h
      · obtain ⟨-, -, id', hid'⟩ := hm
        cases hlast.symm.trans hid'
        refine .due (.inl ?_)
        change (b.ids k).getLast?.elim _ _ = _
        rw [getLast?_ids hlast]
        rfl
  | _ => exact .held h

/-- A fired entry is on its way until it is delivered or its refusal is logged. -/
theorem Fate.of_due (hm : Legal tables start b m) (hl : Logged d m)
    (h : b.due = .firing key id entry ∨ b.due = .calling key id entry ∨
      b.due = .failing key id entry) : Fate d (b.next m) key id entry := by
  have hstep := dueStep_of_legal hm
  generalize hnext : (b.next m).due = due' at hstep
  rcases h with h | h | h
  · cases hstep with
    | withheld due =>
        cases due.symm.trans h
        refine .accounted (.failed (List.mem_append_right _ ?_) ⟨_, _, rfl, hl⟩)
        rw [if_pos rfl, h]
        exact List.mem_singleton_self id
    | call due =>
        cases due.symm.trans h
        exact .due (.inr (.inl hnext))
    | _ => simp_all
  · cases hstep with
    | delivered due =>
        refine .accounted (.delivered (List.mem_append_right _ ?_))
        rw [h]
        exact List.mem_singleton_self id
    | fails due =>
        cases due.symm.trans h
        exact .due (.inr (.inr hnext))
    | _ => simp_all
  · cases hstep with
    | failed due =>
        cases due.symm.trans h
        refine .accounted (.failed (List.mem_append_right _ ?_) hl)
        rw [h]
        exact List.mem_singleton_self id
    | _ => simp_all

theorem Fate.step (hm : Legal tables start b m) (hl : Logged d m)
    (h : Fate d b key id entry) : Fate d (b.next m) key id entry := by
  cases h with
  | held mem => exact .of_held hm mem
  | due due => exact .of_due hm hl due
  | accounted h => exact .accounted (h.step m)

end Step

section History

variable {tables : Tables} {start : Nat} {b : Book} {history : List Mark} {key : SagaKey}

theorem Accounted.replay {d : Cascade S H} {id : EntryId} {entry : CompletedCompensation}
    (h : Accounted d b key id entry) (history : List Mark) :
    Accounted d ((bookkeeping tables start).replay b history) key id entry := by
  induction history generalizing b with
  | nil => exact h
  | cons m history ih => exact ih (h.step m)

end History

section Tracks

variable {env : Env S H} {start : Nat} {c d : Cascade S H} {history : List Mark}

end Tracks

/-- An order reserves stock, charges the card and ships; a refused shipment is undone. The refund
ends the conversation. -/
def fulfilment : ProcessManagerDef where
  name := "Fulfilment"
  correlatesBy := "order"
  startsOn := "Placed"
  endsOn := "Refunded"
  initialState := "placed"
  handlers :=
    [⟨"Placed", "placed", "shipping",
      [⟨"Stock::Reserve", [], some ⟨"Stock::Release", []⟩⟩,
        ⟨"Card::Charge", [], some ⟨"Card::Refund", []⟩⟩,
        ⟨"Parcel::Ship", [], none⟩]⟩,
      ⟨REFUSED, "shipping", "undone", []⟩]

def fulfilmentEnv : Env Unit Unit :=
  let event := fun name => ⟨name, "Shop::Order", "1", .object [("order", .str "o1")], none, none⟩
  Env.plain (Tables.ofManagers [fulfilment]) fun store verb _ _ _ mutations =>
    (if verb = "Shop::Order.Place" then .ok [event "Placed"]
      else if verb = "Shop::Card.Refund" then .ok [event "Refunded"]
      else if verb = "Shop::Parcel.Ship" then .error (.givenNotMet "no carrier")
      else .ok [], store, mutations)

def undoneOrder : Cascade Unit Unit :=
  (run fulfilmentEnv 3 "Shop::Order.Place" .null none none none 0 (.fresh ())).2

theorem undoneOrder_returned :
    run fulfilmentEnv 3 "Shop::Order.Place" .null none none none 0 (.fresh ()) =
      (some (.ok ()), undoneOrder) := by
  have hok : ((run fulfilmentEnv 3 "Shop::Order.Place" .null none none none 0 (.fresh ())).1.any
      (·.isOk)) = true := by decide +kernel
  refine Prod.ext ?_ (by rw [undoneOrder])
  generalize (run fulfilmentEnv 3 "Shop::Order.Place" .null none none none 0 (.fresh ())).1 = r
    at hok ⊢
  rcases r with _ | _ | _
  · cases hok
  · cases hok
  · rfl

/-- The mark records a compensation of the instance. -/
def Mark.records (key : SagaKey) : Mark → Bool
  | .pushed k _ => k = key
  | _ => false

/-- The mark is a dispatch that was accepted. -/
def Mark.accepts : Mark → Bool
  | .called _ _ _ (.ok _) => true
  | _ => false

end Hecks
