import Hecks.Orchestrate.Book

/-! The ledgers of a legal history: what one line can do to them, and from it that an entry has
one place at a time and leaves it once. -/
namespace Hecks

namespace Book

variable {b b' : Book} {key : SagaKey}

theorem ledger_setLive (b : Book) (key : SagaKey) (l : Option Live) (k : SagaKey) :
    (b.setLive key l).ledger k = if k = key then (l.map (·.ledger)).getD [] else b.ledger k := by
  by_cases h : k = key
  · subst h
    simp [ledger, setLive]
  · simp [ledger, setLive, h]

theorem ids_setLive (b : Book) (key : SagaKey) (l : Option Live) (k : SagaKey) :
    (b.setLive key l).ids k =
      if k = key then ((l.map (·.ledger)).getD []).map (·.1) else b.ids k := by
  simp only [ids, ledger_setLive]
  split <;> rfl

/-- An update that keeps the ledger keeps every ledger. -/
theorem ids_updateLive_of_same {f : Live → Live} (hf : ∀ l, (f l).ledger = l.ledger)
    (k : SagaKey) : (b.updateLive key f).ids k = b.ids k := by
  rw [updateLive, ids_setLive]
  split
  · rename_i h
    subst h
    cases hl : b.live k <;> simp [ids, ledger, hl, hf]
  · rfl

theorem live_updateLive {l : Live} (h : b.live key = some l) (f : Live → Live) :
    (b.updateLive key f).live = Function.update b.live key (some (f l)) := by
  simp [updateLive, setLive, h]

theorem ledger_push (h : (b.live key).isSome) (slot : EntryId × CompletedCompensation)
    (k : SagaKey) :
    (b.updateLive key fun l => { l with ledger := l.ledger ++ [slot] }).ledger k =
      if k = key then b.ledger key ++ [slot] else b.ledger k := by
  obtain ⟨l, hl⟩ := Option.isSome_iff_exists.mp h
  rw [updateLive, ledger_setLive]
  split
  · simp [ledger, hl]
  · rfl

theorem ids_push (h : (b.live key).isSome) (slot : EntryId × CompletedCompensation)
    (k : SagaKey) :
    (b.updateLive key fun l => { l with ledger := l.ledger ++ [slot] }).ids k =
      if k = key then b.ids key ++ [slot.1] else b.ids k := by
  rw [ids, ledger_push h]
  split
  · rw [List.map_append]
    rfl
  · rfl

theorem ledger_popLive (b : Book) (key k : SagaKey) :
    (b.popLive key).ledger k = if k = key then (b.ledger key).dropLast else b.ledger k := by
  rw [popLive, updateLive, ledger_setLive]
  split
  · cases hl : b.live key <;> simp [ledger, hl]
  · rfl

theorem ids_popLive (b : Book) (key k : SagaKey) :
    (b.popLive key).ids k = if k = key then (b.ids key).dropLast else b.ids k := by
  rw [ids, ledger_popLive]
  split
  · exact List.map_dropLast
  · rfl

theorem ids_of_live_none (h : b.live key = none) : b.ids key = [] := by
  simp [ids, ledger, h]

theorem live_isSome_of_newest {id : EntryId} (h : (b.ids key).getLast? = some id) :
    (b.live key).isSome := by
  cases hl : b.live key with
  | none => rw [ids_of_live_none hl] at h; cases h
  | some l => rfl

theorem getLast?_ids {id : EntryId} {entry : CompletedCompensation}
    (h : (b.ledger key).getLast? = some (id, entry)) : (b.ids key).getLast? = some id := by
  simp [ids, List.getLast?_map, h]

/-- The books differ in nothing the ledgers are about. -/
structure SameLedgers (b b' : Book) : Prop where
  ids : ∀ k, b'.ids k = b.ids k
  recorded : b'.recorded = b.recorded
  fired : b'.fired = b.fired
  withdrawn : b'.withdrawn = b.withdrawn
  lost : b'.lost = b.lost

/-- What one line can do to the ledgers: nothing, record an entry, take the newest one back,
fire the newest one, or drop a whole ledger with its instance. -/
inductive LedgerStep (b b' : Book) : Prop where
  | still (same : SameLedgers b b')
  | push (key : SagaKey) (ids : ∀ k, b'.ids k =
        if k = key then b.ids key ++ [.recorded b.recorded] else b.ids k)
      (recorded : b'.recorded = b.recorded + 1) (fired : b'.fired = b.fired)
      (withdrawn : b'.withdrawn = b.withdrawn) (lost : b'.lost = b.lost)
  | withdraw (key : SagaKey) (id : EntryId) (due : b.due = .withdraw key id)
      (ids : ∀ k, b'.ids k = if k = key then (b.ids key).dropLast else b.ids k)
      (recorded : b'.recorded = b.recorded) (fired : b'.fired = b.fired)
      (withdrawn : b'.withdrawn = b.withdrawn ++ (b.ids key).getLast?.toList)
      (lost : b'.lost = b.lost)
  | fire (key : SagaKey) (rest : List EntryId) (id : EntryId) (held : b.ids key = rest ++ [id])
      (ids : ∀ k, b'.ids k = if k = key then rest else b.ids k)
      (recorded : b'.recorded = b.recorded) (fired : b'.fired = b.fired ++ [id])
      (withdrawn : b'.withdrawn = b.withdrawn) (lost : b'.lost = b.lost)
  | lose (key : SagaKey) (ids : ∀ k, b'.ids k = if k = key then [] else b.ids k)
      (recorded : b'.recorded = b.recorded) (fired : b'.fired = b.fired)
      (withdrawn : b'.withdrawn = b.withdrawn) (lost : b'.lost = b.lost ++ b.ids key)

/-- What one line can do to what is due. A line that neither starts nor ends anything needs
nothing to be due. -/
inductive DueStep (b : Book) : Mark → Due → Prop where
  | quiet {m : Mark} (due : b.due = .idle) : DueStep b m .idle
  | push {key : SagaKey} {entry : CompletedCompensation} (due : b.due = .idle) :
      DueStep b (.pushed key entry) (.forward key (.recorded b.recorded))
  | accepted {key : SagaKey} {id : EntryId} {depth : Nat} {verb : String} {args : Json}
      {batch : List Event} (due : b.due = .forward key id) :
      DueStep b (.called depth verb args (.ok batch)) .idle
  | refused {key : SagaKey} {id : EntryId} {depth : Nat} {verb : String} {args : Json}
      {r : Refusal} (due : b.due = .forward key id) :
      DueStep b (.called depth verb args (.error r)) (.withdraw key id)
  | withdraw {key : SagaKey} {id : EntryId} (due : b.due = .withdraw key id) :
      DueStep b (.unrecorded key) .idle
  | fire {key : SagaKey} {id : EntryId} {entry : CompletedCompensation} (due : b.due = .idle)
      (last : (b.ledger key).getLast? = some (id, entry)) :
      DueStep b (.fired key entry) (.firing key id entry)
  | withheld {depth : Nat} {l : SagaLeg} {id : EntryId} {entry : CompletedCompensation}
      (due : b.due = .firing l.key id entry) :
      DueStep b (.attempted depth (.compensation l entry) true) .idle
  | call {depth : Nat} {l : SagaLeg} {id : EntryId} {entry : CompletedCompensation}
      (due : b.due = .firing l.key id entry) :
      DueStep b (.attempted depth (.compensation l entry) false) (.calling l.key id entry)
  | delivered {key : SagaKey} {id : EntryId} {entry : CompletedCompensation} {depth : Nat}
      {verb : String} {args : Json} {batch : List Event} (due : b.due = .calling key id entry) :
      DueStep b (.called depth verb args (.ok batch)) .idle
  | fails {key : SagaKey} {id : EntryId} {entry : CompletedCompensation} {depth : Nat}
      {verb : String} {args : Json} {r : Refusal} (due : b.due = .calling key id entry) :
      DueStep b (.called depth verb args (.error r)) (.failing key id entry)
  | failed {key : SagaKey} {id : EntryId} {entry : CompletedCompensation}
      (due : b.due = .failing key id entry) : DueStep b (.failed key entry) .idle

end Book

open Book

section Step

variable {tables : Tables} {depth : Nat} {b : Book} {m : Mark}

/-- The inversion every invariant of the ledgers goes through. -/
theorem ledgerStep_of_legal (hm : Legal tables depth b m) : LedgerStep b (b.next m) := by
  cases m with
  | attempted d cause withheld => exact .still ⟨fun _ => rfl, rfl, rfl, rfl, rfl⟩
  | called d verb args answer => exact .still ⟨fun _ => rfl, rfl, rfl, rfl, rfl⟩
  | policiesOf event => exact .still ⟨fun _ => rfl, rfl, rfl, rfl, rfl⟩
  | sagasOf event => exact .still ⟨fun _ => rfl, rfl, rfl, rfl, rfl⟩
  | settled event => exact .still ⟨fun _ => rfl, rfl, rfl, rfl, rfl⟩
  | draining key => exact .still ⟨fun _ => rfl, rfl, rfl, rfl, rfl⟩
  | drained key => exact .still ⟨fun _ => rfl, rfl, rfl, rfl, rfl⟩
  | failed key entry => exact .still ⟨fun _ => rfl, rfl, rfl, rfl, rfl⟩
  | began pm event correlation =>
      -- an instance begins with an empty ledger where there was none
      refine .still ⟨fun k => ?_, rfl, rfl, rfl, rfl⟩
      have hnone := ids_of_live_none hm.2.2.2
      change (b.setLive _ _).ids k = b.ids k
      rw [ids_setLive]
      split
      · rename_i hk
        rw [hk, hnone]
        rfl
      · rfl
  | moved pm event correlation trigger handler =>
      refine .still ⟨fun k => ?_, rfl, rfl, rfl, rfl⟩
      exact ids_updateLive_of_same (f := fun l => { l with state := handler.toState })
        (fun _ => rfl) k
  | ended pm event correlation =>
      exact .lose (pm.name, correlation) (fun k => ids_setLive b _ none k) rfl rfl rfl rfl
  | pushed key entry =>
      exact .push key (fun k => ids_push hm.2 (.recorded b.recorded, entry) k) rfl rfl rfl rfl
  | unrecorded key =>
      obtain ⟨id, hid⟩ := hm
      exact .withdraw key id hid (fun k => ids_popLive b key k) rfl rfl rfl rfl
  | fired key entry =>
      obtain ⟨-, -, id, hid⟩ := hm
      have hlast := getLast?_ids hid
      obtain ⟨rest, hrest⟩ := List.getLast?_eq_some_iff.mp hlast
      refine .fire key rest id hrest (fun k => ?_) rfl ?_ rfl rfl
      · change (b.popLive key).ids k = _
        rw [ids_popLive, hrest, List.dropLast_concat]
      · change b.fired ++ b.newest key = _
        rw [newest, hlast]
        rfl

theorem dueStep_attempted {d : Nat} {cause : Cause} {withheld : Bool}
    (hdue : cause.Awaits b.due) :
    DueStep b (.attempted d cause withheld) (b.due.afterAttempt withheld) := by
  cases cause with
  | compensation l entry =>
      obtain ⟨id, hid⟩ := hdue
      rw [hid]
      cases withheld with
      | true => exact .withheld hid
      | false => exact .call hid
  | policy rule event =>
      rw [show b.due = .idle from hdue]
      exact .quiet hdue
  | leg l spec =>
      rw [show b.due = .idle from hdue]
      exact .quiet hdue

theorem dueStep_called {d : Nat} {verb : String} {args : Json}
    {answer : Except Refusal (List Event)} (hdue : b.due.Callable verb) :
    DueStep b (.called d verb args answer) (b.due.afterAnswer answer.isOk) := by
  cases hb : b.due with
  | idle => exact .quiet hb
  | forward key id =>
      cases answer with
      | ok batch => exact .accepted hb
      | error r => exact .refused hb
  | calling key id entry =>
      cases answer with
      | ok batch => exact .delivered hb
      | error r => exact .fails hb
  | _ =>
      rw [hb] at hdue
      exact False.elim hdue

/-- The inversion every invariant of what is due goes through. -/
theorem dueStep_of_legal (hm : Legal tables depth b m) : DueStep b m (b.next m).due := by
  cases m with
  | attempted d cause withheld => exact dueStep_attempted hm.2.2.2
  | called d verb args answer => exact dueStep_called hm.2.2
  | pushed key entry => exact .push hm.1
  | unrecorded key => exact .withdraw hm.choose_spec
  | failed key entry => exact .failed hm.choose_spec
  | fired key entry =>
      obtain ⟨hdue, -, id, hid⟩ := hm
      change DueStep b _ ((b.ids key).getLast?.elim _ _)
      rw [getLast?_ids hid]
      exact .fire hdue hid
  | draining key =>
      change DueStep b _ b.due
      rw [show b.due = .idle from hm]
      exact .quiet hm
  | _ =>
      change DueStep b _ b.due
      rw [hm.1]
      exact .quiet hm.1

/-- A line starts a drain, ends one, or leaves the open ones as they are. -/
theorem drains_next (m : Mark) : (∃ k, m = .draining k) ∨ (∃ k, m = .drained k) ∨
    ∀ b : Book, (b.next m).drains = b.drains := by
  cases m with
  | draining k => exact .inl ⟨k, rfl⟩
  | drained k => exact .inr (.inl ⟨k, rfl⟩)
  | _ => exact .inr (.inr fun _ => rfl)

end Step

namespace Book

/-- The book has heard of the entry. -/
def Known (b : Book) (id : EntryId) : Prop :=
  (∃ key, id ∈ b.ids key) ∨ id ∈ b.fired ∨ id ∈ b.withdrawn ∨ id ∈ b.lost

/-- What is due is about the newest entry of a ledger, or about an entry that was fired. -/
def DueSound (b : Book) : Prop :=
  match b.due with
  | .idle => True
  | .forward key id | .withdraw key id => (b.ids key).getLast? = some id
  | .firing _ id _ | .calling _ id _ | .failing _ id _ => id ∈ b.fired

/-- An entry has one place at a time, leaves it once, and is never fired and withdrawn both. -/
structure Placed (b : Book) : Prop where
  nodup : ∀ key, (b.ids key).Nodup
  apart : ∀ key key' id, id ∈ b.ids key → id ∈ b.ids key' → key = key'
  fresh : ∀ n, b.Known (.recorded n) → n < b.recorded
  here : ∀ key id, id ∈ b.ids key → id ∉ b.fired ∧ id ∉ b.withdrawn ∧ id ∉ b.lost
  once : b.fired.Nodup
  never : ∀ id ∈ b.fired, id ∉ b.withdrawn

structure Sound (b : Book) : Prop extends Placed b where
  due : b.DueSound

variable {b b' : Book}

theorem Placed.not_known_recorded (h : Placed b) : ¬ b.Known (.recorded b.recorded) :=
  fun hk => Nat.lt_irrefl _ (h.fresh _ hk)

theorem Known.of_ids {key : SagaKey} {id : EntryId} (h : id ∈ b.ids key) : b.Known id :=
  .inl ⟨key, h⟩

/-- An entry popped off a ledger, fired or withdrawn, keeps the ledger half of the invariant. -/
theorem Placed.popped (h : Placed b) {key : SagaKey} {rest : List EntryId} {id : EntryId}
    (hrest : b.ids key = rest ++ [id])
    (hids : ∀ k, b'.ids k = if k = key then rest else b.ids k)
    (hrec : b'.recorded = b.recorded)
    (hfate : (b'.fired = b.fired ++ [id] ∧ b'.withdrawn = b.withdrawn) ∨
      (b'.fired = b.fired ∧ b'.withdrawn = b.withdrawn ++ [id]))
    (hl : b'.lost = b.lost) : Placed b' := by
  have hid : id ∈ b.ids key := by simp [hrest]
  have hnd : (rest ++ [id]).Nodup := hrest ▸ h.nodup key
  obtain ⟨hidf, hidw, -⟩ := h.here key id hid
  have hmem : ∀ k x, x ∈ b'.ids k → x ∈ b.ids k ∧ x ≠ id := by
    intro k x hx
    rw [hids k] at hx
    split at hx
    · rename_i hk
      subst hk
      refine ⟨by simp [hrest, hx], ?_⟩
      rintro rfl
      exact (List.nodup_append.mp hnd).2.2 x hx x (List.mem_singleton_self x) rfl
    · rename_i hk
      refine ⟨hx, ?_⟩
      rintro rfl
      exact hk (h.apart k key x hx hid)
  have hfired : ∀ x, x ∈ b'.fired → x ∈ b.fired ∨ x = id := by
    intro x hx
    rcases hfate with ⟨hf, -⟩ | ⟨hf, -⟩ <;> rw [hf] at hx
    · simpa using hx
    · exact .inl hx
  have hwithdrawn : ∀ x, x ∈ b'.withdrawn → x ∈ b.withdrawn ∨ x = id := by
    intro x hx
    rcases hfate with ⟨-, hw⟩ | ⟨-, hw⟩ <;> rw [hw] at hx
    · exact .inl hx
    · simpa using hx
  refine ⟨fun k => ?_, ?_, ?_, ?_, ?_, ?_⟩
  · rw [hids k]
    split
    · exact (List.nodup_append.mp hnd).1
    · exact h.nodup k
  · exact fun k k' x hx hx' => h.apart k k' x (hmem k x hx).1 (hmem k' x hx').1
  · intro n hn
    rw [hrec]
    refine h.fresh n ?_
    rcases hn with ⟨k, hk⟩ | hn | hn | hn
    · exact .of_ids (hmem k _ hk).1
    · exact (hfired _ hn).elim (fun hn => .inr (.inl hn)) fun hn => .of_ids (hn ▸ hid)
    · exact (hwithdrawn _ hn).elim (fun hn => .inr (.inr (.inl hn))) fun hn => .of_ids (hn ▸ hid)
    · exact .inr (.inr (.inr (hl ▸ hn)))
  · intro k x hx
    obtain ⟨hx, hne⟩ := hmem k x hx
    obtain ⟨h1, h2, h3⟩ := h.here k x hx
    exact ⟨fun hx' => (hfired x hx').elim h1 hne, fun hx' => (hwithdrawn x hx').elim h2 hne,
      hl ▸ h3⟩
  · rcases hfate with ⟨hf, -⟩ | ⟨hf, -⟩ <;> rw [hf]
    · exact List.Nodup.append h.once (List.nodup_singleton _) (by simpa using hidf)
    · exact h.once
  · intro x hx hx'
    rcases hfate with ⟨hf, hw⟩ | ⟨hf, hw⟩
    · rw [hw] at hx'
      rcases hfired x hx with hx | rfl
      · exact h.never x hx hx'
      · exact hidw hx'
    · rw [hf] at hx
      rcases hwithdrawn x hx' with hx' | rfl
      · exact h.never x hx hx'
      · exact hidf hx

/-- The ledger half of the invariant, one case for each thing a line can do. -/
theorem Sound.placed (h : Sound b) (hs : LedgerStep b b') : Placed b' := by
  cases hs with
  | still same =>
      obtain ⟨hids, hrec, hf, hw, hl⟩ := same
      constructor
      all_goals simp only [Known, hids, hrec, hf, hw, hl]
      exacts [h.nodup, h.apart, h.fresh, h.here, h.once, h.never]
  | push key hids hrec hf hw hl =>
      have hnew := h.not_known_recorded
      have hmem : ∀ k id, id ∈ b'.ids k → id ∈ b.ids k ∨ (k = key ∧ id = .recorded b.recorded) := by
        intro k id hid
        rw [hids k] at hid
        split at hid
        · rename_i hk
          subst hk
          simpa using hid
        · exact .inl hid
      refine ⟨fun k => ?_, ?_, ?_, ?_, hf ▸ h.once, hf ▸ hw ▸ h.never⟩
      · rw [hids k]
        split
        · exact List.Nodup.append (h.nodup key) (List.nodup_singleton _)
            (by simpa using fun hk => hnew (.of_ids hk))
        · exact h.nodup k
      · intro k k' id hid hid'
        rcases hmem k id hid with hid | ⟨rfl, rfl⟩ <;> rcases hmem k' _ hid' with hid' | ⟨rfl, he⟩
        · exact h.apart k k' id hid hid'
        · exact absurd (.of_ids (he ▸ hid)) hnew
        · exact absurd (.of_ids hid') hnew
        · rfl
      · intro n hn
        rw [hrec]
        rcases hn with ⟨k, hk⟩ | hn
        · rcases hmem k _ hk with hk | ⟨-, hk⟩
          · exact Nat.lt_succ_of_lt (h.fresh n (.of_ids hk))
          · cases hk
            exact Nat.lt_succ_self _
        · rw [hf, hw, hl] at hn
          exact Nat.lt_succ_of_lt (h.fresh n (.inr hn))
      · intro k id hid
        rw [hf, hw, hl]
        rcases hmem k id hid with hid | ⟨-, rfl⟩
        · exact h.here k id hid
        · exact ⟨fun hk => hnew (.inr (.inl hk)), fun hk => hnew (.inr (.inr (.inl hk))),
            fun hk => hnew (.inr (.inr (.inr hk)))⟩
  | withdraw key id hdue hids hrec hf hw hl =>
      have hlast : (b.ids key).getLast? = some id := by
        have hd := h.due
        rw [DueSound, hdue] at hd
        exact hd
      obtain ⟨rest, hrest⟩ := List.getLast?_eq_some_iff.mp hlast
      rw [hlast, Option.toList_some] at hw
      simp only [hrest, List.dropLast_concat] at hids
      exact h.popped hrest hids hrec (.inr ⟨hf, hw⟩) hl
  | fire key rest id hrest hids hrec hf hw hl =>
      exact h.popped hrest hids hrec (.inl ⟨hf, hw⟩) hl
  | lose key hids hrec hf hw hl =>
      have hmem : ∀ k id, id ∈ b'.ids k → k ≠ key ∧ id ∈ b.ids k := by
        intro k id hid
        rw [hids k] at hid
        split at hid
        · cases hid
        · exact ⟨‹_›, hid⟩
      refine ⟨fun k => ?_, ?_, ?_, ?_, hf ▸ h.once, hf ▸ hw ▸ h.never⟩
      · rw [hids k]
        split
        · exact List.nodup_nil
        · exact h.nodup k
      · exact fun k k' id hid hid' => h.apart k k' id (hmem k id hid).2 (hmem k' id hid').2
      · intro n hn
        rw [hrec]
        refine h.fresh n ?_
        rcases hn with ⟨k, hk⟩ | hn | hn | hn
        · exact .of_ids (hmem k _ hk).2
        · exact .inr (.inl (hf ▸ hn))
        · exact .inr (.inr (.inl (hw ▸ hn)))
        · rw [hl, List.mem_append] at hn
          exact hn.elim (fun hn => .inr (.inr (.inr hn))) .of_ids
      · intro k id hid
        obtain ⟨hk, hid⟩ := hmem k id hid
        rw [hf, hw, hl, List.mem_append, not_or]
        obtain ⟨h1, h2, h3⟩ := h.here k id hid
        exact ⟨h1, h2, h3, fun hid' => hk (h.apart k key id hid hid')⟩

theorem dueSound_next {tables : Tables} {depth : Nat} {m : Mark} (h : Sound b)
    (hm : Legal tables depth b m) : (b.next m).DueSound := by
  have hd := h.due
  have hstep := dueStep_of_legal hm
  rw [DueSound] at hd ⊢
  generalize hdue' : (b.next m).due = due' at hstep
  cases hstep with
  | push due =>
      rename_i key entry
      change ((b.updateLive key _).ids key).getLast? = some (.recorded b.recorded)
      rw [ids_push hm.2, if_pos rfl, List.getLast?_concat]
  | fire due last =>
      change _ ∈ b.fired ++ b.newest _
      simp [newest, getLast?_ids last]
  | refused due | call due | fails due =>
      rw [due] at hd
      exact hd
  | _ => trivial

theorem Sound.step {tables : Tables} {depth : Nat} {m : Mark} (h : Sound b)
    (hm : Legal tables depth b m) : Sound (b.next m) :=
  ⟨h.placed (ledgerStep_of_legal hm), dueSound_next h hm⟩

theorem ids_start (sagas : AList fun _ : SagaKey => SagaInstance) (depth : Nat) (key : SagaKey)
    {id : EntryId} (h : id ∈ (start sagas depth).ids key) : ∃ i, id = .seeded key i := by
  simp only [ids, ledger, start] at h
  cases hl : sagas.lookup key with
  | none => simp [hl] at h
  | some inst =>
      simp only [hl, Option.map_some, Option.getD_some, List.mapIdx_eq_zipIdx_map,
        List.map_map, List.mem_map] at h
      obtain ⟨slot, -, rfl⟩ := h
      exact ⟨slot.2, rfl⟩

theorem sound_start (sagas : AList fun _ : SagaKey => SagaInstance) (depth : Nat) : Sound (start sagas depth) where
  nodup key := by
    simp only [ids, ledger, start]
    cases sagas.lookup key with
    | none => exact List.nodup_nil
    | some inst =>
        simp only [Option.map_some, Option.getD_some]
        rw [List.nodup_iff_injective_get]
        intro i j hij
        simpa [Fin.ext_iff] using hij
  apart key key' id hid hid' := by
    obtain ⟨i, rfl⟩ := ids_start sagas depth key hid
    obtain ⟨j, hj⟩ := ids_start sagas depth key' hid'
    cases hj
    rfl
  fresh n hn := by
    rcases hn with ⟨key, hk⟩ | hn | hn | hn
    · obtain ⟨i, hi⟩ := ids_start sagas depth key hk
      cases hi
    all_goals cases hn
  here key id _ := ⟨List.not_mem_nil, List.not_mem_nil, List.not_mem_nil⟩
  once := List.nodup_nil
  never id hid := by cases hid
  due := trivial

/-- Every book of a legal history is sound. -/
theorem sound_of_runs {tables : Tables} {depth : Nat}
    {sagas : AList fun _ : SagaKey => SagaInstance} {history : List Mark}
    (h : (bookkeeping tables depth).Runs (start sagas depth) history) :
    Sound ((bookkeeping tables depth).replay (start sagas depth) history) :=
  h.invariant (sound_start sagas depth) fun _ _ hs hm => hs.step hm

end Book

end Hecks
