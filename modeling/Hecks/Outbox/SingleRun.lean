import Hecks.Outbox.Relay

/-! When a row's consumer runs once for each redrive that found the row stalled. -/
namespace Hecks.Outbox

/-- Since the row's last run it was redriven. -/
def Fresh (id : Nat) (history : List Event) : Prop :=
  ∀ later p seen earlier, history = later ++ .ran p id seen :: earlier →
    ∃ q n, .redriven q id n ∈ later

/-- Between two runs of a row lies a redrive that found it stalled. -/
def OncePerRedrive (history : List Event) : Prop :=
  ∀ later p id seen earlier, history = later ++ .ran p id seen :: earlier → Fresh id earlier

/-- Of the operators who saw a row stalled under one attempt, one runs its consumer at most. -/
def OnePerStalled (history : List Event) : Prop :=
  history.Pairwise fun late early =>
    ∀ p q id n, late = .ran p id (some n) → early ≠ .ran q id (some n)

/-- A row settled as delivered is not run again. -/
def DeliveredRests (history : List Event) : Prop :=
  history.Pairwise fun late early => ∀ p id seen, early = .delivered id → late ≠ .ran p id seen

/-- The party has claimed the row and not settled it. -/
def Party.Holds : Party → Nat → Prop
  | .holding id _ _, k => id = k
  | .ran id _ _, k => id = k
  | _, _ => False

/-- The party is about to run the row's consumer. -/
def Party.Due : Party → Nat → Prop
  | .holding id _ _, k => id = k
  | _, _ => False

/-- The party redrives the row it found stalled under this attempt, and has not run it. -/
def Party.Token : Party → Nat → Nat → Prop
  | .reset id seen _, k, n => id = k ∧ seen = n
  | .holding id (some seen) _, k, n => id = k ∧ seen = n
  | _, _, _ => False

/-- A redrive resets a row that still stands claimed under the attempt it was found stalled under,
and whose claimant is gone. -/
def Timely (w : World) : Action → Prop
  | .next party _ _ =>
      match w.parties party with
      | .ready (.redrive id seen :: _) =>
          (∃ row, outboxRow w.rows id = some row ∧ row.status = .claimed ∧ row.attempts = seen) ∧
            ∀ q, ¬(w.parties q).Holds id
      | _ => True
  | _ => True

def TimelyRun : List Action → World → Prop
  | [], _ => True
  | a :: actions, w => Timely w a ∧ ∀ w', step w a = some w' → TimelyRun actions w'

/-! ### Histories -/

section

variable {history : List Event} {e : Event} {id : Nat}

theorem fresh_cons (fresh : Fresh id history) (other : ∀ p seen, e ≠ .ran p id seen) :
    Fresh id (e :: history) := by
  intro later p seen earlier same
  cases later with
  | nil => exact absurd (List.cons.inj same).1 (other p seen)
  | cons d later =>
    obtain ⟨q, n, mem⟩ := fresh later p seen earlier (List.cons.inj same).2
    exact ⟨q, n, List.mem_cons_of_mem d mem⟩

theorem fresh_redriven (p n : Nat) : Fresh id (.redriven p id n :: history) := by
  intro later q seen earlier same
  cases later with
  | nil => cases (List.cons.inj same).1
  | cons d later =>
    obtain ⟨rfl, -⟩ := List.cons.inj same
    exact ⟨p, n, List.mem_cons_self⟩

theorem fresh_of_not_ran (absent : ∀ p seen, .ran p id seen ∉ history) : Fresh id history := by
  intro later p seen earlier same
  exact absurd (by rw [same]; simp) (absent p seen)

theorem once_cons (once : OncePerRedrive history)
    (fresh : ∀ p id seen, e = .ran p id seen → Fresh id history) :
    OncePerRedrive (e :: history) := by
  intro later p id seen earlier same
  cases later with
  | nil =>
    obtain ⟨rfl, rfl⟩ := List.cons.inj same
    exact fresh p id seen rfl
  | cons d later => exact once later p id seen earlier (List.cons.inj same).2

end

/-! ### What every timely run keeps -/

structure Inv (w : World) : Prop where
  one : ∀ p q id, (w.parties p).Holds id → (w.parties q).Holds id → p = q
  busy : ∀ p id, (w.parties p).Holds id →
    ∃ row, outboxRow w.rows id = some row ∧ row.status ≠ .pending
  known : ∀ p id seen, .ran p id seen ∈ w.history → ∃ row, outboxRow w.rows id = some row
  waiting : ∀ id row, outboxRow w.rows id = some row → row.status = .pending →
    Fresh id w.history
  due : ∀ p id, (w.parties p).Due id → Fresh id w.history
  rested : ∀ id, .delivered id ∈ w.history →
    (∃ row, outboxRow w.rows id = some row ∧ row.status ≠ .pending ∧ row.status ≠ .claimed) ∧
      ∀ p, ¬(w.parties p).Holds id
  claims : ∀ p id n, .redriven p id n ∈ w.history →
    ∃ row, outboxRow w.rows id = some row ∧
      (n < row.attempts ∨ n = row.attempts ∧ row.status ≠ .claimed)
  token : ∀ p id n, (w.parties p).Token id n →
    (∃ q, .redriven q id n ∈ w.history) ∧ (∀ q, .ran q id (some n) ∉ w.history) ∧
      ∀ q, (w.parties q).Token id n → q = p
  backed : ∀ q id n, .ran q id (some n) ∈ w.history → ∃ r, .redriven r id n ∈ w.history
  once : OncePerRedrive w.history
  alone : OnePerStalled w.history
  rests : DeliveredRests w.history

section

variable {w : World} {p : Nat}

theorem become_self (w : World) (p : Nat) (state : Party) : (w.become p state).parties p = state :=
  Function.update_self _ _ _

theorem become_other (w : World) {p q : Nat} (ne : q ≠ p) (state : Party) :
    (w.become p state).parties q = w.parties q :=
  Function.update_of_ne ne _ _

/-- What holds of a party that is not the ready one held of it before. -/
theorem of_become_ready {P : Party → Prop} (quiet : ∀ todo, ¬P (.ready todo)) {todo : List Task}
    {q : Nat} (h : P ((w.become p (.ready todo)).parties q)) : P (w.parties q) := by
  by_cases same : q = p
  · rw [same, become_self] at h
    exact absurd h (quiet todo)
  · rwa [become_other w same] at h

theorem Inv.ready (h : Inv w) (p : Nat) (todo : List Task) : Inv (w.become p (.ready todo)) := by
  have holds : ∀ q id, ((w.become p (.ready todo)).parties q).Holds id →
      (w.parties q).Holds id := fun q id =>
    of_become_ready (P := fun party => party.Holds id) fun _ none => none
  have due : ∀ q id, ((w.become p (.ready todo)).parties q).Due id → (w.parties q).Due id :=
    fun q id => of_become_ready (P := fun party => party.Due id) fun _ none => none
  have token : ∀ q id n, ((w.become p (.ready todo)).parties q).Token id n →
      (w.parties q).Token id n := fun q id n =>
    of_become_ready (P := fun party => party.Token id n) fun _ none => none
  refine ⟨?_, ?_, h.known, h.waiting, ?_, ?_, h.claims, ?_, h.backed, h.once, h.alone, h.rests⟩
  · intro q r id first second
    exact h.one q r id (holds q id first) (holds r id second)
  · intro q id held
    exact h.busy q id (holds q id held)
  · intro q id isDue
    exact h.due q id (due q id isDue)
  · intro id delivered
    obtain ⟨row, free⟩ := h.rested id delivered
    exact ⟨row, fun q held => free q (holds q id held)⟩
  · intro q id n held
    obtain ⟨redriven, unrun, only⟩ := h.token q id n (token q id n held)
    exact ⟨redriven, unrun, fun r other => only r (token r id n other)⟩

theorem Inv.settle (h : Inv w) (id : Nat) {status : Status} (notPending : status ≠ .pending)
    (notClaimed : status ≠ .claimed) (error : Option String) :
    Inv { w with rows := outboxSettle w.rows id status error } := by
  refine ⟨h.one, ?_, ?_, ?_, h.due, ?_, ?_, h.token, h.backed, h.once, h.alone, h.rests⟩
  · intro q k held
    obtain ⟨row, found, busy⟩ := h.busy q k held
    refine ⟨_, outboxRow_settle id status error found, ?_⟩
    split
    · exact notPending
    · exact busy
  · intro q k seen ran
    obtain ⟨row, found⟩ := h.known q k seen ran
    exact ⟨_, outboxRow_settle id status error found⟩
  · intro k row found pending
    obtain ⟨held, before, rfl⟩ := outboxRow_of_settle found
    split at pending
    · exact absurd pending notPending
    · exact h.waiting k held before pending
  · intro k delivered
    obtain ⟨⟨row, found, rested⟩, free⟩ := h.rested k delivered
    refine ⟨⟨_, outboxRow_settle id status error found, ?_⟩, free⟩
    split
    · exact ⟨notPending, notClaimed⟩
    · exact rested
  · intro q k n redriven
    obtain ⟨row, found, attempts⟩ := h.claims q k n redriven
    refine ⟨_, outboxRow_settle id status error found, ?_⟩
    split
    · exact attempts.imp_right fun same => ⟨same.1, notClaimed⟩
    · exact attempts

/-- The row a party had run settles as delivered, and no one holds it. -/
theorem Inv.delivered (h : Inv w) {id : Nat}
    (settled : ∃ row, outboxRow w.rows id = some row ∧ row.status ≠ .pending ∧
      row.status ≠ .claimed)
    (free : ∀ q, ¬(w.parties q).Holds id) :
    Inv { w with history := .delivered id :: w.history } := by
  refine ⟨h.one, h.busy, ?_, ?_, ?_, ?_, ?_, ?_, ?_, ?_, ?_, ?_⟩
  · intro q k seen ran
    exact h.known q k seen (List.mem_of_ne_of_mem (by simp) ran)
  · intro k row found pending
    exact fresh_cons (h.waiting k row found pending) (by simp)
  · intro q k isDue
    exact fresh_cons (h.due q k isDue) (by simp)
  · intro k delivered
    rcases List.mem_cons.mp delivered with same | before
    · cases same
      exact ⟨settled, free⟩
    · exact h.rested k before
  · intro q k n redriven
    exact h.claims q k n (List.mem_of_ne_of_mem (by simp) redriven)
  · intro q k n held
    obtain ⟨⟨r, redriven⟩, unrun, only⟩ := h.token q k n held
    refine ⟨⟨r, List.mem_cons_of_mem _ redriven⟩, ?_, only⟩
    intro s ran
    exact unrun s (List.mem_of_ne_of_mem (by simp) ran)
  · intro q k n ran
    obtain ⟨r, redriven⟩ := h.backed q k n (List.mem_of_ne_of_mem (by simp) ran)
    exact ⟨r, List.mem_cons_of_mem _ redriven⟩
  · exact once_cons h.once (by simp)
  · exact List.pairwise_cons.mpr ⟨by simp, h.alone⟩
  · exact List.pairwise_cons.mpr ⟨by simp, h.rests⟩

theorem Party.Due.holds {party : Party} {id : Nat} (h : party.Due id) : party.Holds id := by
  cases party with
  | holding => exact h
  | _ => cases h

theorem Inv.enqueue (h : Inv w) (deliveryIds : List String) :
    Inv { w with rows := (outboxEnqueue w.rows deliveryIds).1 } := by
  obtain ⟨kept, new⟩ := @outboxRow_enqueue w.rows deliveryIds
  refine ⟨h.one, ?_, ?_, ?_, h.due, ?_, ?_, h.token, h.backed, h.once, h.alone, h.rests⟩
  · intro q id held
    obtain ⟨row, found, busy⟩ := h.busy q id held
    exact ⟨row, kept id row found, busy⟩
  · intro q id seen ran
    obtain ⟨row, found⟩ := h.known q id seen ran
    exact ⟨row, kept id row found⟩
  · intro id row found pending
    rcases new id row found with held | ⟨absent, -⟩
    · exact h.waiting id row held pending
    · apply fresh_of_not_ran
      intro q seen ran
      obtain ⟨row, found⟩ := h.known q id seen ran
      cases found.symm.trans absent
  · intro id delivered
    obtain ⟨⟨row, found, rested⟩, free⟩ := h.rested id delivered
    exact ⟨⟨row, kept id row found, rested⟩, free⟩
  · intro q id n redriven
    obtain ⟨row, found, attempts⟩ := h.claims q id n redriven
    exact ⟨row, kept id row found, attempts⟩

theorem Inv.claim {id : Nat} {rows : List Row} {seen : Option Nat} (h : Inv w)
    (claimed : outboxClaim w.rows id = some rows)
    (led : ∀ n, seen = some n → (w.parties p).Token id n) (todo : List Task) :
    Inv ({ w with rows := rows }.become p (.holding id seen todo)) := by
  obtain ⟨row, found, pending, rfl⟩ := outboxClaim_some claimed
  have pos := outboxRow_pos found
  have unheld : ∀ q, ¬(w.parties q).Holds id := by
    intro q held
    obtain ⟨other, same, busy⟩ := h.busy q id held
    cases found.symm.trans same
    exact busy pending
  have kept : ∀ k, k ≠ id → ∀ held, outboxRow w.rows k = some held →
      outboxRow (put w.rows id { row with status := .claimed, attempts := row.attempts + 1 }) k =
        some held := fun k ne held same => (outboxRow_put_other pos ne _).trans same
  have put := outboxRow_put found { row with status := .claimed, attempts := row.attempts + 1 }
  have tokens : ∀ q k n, (Function.update w.parties p (.holding id seen todo) q).Token k n →
      (w.parties q).Token k n := by
    intro q k n held
    by_cases same : q = p
    · subst same
      rw [Function.update_self] at held
      cases seen with
      | none => cases held
      | some m =>
        obtain ⟨rfl, rfl⟩ := held
        exact led m rfl
    · rwa [Function.update_of_ne same] at held
  refine ⟨?_, ?_, ?_, ?_, ?_, ?_, ?_, ?_, h.backed, h.once, h.alone, h.rests⟩
  · intro q r k first second
    by_cases atQ : q = p
    · by_cases atR : r = p
      · rw [atQ, atR]
      · rw [atQ, become_self] at first
        rw [become_other _ atR] at second
        cases (show id = k from first)
        exact absurd second (unheld r)
    · rw [become_other _ atQ] at first
      by_cases atR : r = p
      · rw [atR, become_self] at second
        cases (show id = k from second)
        exact absurd first (unheld q)
      · rw [become_other _ atR] at second
        exact h.one q r k first second
  · intro q k held
    by_cases atQ : q = p
    · rw [atQ, become_self] at held
      cases (show id = k from held)
      exact ⟨_, put, by simp⟩
    · rw [become_other _ atQ] at held
      obtain ⟨other, same, busy⟩ := h.busy q k held
      have ne : k ≠ id := by
        rintro rfl
        exact unheld q held
      exact ⟨other, kept k ne other same, busy⟩
  · intro q k m ran
    obtain ⟨other, same⟩ := h.known q k m ran
    by_cases eq : k = id
    · subst eq
      exact ⟨_, put⟩
    · exact ⟨other, kept k eq other same⟩
  · intro k other same isPending
    by_cases eq : k = id
    · subst eq
      cases put.symm.trans same
      cases isPending
    · exact h.waiting k other ((outboxRow_put_other pos eq _).symm.trans same) isPending
  · intro q k isDue
    by_cases atQ : q = p
    · rw [atQ, become_self] at isDue
      cases (show id = k from isDue)
      exact h.waiting id row found pending
    · rw [become_other _ atQ] at isDue
      exact h.due q k isDue
  · intro k delivered
    obtain ⟨⟨other, same, rested⟩, free⟩ := h.rested k delivered
    have ne : k ≠ id := by
      rintro rfl
      cases found.symm.trans same
      exact rested.1 pending
    refine ⟨⟨other, kept k ne other same, rested⟩, ?_⟩
    intro q held
    by_cases atQ : q = p
    · rw [atQ, become_self] at held
      exact ne (show id = k from held).symm
    · rw [become_other _ atQ] at held
      exact free q held
  · intro q k n redriven
    obtain ⟨other, same, attempts⟩ := h.claims q k n redriven
    by_cases eq : k = id
    · subst eq
      cases found.symm.trans same
      refine ⟨_, put, Or.inl ?_⟩
      dsimp only
      omega
    · exact ⟨other, kept k eq other same, attempts⟩
  · intro q k n held
    obtain ⟨redriven, unrun, only⟩ := h.token q k n (tokens q k n held)
    exact ⟨redriven, unrun, fun r other => only r (tokens r k n other)⟩

theorem Inv.finish {id : Nat} {seen : Option Nat} {todo : List Task} (h : Inv w)
    (holding : w.parties p = .holding id seen todo) (outcome : Outcome) :
    Inv ({ w with history := .ran p id seen :: w.history }.become p (.ran id outcome todo)) := by
  have mine : (w.parties p).Holds id := by
    rw [holding]
    rfl
  have holds : ∀ q k, (Function.update w.parties p (.ran id outcome todo) q).Holds k →
      (w.parties q).Holds k := by
    intro q k held
    by_cases same : q = p
    · rw [same, Function.update_self] at held
      rw [same, holding]
      exact held
    · rwa [Function.update_of_ne same] at held
  have tokens : ∀ q k n, (Function.update w.parties p (.ran id outcome todo) q).Token k n →
      q ≠ p ∧ (w.parties q).Token k n := by
    intro q k n held
    by_cases same : q = p
    · rw [same, Function.update_self] at held
      cases held
    · rw [Function.update_of_ne same] at held
      exact ⟨same, held⟩
  have led : ∀ n, seen = some n → (w.parties p).Token id n := by
    rintro n rfl
    rw [holding]
    exact ⟨rfl, rfl⟩
  refine ⟨?_, ?_, ?_, ?_, ?_, ?_, ?_, ?_, ?_, ?_, ?_, ?_⟩
  · intro q r k first second
    exact h.one q r k (holds q k first) (holds r k second)
  · intro q k held
    exact h.busy q k (holds q k held)
  · intro q k m ran
    rcases List.mem_cons.mp ran with same | before
    · cases same
      obtain ⟨row, found, -⟩ := h.busy p id mine
      exact ⟨row, found⟩
    · exact h.known q k m before
  · intro k row found pending
    apply fresh_cons (h.waiting k row found pending)
    intro q m same
    cases same
    obtain ⟨held, before, busy⟩ := h.busy p id mine
    cases before.symm.trans found
    exact busy pending
  · intro q k isDue
    by_cases same : q = p
    · rw [same, become_self] at isDue
      cases isDue
    · rw [become_other _ same] at isDue
      apply fresh_cons (h.due q k isDue)
      intro r m eq
      cases eq
      exact same (h.one q p id isDue.holds mine)
  · intro k delivered
    obtain ⟨row, free⟩ := h.rested k (List.mem_of_ne_of_mem (by simp) delivered)
    exact ⟨row, fun q held => free q (holds q k held)⟩
  · intro q k n redriven
    exact h.claims q k n (List.mem_of_ne_of_mem (by simp) redriven)
  · intro q k n held
    obtain ⟨ne, before⟩ := tokens q k n held
    obtain ⟨⟨r, redriven⟩, unrun, only⟩ := h.token q k n before
    refine ⟨⟨r, List.mem_cons_of_mem _ redriven⟩, ?_, fun s other => only s (tokens s k n other).2⟩
    intro s ran
    rcases List.mem_cons.mp ran with same | earlier
    · cases same
      exact ne (only p (led n rfl)).symm
    · exact unrun s earlier
  · intro q k n ran
    rcases List.mem_cons.mp ran with same | before
    · cases same
      obtain ⟨⟨r, redriven⟩, -⟩ := h.token p id n (led n rfl)
      exact ⟨r, List.mem_cons_of_mem _ redriven⟩
    · obtain ⟨r, redriven⟩ := h.backed q k n before
      exact ⟨r, List.mem_cons_of_mem _ redriven⟩
  · apply once_cons h.once
    intro q k m same
    cases same
    exact h.due p id (by rw [holding]; rfl)
  · refine List.pairwise_cons.mpr ⟨?_, h.alone⟩
    intro early mem q r k n late same
    cases late
    exact (h.token p id n (led n rfl)).2.1 r (same ▸ mem)
  · refine List.pairwise_cons.mpr ⟨?_, h.rests⟩
    intro early mem q k m same late
    cases late
    exact (h.rested id (same ▸ mem)).2 p mine

theorem Inv.redrive {id seen : Nat} (h : Inv w) (todo : List Task)
    (standing : ∃ row, outboxRow w.rows id = some row ∧ row.status = .claimed ∧
      row.attempts = seen)
    (gone : ∀ q, ¬(w.parties q).Holds id) :
    Inv ({ w with rows := outboxSettle w.rows id .pending none,
                  history := .redriven p id seen :: w.history }.become p
      (.reset id seen todo)) := by
  obtain ⟨row, found, claimed, attempts⟩ := standing
  have settled := outboxRow_settle id .pending none found
  rw [if_pos rfl] at settled
  have kept : ∀ k, k ≠ id → ∀ held, outboxRow w.rows k = some held →
      outboxRow (outboxSettle w.rows id .pending none) k = some held := by
    intro k ne held same
    have moved := outboxRow_settle id .pending none same
    rwa [if_neg ne] at moved
  have unredriven : ∀ q, .redriven q id seen ∉ w.history := by
    intro q mem
    obtain ⟨other, same, later | ⟨-, unclaimed⟩⟩ := h.claims q id seen mem
    · cases found.symm.trans same
      omega
    · cases found.symm.trans same
      exact unclaimed claimed
  have holds : ∀ q k, (Function.update w.parties p (.reset id seen todo) q).Holds k →
      (w.parties q).Holds k := by
    intro q k held
    by_cases same : q = p
    · rw [same, Function.update_self] at held
      cases held
    · rwa [Function.update_of_ne same] at held
  have tokens : ∀ q k n, (Function.update w.parties p (.reset id seen todo) q).Token k n →
      (q = p ∧ k = id ∧ n = seen) ∨ (w.parties q).Token k n := by
    intro q k n held
    by_cases same : q = p
    · rw [same, Function.update_self] at held
      exact Or.inl ⟨same, held.1.symm, held.2.symm⟩
    · rw [Function.update_of_ne same] at held
      exact Or.inr held
  have untoken : ∀ q, ¬(w.parties q).Token id seen := by
    intro q held
    obtain ⟨r, redriven⟩ := (h.token q id seen held).1
    exact unredriven r redriven
  refine ⟨?_, ?_, ?_, ?_, ?_, ?_, ?_, ?_, ?_, ?_, ?_, ?_⟩
  · intro q r k first second
    exact h.one q r k (holds q k first) (holds r k second)
  · intro q k held
    have before := holds q k held
    obtain ⟨other, same, busy⟩ := h.busy q k before
    have ne : k ≠ id := by
      rintro rfl
      exact gone q before
    exact ⟨other, kept k ne other same, busy⟩
  · intro q k m ran
    obtain ⟨other, same⟩ := h.known q k m (List.mem_of_ne_of_mem (by simp) ran)
    exact ⟨_, outboxRow_settle id .pending none same⟩
  · intro k other same pending
    by_cases eq : k = id
    · exact eq ▸ fresh_redriven p seen
    · obtain ⟨held, before, shape⟩ := outboxRow_of_settle same
      rw [if_neg eq] at shape
      exact fresh_cons (h.waiting k held before (shape ▸ pending)) (by simp)
  · intro q k isDue
    have before : (w.parties q).Due k := by
      by_cases same : q = p
      · rw [same, become_self] at isDue
        cases isDue
      · rwa [become_other _ same] at isDue
    exact fresh_cons (h.due q k before) (by simp)
  · intro k delivered
    obtain ⟨⟨other, same, rested⟩, free⟩ :=
      h.rested k (List.mem_of_ne_of_mem (by simp) delivered)
    have ne : k ≠ id := by
      rintro rfl
      cases found.symm.trans same
      exact rested.2 claimed
    exact ⟨⟨other, kept k ne other same, rested⟩, fun q held => free q (holds q k held)⟩
  · intro q k n redriven
    rcases List.mem_cons.mp redriven with same | before
    · cases same
      exact ⟨_, settled, Or.inr ⟨attempts.symm, by simp⟩⟩
    · obtain ⟨other, same, bound⟩ := h.claims q k n before
      by_cases eq : k = id
      · subst eq
        cases found.symm.trans same
        refine ⟨_, settled, Or.inl ?_⟩
        exact bound.resolve_right fun stale => stale.2 claimed
      · exact ⟨other, kept k eq other same, bound⟩
  · intro q k n held
    rcases tokens q k n held with ⟨rfl, rfl, rfl⟩ | before
    · refine ⟨⟨q, List.mem_cons_self⟩, ?_, ?_⟩
      · intro r ran
        obtain ⟨s, redriven⟩ := h.backed r k n (List.mem_of_ne_of_mem (by simp) ran)
        exact unredriven s redriven
      · intro r other
        rcases tokens r k n other with ⟨same, -⟩ | old
        · exact same
        · exact absurd old (untoken r)
    · obtain ⟨⟨r, redriven⟩, unrun, only⟩ := h.token q k n before
      refine ⟨⟨r, List.mem_cons_of_mem _ redriven⟩, ?_, ?_⟩
      · intro s ran
        exact unrun s (List.mem_of_ne_of_mem (by simp) ran)
      · intro s other
        rcases tokens s k n other with ⟨-, rfl, rfl⟩ | old
        · exact absurd before (untoken q)
        · exact only s old
  · intro q k n ran
    obtain ⟨r, redriven⟩ := h.backed q k n (List.mem_of_ne_of_mem (by simp) ran)
    exact ⟨r, List.mem_cons_of_mem _ redriven⟩
  · exact once_cons h.once (by simp)
  · exact List.pairwise_cons.mpr ⟨by simp, h.alone⟩
  · exact List.pairwise_cons.mpr ⟨by simp, h.rests⟩

theorem Inv.deliverRow {id : Nat} {seen : Option Nat} (h : Inv w)
    (led : ∀ n, seen = some n → (w.parties p).Token id n) (todo : List Task) :
    Inv (w.deliverRow p id seen todo) := by
  cases claimed : outboxClaim w.rows id with
  | none =>
    rw [World.deliverRow, claimed]
    exact h.ready p todo
  | some rows =>
    rw [World.deliverRow, claimed]
    exact h.claim claimed led todo

theorem Outcome.status_ne_pending (outcome : Outcome) : outcome.status ≠ .pending := by
  cases outcome <;> exact Status.noConfusion

theorem Outcome.status_ne_claimed (outcome : Outcome) : outcome.status ≠ .claimed := by
  cases outcome <;> exact Status.noConfusion

/-- The party that ran the row settles it. -/
theorem Inv.settleRan {id : Nat} {outcome : Outcome} {todo rest : List Task} (h : Inv w)
    (ran : w.parties p = .ran id outcome rest) :
    Inv ({ w with rows := outboxSettle w.rows id outcome.status outcome.error }.become p
      (.ready todo)) ∧
    Inv ({ w with rows := outboxSettle w.rows id .delivered none,
                  history := .delivered id :: w.history }.become p (.ready todo)) := by
  have mine : (w.parties p).Holds id := by
    rw [ran]
    rfl
  constructor
  · apply Inv.ready
    exact h.settle id outcome.status_ne_pending outcome.status_ne_claimed outcome.error
  · have settled := (h.settle id Outcome.delivered.status_ne_pending
      Outcome.delivered.status_ne_claimed none).ready p todo
    apply settled.delivered
    · obtain ⟨row, found, -⟩ := h.busy p id mine
      refine ⟨_, outboxRow_settle id .delivered none found, ?_⟩
      rw [if_pos rfl]
      exact ⟨by simp, by simp⟩
    · intro q held
      by_cases same : q = p
      · rw [same, become_self] at held
        cases held
      · rw [become_other _ same] at held
        exact same (h.one q p id held mine)

/-- One timely call of any party keeps the invariant. -/
theorem step_inv {a : Action} {w' : World} (timely : Timely w a) (stepped : step w a = some w')
    (h : Inv w) : Inv w' := by
  cases a with
  | enqueue party deliveryIds =>
    cases state : w.parties party <;> simp only [step, state] at stepped <;> try cases stepped
    rename_i todo
    cases todo <;> cases stepped
    exact (h.enqueue deliveryIds).ready party _
  | redrive party claimed withheld =>
    cases state : w.parties party <;> simp only [step, state] at stepped <;> try cases stepped
    rename_i todo
    cases todo <;> cases stepped
    exact h.ready party _
  | redriveRow party deliveryId age withheld =>
    cases state : w.parties party <;> simp only [step, state] at stepped <;> try cases stepped
    rename_i todo
    cases todo with
    | nil =>
      obtain ⟨held, -, rfl⟩ := Option.map_eq_some_iff.mp stepped
      exact h.ready party _
    | cons task todo => cases stepped
  | abandonRow party deliveryId age =>
    cases state : w.parties party <;> simp only [step, state] at stepped <;> try cases stepped
    rename_i todo
    cases todo with
    | nil =>
      obtain ⟨held, -, rfl⟩ := Option.map_eq_some_iff.mp stepped
      exact h.ready party _
    | cons task todo => cases stepped
  | next party age withheld =>
    cases state : w.parties party with
    | ready todo =>
      cases todo with
      | nil =>
        simp only [step, state] at stepped
        cases stepped
      | cons task todo =>
        simp only [step, state] at stepped
        cases stepped
        cases task with
        | deliver id => exact h.deliverRow (fun n none => by cases none) todo
        | redrive id seen =>
          rw [Timely, state] at timely
          exact h.redrive todo timely.1 timely.2
        | abandon id =>
          exact (h.settle id (by simp) (by simp) _).ready party todo
        | claimedRows claimed => exact h.ready party _
    | reset id seen todo =>
      simp only [step, state] at stepped
      cases stepped
      apply h.deliverRow
      intro n same
      cases same
      rw [state]
      exact ⟨rfl, rfl⟩
    | holding id seen todo =>
      simp only [step, state] at stepped
      cases stepped
    | ran id outcome todo =>
      simp only [step, state] at stepped
      cases stepped
      cases outcome with
      | delivered => exact (h.settleRan state).2
      | refused reason => exact (h.settleRan state).1
      | failed error => exact (h.settleRan state).1
  | finish party outcome =>
    cases state : w.parties party <;> simp only [step, state] at stepped <;> cases stepped
    exact h.finish state outcome
  | crash party =>
    cases stepped
    exact h.ready party []

theorem inv_start : Inv start := by
  constructor
  all_goals try exact List.Pairwise.nil
  · intro p q id held
    cases held
  · intro p id held
    cases held
  · intro p id seen ran
    cases ran
  · intro id row found
    simp [outboxRow, start] at found
  · intro p id isDue
    cases isDue
  · intro id delivered
    cases delivered
  · intro p id n redriven
    cases redriven
  · intro p id n held
    cases held
  · intro q id n ran
    cases ran
  · intro later p id seen earlier same
    cases later <;> cases same

theorem run_inv {actions : List Action} {w' : World} (timely : TimelyRun actions w)
    (ran : run actions w = some w') (h : Inv w) : Inv w' := by
  induction actions generalizing w with
  | nil =>
    cases ran
    exact h
  | cons a actions ih =>
    obtain ⟨u, stepped, rest⟩ := Option.bind_eq_some_iff.mp ran
    exact ih (timely.2 u stepped) rest (step_inv timely.1 stepped h)

end

/-- In every run whose redrives are timely, a row runs at most once between two redrives that found
it stalled, for at most one of those who saw it stalled, and never after it is delivered. -/
theorem timely_runs_once {actions : List Action} {w : World} (ran : run actions start = some w)
    (timely : TimelyRun actions start) :
    OncePerRedrive w.history ∧ OnePerStalled w.history ∧ DeliveredRests w.history := by
  have kept := run_inv timely ran inv_start
  exact ⟨kept.once, kept.alone, kept.rests⟩

/-- Party 0 claims the row and dies; party 1 finds it stalled, redrives and delivers it. -/
def crashedDelivery : List Action :=
  [.enqueue 0 ["d1"], .next 0 (fun _ => none) (fun _ => false), .crash 0,
    .redriveRow 1 "d1" none false, .next 1 (fun _ => none) (fun _ => false),
    .next 1 (fun _ => none) (fun _ => false), .finish 1 .delivered,
    .next 1 (fun _ => none) (fun _ => false)]

theorem crashed_delivery_runs_once : ∃ w, run crashedDelivery start = some w ∧
    w.history = [.delivered 1, .ran 1 1 (some 1), .redriven 1 1 1] ∧
    OncePerRedrive w.history ∧ OnePerStalled w.history ∧ DeliveredRests w.history := by
  refine ⟨_, rfl, rfl, @timely_runs_once crashedDelivery _ rfl ?_⟩
  refine ⟨trivial, fun w h => ?_⟩
  cases h
  refine ⟨trivial, fun w h => ?_⟩
  cases h
  refine ⟨trivial, fun w h => ?_⟩
  cases h
  refine ⟨trivial, fun w h => ?_⟩
  cases h
  refine ⟨⟨⟨_, rfl, rfl, rfl⟩, ?_⟩, fun w h => ?_⟩
  · intro q held
    rcases q with _ | _ | q <;> exact held
  cases h
  refine ⟨trivial, fun w h => ?_⟩
  cases h
  refine ⟨trivial, fun w h => ?_⟩
  cases h
  exact ⟨trivial, fun w h => trivial⟩

/-- Two operators find the row stalled before either resets it. -/
def twoOperators : List Action :=
  [.enqueue 0 ["d1"], .next 0 (fun _ => none) (fun _ => false), .crash 0,
    .redriveRow 1 "d1" none false, .redriveRow 2 "d1" none false,
    .next 1 (fun _ => none) (fun _ => false), .next 1 (fun _ => none) (fun _ => false),
    .finish 1 .delivered, .next 1 (fun _ => none) (fun _ => false),
    .next 2 (fun _ => none) (fun _ => false), .next 2 (fun _ => none) (fun _ => false),
    .finish 2 .delivered]

theorem both_operators_run : ∃ w, run twoOperators start = some w ∧
    ¬OnePerStalled w.history ∧ ¬DeliveredRests w.history := by
  refine ⟨_, rfl, ?_, ?_⟩
  · intro one
    have apart := (List.pairwise_cons.mp one).1 (.ran 1 1 (some 1)) (by decide)
    exact apart 2 1 1 1 rfl rfl
  · intro rests
    have apart := (List.pairwise_cons.mp rests).1 (.delivered 1) (by decide)
    exact apart 2 1 (some 1) rfl rfl

/-! ### What the rows say in every run, timely or not -/

def deliveries (rows : List Row) : List String := rows.map (·.deliveryId)

def Event.runs (id : Nat) : Event → Bool
  | .ran _ k _ => k = id
  | _ => false

/-- How often the consumer of the row was run. -/
def ranTimes (id : Nat) (history : List Event) : Nat := history.countP (Event.runs id)

/-- How often the row was claimed. -/
def attemptsOf (rows : List Row) (id : Nat) : Nat := (outboxRow rows id).elim 0 (·.attempts)

/-- A settled row's consumer was run, or an operator gave the delivery up. -/
def Row.Explained (row : Row) (runs : Nat) : Prop :=
  row.status = .pending ∨ row.status = .claimed ∨ 0 < runs ∨
    row.status = .failed ∧ row.error = some "abandoned by an operator, not redelivered"

/-- The deliveries a call enqueues. -/
def Action.asked : Action → List String
  | .enqueue _ deliveryIds => deliveryIds
  | _ => []

/-- What was enqueued is held once, each run and each claim still to be run out is an attempt of its
row, and what is settled is explained. -/
structure Books (asked : List String) (w : World) : Prop where
  distinct : (deliveries w.rows).Nodup
  held : ∀ d, d ∈ deliveries w.rows ↔ d ∈ asked
  counted : ∀ id (ps : List Nat), ps.Nodup → (∀ p ∈ ps, (w.parties p).Due id) →
    ps.length + ranTimes id w.history ≤ attemptsOf w.rows id
  explained : ∀ id row, outboxRow w.rows id = some row → row.Explained (ranTimes id w.history)
  ending : ∀ p id outcome todo, w.parties p = .ran id outcome todo → 0 < ranTimes id w.history

section

variable {w : World} {p id : Nat} {rows : List Row} {history : List Event} {state : Party}
  {asked : List String}

theorem deliveries_enqueue (deliveryIds : List String) (distinct : (deliveries rows).Nodup) :
    (deliveries (outboxEnqueue rows deliveryIds).1).Nodup ∧
      ∀ d, d ∈ deliveries (outboxEnqueue rows deliveryIds).1 ↔
        d ∈ deliveries rows ∨ d ∈ deliveryIds := by
  induction deliveryIds generalizing rows with
  | nil => exact ⟨distinct, fun d => by simp [outboxEnqueue]⟩
  | cons deliveryId rest ih =>
    have held_iff : (rows.any fun row => row.deliveryId == deliveryId) = true ↔
        deliveryId ∈ deliveries rows := by simp [deliveries]
    rw [outboxEnqueue]
    split
    · rename_i held
      obtain ⟨nodup, mem⟩ := ih distinct
      refine ⟨nodup, fun d => (mem d).trans ?_⟩
      have own : d = deliveryId → d ∈ deliveries rows := fun same => same ▸ held_iff.mp held
      rw [List.mem_cons, ← or_assoc, or_iff_left_of_imp own]
    · rename_i absent
      have longer : deliveries (rows ++ [⟨deliveryId, .pending, 0, none⟩]) =
          deliveries rows ++ [deliveryId] := List.map_append
      have distinct' : (deliveries rows ++ [deliveryId]).Nodup :=
        List.nodup_append_comm.mp (List.nodup_cons.mpr ⟨absent ∘ held_iff.mpr, distinct⟩)
      obtain ⟨nodup, mem⟩ := ih (longer ▸ distinct')
      refine ⟨nodup, fun d => (mem d).trans ?_⟩
      rw [longer, List.mem_append, List.mem_singleton, List.mem_cons, or_assoc]

theorem deliveries_put {row new : Row} (found : outboxRow rows id = some row)
    (same : new.deliveryId = row.deliveryId) :
    deliveries (put rows id new) = deliveries rows := by
  rw [outboxRow, if_neg (outboxRow_pos found)] at found
  obtain ⟨small, held⟩ := List.getElem?_eq_some_iff.mp found
  have kept : rows.set (id - 1) rows[id - 1] = rows := List.set_getElem_self small
  rw [put, deliveries, deliveries, List.map_set, same, ← held, ← List.map_set, kept]

theorem deliveries_settle (rows : List Row) (id : Nat) (status : Status) (error : Option String) :
    deliveries (outboxSettle rows id status error) = deliveries rows := by
  unfold outboxSettle
  cases found : outboxRow rows id with
  | none => rfl
  | some row => exact deliveries_put found rfl

theorem attemptsOf_settle (status : Status) (error : Option String) (other : Nat) :
    attemptsOf (outboxSettle rows id status error) other = attemptsOf rows other := by
  unfold attemptsOf
  cases found : outboxRow (outboxSettle rows id status error) other with
  | none =>
    cases held : outboxRow rows other with
    | none => rfl
    | some row => exact absurd ((outboxRow_settle id status error held).symm.trans found) (by simp)
  | some row =>
    obtain ⟨held, before, rfl⟩ := outboxRow_of_settle found
    rw [before]
    by_cases same : other = id <;> simp [same]

theorem attemptsOf_enqueue (deliveryIds : List String) (other : Nat) :
    attemptsOf (outboxEnqueue rows deliveryIds).1 other = attemptsOf rows other := by
  obtain ⟨kept, new⟩ := @outboxRow_enqueue rows deliveryIds
  unfold attemptsOf
  cases held : outboxRow rows other with
  | some row => rw [kept other row held]
  | none =>
    cases found : outboxRow (outboxEnqueue rows deliveryIds).1 other with
    | none => rfl
    | some row =>
      obtain before | ⟨-, -, zero⟩ := new other row found
      · cases before.symm.trans held
      · exact zero

theorem Row.Explained.more {row : Row} {m n : Nat} (h : row.Explained m) (le : m ≤ n) :
    row.Explained n :=
  h.imp_right fun h => h.imp_right fun h => h.imp_left fun ran => ran.trans_le le

theorem ranTimes_cons (e : Event) : ranTimes id history ≤ ranTimes id (e :: history) := by
  rw [ranTimes, ranTimes, List.countP_cons]
  exact Nat.le_add_right _ _

/-- A step that neither claims a row nor runs a consumer. -/
theorem Books.write {new : List String} (h : Books asked w) (distinct : (deliveries rows).Nodup)
    (held : ∀ d, d ∈ deliveries rows ↔ d ∈ asked ++ new)
    (attempts : ∀ id, attemptsOf rows id = attemptsOf w.rows id)
    (runs : ∀ id, ranTimes id history = ranTimes id w.history)
    (explained : ∀ id row, outboxRow rows id = some row → row.Explained (ranTimes id history))
    (quiet : ∀ id, ¬ state.Due id)
    (ending : ∀ id outcome todo, state = .ran id outcome todo → 0 < ranTimes id history) :
    Books (asked ++ new) ({ w with rows := rows, history := history }.become p state) := by
  refine ⟨distinct, held, fun id ps nodup due => ?_, explained, fun q id outcome todo at_end => ?_⟩
  · show ps.length + ranTimes id history ≤ attemptsOf rows id
    rw [attempts, runs]
    refine h.counted id ps nodup fun q mem => ?_
    have before := due q mem
    by_cases same : q = p
    · rw [same, become_self] at before
      exact absurd before (quiet id)
    · rwa [become_other _ same] at before
  · by_cases same : q = p
    · rw [same, become_self] at at_end
      exact ending id outcome todo at_end
    · rw [become_other _ same] at at_end
      exact (h.ending q id outcome todo at_end).trans_eq (runs id).symm

theorem Books.same (h : Books asked w) (same : deliveries rows = deliveries w.rows) (d : String) :
    d ∈ deliveries rows ↔ d ∈ asked ++ [] := by
  rw [same, List.append_nil]
  exact h.held d

theorem Books.settle {status : Status} {error : Option String} (h : Books asked w)
    (runs : ∀ id, ranTimes id history = ranTimes id w.history)
    (why : ∀ row : Row, row.status = status → row.error = error →
      row.Explained (ranTimes id w.history))
    (quiet : ∀ id, ¬ state.Due id) (going : ∀ id outcome todo, state ≠ .ran id outcome todo) :
    Books (asked ++ []) ({ w with rows := outboxSettle w.rows id status error,
                                  history := history }.become p state) := by
  have same := deliveries_settle w.rows id status error
  refine h.write (same ▸ h.distinct) (h.same same) (attemptsOf_settle status error)
    runs ?_ quiet fun _ _ _ at_end => absurd at_end (going _ _ _)
  intro other row found
  obtain ⟨held, before, rfl⟩ := outboxRow_of_settle found
  rw [runs]
  by_cases same : other = id
  · rw [if_pos same, same]
    exact why _ rfl rfl
  · rw [if_neg same]
    exact h.explained other held before

theorem Books.quiet (h : Books asked w) (quiet : ∀ id, ¬ state.Due id)
    (going : ∀ id outcome todo, state ≠ .ran id outcome todo) :
    Books (asked ++ []) (w.become p state) :=
  h.write h.distinct (h.same rfl) (fun _ => rfl) (fun _ => rfl) h.explained quiet
    fun _ _ _ at_end => absurd at_end (going _ _ _)

/-- The claim counts one attempt, for the party that holds the row from here on. -/
theorem Books.claim {seen : Option Nat} (h : Books asked w)
    (claimed : outboxClaim w.rows id = some rows) (todo : List Task) :
    Books asked ({ w with rows := rows }.become p (.holding id seen todo)) := by
  obtain ⟨row, found, pending, rfl⟩ := outboxClaim_some claimed
  have own := outboxRow_put found { row with status := .claimed, attempts := row.attempts + 1 }
  have others : ∀ other, other ≠ id → outboxRow (put w.rows id
      { row with status := .claimed, attempts := row.attempts + 1 }) other =
      outboxRow w.rows other := fun other ne => outboxRow_put_other (outboxRow_pos found) ne _
  have same : deliveries (put w.rows id
      { row with status := .claimed, attempts := row.attempts + 1 }) = deliveries w.rows :=
    deliveries_put found rfl
  refine ⟨same.symm ▸ h.distinct, fun d => same.symm ▸ h.held d, fun other ps nodup due => ?_,
    fun other held at_row => ?_, ?_⟩
  · have before : ∀ q ∈ ps, q ≠ p → (w.parties q).Due other := by
      intro q mem ne
      have := due q mem
      rwa [become_other _ ne] at this
    show ps.length + ranTimes other w.history ≤ attemptsOf (put w.rows id _) other
    by_cases same : other = id
    · subst same
      have counted := h.counted other (ps.erase p) (nodup.erase p) fun q mem =>
        before q (List.mem_of_mem_erase mem) (nodup.mem_erase_iff.mp mem).1
      have shorter : ps.length ≤ (ps.erase p).length + 1 := by
        rw [List.length_erase]
        split <;> omega
      rw [attemptsOf, found] at counted
      rw [attemptsOf, own]
      show ps.length + _ ≤ row.attempts + 1
      have counted : (ps.erase p).length + ranTimes other w.history ≤ row.attempts := counted
      omega
    · rw [attemptsOf, others other same]
      refine h.counted other ps nodup fun q mem => before q mem fun held => ?_
      have := due q mem
      rw [held, become_self] at this
      exact same this.symm
  · change outboxRow (put w.rows id _) other = _ at at_row
    by_cases same : other = id
    · subst same
      cases own.symm.trans at_row
      exact .inr (.inl rfl)
    · rw [others other same] at at_row
      exact h.explained other held at_row
  · intro q other outcome todo' at_end
    by_cases same : q = p
    · rw [same, become_self] at at_end
      cases at_end
    · rw [become_other _ same] at at_end
      exact h.ending q other outcome todo' at_end

/-- The consumer's run uses up the claim. -/
theorem Books.finish {seen : Option Nat} {todo : List Task} (h : Books asked w)
    (holding : w.parties p = .holding id seen todo) (outcome : Outcome) :
    Books asked ({ w with history := .ran p id seen :: w.history }.become p
      (.ran id outcome todo)) := by
  have counts : ∀ other, ranTimes other (.ran p id seen :: w.history) =
      ranTimes other w.history + if id = other then 1 else 0 := by
    intro other
    simp [ranTimes, Event.runs, List.countP_cons]
  refine ⟨h.distinct, h.held, fun other ps nodup due => ?_, fun other row found => ?_, ?_⟩
  · have absent : p ∉ ps := by
      intro mem
      have := due p mem
      rw [become_self] at this
      exact this
    have before : ∀ q ∈ ps, (w.parties q).Due other := by
      intro q mem
      have := due q mem
      rwa [become_other _ (ne_of_mem_of_not_mem mem absent)] at this
    show ps.length + ranTimes other (.ran p id seen :: w.history) ≤ attemptsOf w.rows other
    rw [counts]
    split
    · rename_i same
      have counted := h.counted other (p :: ps) (List.nodup_cons.mpr ⟨absent, nodup⟩) (by
        intro q mem
        obtain rfl | mem := List.mem_cons.mp mem
        · rw [holding]
          exact same
        · exact before q mem)
      rw [List.length_cons] at counted
      omega
    · exact h.counted other ps nodup before
  · exact (h.explained other row found).more (ranTimes_cons _)
  · intro q other outcome' todo' at_end
    by_cases same : q = p
    · rw [same, become_self] at at_end
      cases at_end
      show 0 < ranTimes id (.ran p id seen :: w.history)
      rw [counts, if_pos rfl]
      exact Nat.succ_pos _
    · rw [become_other _ same] at at_end
      exact (h.ending q other outcome' todo' at_end).trans_le (ranTimes_cons _)

theorem Books.deliverRow {seen : Option Nat} (h : Books asked w) (todo : List Task) :
    Books (asked ++ []) (w.deliverRow p id seen todo) := by
  unfold World.deliverRow
  cases claimed : outboxClaim w.rows id with
  | none => exact h.quiet (fun _ due => due) (by simp)
  | some rows => exact (List.append_nil asked).symm ▸ h.claim claimed todo

theorem step_books {a : Action} {w' : World} (h : Books asked w) (stepped : step w a = some w') :
    Books (asked ++ a.asked) w' := by
  cases a with
  | enqueue party deliveryIds =>
    cases state : w.parties party <;> simp only [step, state] at stepped <;> try cases stepped
    rename_i todo
    cases todo <;> cases stepped
    obtain ⟨distinct, mem⟩ := deliveries_enqueue deliveryIds h.distinct
    refine h.write distinct (fun d => ?_) (attemptsOf_enqueue deliveryIds) (fun _ => rfl) ?_
      (fun _ due => due) (by simp)
    · exact (mem d).trans ((or_congr_left (h.held d)).trans List.mem_append.symm)
    intro other row found
    obtain before | ⟨-, pending, -⟩ := (outboxRow_enqueue deliveryIds).2 other row found
    · exact h.explained other row before
    · exact .inl pending
  | redrive party claimed withheld =>
    cases state : w.parties party <;> simp only [step, state] at stepped <;> try cases stepped
    rename_i todo
    cases todo <;> cases stepped
    exact h.quiet (fun _ due => due) (by simp)
  | redriveRow party deliveryId age withheld =>
    cases state : w.parties party <;> simp only [step, state] at stepped <;> try cases stepped
    rename_i todo
    cases todo with
    | nil =>
      obtain ⟨held, -, rfl⟩ := Option.map_eq_some_iff.mp stepped
      exact h.quiet (fun _ due => due) (by simp)
    | cons task todo => cases stepped
  | abandonRow party deliveryId age =>
    cases state : w.parties party <;> simp only [step, state] at stepped <;> try cases stepped
    rename_i todo
    cases todo with
    | nil =>
      obtain ⟨held, -, rfl⟩ := Option.map_eq_some_iff.mp stepped
      exact h.quiet (fun _ due => due) (by simp)
    | cons task todo => cases stepped
  | next party age withheld =>
    cases state : w.parties party with
    | ready todo =>
      cases todo with
      | nil =>
        simp only [step, state] at stepped
        cases stepped
      | cons task todo =>
        simp only [step, state] at stepped
        cases stepped
        cases task with
        | deliver id => exact h.deliverRow todo
        | redrive id seen =>
          exact h.settle (fun _ => rfl) (fun _ pending _ => .inl pending) (fun _ due => due)
            (by simp)
        | abandon id =>
          exact h.settle (fun _ => rfl) (fun _ failed why => .inr (.inr (.inr ⟨failed, why⟩)))
            (fun _ due => due) (by simp)
        | claimedRows claimed => exact h.quiet (fun _ due => due) (by simp)
    | reset id seen todo =>
      simp only [step, state] at stepped
      cases stepped
      exact h.deliverRow todo
    | holding id seen todo =>
      simp only [step, state] at stepped
      cases stepped
    | ran id outcome todo =>
      simp only [step, state] at stepped
      cases stepped
      have ran := h.ending party id outcome todo state
      refine h.settle (fun _ => ?_) (fun _ _ _ => .inr (.inr (.inl ran))) (fun _ due => due)
        (by simp)
      cases outcome <;> rfl
  | finish party outcome =>
    cases state : w.parties party <;> simp only [step, state] at stepped <;> cases stepped
    exact (List.append_nil asked).symm ▸ h.finish state outcome
  | crash party =>
    cases stepped
    exact h.quiet (fun _ due => due) (by simp)

theorem run_books {actions : List Action} {w' : World} (h : Books asked w)
    (ran : run actions w = some w') : Books (asked ++ actions.flatMap Action.asked) w' := by
  induction actions generalizing w asked with
  | nil =>
    cases ran
    exact (List.append_nil asked).symm ▸ h
  | cons a actions ih =>
    obtain ⟨u, stepped, rest⟩ := Option.bind_eq_some_iff.mp ran
    rw [List.flatMap_cons, ← List.append_assoc]
    exact ih (step_books h stepped) rest

end

theorem books_start : Books [] start where
  distinct := List.nodup_nil
  held := fun d => Iff.rfl
  counted := fun id ps _ due => by
    cases ps with
    | nil => exact Nat.zero_le _
    | cons p ps => exact (due p List.mem_cons_self : False).elim
  explained := fun id row found => by simp [outboxRow, start] at found
  ending := fun p id outcome todo ran => by cases ran

/-- Whatever the parties do and wherever they end, each delivery that was enqueued is held once and
no other is; a consumer runs no more often than its row counts attempts; and no row is settled
unrun but by an operator's hand. -/
theorem rows_account {actions : List Action} {w : World} (ran : run actions start = some w) :
    (deliveries w.rows).Perm (actions.flatMap Action.asked).dedup ∧
      ∀ id row, outboxRow w.rows id = some row →
        ranTimes id w.history ≤ row.attempts ∧ row.Explained (ranTimes id w.history) := by
  have h : Books (actions.flatMap Action.asked) w := run_books books_start ran
  refine ⟨?_, fun id row found => ⟨?_, h.explained id row found⟩⟩
  · refine (List.perm_ext_iff_of_nodup h.distinct (List.nodup_dedup _)).mpr fun d => ?_
    exact (h.held d).trans List.mem_dedup.symm
  · have counted := h.counted id [] List.nodup_nil (by simp)
    rw [attemptsOf, found, List.length_nil, Nat.zero_add] at counted
    exact counted

/-- Two operators redrive the row of a relay that ended; it is run twice, in three attempts. -/
theorem two_operators_account : ∃ w, run twoOperators start = some w ∧
    (deliveries w.rows).Perm (twoOperators.flatMap Action.asked).dedup ∧
      ∀ id row, outboxRow w.rows id = some row →
        ranTimes id w.history ≤ row.attempts ∧ row.Explained (ranTimes id w.history) :=
  ⟨_, rfl, rows_account rfl⟩

end Hecks.Outbox
