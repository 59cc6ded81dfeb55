import Hecks.Lib.Joined
import Hecks.Dispatch.Command

/-! The identity of a saga dispatch, and what a repository that dedupes by it answers. -/
namespace Hecks.Saga.DispatchClaim

/-- What the identity reads of an emitted event. -/
structure MovingEvent where
  name : String
  id : String
  occurredAt : String
  deriving DecidableEq

/-- One dispatch of a leg: the saga instance, the trigger that selected the leg, the event that
moved it, and the dispatch's position within the leg. -/
structure Dispatch where
  processManager : String
  correlation : String
  trigger : String
  event : MovingEvent
  index : Nat
  deriving DecidableEq

namespace Dispatch

def texts (d : Dispatch) : List String :=
  [d.processManager, d.correlation, d.trigger, d.event.name, d.event.id, d.event.occurredAt]

def fields (d : Dispatch) : List String := d.texts ++ [toString d.index]

def key (d : Dispatch) : String := "/".intercalate d.fields

/-- The fields of one, cut at every slash, are those of the other, with a slash of one field in
another field. -/
def Regrouped (d d' : Dispatch) : Prop :=
  Joined.Regrouped '/' (d.fields.map String.toList) (d'.fields.map String.toList)

instance (d d' : Dispatch) : Decidable (Regrouped d d') :=
  inferInstanceAs (Decidable (Joined.Regrouped _ _ _))

theorem key_toList (d : Dispatch) :
    d.key.toList = ['/'].intercalate (d.fields.map String.toList) := by
  rw [key, String.toList_intercalate]
  rfl

theorem toString_index_inj {n m : Nat} (same : toString n = toString m) : n = m := by
  have digits : ∀ k : Nat, (toString k).toList = Nat.toDigits 10 k := by
    intro k
    rw [Nat.toString_eq_repr, Nat.toList_repr]
  have chars := congrArg String.toList same
  rw [digits, digits] at chars
  rw [← Nat.ofDigitChars_ten_toDigits (n := n), chars, Nat.ofDigitChars_ten_toDigits]

theorem slash_notMem_index (n : Nat) : '/' ∉ (toString n).toList := by
  rw [Nat.toString_eq_repr, Nat.toList_repr]
  intro mem
  have digit := Nat.isDigit_of_mem_toDigits (by norm_num) (by norm_num) mem
  exact absurd digit (by decide)

theorem fields_inj {d d' : Dispatch}
    (same : d.fields.map String.toList = d'.fields.map String.toList) : d = d' := by
  have texts := List.map_injective_iff.mpr (fun _ _ => String.toList_inj.mp) same
  rcases d with ⟨_, _, _, ⟨_, _, _⟩, _⟩
  rcases d' with ⟨_, _, _, ⟨_, _, _⟩, _⟩
  simp only [fields, Dispatch.texts, List.cons_append, List.nil_append, List.cons.injEq,
    and_true] at texts
  obtain ⟨rfl, rfl, rfl, rfl, rfl, rfl, index⟩ := texts
  rw [toString_index_inj index]

theorem fields_ne_nil (d : Dispatch) : d.fields.map String.toList ≠ [] := List.cons_ne_nil _ _

theorem key_ne_iff (d d' : Dispatch) : (d ≠ d' → d.key ≠ d'.key) ↔ ¬ Regrouped d d' := by
  have joined := @Joined.ne_iff_not_regrouped _ '/' _ _ _ d.fields_ne_nil d'.fields_ne_nil
  rw [← key_toList, ← key_toList] at joined
  rw [Regrouped, ← joined]
  constructor
  · intro apart ne same
    exact apart (fun eq => ne (by rw [eq])) (String.toList_inj.mp same)
  · intro apart ne same
    exact apart (fun eq => ne (fields_inj eq)) (by rw [same])

/-- Any six texts are those of a dispatch. -/
theorem exists_texts {ys : List (List Char)} (size : ys.length = 6) (index : Nat) :
    ∃ d : Dispatch, d.texts.map String.toList = ys ∧ d.index = index :=
  match ys, size with
  | [processManager, correlation, trigger, name, id, occurredAt], _ =>
      ⟨⟨.ofList processManager, .ofList correlation, .ofList trigger,
        ⟨.ofList name, .ofList id, .ofList occurredAt⟩, index⟩, by simp [texts], rfl⟩

/-- A dispatch has its key to itself exactly when no text of it has a slash in it. -/
theorem key_alone_iff (d : Dispatch) :
    (∀ d', d' ≠ d → d'.key ≠ d.key) ↔ ∀ text ∈ d.texts, '/' ∉ text.toList := by
  constructor
  · intro alone text mem inside
    obtain ⟨ys, size, differ, pieces⟩ := @Joined.exists_regrouped _ '/' _ _ _
      (List.mem_map_of_mem mem) inside (by simp [texts])
    obtain ⟨d', written, index⟩ := exists_texts (by simpa [texts] using size) d.index
    refine alone d' ?_ ?_
    · rintro rfl
      exact differ written.symm
    · rw [← String.toList_inj, key_toList, key_toList,
        Joined.intercalate_eq_iff d'.fields_ne_nil d.fields_ne_nil]
      simp only [fields, List.map_append, Joined.pieces_append, written, pieces, index]
  · intro free d' ne
    refine (key_ne_iff d d').mpr ?_ ne.symm ∘ Eq.symm
    refine Joined.not_regrouped_of_free ?_ rfl
    intro field mem
    obtain ⟨text, inside, rfl⟩ := List.mem_map.mp mem
    obtain mem | mem := List.mem_append.mp inside
    · exact free text mem
    · rw [List.mem_singleton.mp mem]
      exact slash_notMem_index d.index

end Dispatch

/-- What the steps of one attempt fill in: `facts` is all but the emitted events. -/
structure Working (C E : Type) where
  facts : C
  result : Option (List E)

structure Context (C E : Type) extends Working C E where
  dispatchKey : Option String
  dryRun : Bool

inductive Failure (ε : Type) where
  | staleWrite
  | raised (error : ε)

/-- `dedupes`: `:dispatch_claims` is among the capabilities. -/
structure Repository (S : Type) where
  rows : S
  claims : List String
  dedupes : Bool

/-- The handlers of the steps, and the enqueueing of the emitted events. None of them touches the
claims. -/
structure Handlers (C E S ε : Type) where
  step : AggregateStep → Context C E → S → Except (Failure ε) (Working C E) × S
  enqueueOutbox : Context C E → S → Except (Failure ε) (Working C E) × S

/-- How a dispatch is answered: it had been applied, another delivery claimed it first, or every
step ran. -/
inductive Answer (C E : Type) where
  | alreadyApplied
  | beaten (ctx : Context C E)
  | settled (ctx : Context C E)

variable {C E S ε α : Type}

/-- Nothing was saved and no events are answered. -/
def Answer.repeated : Answer C E → Bool
  | alreadyApplied | beaten _ => true
  | settled _ => false

namespace Repository

def dispatchApplied (repo : Repository S) (key : String) : Bool := repo.claims.contains key

def dispatchClaim (repo : Repository S) (key : String) : Bool × Repository S :=
  if repo.claims.contains key then (false, repo)
  else (true, { repo with claims := repo.claims ++ [key] })

/-- A raised failure takes everything back. -/
def transaction (repo : Repository S)
    (body : Repository S → Except (Failure ε) α × Repository S) :
    Except (Failure ε) α × Repository S :=
  match body repo with
  | (.ok a, after) => (.ok a, after)
  | (.error e, _) => (.error e, repo)

/-- The key a dispatch is deduped by, if it is. -/
def keyedDispatch (repo : Repository S) (ctx : Context C E) : Option String :=
  if !ctx.dryRun && repo.dedupes then ctx.dispatchKey else none

end Repository

namespace Handlers

variable (H : Handlers C E S ε)

def runSteps : List AggregateStep → Context C E → S → Except (Failure ε) (Context C E) × S
  | [], ctx, rows => (.ok ctx, rows)
  | name :: steps, ctx, rows =>
      match H.step name ctx rows with
      | (.ok done, rows) => runSteps steps { ctx with toWorking := done } rows
      | (.error e, rows) => (.error e, rows)

/-- The steps, and the outbox rows of what they emitted. -/
def applySteps (steps : List AggregateStep) (ctx : Context C E) (repo : Repository S) :
    Except (Failure ε) (Answer C E) × Repository S :=
  match H.runSteps steps ctx repo.rows with
  | (.error e, rows) => (.error e, { repo with rows := rows })
  | (.ok ctx, rows) =>
      if ctx.dryRun then (.ok (.settled ctx), { repo with rows := rows })
      else
        match H.enqueueOutbox ctx rows with
        | (.error e, rows) => (.error e, { repo with rows := rows })
        | (.ok done, rows) =>
            (.ok (.settled { ctx with toWorking := done }), { repo with rows := rows })

/-- From the save on. A delivery that lost the claim applies nothing. -/
def runTransactionalSteps (steps : List AggregateStep) (ctx : Context C E)
    (repo : Repository S) : Except (Failure ε) (Answer C E) × Repository S :=
  match repo.keyedDispatch ctx with
  | none => H.applySteps steps ctx repo
  | some key =>
      match repo.dispatchClaim key with
      | (false, repo) => (.ok (.beaten { ctx with result := some [] }), repo)
      | (true, repo) => H.applySteps steps ctx repo

/-- `save` onward shares one transaction. -/
def runCommitting (order : List AggregateStep) (ctx : Context C E) (repo : Repository S) :
    Except (Failure ε) (Answer C E) × Repository S :=
  match order.idxOf? .save with
  | none =>
      match H.runSteps order ctx repo.rows with
      | (.error e, rows) => (.error e, { repo with rows := rows })
      | (.ok ctx, rows) => (.ok (.settled ctx), { repo with rows := rows })
  | some split =>
      match H.runSteps (order.take split) ctx repo.rows with
      | (.error e, rows) => (.error e, { repo with rows := rows })
      | (.ok ctx, rows) =>
          { repo with rows := rows }.transaction (H.runTransactionalSteps (order.drop split) ctx)

def dispatchOnce (ctx : Context C E) (repo : Repository S) :
    Except (Failure ε) (Answer C E) × Repository S :=
  if (repo.keyedDispatch ctx).any repo.dispatchApplied then (.ok .alreadyApplied, repo)
  else H.runCommitting AggregateStep.ORDER ctx repo

end Handlers

def maxStaleWriteRetries : Nat := 5

/-- A dispatch as it reaches the repository: a saga's with its identity, another's without.
`facts` is what each attempt starts from. -/
structure Delivery (C : Type) where
  dispatch : Option Dispatch
  dryRun : Bool
  facts : Nat → C

namespace Delivery

def newContext (delivery : Delivery C) (attempt : Nat) : Context C E where
  dispatchKey := delivery.dispatch.map Dispatch.key
  dryRun := delivery.dryRun
  facts := delivery.facts attempt
  result := none

end Delivery

namespace Handlers

variable (H : Handlers C E S ε)

/-- A stale write is tried again while tries are left. -/
def attemptFrom (delivery : Delivery C) : Nat → Nat → Repository S →
    Except (Failure ε) (Answer C E) × Repository S
  | 0, _, repo => (.error .staleWrite, repo)
  | left + 1, attempt, repo =>
      match H.dispatchOnce (delivery.newContext attempt) repo with
      | (.error .staleWrite, repo) => attemptFrom delivery left (attempt + 1) repo
      | answered => answered

def call (delivery : Delivery C) (repo : Repository S) :
    Except (Failure ε) (Answer C E) × Repository S :=
  H.attemptFrom delivery maxStaleWriteRetries 0 repo

/-- The deliveries one after the other, each with its answer. -/
def deliverAll : List (Delivery C) → Repository S →
    List (Delivery C × Except (Failure ε) (Answer C E))
  | [], _ => []
  | delivery :: rest, repo =>
      (delivery, (H.call delivery repo).1) :: deliverAll rest (H.call delivery repo).2

theorem runSteps_identity {steps : List AggregateStep} {ctx after : Context C E} {rows rows' : S}
    (ran : H.runSteps steps ctx rows = (.ok after, rows')) :
    after.dispatchKey = ctx.dispatchKey ∧ after.dryRun = ctx.dryRun := by
  induction steps generalizing ctx rows with
  | nil =>
    cases ran
    exact ⟨rfl, rfl⟩
  | cons name steps ih =>
    rw [runSteps] at ran
    cases stepped : H.step name ctx rows with
    | mk outcome rows'' =>
      rw [stepped] at ran
      cases outcome with
      | error e => cases ran
      | ok done =>
        obtain ⟨key, dry⟩ := ih ran
        exact ⟨key, dry⟩

/-- What a dispatch deduped by `key` may do to the claims: it adds its own key and nothing else,
where every step of it ran, and it is answered as repeated only for a key that is held. -/
structure Claimed (key : Option String) (repo : Repository S)
    (run : Except (Failure ε) (Answer C E) × Repository S) : Prop where
  dedupes : run.2.dedupes = repo.dedupes
  held : ∀ k ∈ run.2.claims, k ∈ repo.claims ∨
    (key = some k ∧ ∃ answer, run.1 = .ok answer ∧ answer.repeated = false)
  repeated : ∀ answer, run.1 = .ok answer → answer.repeated = true → ∃ k ∈ repo.claims, key = some k

theorem Claimed.error {key : Option String} {repo after : Repository S} {e : Failure ε}
    (dedupes : after.dedupes = repo.dedupes) (kept : after.claims = repo.claims) :
    Claimed key repo ((.error e, after) : Except (Failure ε) (Answer C E) × Repository S) where
  dedupes := dedupes
  held k mem := .inl (kept ▸ mem)
  repeated := by
    rintro answer ⟨⟩

theorem Claimed.settled {key : Option String} {repo after : Repository S} {ctx : Context C E}
    (dedupes : after.dedupes = repo.dedupes)
    (held : ∀ k ∈ after.claims, k ∈ repo.claims ∨ key = some k) :
    Claimed key repo
      ((.ok (.settled ctx), after) : Except (Failure ε) (Answer C E) × Repository S) where
  dedupes := dedupes
  held k mem := (held k mem).imp_right fun same => ⟨same, _, rfl, rfl⟩
  repeated := by
    rintro answer ⟨⟩ ⟨⟩

/-- What a failed body did is taken back. -/
theorem Claimed.transaction {key : Option String} {repo : Repository S}
    {body : Repository S → Except (Failure ε) (Answer C E) × Repository S}
    (h : (∃ e after, body repo = (.error e, after)) ∨ Claimed key repo (body repo)) :
    Claimed key repo (repo.transaction body) := by
  unfold Repository.transaction
  cases ran : body repo with
  | mk outcome after =>
    cases outcome with
    | error e => exact .error rfl rfl
    | ok answer =>
      obtain ⟨e, after, failed⟩ | claimed := h
      · rw [failed] at ran
        cases ran
      · rw [ran] at claimed
        exact claimed

theorem applySteps_claimed {key : Option String} {steps : List AggregateStep} {ctx : Context C E}
    {repo before : Repository S} (dedupes : repo.dedupes = before.dedupes)
    (held : ∀ k ∈ repo.claims, k ∈ before.claims ∨ key = some k) :
    (∃ e after, H.applySteps steps ctx repo = (.error e, after)) ∨
      Claimed key before (H.applySteps steps ctx repo) := by
  rw [applySteps]
  cases H.runSteps steps ctx repo.rows with
  | mk outcome rows =>
    cases outcome with
    | error e => exact .inl ⟨e, _, rfl⟩
    | ok after =>
      by_cases dry : after.dryRun = true
      · simp only [dry, if_true]
        exact .inr (.settled dedupes held)
      · simp only [dry]
        cases H.enqueueOutbox after rows with
        | mk outcome rows =>
          cases outcome with
          | error e => exact .inl ⟨e, _, rfl⟩
          | ok done => exact .inr (.settled dedupes held)

theorem runTransactionalSteps_claimed {steps : List AggregateStep} {ctx : Context C E}
    {repo : Repository S} :
    (∃ e after, H.runTransactionalSteps steps ctx repo = (.error e, after)) ∨
      Claimed (repo.keyedDispatch ctx) repo (H.runTransactionalSteps steps ctx repo) := by
  unfold runTransactionalSteps
  cases keyed : repo.keyedDispatch ctx with
  | none => exact H.applySteps_claimed rfl fun k mem => .inl mem
  | some key =>
    by_cases mem : repo.claims.contains key = true
    · simp only [Repository.dispatchClaim, mem, if_true]
      refine .inr ⟨rfl, fun k mem => .inl mem, ?_⟩
      rintro answer ⟨⟩ -
      exact ⟨key, List.contains_iff_mem.mp mem, rfl⟩
    · simp only [Repository.dispatchClaim, mem]
      refine H.applySteps_claimed rfl ?_
      intro k inside
      refine (List.mem_append.mp inside).imp_right fun new => ?_
      rw [List.mem_singleton.mp new]

theorem runCommitting_claimed {order : List AggregateStep} {ctx : Context C E}
    {repo : Repository S} :
    Claimed (repo.keyedDispatch ctx) repo (H.runCommitting order ctx repo) := by
  unfold runCommitting
  cases order.idxOf? .save with
  | none =>
    dsimp only
    cases H.runSteps order ctx repo.rows with
    | mk outcome rows =>
      cases outcome with
      | error e => exact .error rfl rfl
      | ok after => exact .settled rfl fun k mem => .inl mem
  | some split =>
    dsimp only
    cases ran : H.runSteps (order.take split) ctx repo.rows with
    | mk outcome rows =>
      cases outcome with
      | error e => exact .error rfl rfl
      | ok after =>
        obtain ⟨key, dry⟩ := H.runSteps_identity ran
        have same : ({ repo with rows := rows } : Repository S).keyedDispatch after =
            repo.keyedDispatch ctx := by
          simp only [Repository.keyedDispatch, key, dry]
        have claimed := Claimed.transaction
          (@runTransactionalSteps_claimed _ _ _ _ H (order.drop split) after
            { repo with rows := rows })
        rw [same] at claimed
        exact ⟨claimed.dedupes, claimed.held, claimed.repeated⟩

theorem dispatchOnce_claimed (ctx : Context C E) (repo : Repository S) :
    Claimed (repo.keyedDispatch ctx) repo (H.dispatchOnce ctx repo) := by
  unfold dispatchOnce
  by_cases applied : (repo.keyedDispatch ctx).any repo.dispatchApplied = true
  · rw [if_pos applied]
    obtain ⟨key, keyed, mem⟩ := (Option.any_eq_true _ _).mp applied
    refine ⟨rfl, fun k mem => .inl mem, ?_⟩
    rintro answer ⟨⟩ -
    exact ⟨key, List.contains_iff_mem.mp mem, keyed⟩
  · rw [if_neg applied]
    exact H.runCommitting_claimed

/-- The key a delivery is deduped by, whichever attempt it is. -/
def keyOf (delivery : Delivery C) (dedupes : Bool) : Option String :=
  if !delivery.dryRun && dedupes then delivery.dispatch.map Dispatch.key else none

theorem attemptFrom_claimed (delivery : Delivery C) (left attempt : Nat) (repo : Repository S) :
    Claimed (keyOf delivery repo.dedupes) repo (H.attemptFrom delivery left attempt repo) := by
  induction left generalizing attempt repo with
  | zero => exact .error rfl rfl
  | succ left ih =>
    have key : repo.keyedDispatch (delivery.newContext attempt : Context C E) =
        keyOf delivery repo.dedupes := rfl
    have once := H.dispatchOnce_claimed (delivery.newContext attempt) repo
    rw [key] at once
    rw [attemptFrom]
    cases answered : H.dispatchOnce (delivery.newContext attempt) repo with
    | mk outcome after =>
      rw [answered] at once
      cases outcome with
      | ok answer => exact once
      | error failure =>
        cases failure with
        | raised e => exact once
        | staleWrite =>
          have fewer : ∀ k ∈ after.claims, k ∈ repo.claims := by
            intro k mem
            obtain old | ⟨-, answer, answered, -⟩ := once.held k mem
            · exact old
            · cases answered
          have again := ih (attempt + 1) after
          rw [once.dedupes] at again
          refine ⟨again.dedupes.trans once.dedupes, ?_, ?_⟩
          · intro k mem
            exact (again.held k mem).imp_left (fewer k)
          · intro answer said repeated
            obtain ⟨k, mem, key⟩ := again.repeated answer said repeated
            exact ⟨k, fewer k mem, key⟩

end Handlers

/-- The delivery was one of dispatch `d`, and every step of it ran. -/
def Applied (d : Dispatch) (entry : Delivery C × Except (Failure ε) (Answer C E)) : Prop :=
  entry.1.dispatch = some d ∧ entry.1.dryRun = false ∧
    ∃ answer, entry.2 = .ok answer ∧ answer.repeated = false

theorem dispatch_of_keyOf {delivery : Delivery C} {dedupes : Bool} {k : String}
    (key : Handlers.keyOf delivery dedupes = some k) :
    ∃ d, delivery.dispatch = some d ∧ delivery.dryRun = false ∧ d.key = k := by
  unfold Handlers.keyOf at key
  split at key
  · rename_i deduped
    obtain ⟨d, some, key⟩ := Option.map_eq_some_iff.mp key
    refine ⟨d, some, ?_, key⟩
    simpa using (Bool.and_eq_true_iff.mp deduped).1
  · cases key

/-- Each key held is that of a dispatch applied before, so that a dispatch answered as repeated
has the key of one. -/
theorem deliverAll_repeated (H : Handlers C E S ε) {deliveries : List (Delivery C)}
    {repo : Repository S} {past : List (Delivery C × Except (Failure ε) (Answer C E))}
    (known : ∀ k ∈ repo.claims, ∃ d, d.key = k ∧ ∃ entry ∈ past, Applied d entry)
    {before after : List (Delivery C × Except (Failure ε) (Answer C E))} {delivery : Delivery C}
    {answer : Answer C E}
    (run : H.deliverAll deliveries repo = before ++ (delivery, .ok answer) :: after)
    (repeated : answer.repeated = true) :
    ∃ d d', delivery.dispatch = some d ∧ d'.key = d.key ∧
      ∃ entry ∈ past ++ before, Applied d' entry := by
  induction deliveries generalizing repo past before with
  | nil => cases before <;> cases run
  | cons first rest ih =>
    have claimed := H.attemptFrom_claimed first maxStaleWriteRetries 0 repo
    rw [Handlers.deliverAll] at run
    cases before with
    | nil =>
      obtain ⟨here, -⟩ := List.cons.inj run
      obtain ⟨rfl, said⟩ := Prod.mk.inj here
      obtain ⟨k, held, key⟩ := claimed.repeated answer said repeated
      obtain ⟨d, some, -, rfl⟩ := dispatch_of_keyOf key
      obtain ⟨d', same, entry, mem, applied⟩ := known _ held
      exact ⟨d, d', some, same, entry, List.mem_append_left _ mem, applied⟩
    | cons entry before =>
      obtain ⟨here, later⟩ := List.cons.inj run
      have next := @ih _ (past ++ [entry]) ?_ before later
      · rwa [List.append_assoc] at next
      · intro k mem
        obtain old | ⟨key, answer, said, ran⟩ := claimed.held k mem
        · obtain ⟨d, same, entry, mem, applied⟩ := known k old
          exact ⟨d, same, entry, List.mem_append_left _ mem, applied⟩
        · obtain ⟨d, some, dry, same⟩ := dispatch_of_keyOf key
          refine ⟨d, same, entry, by simp, ?_⟩
          rw [← here]
          exact ⟨some, dry, answer, said, ran⟩

/-- The dispatches answered come from the deliveries. -/
theorem deliverAll_fst (H : Handlers C E S ε) (deliveries : List (Delivery C))
    (repo : Repository S) : (H.deliverAll deliveries repo).map Prod.fst = deliveries := by
  induction deliveries generalizing repo with
  | nil => rfl
  | cons first rest ih => rw [Handlers.deliverAll, List.map_cons, ih]

/-- No dispatch of the deliveries is a regrouping of another. -/
def Distinguished (deliveries : List (Delivery C)) : Prop :=
  ∀ one ∈ deliveries, ∀ other ∈ deliveries, ∀ d d', one.dispatch = some d →
    other.dispatch = some d' → ¬ d.Regrouped d'

/-- Two dispatches that differ have different keys exactly when neither is a regrouping of the
other at the slashes, and a dispatch has its key to itself exactly when its texts have no slash.
In a run without regroupings, a dispatch is answered as repeated only after it was applied
itself. -/
theorem claims_told_apart (H : Handlers C E S ε) :
    (∀ d d' : Dispatch, (d ≠ d' → d.key ≠ d'.key) ↔ ¬ d.Regrouped d') ∧
    (∀ d : Dispatch, (∀ d', d' ≠ d → d'.key ≠ d.key) ↔ ∀ text ∈ d.texts, '/' ∉ text.toList) ∧
    ∀ (deliveries : List (Delivery C)) (repo : Repository S), repo.claims = [] →
      Distinguished deliveries →
      ∀ before delivery answer after,
        H.deliverAll deliveries repo = before ++ (delivery, .ok answer) :: after →
        answer.repeated = true →
        ∃ d, delivery.dispatch = some d ∧ ∃ entry ∈ before, Applied d entry := by
  refine ⟨Dispatch.key_ne_iff, Dispatch.key_alone_iff, ?_⟩
  intro deliveries repo fresh distinguished before delivery answer after run repeated
  have known : ∀ k ∈ repo.claims, ∃ d : Dispatch, d.key = k ∧
      ∃ entry ∈ ([] : List (Delivery C × Except (Failure ε) (Answer C E))), Applied d entry := by
    intro k mem
    rw [fresh] at mem
    cases mem
  obtain ⟨d, d', asked, same, entry, mem, applied⟩ := deliverAll_repeated H known run repeated
  rw [List.nil_append] at mem
  have among := deliverAll_fst H deliveries repo
  rw [run] at among
  have one : entry.1 ∈ deliveries := by
    rw [← among]
    exact List.mem_map_of_mem (List.mem_append_left _ mem)
  have other : delivery ∈ deliveries := by
    rw [← among]
    exact List.mem_map_of_mem (f := Prod.fst)
      (List.mem_append_right before (List.mem_cons_self (a := (delivery, Except.ok answer))))
  have eq : d' = d := by
    by_contra differ
    have apart := distinguished entry.1 one delivery other d' d applied.1 asked
    exact (Dispatch.key_ne_iff d' d).mpr apart differ same
  exact ⟨d, asked, entry, mem, eq ▸ applied⟩

/-- Each save counts one up. -/
def counting : Handlers Unit Unit Nat Empty where
  step name ctx rows := (.ok ctx.toWorking, if name = .save then rows + 1 else rows)
  enqueueOutbox ctx rows := (.ok ctx.toWorking, rows)

def placed (correlation id : String) : Delivery Unit where
  dispatch := some ⟨"Fulfilment", correlation, "Placed", ⟨"Placed", id, "2024-05-01T10:00:00Z"⟩, 0⟩
  dryRun := false
  facts _ := ()

def ran (correlation id : String) : Delivery Unit × Except (Failure Empty) (Answer Unit Unit) :=
  (placed correlation id, .ok (.settled ((placed correlation id).newContext 0)))

theorem redelivered_once :
    ∃ d, (placed "o-1" "o-1").dispatch = some d ∧
      ∃ entry ∈ [ran "o-1" "o-1"], Applied d entry := by
  refine (claims_told_apart counting).2.2 [placed "o-1" "o-1", placed "o-1" "o-1"] ⟨0, [], true⟩
    rfl ?_ [ran "o-1" "o-1"] _ .alreadyApplied [] rfl rfl
  intro one mem other mem' d d' asked asked'
  obtain rfl : one = placed "o-1" "o-1" := by simpa using mem
  obtain rfl : other = placed "o-1" "o-1" := by simpa using mem'
  cases asked
  cases asked'
  decide

/-- An id with the trigger in it makes two dispatches one: the second is answered as applied. -/
theorem slashes_collide :
    ∃ d d' : Dispatch, d ≠ d' ∧ d.key = d'.key ∧
      (placed "a" "Placed/Placed/b").dispatch = some d ∧
      (placed "a/Placed/Placed" "b").dispatch = some d' ∧
      counting.deliverAll [placed "a" "Placed/Placed/b", placed "a/Placed/Placed" "b"]
          ⟨0, [], true⟩ =
        [ran "a" "Placed/Placed/b", (placed "a/Placed/Placed" "b", .ok .alreadyApplied)] :=
  ⟨_, _, by decide, by decide, rfl, rfl, rfl⟩

/-! ### The same dispatch again -/

namespace Handlers

variable (H : Handlers C E S ε)

/-- The repository after the deliveries. -/
def leaves (deliveries : List (Delivery C)) (repo : Repository S) : Repository S :=
  deliveries.foldl (fun repo delivery => (H.call delivery repo).2) repo

/-- What a run does for the claims: it loses none, and holds its own where every step of it ran. -/
structure Marks (key : Option String) (repo : Repository S)
    (run : Except (Failure ε) (Answer C E) × Repository S) : Prop where
  kept : repo.claims ⊆ run.2.claims
  own : ∀ answer, run.1 = .ok answer → answer.repeated = false → ∀ k, key = some k →
    k ∈ run.2.claims

theorem Marks.failed {key : Option String} {repo after : Repository S} {e : Failure ε}
    (kept : repo.claims ⊆ after.claims) :
    Marks key repo ((.error e, after) : Except (Failure ε) (Answer C E) × Repository S) where
  kept := kept
  own := by
    rintro answer ⟨⟩

theorem applySteps_claims (steps : List AggregateStep) (ctx : Context C E) (repo : Repository S) :
    (H.applySteps steps ctx repo).2.claims = repo.claims := by
  rw [applySteps]
  split
  · rfl
  · split
    · rfl
    · split <;> rfl

theorem runTransactionalSteps_marks (steps : List AggregateStep) (ctx : Context C E)
    (repo : Repository S) :
    Marks (repo.keyedDispatch ctx) repo (H.runTransactionalSteps steps ctx repo) := by
  unfold runTransactionalSteps
  cases repo.keyedDispatch ctx with
  | none =>
    refine ⟨(H.applySteps_claims steps ctx repo).symm ▸ List.Subset.refl _, ?_⟩
    rintro answer - - k ⟨⟩
  | some key =>
    by_cases mem : repo.claims.contains key = true
    · simp only [Repository.dispatchClaim, mem, if_true]
      refine ⟨List.Subset.refl _, ?_⟩
      rintro answer - - k ⟨⟩
      exact List.contains_iff_mem.mp mem
    · simp only [Repository.dispatchClaim, mem]
      have claims := H.applySteps_claims steps ctx { repo with claims := repo.claims ++ [key] }
      refine ⟨claims.symm ▸ List.subset_append_left _ _, ?_⟩
      rintro answer - - k ⟨⟩
      exact claims.symm ▸ List.mem_append_right _ (List.mem_singleton_self key)

theorem runCommitting_marks {order : List AggregateStep} {split : Nat}
    (saves : order.idxOf? .save = some split) (ctx : Context C E) (repo : Repository S) :
    Marks (repo.keyedDispatch ctx) repo (H.runCommitting order ctx repo) := by
  unfold runCommitting
  rw [saves]
  dsimp only
  cases ran : H.runSteps (order.take split) ctx repo.rows with
  | mk outcome rows =>
    cases outcome with
    | error e => exact .failed (List.Subset.refl _)
    | ok after =>
      obtain ⟨key, dry⟩ := H.runSteps_identity ran
      have same : ({ repo with rows := rows } : Repository S).keyedDispatch after =
          repo.keyedDispatch ctx := by
        simp only [Repository.keyedDispatch, key, dry]
      have marks := H.runTransactionalSteps_marks (order.drop split) after
        { repo with rows := rows }
      rw [same] at marks
      unfold Repository.transaction
      dsimp only
      split
      · rename_i answer end_ finished
        rw [finished] at marks
        exact ⟨marks.kept, marks.own⟩
      · exact .failed (List.Subset.refl _)

theorem dispatchOnce_marks (ctx : Context C E) (repo : Repository S) :
    Marks (repo.keyedDispatch ctx) repo (H.dispatchOnce ctx repo) := by
  unfold dispatchOnce
  by_cases applied : (repo.keyedDispatch ctx).any repo.dispatchApplied = true
  · rw [if_pos applied]
    refine ⟨List.Subset.refl _, ?_⟩
    rintro answer ⟨⟩ ⟨⟩
  · rw [if_neg applied]
    have saves : AggregateStep.ORDER.idxOf? .save = some _ := rfl
    exact H.runCommitting_marks saves ctx repo

theorem attemptFrom_marks (delivery : Delivery C) (left attempt : Nat) (repo : Repository S) :
    Marks (keyOf delivery repo.dedupes) repo (H.attemptFrom delivery left attempt repo) := by
  induction left generalizing attempt repo with
  | zero => exact .failed (List.Subset.refl _)
  | succ left ih =>
    have once : Marks (keyOf delivery repo.dedupes) repo _ :=
      H.dispatchOnce_marks (delivery.newContext attempt) repo
    have dedupes := (H.dispatchOnce_claimed (delivery.newContext attempt) repo).dedupes
    rw [attemptFrom]
    cases answered : H.dispatchOnce (delivery.newContext attempt) repo with
    | mk outcome after =>
      rw [answered] at once dedupes
      cases outcome with
      | ok answer => exact once
      | error failure =>
        cases failure with
        | raised e => exact once
        | staleWrite =>
          have again := ih (attempt + 1) after
          rw [dedupes] at again
          exact ⟨List.Subset.trans once.kept again.kept, again.own⟩

theorem leaves_keeps (deliveries : List (Delivery C)) (repo : Repository S) :
    (H.leaves deliveries repo).dedupes = repo.dedupes ∧
      repo.claims ⊆ (H.leaves deliveries repo).claims := by
  induction deliveries generalizing repo with
  | nil => exact ⟨rfl, List.Subset.refl _⟩
  | cons delivery rest ih =>
    obtain ⟨dedupes, kept⟩ := ih (H.call delivery repo).2
    exact ⟨dedupes.trans (H.attemptFrom_claimed delivery _ 0 repo).dedupes,
      List.Subset.trans (H.attemptFrom_marks delivery _ 0 repo).kept kept⟩

/-- A dispatch whose key is held is answered before any step of it runs. -/
theorem call_of_held {delivery : Delivery C} {repo : Repository S} {k : String}
    (key : keyOf delivery repo.dedupes = some k) (held : k ∈ repo.claims) :
    H.call delivery repo = (.ok .alreadyApplied, repo) := by
  have keyed : repo.keyedDispatch (delivery.newContext 0 : Context C E) = some k := key
  have applied : H.dispatchOnce (delivery.newContext 0) repo = (.ok .alreadyApplied, repo) := by
    rw [dispatchOnce, keyed, if_pos]
    exact List.contains_iff_mem.mpr held
  rw [call, maxStaleWriteRetries, attemptFrom, applied]

end Handlers

/-- Whatever the commands do and whatever is delivered in between, delivering a dispatch again after
every step of it ran changes nothing. -/
theorem redelivery_changes_nothing (H : Handlers C E S ε) (before between : List (Delivery C))
    (first again : Delivery C) (d : Dispatch) (repo : Repository S) (dedupes : repo.dedupes = true)
    (applied : Applied d (first, (H.call first (H.leaves before repo)).1))
    (same : again.dispatch = some d) (live : again.dryRun = false) :
    let reached := H.leaves (before ++ first :: between) repo
    H.call again reached = (.ok .alreadyApplied, reached) := by
  intro reached
  obtain ⟨asked, wet, answer, said, settled⟩ := applied
  have deduped : (H.leaves before repo).dedupes = true :=
    (H.leaves_keeps before repo).1.trans dedupes
  have own : d.key ∈ (H.call first (H.leaves before repo)).2.claims := by
    refine (H.attemptFrom_marks first _ 0 _).own answer said settled d.key ?_
    change first.dispatch = some d at asked
    change first.dryRun = false at wet
    rw [Handlers.keyOf, wet, deduped, asked]
    rfl
  have split : reached = H.leaves between (H.call first (H.leaves before repo)).2 := by
    show H.leaves (before ++ first :: between) repo = _
    rw [Handlers.leaves, List.foldl_append, List.foldl_cons]
    rfl
  refine H.call_of_held (k := d.key) ?_ ?_
  · rw [(H.leaves_keeps (before ++ first :: between) repo).1, Handlers.keyOf, live, dedupes, same]
    rfl
  · rw [split]
    exact (H.leaves_keeps between _).2 own

theorem placed_again :
    counting.call (placed "o-1" "o-1")
        (counting.leaves [placed "o-1" "o-1", placed "o-2" "o-2"] ⟨0, [], true⟩) =
      (.ok .alreadyApplied,
        counting.leaves [placed "o-1" "o-1", placed "o-2" "o-2"] ⟨0, [], true⟩) :=
  redelivery_changes_nothing counting [] [placed "o-2" "o-2"] (placed "o-1" "o-1") _ _
    ⟨0, [], true⟩ rfl ⟨rfl, rfl, _, rfl, rfl⟩ rfl rfl

end Hecks.Saga.DispatchClaim
