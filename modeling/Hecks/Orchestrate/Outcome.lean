import Hecks.Orchestrate.Frame

/-! A refusal leaves `run` only where the run's own command was refused, and then nothing but the
answer has happened. Whatever a reaction, a leg or a compensation refuses stays inside. -/
namespace Hecks

open Cascade

variable {S H : Type}

section Outcome

variable (env : Env S H) (verb : String) (args : Json) (role actor : Option String)
  (stamp : Option (List (String × String))) (depth : Nat)

/-- The arguments the dispatch is called with: the needed facts filled in. -/
def enrichedArgs (c : Cascade S H) : Json :=
  (env.needs.enrich env.host verb args env.occurredAt c.host).1.getD args

/-- What the dispatch function answers a command given to `run`. -/
def topAnswer (c : Cascade S H) : Except Refusal (List Event) :=
  (env.dispatchFn c.store verb (enrichedArgs env verb args c) role actor c.mutations).1

/-- The state right after the dispatch of a run. -/
def afterCall (c : Cascade S H) : Cascade S H :=
  (callDispatch env verb args role actor stamp depth c).2

/-- The answer as the run goes on with it: the events stamped. -/
def stampedAnswer (c : Cascade S H) : Except Refusal (List Event) :=
  (topAnswer env verb args role actor c).map
    fun events => events.map (stampEvent stamp env.occurredAt)

theorem callDispatch_eq (c : Cascade S H) :
    callDispatch env verb args role actor stamp depth c =
      (some (stampedAnswer env verb args role actor stamp c),
        afterCall env verb args role actor stamp depth c) := rfl

theorem afterCall_allEvents (c : Cascade S H) :
    (afterCall env verb args role actor stamp depth c).allEvents =
      c.allEvents ++ (stampedAnswer env verb args role actor stamp c).toOption.getD [] := rfl

theorem afterCall_grows (c : Cascade S H) :
    Grows c (afterCall env verb args role actor stamp depth c) :=
  (loud_callDispatch env verb args role actor stamp depth).growsAlong c

variable {env verb args role actor stamp depth} {c : Cascade S H}

theorem run_of_refused {r : Refusal} (h : topAnswer env verb args role actor c = .error r)
    (fuel : Nat) : run env (fuel + 1) verb args role actor stamp depth c =
      (some (.error r), afterCall env verb args role actor stamp depth c) := by
  have hcall := callDispatch_eq env verb args role actor stamp depth c
  rw [stampedAnswer, h] at hcall
  exact Act.bind_of_some hcall

theorem run_of_accepted {events : List Event}
    (h : topAnswer env verb args role actor c = .ok events) (fuel : Nat) :
    run env (fuel + 1) verb args role actor stamp depth c =
      (Act.forEach (events.map (stampEvent stamp env.occurredAt))
          (settleEvent env (run env fuel) fuel depth) >>= fun _ => pure (.ok ()))
        (afterCall env verb args role actor stamp depth c) := by
  have hcall := callDispatch_eq env verb args role actor stamp depth c
  rw [stampedAnswer, h] at hcall
  exact Act.bind_of_some hcall

theorem run_ne_error_of_accepted {events : List Event}
    (h : topAnswer env verb args role actor c = .ok events) (fuel : Nat) (r : Refusal) :
    (run env fuel verb args role actor stamp depth c).1 ≠ some (.error r) := by
  cases fuel with
  | zero => exact fun hr => by cases hr
  | succ fuel =>
      rw [run_of_accepted h]
      intro hr
      obtain ⟨_, d, _, hd⟩ := Act.bind_eq_some (Prod.ext hr rfl)
      cases hd

/-- A refused call is the whole run: the answer is written to the history, and apart from what
the dispatch function itself did nothing moved. -/
theorem afterCall_of_refused {r : Refusal}
    (h : topAnswer env verb args role actor c = .error r) :
    afterCall env verb args role actor stamp depth c =
      { c with
        store := (afterCall env verb args role actor stamp depth c).store
        host := (afterCall env verb args role actor stamp depth c).host
        mutations := (afterCall env verb args role actor stamp depth c).mutations
        journal := c.journal ++
          [.called depth verb (enrichedArgs env verb args c) (.error r)] } := by
  have hans : (env.dispatchFn c.store verb (enrichedArgs env verb args c) role actor
      c.mutations).1 = .error r := h
  simp only [enrichedArgs] at hans
  simp [afterCall, callDispatch, enrichedArgs, hans, Except.map, Except.toOption, noted]

/-- The dispatch function leaves the store as it was when it refuses. -/
def Env.KeepsStoreOnRefusal (env : Env S H) : Prop :=
  ∀ store verb args role actor mutations r store' mutations',
    env.dispatchFn store verb args role actor mutations = (.error r, store', mutations') →
      store' = store

theorem afterCall_store_of_refused (hstore : env.KeepsStoreOnRefusal) {r : Refusal}
    (h : topAnswer env verb args role actor c = .error r) :
    (afterCall env verb args role actor stamp depth c).store = c.store :=
  hstore c.store verb (enrichedArgs env verb args c) role actor c.mutations r _ _
    (Prod.ext h rfl)

theorem accepted_events_prefix {events : List Event}
    (h : topAnswer env verb args role actor c = .ok events) (fuel : Nat) :
    c.allEvents ++ events.map (stampEvent stamp env.occurredAt) <+:
      (run env (fuel + 1) verb args role actor stamp depth c).2.allEvents := by
  have hcall : (afterCall env verb args role actor stamp depth c).allEvents =
      c.allEvents ++ events.map (stampEvent stamp env.occurredAt) := by
    rw [afterCall_allEvents, stampedAnswer, h]
    rfl
  rw [← hcall, run_of_accepted h]
  have hgrow := (GrowsAlong.forEach (fun event => settleEvent_grows env depth fuel event)
    (events.map (stampEvent stamp env.occurredAt))).bind fun _ =>
      (quick_pure (.ok () : Except Refusal Unit)).loud.growsAlong
  exact (hgrow _).allEvents

/-- `run` errs exactly when its own command is refused, and then the sagas, the events, the logs
and the store are as they were; an accepted command's run never errs, and its events stay. -/
theorem run_errs_exactly_when_refused (hstore : env.KeepsStoreOnRefusal) (fuel : Nat) :
    (∀ r, (run env (fuel + 1) verb args role actor stamp depth c).1 = some (.error r) ↔
      topAnswer env verb args role actor c = .error r) ∧
    (∀ r d, run env (fuel + 1) verb args role actor stamp depth c = (some (.error r), d) →
      d.sagas = c.sagas ∧ d.allEvents = c.allEvents ∧ d.reactionLog = c.reactionLog ∧
      d.sagaLog = c.sagaLog ∧ d.crossDomain = c.crossDomain ∧ d.store = c.store) ∧
    (∀ events, topAnswer env verb args role actor c = .ok events →
      (∀ r, (run env (fuel + 1) verb args role actor stamp depth c).1 ≠ some (.error r)) ∧
      c.allEvents ++ events.map (stampEvent stamp env.occurredAt) <+:
        (run env (fuel + 1) verb args role actor stamp depth c).2.allEvents) := by
  have hrefused : ∀ r, (run env (fuel + 1) verb args role actor stamp depth c).1 =
      some (.error r) → topAnswer env verb args role actor c = .error r := by
    intro r hr
    cases hans : topAnswer env verb args role actor c with
    | error r' =>
        rw [run_of_refused hans] at hr
        cases hr
        rfl
    | ok events => exact absurd hr (run_ne_error_of_accepted hans (fuel + 1) r)
  refine ⟨fun r => ⟨hrefused r, fun hr => by rw [run_of_refused hr]⟩, ?_, ?_⟩
  · intro r d hd
    have hr := hrefused r (by rw [hd])
    rw [run_of_refused hr] at hd
    obtain ⟨-, rfl⟩ := Prod.mk.inj hd
    refine ⟨?_, ?_, ?_, ?_, ?_, afterCall_store_of_refused hstore hr⟩ <;>
      rw [afterCall_of_refused hr]
  · exact fun events h => ⟨run_ne_error_of_accepted h (fuel + 1), accepted_events_prefix h fuel⟩

end Outcome

/-- A domain that counts what it accepts and refuses everything but `Shop.Open`. -/
def shopEnv : Env Nat Unit :=
  Env.plain (Tables.ofManagers []) fun store verb _ _ _ mutations =>
    if verb = "Shop.Open" then (.ok [], store + 1, mutations)
    else (.error (.fault "the shop is closed"), store, mutations)

theorem shopEnv_keepsStoreOnRefusal : shopEnv.KeepsStoreOnRefusal := by
  intro store verb args role actor mutations r store' mutations' h
  simp only [shopEnv, Env.plain] at h
  split at h
  · cases h
  · cases h
    rfl

theorem closed_shop_errs :
    shopEnv.KeepsStoreOnRefusal ∧
    (run shopEnv 3 "Shop.Sell" .null none none none 0 (.fresh 7)).1 =
      some (.error (.fault "the shop is closed")) :=
  ⟨shopEnv_keepsStoreOnRefusal,
    ((run_errs_exactly_when_refused shopEnv_keepsStoreOnRefusal 2).1 _).mpr rfl⟩

end Hecks
