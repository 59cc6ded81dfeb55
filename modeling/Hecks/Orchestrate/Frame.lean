import Hecks.Orchestrate.Cascade

/-! What every step of a cascade has in common: it returns, and it only appends to the logs and
the history. A property of families of computations that holds of such steps and is kept by
sequencing therefore holds of everything `run` does, given it holds of the drains; fuel
monotonicity, the growth of the logs, the order of the events and termination are instances. -/
namespace Hecks

open Cascade
open List (prefix_rfl prefix_append)

variable {S H : Type}

/-- The logs and the history of `c` are the beginning of those of `d`. -/
structure Grows (c d : Cascade S H) : Prop where
  journal : c.journal <+: d.journal := by exact List.prefix_rfl
  allEvents : c.allEvents <+: d.allEvents := by exact List.prefix_rfl
  crossDomain : c.crossDomain <+: d.crossDomain := by exact List.prefix_rfl
  reactionLog : c.reactionLog <+: d.reactionLog := by exact List.prefix_rfl
  sagaLog : c.sagaLog <+: d.sagaLog := by exact List.prefix_rfl

theorem Grows.refl (c : Cascade S H) : Grows c c :=
  ⟨prefix_rfl, prefix_rfl, prefix_rfl, prefix_rfl, prefix_rfl⟩

theorem Grows.trans {c d e : Cascade S H} (h : Grows c d) (h' : Grows d e) : Grows c e :=
  ⟨h.journal.trans h'.journal, h.allEvents.trans h'.allEvents,
    h.crossDomain.trans h'.crossDomain, h.reactionLog.trans h'.reactionLog,
    h.sagaLog.trans h'.sagaLog⟩

/-- The lines of the history that say which dispatch ran on account of which event. -/
def Mark.isOrder : Mark → Bool
  | .called .. | .policiesOf _ | .sagasOf _ | .settled _ => true
  | _ => false

def orderOf (journal : List Mark) : List Mark := journal.filter Mark.isOrder

/-- Growth away from the dispatches: no event and no line of their order is added. -/
structure GrowsWithin (c d : Cascade S H) : Prop extends Grows c d where
  sameEvents : d.allEvents = c.allEvents := by rfl
  sameOrder : orderOf d.journal = orderOf c.journal := by rfl

theorem GrowsWithin.refl (c : Cascade S H) : GrowsWithin c c := ⟨.refl c, rfl, rfl⟩

theorem GrowsWithin.trans {c d e : Cascade S H} (h : GrowsWithin c d) (h' : GrowsWithin d e) :
    GrowsWithin c e :=
  ⟨h.toGrows.trans h'.toGrows, h'.sameEvents.trans h.sameEvents, h'.sameOrder.trans h.sameOrder⟩

/-- A step that always returns and only appends. -/
def Loud {α : Type} (f : Job S H α) : Prop := ∀ c, ∃ a d, f c = (some a, d) ∧ Grows c d

/-- A step that always returns, only appends, and dispatches nothing. -/
def Quick {α : Type} (f : Job S H α) : Prop := ∀ c, ∃ a d, f c = (some a, d) ∧ GrowsWithin c d

section Steps

variable {α : Type}

theorem Quick.loud {f : Job S H α} (h : Quick f) : Loud f := by
  intro c
  obtain ⟨a, d, hf, hd⟩ := h c
  exact ⟨a, d, hf, hd.toGrows⟩

theorem quick_pure (a : α) : Quick (pure a : Job S H α) := fun c => ⟨a, c, rfl, .refl c⟩

theorem Quick.bind {β : Type} {f : Job S H α} {g : α → Job S H β} (hf : Quick f)
    (hg : ∀ a, Quick (g a)) : Quick (f >>= g) := by
  intro c
  obtain ⟨a, d, hd, hcd⟩ := hf c
  obtain ⟨b, e, he, hde⟩ := hg a d
  exact ⟨b, e, (Act.bind_of_some hd).trans he, hcd.trans hde⟩

theorem quick_read (f : Cascade S H → α) : Quick (Act.read f) := fun c => ⟨f c, c, rfl, .refl c⟩

theorem grows_noted (c : Cascade S H) (m : Mark) : Grows c (c.noted m) :=
  ⟨prefix_append _ _, prefix_rfl, prefix_rfl, prefix_rfl, prefix_rfl⟩

theorem loud_note (m : Mark) : Loud (note m : Job S H Unit) :=
  fun c => ⟨(), c.noted m, rfl, grows_noted c m⟩

theorem orderOf_append_within (journal : List Mark) {m : Mark} (h : m.isOrder = false) :
    orderOf (journal ++ [m]) = orderOf journal := by
  simp [orderOf, h]

theorem growsWithin_noted {c : Cascade S H} {m : Mark} (h : m.isOrder = false) :
    GrowsWithin c (c.noted m) :=
  ⟨grows_noted c m, rfl, orderOf_append_within _ h⟩

theorem quick_note {m : Mark} (h : m.isOrder = false) : Quick (note m : Job S H Unit) :=
  fun c => ⟨(), c.noted m, rfl, growsWithin_noted h⟩

theorem quick_logReaction (record : Json) : Quick (logReaction record : Job S H Unit) :=
  fun _ => ⟨(), _, rfl,
    ⟨⟨prefix_rfl, prefix_rfl, prefix_rfl, prefix_append _ _, prefix_rfl⟩, rfl, rfl⟩⟩

theorem quick_logSaga (record : Json) : Quick (logSaga record : Job S H Unit) :=
  fun _ => ⟨(), _, rfl,
    ⟨⟨prefix_rfl, prefix_rfl, prefix_rfl, prefix_rfl, prefix_append _ _⟩, rfl, rfl⟩⟩

theorem growsWithin_withSaga {c : Cascade S H} {key : SagaKey} {inst : SagaInstance} {m : Mark}
    (h : m.isOrder = false) : GrowsWithin c (c.withSaga key inst m) :=
  ⟨⟨prefix_append _ _, prefix_rfl, prefix_rfl, prefix_rfl, prefix_rfl⟩, rfl,
    orderOf_append_within _ h⟩

theorem quick_updateSaga (key : SagaKey) (f : SagaInstance → SagaInstance) {m : Mark}
    (h : m.isOrder = false) : Quick (updateSaga key f m : Job S H Unit) := by
  intro c
  refine ⟨(), _, rfl, ?_⟩
  dsimp only
  split
  · exact growsWithin_withSaga h
  · exact .refl c

theorem quick_popLedger (key : SagaKey) :
    Quick (popLedger key : Job S H (Option CompletedCompensation)) := by
  intro c
  unfold popLedger
  split
  · split
    · exact ⟨_, _, rfl, growsWithin_withSaga rfl⟩
    · exact ⟨_, _, rfl, .refl c⟩
  · exact ⟨_, _, rfl, .refl c⟩

theorem quick_recordCompensation (leg : SagaLeg) (spec : DispatchSpec) (args : Option Json) :
    Quick (recordCompensation leg spec args : Job S H Bool) := by
  intro c
  unfold recordCompensation
  split
  · exact ⟨_, _, rfl, growsWithin_withSaga rfl⟩
  · exact ⟨_, _, rfl, .refl c⟩

theorem quick_settleDelivery (leg : SagaLeg) (spec : DispatchSpec) (recorded : Bool)
    (outcome : Except Refusal Unit) :
    Quick (settleDelivery leg spec recorded outcome : Job S H (Option Bool)) := by
  unfold settleDelivery
  split
  · exact (quick_logSaga _).bind fun _ => quick_pure _
  · refine .bind ?_ fun _ => (quick_logSaga _).bind fun _ => quick_pure _
    unfold unrecordCompensation
    split
    · exact quick_updateSaga _ _ rfl
    · exact quick_pure ()

variable (env : Env S H)

theorem quick_crossDomainPolicy (event : Event) (policy : CrossDomainPolicyRule) :
    Quick (crossDomainPolicy env event policy) := by
  unfold crossDomainPolicy
  split
  · exact quick_pure ()
  · exact fun _ => ⟨(), _, rfl,
      ⟨⟨prefix_rfl, prefix_rfl, prefix_append _ _, prefix_rfl, prefix_rfl⟩, rfl, rfl⟩⟩

theorem quick_beginOne (event : Event) (pm : ProcessManagerDef) :
    Quick (beginOne env event pm) := by
  unfold beginOne
  split
  · exact quick_pure ()
  · split
    · exact quick_logSaga _
    · refine (quick_read _).bind fun sagas => ?_
      split
      · exact quick_pure ()
      · refine .bind (fun c => ⟨(), _, rfl, growsWithin_withSaga rfl⟩) fun _ => quick_logSaga _

theorem quick_endOne (event : Event) (pm : ProcessManagerDef) : Quick (endOne env event pm) := by
  unfold endOne
  split
  · exact quick_pure ()
  · split
    · exact quick_pure ()
    · refine (quick_read _).bind fun sagas => ?_
      split
      · exact quick_pure ()
      · refine .bind (fun c => ⟨(), _, rfl, ?_⟩) fun _ => quick_logSaga _
        exact ⟨⟨prefix_append _ _, prefix_rfl, prefix_rfl, prefix_rfl, prefix_rfl⟩, rfl,
          orderOf_append_within _ rfl⟩

theorem loud_callDispatch (verb : String) (args : Json)
    (role actor : Option String) (stamp : Option (List (String × String))) (depth : Nat) :
    Loud (callDispatch env verb args role actor stamp depth) :=
  fun _ => ⟨_, _, rfl,
    ⟨prefix_append _ _, prefix_append _ _, prefix_rfl, prefix_rfl, prefix_rfl⟩⟩

end Steps

/-- A property of families of computations that holds of quick steps and is kept by sequencing. -/
structure Congruence {ι : Type} (Φ : ∀ {α : Type}, (ι → Job S H α) → Prop) : Prop where
  quick : ∀ {α : Type} (f : Job S H α), Quick f → Φ fun _ => f
  bind : ∀ {α β : Type} {f : ι → Job S H α} {g : ι → α → Job S H β}, Φ f →
    (∀ a, Φ fun i => g i a) → Φ fun i => f i >>= g i

/-- The depths at which a cascade at `depth` re-enters `run`. -/
def Reenters (tables : Tables) (depth d : Nat) : Prop :=
  (∃ policy ∈ tables.policies, ¬ (maxReactionDepth ≤ depth ∧ ¬ policy.root) ∧
    d = reactionDepth policy.root depth) ∨
  (¬ maxReactionDepth ≤ depth ∧ d = depth + 1)

section Congruence

variable {ι : Type} {Φ : ∀ {α : Type}, (ι → Job S H α) → Prop}

theorem Congruence.ite (_ : Congruence Φ) {α : Type} {p : Prop} [Decidable p]
    {f g : ι → Job S H α} (hf : p → Φ f) (hg : ¬ p → Φ g) :
    Φ fun i => if p then f i else g i := by
  by_cases hp : p
  · simpa only [if_pos hp] using hf hp
  · simpa only [if_neg hp] using hg hp

theorem Congruence.forEach (hΦ : Congruence Φ) {κ : Type} {f : ι → κ → Job S H Unit}
    {xs : List κ} (h : ∀ x ∈ xs, Φ fun i => f i x) : Φ fun i => Act.forEach xs (f i) := by
  induction xs with
  | nil => exact hΦ.quick _ (quick_pure ())
  | cons x xs ih =>
      refine hΦ.bind (h x List.mem_cons_self) fun _ => ih ?_
      exact fun y hy => h y (List.mem_cons_of_mem _ hy)

variable (env : Env S H) {self : ι → RunFn S H} {fuel : ι → Nat} {depth : Nat}
  (hself : ∀ verb args role actor stamp d, Reenters env.tables depth d →
    Φ fun i => self i verb args role actor stamp d)
  (hdrain : ∀ leg, Φ fun i => drain (self i) (fuel i) leg depth)

include hself

theorem Congruence.reactRow (hΦ : Congruence Φ) {policy : PolicyRule}
    (hd : Reenters env.tables depth (reactionDepth policy.root depth)) (event : Event)
    (row : String × Json) : Φ fun i => reactRow env (self i) policy event depth row :=
  hΦ.bind (hself _ _ _ _ _ _ hd) fun _ => hΦ.quick _ (quick_logReaction _)

theorem Congruence.reactPolicy (hΦ : Congruence Φ) (event : Event) {policy : PolicyRule}
    (hpolicy : policy ∈ env.tables.policies) :
    Φ fun i => reactPolicy env (self i) event depth policy := by
  unfold Hecks.reactPolicy
  refine hΦ.ite (fun _ => hΦ.quick _ (quick_pure ())) fun _ => hΦ.ite (fun _ => ?_) fun hw => ?_
  · exact hΦ.bind (hΦ.quick _ (quick_logReaction _)) fun _ => hΦ.quick _ (quick_note rfl)
  have hd : Reenters env.tables depth (reactionDepth policy.root depth) :=
    .inl ⟨policy, hpolicy, hw, rfl⟩
  refine hΦ.bind (hΦ.quick _ (quick_note rfl)) fun _ => ?_
  cases policy.forEach with
  | none =>
      exact hΦ.bind (hself _ _ _ _ _ _ hd) fun _ => hΦ.quick _ (quick_logReaction _)
  | some query =>
      dsimp only
      cases env.tables.queries.find? fun q => q.verb = query with
      | none => exact hΦ.quick _ (quick_logReaction _)
      | some query =>
          refine hΦ.bind (hΦ.quick _ (quick_read _)) fun store => ?_
          cases env.runQuery store query (forEachQueryArgs env.tables query event) with
          | error refusal => exact hΦ.quick _ (quick_logReaction _)
          | ok rows => exact hΦ.forEach fun row _ => hΦ.reactRow env hself hd event row

theorem Congruence.reactPolicies (hΦ : Congruence Φ) (event : Event) :
    Φ fun i => reactPolicies env (self i) event depth :=
  hΦ.bind (hΦ.forEach fun _ hpolicy => hΦ.reactPolicy env hself event hpolicy) fun _ =>
    hΦ.forEach fun policy _ => hΦ.quick _ (quick_crossDomainPolicy env event policy)

theorem Congruence.deliverSagaDispatch (hΦ : Congruence Φ) (leg : SagaLeg) (spec : DispatchSpec)
    (args : Json) (compensationArgs : Option Json) :
    Φ fun i => deliverSagaDispatch (self i) leg spec args depth compensationArgs := by
  unfold Hecks.deliverSagaDispatch
  refine hΦ.ite (fun _ => ?_) fun hw => ?_
  · exact hΦ.bind (hΦ.quick _ (quick_logSaga _)) fun _ =>
      hΦ.bind (hΦ.quick _ (quick_note rfl)) fun _ => hΦ.quick _ (quick_pure _)
  · refine hΦ.bind (hΦ.quick _ (quick_note rfl)) fun _ => ?_
    refine hΦ.bind (hΦ.quick _ (quick_recordCompensation _ _ _)) fun recorded => ?_
    exact hΦ.bind (hself _ _ _ _ _ _ (.inr ⟨hw, rfl⟩)) fun outcome =>
      hΦ.quick _ (quick_settleDelivery leg spec recorded outcome)

theorem Congruence.deliverDerivedCompensation (hΦ : Congruence Φ) (leg : SagaLeg)
    (entry : CompletedCompensation) :
    Φ fun i => deliverDerivedCompensation (self i) leg entry depth := by
  unfold Hecks.deliverDerivedCompensation
  refine hΦ.ite (fun _ => ?_) fun hw => ?_
  · exact hΦ.bind (hΦ.quick _ (quick_logSaga _)) fun _ => hΦ.quick _ (quick_note rfl)
  · refine hΦ.bind (hΦ.quick _ (quick_note rfl)) fun _ =>
      hΦ.bind (hself _ _ _ _ _ _ (.inr ⟨hw, rfl⟩)) fun outcome => ?_
    cases outcome with
    | ok => exact hΦ.quick _ (quick_logSaga _)
    | error refusal => exact hΦ.quick _ ((quick_logSaga _).bind fun _ => quick_note rfl)

theorem Congruence.deliverAll (hΦ : Congruence Φ) (leg : SagaLeg) (event : Event) (memory : Json)
    (specs : List DispatchSpec) (refused : Bool) :
    Φ fun i => deliverAll env (self i) leg event memory depth specs refused := by
  induction specs generalizing refused with
  | nil => exact hΦ.quick _ (quick_pure _)
  | cons spec specs ih =>
      exact hΦ.bind (hΦ.deliverSagaDispatch env hself leg spec _ _) fun _ => ih _

include hdrain

theorem Congruence.compensate (hΦ : Congruence Φ) (leg : SagaLeg) (event : Event)
    (memory : Json) : Φ fun i => compensate env (self i) (fuel i) leg event memory depth := by
  refine hΦ.bind (hΦ.quick _ (quick_read _)) fun sagas => ?_
  cases sagas.lookup leg.key with
  | none => exact hΦ.quick _ (quick_pure ())
  | some inst =>
      refine hΦ.ite (fun _ => hΦ.quick _ (quick_pure ())) fun _ => ?_
      cases leg.pm.selectLeg REFUSED inst.state with
      | none => exact hΦ.quick _ (quick_logSaga _)
      | some compensation =>
          refine hΦ.bind (hΦ.quick _ (quick_updateSaga _ _ rfl)) fun _ => ?_
          refine hΦ.bind (hΦ.quick _ (quick_logSaga _)) fun _ => ?_
          refine hΦ.bind (hdrain leg) fun _ => hΦ.forEach fun spec _ => ?_
          exact hΦ.bind (hΦ.deliverSagaDispatch env hself leg spec _ _) fun _ =>
            hΦ.quick _ (quick_pure ())

theorem Congruence.advanceOne (hΦ : Congruence Φ) (event : Event) (pm : ProcessManagerDef) :
    Φ fun i => advanceOne env (self i) (fuel i) event depth pm := by
  unfold Hecks.advanceOne
  refine hΦ.ite (fun _ => hΦ.quick _ (quick_pure ())) fun _ => ?_
  cases pm.correlationOf event env.tables.referenceKeyFn with
  | none => exact hΦ.quick _ (quick_pure ())
  | some correlation =>
      refine hΦ.bind (hΦ.quick _ (quick_read _)) fun sagas => ?_
      cases sagas.lookup (pm.name, correlation) with
      | none => exact hΦ.quick _ (quick_logSaga _)
      | some inst =>
          dsimp only
          cases pm.selectLeg event.name inst.state with
          | none => exact hΦ.quick _ (quick_logSaga _)
          | some handler =>
              refine hΦ.bind (hΦ.quick _ (quick_updateSaga _ _ rfl)) fun _ => ?_
              refine hΦ.bind (hΦ.quick _ (quick_logSaga _)) fun _ => ?_
              refine hΦ.bind (hΦ.quick _ (quick_read _)) fun sagas => ?_
              refine hΦ.bind (hΦ.deliverAll env hself _ event _ _ _) fun refused => ?_
              exact hΦ.ite (fun _ => hΦ.compensate env hself hdrain _ event _) fun _ =>
                hΦ.quick _ (quick_pure ())

theorem Congruence.settleEvent (hΦ : Congruence Φ)
    (hloud : ∀ {α : Type} (f : Job S H α), Loud f → Φ fun _ => f) (event : Event) :
    Φ fun i => settleEvent env (self i) (fuel i) depth event := by
  refine hΦ.bind (hloud _ (loud_note _)) fun _ => ?_
  refine hΦ.bind (hΦ.reactPolicies env hself event) fun _ => ?_
  refine hΦ.bind (hloud _ (loud_note _)) fun _ => ?_
  refine hΦ.bind (hΦ.forEach fun pm _ => hΦ.quick _ (quick_beginOne env event pm)) fun _ => ?_
  refine hΦ.bind (hΦ.forEach fun pm _ => hΦ.advanceOne env hself hdrain event pm) fun _ => ?_
  refine hΦ.bind (hΦ.forEach fun pm _ => hΦ.quick _ (quick_endOne env event pm)) fun _ => ?_
  exact hloud _ (loud_note _)

theorem Congruence.runBody (hΦ : Congruence Φ)
    (hloud : ∀ {α : Type} (f : Job S H α), Loud f → Φ fun _ => f) (verb : String) (args : Json)
    (role actor : Option String) (stamp : Option (List (String × String))) :
    Φ fun i => runBody env (self i) (fuel i) verb args role actor stamp depth := by
  refine hΦ.bind (hloud _ (loud_callDispatch env _ _ _ _ _ _)) fun answer => ?_
  cases answer with
  | error refusal => exact hΦ.quick _ (quick_pure _)
  | ok events =>
      refine hΦ.bind (hΦ.forEach fun event _ => ?_) fun _ => hΦ.quick _ (quick_pure _)
      exact hΦ.settleEvent env hself hdrain hloud event

end Congruence

/-- A property of pairs of computations, the first with at most the fuel of the second. -/
abbrev Pairwise (Ψ : ∀ {α : Type}, Job S H α → Job S H α → Prop) {α : Type}
    (f : Bool → Job S H α) : Prop := Ψ (f false) (f true)

section Pairs

variable {Ψ : ∀ {α : Type}, Job S H α → Job S H α → Prop}

/-- One round of a drain, what was popped in hand. -/
def drainRound (self : RunFn S H) (leg : SagaLeg) (depth n : Nat) :
    Option CompletedCompensation → Job S H Unit
  | none => note (.drained leg.key)
  | some entry => do
      Hecks.deliverDerivedCompensation self leg entry depth
      Hecks.drainLedger self leg depth n

theorem Congruence.drainLedger (hΨ : Congruence (S := S) (H := H) (Pairwise Ψ))
    (hstop : ∀ {α : Type} (f : Job S H α), Ψ Act.stop f) (env : Env S H)
    (self : Bool → RunFn S H) {depth : Nat}
    (hself : ∀ verb args role actor stamp d, Reenters env.tables depth d →
      Ψ (self false verb args role actor stamp d) (self true verb args role actor stamp d))
    (leg : SagaLeg) {n m : Nat} (hnm : n ≤ m) :
    Ψ (drainLedger (self false) leg depth n) (drainLedger (self true) leg depth m) := by
  induction n generalizing m with
  | zero => exact hstop _
  | succ n ih =>
      obtain ⟨m, rfl⟩ := Nat.exists_eq_add_of_lt hnm
      have hround : ∀ popped : Option CompletedCompensation, Pairwise Ψ fun i =>
          drainRound (self i) leg depth (cond i (n + m) n) popped := by
        intro popped
        cases popped with
        | none => exact hΨ.quick _ (quick_note rfl)
        | some entry =>
            exact hΨ.bind (hΨ.deliverDerivedCompensation env hself leg entry) fun _ =>
              ih (Nat.le_add_right n m)
      exact hΨ.bind (f := fun _ => popLedger leg.key) (hΨ.quick _ (quick_popLedger _)) hround

theorem Congruence.drain (hΨ : Congruence (S := S) (H := H) (Pairwise Ψ))
    (hstop : ∀ {α : Type} (f : Job S H α), Ψ Act.stop f) (env : Env S H)
    (self : Bool → RunFn S H) {depth : Nat}
    (hself : ∀ verb args role actor stamp d, Reenters env.tables depth d →
      Ψ (self false verb args role actor stamp d) (self true verb args role actor stamp d))
    {n m : Nat} (hnm : n ≤ m) (leg : SagaLeg) :
    Ψ (drain (self false) n leg depth) (drain (self true) m leg depth) :=
  hΨ.bind (f := fun _ => note (.draining leg.key))
    (g := fun i _ => Hecks.drainLedger (self i) leg depth (cond i m n))
    (hΨ.quick _ (quick_note rfl)) fun _ => hΨ.drainLedger hstop env self hself leg hnm

/-- The induction on fuel that every uniform property of `run` goes through. -/
theorem Congruence.run (hΨ : Congruence (S := S) (H := H) (Pairwise Ψ))
    (hstop : ∀ {α : Type} (f : Job S H α), Ψ Act.stop f)
    (hloud : ∀ {α : Type} (f : Job S H α), Loud f → Ψ f f) (env : Env S H) {n m : Nat}
    (hnm : n ≤ m) (verb : String) (args : Json) (role actor : Option String)
    (stamp : Option (List (String × String))) (depth : Nat) :
    Ψ (run env n verb args role actor stamp depth) (run env m verb args role actor stamp depth) := by
  induction n generalizing m verb args role actor stamp depth with
  | zero => exact hstop _
  | succ n ih =>
      obtain ⟨m, rfl⟩ := Nat.exists_eq_add_of_lt hnm
      have hle : n ≤ n + m := Nat.le_add_right n m
      have hself : ∀ verb args role actor stamp d, Reenters env.tables depth d →
          Pairwise Ψ fun i => Hecks.run env (cond i (n + m) n) verb args role actor stamp d :=
        fun verb args role actor stamp d _ => ih hle verb args role actor stamp d
      have hdrain : ∀ leg, Pairwise Ψ fun i =>
          Hecks.drain (Hecks.run env (cond i (n + m) n)) (cond i (n + m) n) leg depth :=
        hΨ.drain hstop env (fun i => Hecks.run env (cond i (n + m) n)) hself hle
      exact hΨ.runBody env hself hdrain hloud verb args role actor stamp

end Pairs

theorem congruence_extends : Congruence (S := S) (H := H) (Pairwise Act.Extends) :=
  ⟨fun f _ => .refl f, .bind⟩

/-- A computation that only appends, however far it gets. -/
def GrowsAlong {α : Type} (f : Job S H α) : Prop := ∀ c, Grows c (f c).2

theorem Loud.growsAlong {α : Type} {f : Job S H α} (hf : Loud f) : GrowsAlong f := by
  intro c
  obtain ⟨a, d, hc, hd⟩ := hf c
  rw [hc]
  exact hd

theorem GrowsAlong.bind {α β : Type} {f : Job S H α} {g : α → Job S H β} (hf : GrowsAlong f)
    (hg : ∀ a, GrowsAlong (g a)) : GrowsAlong (f >>= g) := by
  intro c
  have hd := hf c
  cases hc : f c with
  | mk o d =>
      rw [hc] at hd
      cases o with
      | none => rw [Act.bind_of_none hc]; exact hd
      | some a => rw [Act.bind_of_some hc]; exact hd.trans (hg a d)

theorem GrowsAlong.forEach {ι : Type} {f : ι → Job S H Unit} (hf : ∀ x, GrowsAlong (f x))
    (xs : List ι) : GrowsAlong (Act.forEach xs f) := by
  induction xs with
  | nil => exact (quick_pure ()).loud.growsAlong
  | cons x xs ih => exact (hf x).bind fun _ => ih

theorem congruence_growsAlong :
    Congruence (S := S) (H := H) (Pairwise fun f _ => GrowsAlong f) :=
  ⟨fun _ hf => hf.loud.growsAlong, GrowsAlong.bind⟩

section Run

variable (env : Env S H) (verb : String) (args : Json) (role actor : Option String)
  (stamp : Option (List (String × String))) (depth : Nat)

/-- More fuel never changes what `run` returned. -/
theorem run_stable : Act.Stable fun n => run env n verb args role actor stamp depth :=
  fun _ _ hnm => congruence_extends.run .stop (fun f _ => .refl f) env hnm verb args role actor
    stamp depth

/-- However far a run got, it only appended to the logs and the history. -/
theorem run_grows (fuel : Nat) : GrowsAlong (run env fuel verb args role actor stamp depth) :=
  congruence_growsAlong.run (fun _ c => .refl c) (fun _ hf => hf.growsAlong) env (le_refl fuel)
    verb args role actor stamp depth

theorem settleEvent_grows (fuel : Nat) (event : Event) :
    GrowsAlong (settleEvent env (run env fuel) fuel depth event) := by
  have hself : ∀ verb args role actor stamp d, Reenters env.tables depth d →
      Pairwise (fun f _ => GrowsAlong f) fun _ => run env fuel verb args role actor stamp d :=
    fun verb args role actor stamp d _ => run_grows env verb args role actor stamp d fuel
  have hdrain : ∀ leg, Pairwise (fun f _ => GrowsAlong f) fun _ =>
      drain (run env fuel) fuel leg depth :=
    congruence_growsAlong.drain (fun _ c => .refl c) env (fun _ => run env fuel) hself le_rfl
  have hsettle : Pairwise (fun f _ => GrowsAlong f) fun _ =>
      settleEvent env (run env fuel) fuel depth event :=
    congruence_growsAlong.settleEvent env hself hdrain (fun _ hf => hf.growsAlong) event
  exact hsettle

end Run

end Hecks
