import Hecks.Orchestrate.Outcome
import Hecks.Orchestrate.Ledgers

/-! `run` keeps its book: the history it writes is a legal history of the bookkeeping machine, and
the instances, ledgers and events of the cascade are those the book says. This is one pass over
the functions of the model with the same pre- and postcondition, `At`, for each. -/
namespace Hecks

open Cascade

variable {S H : Type}

/-- The record a withheld reaction, leg dispatch or compensation leaves in the logs. -/
def Cause.Undelivered (c : Cascade S H) : Cause → Prop
  | .policy rule event => policyRecord rule event (undelivered depthReached) ∈ c.reactionLog
  | .leg l spec => dispatchRecord l spec.commandName (undelivered depthReached) ∈ c.sagaLog
  | .compensation l entry =>
      dispatchRecord l entry.commandName (compensationFailed depthReached) ∈ c.sagaLog

/-- A fired entry's refusal as the saga log tells it. -/
def CompensationFailed (c : Cascade S H) (key : SagaKey) (entry : CompletedCompensation) : Prop :=
  ∃ leg reason, leg.key = key ∧
    dispatchRecord leg entry.commandName (compensationFailed reason) ∈ c.sagaLog

/-- What is not run is in the logs. -/
def Logged (c : Cascade S H) : Mark → Prop
  | .attempted _ cause true => cause.Undelivered c
  | .failed key entry => CompensationFailed c key entry
  | _ => True

theorem Logged.mono {c d : Cascade S H} {m : Mark} (h : Logged c m) (hcd : Grows c d) :
    Logged d m := by
  unfold Logged at h ⊢
  split at h
  · rename_i cause
    cases cause with
    | policy rule event => exact hcd.reactionLog.subset h
    | leg leg spec => exact hcd.sagaLog.subset h
    | compensation leg entry => exact hcd.sagaLog.subset h
  · obtain ⟨leg, reason, hkey, hmem⟩ := h
    exact ⟨leg, reason, hkey, hcd.sagaLog.subset hmem⟩
  · trivial

section Tracks

variable (env : Env S H) (start : Nat) (c₀ : Cascade S H)

/-- The book of a history since the run started. -/
def bookOf (history : List Mark) : Book :=
  (bookkeeping env.tables start).replay (Book.start c₀.sagas start) history

/-- The cascade is where its history says it is. -/
structure Tracks (history : List Mark) (c : Cascade S H) : Prop where
  journal : c.journal = c₀.journal ++ history
  runs : (bookkeeping env.tables start).Runs (Book.start c₀.sagas start) history
  sagas : ∀ key, c.sagas.lookup key = ((bookOf env start c₀ history).live key).map Live.inst
  events : c.allEvents = c₀.allEvents ++ (bookOf env start c₀ history).emitted
  logged : ∀ m ∈ history, Logged c m

variable {env start c₀} {history : List Mark} {c d : Cascade S H}

theorem tracks_start : Tracks env start c₀ [] c₀ where
  journal := (List.append_nil _).symm
  runs := .nil
  sagas key := by
    simp only [bookOf, Machine.replay_nil, Book.start, Option.map_map]
    cases c₀.sagas.lookup key with
    | none => rfl
    | some inst => simp [Live.inst, List.mapIdx_eq_zipIdx_map, Function.comp_def]
  events := (List.append_nil _).symm
  logged m hm := by cases hm

/-- A change of the logs alone. -/
theorem Tracks.quiet (h : Tracks env start c₀ history c) (hcd : Grows c d)
    (hj : d.journal = c.journal) (hs : d.sagas = c.sagas) (he : d.allEvents = c.allEvents) :
    Tracks env start c₀ history d where
  journal := hj.trans h.journal
  runs := h.runs
  sagas key := by rw [hs]; exact h.sagas key
  events := he.trans h.events
  logged m hm := (h.logged m hm).mono hcd

/-- One line of the history, and the change it stands for. -/
theorem Tracks.step {m : Mark} (h : Tracks env start c₀ history c)
    (hm : Legal env.tables start (bookOf env start c₀ history) m) (hcd : Grows c d)
    (hj : d.journal = c.journal ++ [m])
    (hs : ∀ key, d.sagas.lookup key =
      (((bookOf env start c₀ history).next m).live key).map Live.inst)
    (he : d.allEvents = c₀.allEvents ++ ((bookOf env start c₀ history).next m).emitted)
    (hl : Logged d m) : Tracks env start c₀ (history ++ [m]) d where
  journal := by rw [hj, h.journal, List.append_assoc]
  runs := h.runs.snoc hm
  sagas key := by
    rw [hs key]
    simp [bookOf, bookkeeping]
  events := by
    rw [he]
    simp [bookOf, bookkeeping]
  logged m' hm' := by
    rcases List.mem_append.mp hm' with hm' | hm'
    · exact (h.logged m' hm').mono hcd
    · rw [List.mem_singleton.mp hm']
      exact hl

theorem bookOf_append (xs ys : List Mark) :
    bookOf env start c₀ (xs ++ ys) =
      (bookkeeping env.tables start).replay (bookOf env start c₀ xs) ys :=
  Machine.replay_append ..

@[simp] theorem bookOf_snoc (history : List Mark) (m : Mark) :
    bookOf env start c₀ (history ++ [m]) = (bookOf env start c₀ history).next m := by
  simp [bookOf, bookkeeping]

end Tracks

section Steps

variable {env : Env S H} {start : Nat} {c₀ : Cascade S H} {history : List Mark} {c : Cascade S H}

theorem Tracks.sound (h : Tracks env start c₀ history c) :
    (bookOf env start c₀ history).Sound := Book.sound_of_runs h.runs

theorem Tracks.live_of_lookup (h : Tracks env start c₀ history c) {key : SagaKey}
    {inst : SagaInstance} (hl : c.sagas.lookup key = some inst) :
    ∃ l, (bookOf env start c₀ history).live key = some l ∧ l.inst = inst := by
  rw [h.sagas key, Option.map_eq_some_iff] at hl
  exact hl

theorem Tracks.live_none (h : Tracks env start c₀ history c) {key : SagaKey}
    (hl : c.sagas.lookup key = none) : (bookOf env start c₀ history).live key = none := by
  rw [h.sagas key, Option.map_eq_none_iff] at hl
  exact hl

/-- A line that writes one instance. -/
theorem Tracks.write (h : Tracks env start c₀ history c) {m : Mark} {key : SagaKey} {l : Live}
    {inst : SagaInstance} (hm : Legal env.tables start (bookOf env start c₀ history) m)
    (hlive : ((bookOf env start c₀ history).next m).live =
      Function.update (bookOf env start c₀ history).live key (some l))
    (hemit : ((bookOf env start c₀ history).next m).emitted =
      (bookOf env start c₀ history).emitted)
    (hinst : l.inst = inst) (horder : m.isOrder = false) (hl : ∀ d : Cascade S H, Logged d m) :
    Tracks env start c₀ (history ++ [m]) (c.withSaga key inst m) := by
  refine h.step hm (growsWithin_withSaga horder).toGrows rfl (fun k => ?_) ?_ (hl _)
  · rw [hlive]
    by_cases hk : k = key
    · subst hk
      simp [withSaga, noted, hinst]
    · simp [withSaga, noted, hk, h.sagas k]
  · rw [hemit]
    exact h.events

/-- A line about no instance. -/
theorem Tracks.line (h : Tracks env start c₀ history c) {m : Mark}
    (hm : Legal env.tables start (bookOf env start c₀ history) m)
    (hlive : ((bookOf env start c₀ history).next m).live = (bookOf env start c₀ history).live)
    (hemit : ((bookOf env start c₀ history).next m).emitted =
      (bookOf env start c₀ history).emitted)
    (hl : Logged (c.noted m) m) : Tracks env start c₀ (history ++ [m]) (c.noted m) := by
  refine h.step hm (grows_noted c m) rfl (fun k => ?_) ?_ hl
  · rw [hlive]
    exact h.sagas k
  · rw [hemit]
    exact h.events

end Steps

/-! ### The pre- and postcondition of every function -/

section At

variable (env : Env S H) (start : Nat) (c₀ : Cascade S H)

/-- The cascade keeps its book, with this due next, these drains open, settled events nested so
deep, and these events emitted. -/
def At (due : Due) (drains : List SagaKey) (nest : Nat) (events : List Event)
    (c : Cascade S H) : Prop :=
  ∃ history, Tracks env start c₀ history c ∧ (bookOf env start c₀ history).due = due ∧
    (bookOf env start c₀ history).drains = drains ∧
    (bookOf env start c₀ history).nesting = nest ∧
    ∀ e ∈ events, e ∈ (bookOf env start c₀ history).emitted

/-- The cascade keeps its book, wherever it was cut. -/
def Kept (c : Cascade S H) : Prop := ∃ history, Tracks env start c₀ history c

variable {env start c₀} {due : Due} {drains : List SagaKey} {nest : Nat} {events : List Event}

theorem triple_log {u : Cascade S H → Cascade S H} {R : Cascade S H → Prop}
    (hg : ∀ c, Grows c (u c)) (hj : ∀ c, (u c).journal = c.journal)
    (hs : ∀ c, (u c).sagas = c.sagas) (he : ∀ c, (u c).allEvents = c.allEvents)
    (hR : ∀ c, R (u c)) :
    Act.Triple (At env start c₀ due drains nest events) (Act.modify u)
      (fun _ c => At env start c₀ due drains nest events c ∧ R c) (Kept env start c₀) := by
  refine .modify ?_
  rintro c ⟨history, ht, h⟩
  exact ⟨⟨history, ht.quiet (hg c) (hj c) (hs c) (he c), h⟩, hR c⟩

theorem triple_logSaga (record : Json) :
    Act.Triple (At env start c₀ due drains nest events) (logSaga record)
      (fun _ c => At env start c₀ due drains nest events c ∧ record ∈ c.sagaLog) (Kept env start c₀) :=
  triple_log (fun _ => ⟨List.prefix_rfl, List.prefix_rfl, List.prefix_rfl, List.prefix_rfl,
      List.prefix_append _ _⟩) (fun _ => rfl) (fun _ => rfl) (fun _ => rfl) (fun _ => by simp)

theorem triple_logReaction (record : Json) :
    Act.Triple (At env start c₀ due drains nest events) (logReaction record)
      (fun _ c => At env start c₀ due drains nest events c ∧ record ∈ c.reactionLog)
      (Kept env start c₀) :=
  triple_log (fun _ => ⟨List.prefix_rfl, List.prefix_rfl, List.prefix_rfl, List.prefix_append _ _,
      List.prefix_rfl⟩) (fun _ => rfl) (fun _ => rfl) (fun _ => rfl) (fun _ => by simp)

/-- The last step of a branch: a record and nothing else. -/
theorem triple_lastLogSaga (record : Json) :
    Act.Triple (At env start c₀ due drains nest events) (logSaga record)
      (fun _ => At env start c₀ due drains nest events) (Kept env start c₀) :=
  (triple_logSaga record).weaken (fun _ h => h) fun _ _ h => h.1

theorem triple_lastLogReaction (record : Json) :
    Act.Triple (At env start c₀ due drains nest events) (logReaction record)
      (fun _ => At env start c₀ due drains nest events) (Kept env start c₀) :=
  (triple_logReaction record).weaken (fun _ h => h) fun _ _ h => h.1

theorem triple_read {α : Type} (f : Cascade S H → α) :
    Act.Triple (At env start c₀ due drains nest events) (Act.read f)
      (fun a c => At env start c₀ due drains nest events c ∧ a = f c) (Kept env start c₀) :=
  .read fun _ h => ⟨h, rfl⟩

/-- A line about no instance, legal wherever the cascade may be. -/
theorem triple_note {m : Mark} {R : Cascade S H → Prop} {due' : Due} {drains' : List SagaKey}
    {nest' : Nat}
    (hm : ∀ history c, Tracks env start c₀ history c → R c →
      (bookOf env start c₀ history).due = due → (bookOf env start c₀ history).drains = drains →
      (bookOf env start c₀ history).nesting = nest →
      (∀ e ∈ events, e ∈ (bookOf env start c₀ history).emitted) →
      Legal env.tables start (bookOf env start c₀ history) m)
    (hlive : ∀ b : Book, (b.next m).live = b.live)
    (hemit : ∀ b : Book, (b.next m).emitted = b.emitted)
    (hdue : ∀ b : Book, b.due = due → (b.next m).due = due')
    (hdrains : ∀ b : Book, b.drains = drains → (b.next m).drains = drains')
    (hnest : ∀ b : Book, b.nesting = nest → (b.next m).nesting = nest')
    (hl : ∀ c, R c → Logged (c.noted m) m) :
    Act.Triple (fun c => At env start c₀ due drains nest events c ∧ R c) (note m)
      (fun _ => At env start c₀ due' drains' nest' events) (Kept env start c₀) := by
  refine .modify ?_
  rintro c ⟨⟨history, ht, hd, hds, hn, hes⟩, hR⟩
  refine ⟨history ++ [m],
    ht.line (hm history c ht hR hd hds hn hes) (hlive _) (hemit _) (hl c hR), ?_⟩
  rw [bookOf_snoc]
  exact ⟨hdue _ hd, hdrains _ hds, hnest _ hn, fun e he => by rw [hemit]; exact hes e he⟩

/-- A line that needs nothing of the state but what the book says. -/
theorem triple_noteIdle {m : Mark} {due' : Due} {drains' : List SagaKey} {nest' : Nat}
    (hm : ∀ b : Book, b.due = due → b.nesting = nest → (∀ e ∈ events, e ∈ b.emitted) →
      Legal env.tables start b m)
    (hlive : ∀ b : Book, (b.next m).live = b.live)
    (hemit : ∀ b : Book, (b.next m).emitted = b.emitted)
    (hdue : ∀ b : Book, b.due = due → (b.next m).due = due')
    (hdrains : ∀ b : Book, b.drains = drains → (b.next m).drains = drains')
    (hnest : ∀ b : Book, b.nesting = nest → (b.next m).nesting = nest')
    (hl : ∀ c : Cascade S H, Logged c m) :
    Act.Triple (At env start c₀ due drains nest events) (note m)
      (fun _ => At env start c₀ due' drains' nest' events) (Kept env start c₀) :=
  (triple_note (R := fun _ => True) (fun _ _ _ _ hd _ hn hes => hm _ hd hn hes) hlive hemit hdue
    hdrains hnest fun _ _ => hl _).weaken (fun _ h => ⟨h, trivial⟩) fun _ _ h => h

end At

theorem Due.Callable.afterAnswer_ok {due : Due} {verb : String} (h : due.Callable verb) :
    due.afterAnswer true = .idle := by
  cases due with
  | idle | forward | calling => rfl
  | _ => exact h.elim

/-- What `run` does to the book: from a state where a dispatch may be called, the answer. -/
def KeepsBook (env : Env S H) (start : Nat) (c₀ : Cascade S H) (self : RunFn S H) : Prop :=
  ∀ verb args role actor stamp depth, depth ≤ ceiling start → ∀ nest,
    (env.tables.Rootless → depth = nest) → ∀ due drains events, Due.Callable verb due →
    Act.Triple (At env start c₀ due drains nest events) (self verb args role actor stamp depth)
      (fun r => At env start c₀ (due.afterAnswer r.isOk) drains nest events) (Kept env start c₀)

section Functions

variable {env : Env S H} {start : Nat} {c₀ : Cascade S H} {self : RunFn S H}
  {drains : List SagaKey} {nest : Nat} {events : List Event}

theorem triple_callDispatch (verb : String) (args : Json) (role actor : Option String)
    (stamp : Option (List (String × String))) {depth : Nat} (hdepth : depth ≤ ceiling start)
    (hnest : env.tables.Rootless → depth = nest) {due : Due} (hdue : due.Callable verb) :
    Act.Triple (At env start c₀ due drains nest events)
      (callDispatch env verb args role actor stamp depth)
      (fun answer => At env start c₀ (due.afterAnswer answer.isOk) drains nest
        (answer.toOption.getD [] ++ events)) (Kept env start c₀) := by
  rintro c ⟨history, ht, hd, hds, hn, hes⟩
  rw [callDispatch_eq]
  refine ⟨?_, ?_⟩
  · rintro answer d ⟨⟩
    have hlegal : Legal env.tables start (bookOf env start c₀ history)
        (.called depth verb (enrichedArgs env verb args c)
          (stampedAnswer env verb args role actor stamp c)) := by
      refine ⟨hdepth, fun hroot => (hnest hroot).trans hn.symm, ?_⟩
      rw [hd]
      exact hdue
    refine ⟨history ++ [_], ht.step hlegal (afterCall_grows ..) rfl ht.sagas ?_ trivial, ?_⟩
    · rw [afterCall_allEvents, ht.events, List.append_assoc]
      rfl
    · rw [bookOf_snoc]
      refine ⟨by rw [← hd]; rfl, hds, hn, fun e he => ?_⟩
      rcases List.mem_append.mp he with he | he
      · exact List.mem_append_right _ he
      · exact List.mem_append_left _ (hes e he)
  · rintro d ⟨⟩

/-- The depth of a reaction's own dispatch stays below the ceiling. -/
theorem reactionDepth_le (start : Nat) {root : Bool} {depth : Nat}
    (h : ¬ (maxReactionDepth ≤ depth ∧ ¬ root)) : reactionDepth root depth ≤ ceiling start := by
  cases root with
  | true => exact Nat.zero_le _
  | false =>
      simp only [Bool.false_eq_true, not_false_eq_true, and_true, not_le] at h
      exact Nat.le_trans h (Nat.le_max_right _ _)

theorem succ_le_ceiling (start : Nat) {depth : Nat} (h : ¬ maxReactionDepth ≤ depth) :
    depth + 1 ≤ ceiling start := Nat.le_trans (Nat.not_le.mp h) (Nat.le_max_right _ _)

theorem triple_reactRow (hself : KeepsBook env start c₀ self) (policy : PolicyRule)
    (event : Event) {depth : Nat} (hdepth : reactionDepth policy.root depth ≤ ceiling start)
    (hnest : env.tables.Rootless → reactionDepth policy.root depth = nest) (row : String × Json) :
    Act.Triple (At env start c₀ .idle drains nest events) (reactRow env self policy event depth row)
      (fun _ => At env start c₀ .idle drains nest events) (Kept env start c₀) :=
  .bind (hself _ _ _ _ _ _ hdepth nest hnest .idle drains events trivial) fun _ =>
    triple_lastLogReaction _

/-- A withheld attempt: it is in the logs, and nothing runs. -/
theorem triple_withheld {depth : Nat} (cause : Cause) {due : Due}
    (hnest : env.tables.Rootless → depth + 1 = nest) (hdecl : cause.Declared env.tables)
    (hw : Withheld depth cause) (hdue : cause.Awaits due) :
    Act.Triple (fun c => At env start c₀ due drains nest events c ∧ cause.Undelivered c)
      (note (.attempted depth cause true)) (fun _ => At env start c₀ .idle drains nest events)
      (Kept env start c₀) := by
  refine triple_note ?_ (fun _ => rfl) (fun _ => rfl) ?_ (fun _ h => h) (fun _ h => h) fun _ h => h
  · intro history c _ _ hd _ hn _
    refine ⟨fun hroot => (hnest hroot).trans hn.symm, hdecl, iff_of_true rfl hw, ?_⟩
    rw [hd]
    exact hdue
  · intro b hd
    change b.due.afterAttempt true = .idle
    rw [hd]
    cases cause with
    | policy rule event => rw [show due = .idle from hdue]; rfl
    | leg leg spec => rw [show due = .idle from hdue]; rfl
    | compensation leg entry =>
        obtain ⟨id, rfl⟩ := hdue
        rfl

theorem triple_admitted {depth : Nat} (cause : Cause) {due : Due}
    (hnest : env.tables.Rootless → depth + 1 = nest) (hdecl : cause.Declared env.tables)
    (hw : ¬ Withheld depth cause) (hdue : cause.Awaits due) :
    Act.Triple (At env start c₀ due drains nest events) (note (.attempted depth cause false))
      (fun _ => At env start c₀ (due.afterAttempt false) drains nest events) (Kept env start c₀) := by
  refine triple_noteIdle ?_ (fun _ => rfl) (fun _ => rfl) ?_ (fun _ h => h) (fun _ h => h)
    fun _ => trivial
  · intro b hd hn _
    refine ⟨fun hroot => (hnest hroot).trans hn.symm, hdecl, iff_of_false Bool.false_ne_true hw, ?_⟩
    rw [hd]
    exact hdue
  · intro b hd
    change b.due.afterAttempt false = _
    rw [hd]

theorem triple_reactPolicy (hself : KeepsBook env start c₀ self) (event : Event) {depth : Nat}
    (hnest : env.tables.Rootless → depth + 1 = nest) {policy : PolicyRule}
    (hpolicy : policy ∈ env.tables.policies) :
    Act.Triple (At env start c₀ .idle drains nest events) (reactPolicy env self event depth policy)
      (fun _ => At env start c₀ .idle drains nest events) (Kept env start c₀) := by
  unfold reactPolicy
  split
  · exact .pure fun _ h => h
  · split
    · rename_i hw
      exact .bind (triple_logReaction _) fun _ =>
        triple_withheld (.policy policy event) hnest hpolicy ⟨hw.1, by simpa [Cause.root] using hw.2⟩ rfl
    · rename_i hw
      have hd := reactionDepth_le start hw
      have hn : env.tables.Rootless → reactionDepth policy.root depth = nest := by
        intro hroot
        rw [hroot policy hpolicy]
        exact hnest hroot
      have hw' : ¬ Withheld depth (.policy policy event) := by
        simpa [Withheld, Cause.root] using hw
      refine .bind (triple_admitted _ hnest hpolicy hw' rfl) fun _ => ?_
      split
      · split
        · exact triple_lastLogReaction _
        · refine .bind ((triple_read _).weaken (fun _ h => h) fun _ _ h => h.1) fun store => ?_
          split
          · exact triple_lastLogReaction _
          · exact .forEach fun row _ => triple_reactRow hself policy event hd hn row
      · exact .bind (hself _ _ _ _ _ _ hd nest hn .idle drains events trivial) fun _ =>
          triple_lastLogReaction _

theorem triple_crossDomainPolicy (event : Event) (policy : CrossDomainPolicyRule) :
    Act.Triple (At env start c₀ .idle drains nest events) (crossDomainPolicy env event policy)
      (fun _ => At env start c₀ .idle drains nest events) (Kept env start c₀) := by
  unfold crossDomainPolicy
  split
  · exact .pure fun _ h => h
  · refine .modify ?_
    rintro c ⟨history, ht, h⟩
    exact ⟨history, ht.quiet { crossDomain := List.prefix_append _ _ } rfl rfl rfl, h⟩

theorem triple_reactPolicies (hself : KeepsBook env start c₀ self) (event : Event) {depth : Nat}
    (hnest : env.tables.Rootless → depth + 1 = nest) :
    Act.Triple (At env start c₀ .idle drains nest events) (reactPolicies env self event depth)
      (fun _ => At env start c₀ .idle drains nest events) (Kept env start c₀) :=
  .bind (.forEach fun _ hpolicy => triple_reactPolicy hself event hnest hpolicy) fun _ =>
    .forEach fun policy _ => triple_crossDomainPolicy event policy

/-! #### Sagas -/

theorem triple_beginOne {event : Event} (hevent : event ∈ events) {pm : ProcessManagerDef}
    (hpm : pm ∈ env.tables.processManagers) :
    Act.Triple (At env start c₀ .idle drains nest events) (beginOne env event pm)
      (fun _ => At env start c₀ .idle drains nest events) (Kept env start c₀) := by
  unfold beginOne
  split
  · exact .pure fun _ h => h
  · rename_i hname
    split
    · exact triple_lastLogSaga _
    · rename_i correlation hcorr
      refine .bind (triple_read _) fun sagas => ?_
      split
      · exact .pure fun _ h => h.1
      · rename_i hnew
        refine .bind (.modify ?_) fun _ => triple_lastLogSaga _
        rintro c ⟨⟨history, ht, hd, hds, hn, hes⟩, rfl⟩
        rw [Option.not_isSome_iff_eq_none] at hnew
        refine ⟨history ++ [_], ht.write (l := ⟨pm.initialState, event.payload, []⟩)
          ⟨hd, ⟨hpm, hes event hevent, hcorr⟩, not_not.mp hname, ht.live_none hnew⟩ rfl rfl rfl rfl
          fun _ => trivial, ?_⟩
        rw [bookOf_snoc]
        exact ⟨hd, hds, hn, hes⟩

theorem triple_endOne {event : Event} (hevent : event ∈ events) {pm : ProcessManagerDef}
    (hpm : pm ∈ env.tables.processManagers) :
    Act.Triple (At env start c₀ .idle drains nest events) (endOne env event pm)
      (fun _ => At env start c₀ .idle drains nest events) (Kept env start c₀) := by
  unfold endOne
  split
  · exact .pure fun _ h => h
  · rename_i hname
    split
    · exact .pure fun _ h => h
    · rename_i correlation hcorr
      refine .bind (triple_read _) fun sagas => ?_
      split
      · exact .pure fun _ h => h.1
      · rename_i hlive
        refine .bind (.modify ?_) fun _ => triple_lastLogSaga _
        rintro c ⟨⟨history, ht, hd, hds, hn, hes⟩, rfl⟩
        obtain ⟨inst, hinst⟩ : ∃ inst, c.sagas.lookup (pm.name, correlation) = some inst :=
          Option.ne_none_iff_exists'.mp (by simpa using hlive)
        obtain ⟨l, hl, -⟩ := ht.live_of_lookup hinst
        have hlegal : Legal env.tables start (bookOf env start c₀ history)
            (.ended pm event correlation) :=
          ⟨hd, ⟨hpm, hes event hevent, hcorr⟩, not_not.mp hname, by rw [hl]; rfl⟩
        have grows : Grows c ({ c with sagas := c.sagas.erase (pm.name, correlation) }.noted
            (.ended pm event correlation)) :=
          ⟨List.prefix_append _ _, List.prefix_rfl, List.prefix_rfl, List.prefix_rfl, List.prefix_rfl⟩
        refine ⟨history ++ [_], ht.step hlegal grows rfl (fun key => ?_) ht.events trivial, ?_⟩
        · by_cases hk : key = (pm.name, correlation)
          · subst hk
            simp [noted, Book.next, Book.setLive]
          · simp [noted, Book.next, Book.setLive, AList.lookup_erase_ne hk, hk, ht.sagas key]
        · rw [bookOf_snoc]
          exact ⟨hd, hds, hn, hes⟩

/-- A leg taken: the state the handler leads to. -/
theorem triple_moved {event : Event} (hevent : event ∈ events) {pm : ProcessManagerDef}
    (hpm : pm ∈ env.tables.processManagers) {correlation trigger : String}
    (hcorr : pm.correlationOf event env.tables.referenceKeyFn = some correlation)
    (htrigger : trigger = event.name ∨ trigger = REFUSED) {inst : SagaInstance}
    {handler : Handler} (hleg : pm.selectLeg trigger inst.state = some handler)
    {sagas : AList fun _ : SagaKey => SagaInstance}
    (hl : sagas.lookup (pm.name, correlation) = some inst) :
    Act.Triple (fun c => At env start c₀ .idle drains nest events c ∧ sagas = c.sagas)
      (updateSaga (pm.name, correlation) (fun inst => { inst with state := handler.toState })
        (.moved pm event correlation trigger handler))
      (fun _ => At env start c₀ .idle drains nest events) (Kept env start c₀) := by
  refine .modify ?_
  rintro c ⟨⟨history, ht, hd, hds, hn, hes⟩, rfl⟩
  rw [hl]
  obtain ⟨l, hlive, rfl⟩ := ht.live_of_lookup hl
  refine ⟨history ++ [_], ht.write (l := { l with state := handler.toState })
    ⟨hd, ⟨hpm, hes event hevent, hcorr⟩, htrigger, l, hlive, hleg⟩
    (Book.live_updateLive hlive _) rfl rfl rfl fun _ => trivial, ?_⟩
  rw [bookOf_snoc]
  exact ⟨hd, hds, hn, hes⟩

theorem triple_recordCompensation (leg : SagaLeg) (spec : DispatchSpec) (args : Option Json) :
    Act.Triple (At env start c₀ .idle drains nest events) (recordCompensation leg spec args)
      (fun recorded c => if recorded then ∃ id, At env start c₀ (.forward leg.key id) drains nest events c
        else At env start c₀ .idle drains nest events c) (Kept env start c₀) := by
  rintro c ⟨history, ht, hd, hds, hn, hes⟩
  unfold recordCompensation
  split
  · rename_i hinst
    refine ⟨?_, ?_⟩
    · rintro recorded d ⟨⟩
      obtain ⟨l, hlive, rfl⟩ := ht.live_of_lookup hinst
      refine ⟨.recorded (bookOf env start c₀ history).recorded, history ++ [_],
        ht.write ⟨hd, by rw [hlive]; rfl⟩ (Book.live_updateLive hlive _) rfl
          (by simp [Live.inst]) rfl fun _ => trivial, ?_⟩
      rw [bookOf_snoc]
      exact ⟨rfl, hds, hn, hes⟩
    · rintro d ⟨⟩
  · refine ⟨?_, ?_⟩
    · rintro recorded d ⟨⟩
      exact ⟨history, ht, hd, hds, hn, hes⟩
    · rintro d ⟨⟩

/-- The pop of a refused dispatch: the entry on top is the one that is due. -/
theorem triple_unrecorded (leg : SagaLeg) (id : EntryId) :
    Act.Triple (At env start c₀ (.withdraw leg.key id) drains nest events)
      (unrecordCompensation leg true) (fun _ => At env start c₀ .idle drains nest events)
      (Kept env start c₀) := by
  refine .modify ?_
  rintro c ⟨history, ht, hd, hds, hn, hes⟩
  have hdue := ht.sound.due
  rw [Book.DueSound, hd] at hdue
  obtain ⟨l, hlive⟩ := Option.isSome_iff_exists.mp (Book.live_isSome_of_newest hdue)
  rw [ht.sagas leg.key, hlive]
  refine ⟨history ++ [_], ht.write (l := { l with ledger := l.ledger.dropLast }) ⟨id, hd⟩
    (Book.live_updateLive hlive _) rfl (by simp [Live.inst, List.map_dropLast]) rfl
    fun _ => trivial, ?_⟩
  rw [bookOf_snoc]
  exact ⟨rfl, hds, hn, hes⟩

theorem triple_settleDelivery (leg : SagaLeg) (spec : DispatchSpec) (recorded : Bool)
    (outcome : Except Refusal Unit) :
    Act.Triple
      (fun c => if recorded then
          ∃ id, At env start c₀ ((Due.forward leg.key id).afterAnswer outcome.isOk) drains nest events c
        else At env start c₀ .idle drains nest events c)
      (settleDelivery leg spec recorded outcome)
      (fun _ => At env start c₀ .idle drains nest events) (Kept env start c₀) := by
  have hlog : ∀ (record : Json) (a : Option Bool),
      Act.Triple (At env start c₀ .idle drains nest events) (logSaga record >>= fun _ => pure a)
        (fun _ => At env start c₀ .idle drains nest events) (Kept env start c₀) :=
    fun record a => .bind (triple_lastLogSaga record) fun _ => .pure fun _ h => h
  cases outcome with
  | ok =>
      refine (hlog _ _).weaken (fun c h => ?_) fun _ _ h => h
      cases recorded with
      | true =>
          obtain ⟨id, h⟩ := h
          exact h
      | false => exact h
  | error refusal =>
      refine .bind ?_ fun _ => hlog _ _
      cases recorded with
      | true => exact .of_exists fun id => triple_unrecorded leg id
      | false => exact .pure fun _ h => h

theorem triple_deliverSagaDispatch (hself : KeepsBook env start c₀ self) (leg : SagaLeg) (spec : DispatchSpec) (args : Json)
    {depth : Nat} (hnest : env.tables.Rootless → depth + 1 = nest) (compensationArgs : Option Json) :
    Act.Triple (At env start c₀ .idle drains nest events)
      (deliverSagaDispatch self leg spec args depth compensationArgs)
      (fun _ => At env start c₀ .idle drains nest events) (Kept env start c₀) := by
  unfold deliverSagaDispatch
  split
  · rename_i hw
    refine .bind (triple_logSaga _) fun _ => .bind (triple_withheld (.leg leg spec) hnest
      trivial ⟨hw, rfl⟩ rfl) fun _ => .pure fun _ h => h
  · rename_i hw
    have hd := succ_le_ceiling start hw
    refine .bind (triple_admitted (.leg leg spec) hnest trivial (fun h => hw h.1) rfl) fun _ => ?_
    refine .bind (triple_recordCompensation leg spec compensationArgs) fun recorded => ?_
    refine .bind ?_ fun outcome => triple_settleDelivery leg spec recorded outcome
    cases recorded with
    | true =>
        refine .of_exists fun id => (hself _ _ _ _ _ _ hd nest hnest (.forward leg.key id) drains events
          trivial).weaken (fun _ h => h) fun r c h => ?_
        exact ⟨id, h⟩
    | false => exact hself _ _ _ _ _ _ hd nest hnest .idle drains events trivial

/-- Firing one entry, from the pop to its record in the log. -/
theorem triple_deliverDerivedCompensation (hself : KeepsBook env start c₀ self) (leg : SagaLeg) (id : EntryId)
    (entry : CompletedCompensation) {depth : Nat} (hnest : env.tables.Rootless → depth + 1 = nest) :
    Act.Triple (At env start c₀ (.firing leg.key id entry) drains nest events)
      (deliverDerivedCompensation self leg entry depth)
      (fun _ => At env start c₀ .idle drains nest events) (Kept env start c₀) := by
  unfold deliverDerivedCompensation
  split
  · rename_i hw
    exact .bind (triple_logSaga _) fun _ =>
      triple_withheld (.compensation leg entry) hnest trivial ⟨hw, rfl⟩ ⟨id, rfl⟩
  · rename_i hw
    have hd := succ_le_ceiling start hw
    refine .bind (triple_admitted (.compensation leg entry) hnest trivial (fun h => hw h.1)
      ⟨id, rfl⟩)
      fun _ => ?_
    refine .bind (hself _ _ _ _ _ _ hd nest hnest (.calling leg.key id entry) drains events ⟨_, rfl⟩)
      fun outcome => ?_
    split
    · exact triple_lastLogSaga _
    · refine .bind (triple_logSaga _) fun _ => triple_note ?_ (fun _ => rfl) (fun _ => rfl)
        (fun _ _ => rfl) (fun _ h => h) (fun _ h => h) ?_
      · exact fun _ _ _ _ hd _ _ _ => ⟨id, hd⟩
      · exact fun c h => ⟨leg, _, rfl, h⟩

theorem triple_popLedger (key : SagaKey) :
    Act.Triple (At env start c₀ .idle (key :: drains) nest events) (popLedger key)
      (fun popped c => match popped with
        | some entry => ∃ id, At env start c₀ (.firing key id entry) (key :: drains) nest events c
        | none => At env start c₀ .idle (key :: drains) nest events c ∧
            ∀ inst, c.sagas.lookup key = some inst → inst.completedCompensations = [])
      (Kept env start c₀) := by
  rintro c ⟨history, ht, hd, hds, hn, hes⟩
  unfold popLedger
  split
  · rename_i inst hinst
    split
    · rename_i entry hentry
      refine ⟨?_, ?_⟩
      · rintro popped d ⟨⟩
        obtain ⟨l, hlive, rfl⟩ := ht.live_of_lookup hinst
        obtain ⟨⟨id, entry'⟩, hlast, rfl⟩ : ∃ slot, l.ledger.getLast? = some slot ∧ slot.2 = entry := by
          rw [Live.inst, List.getLast?_map, Option.map_eq_some_iff] at hentry
          exact hentry
        have hledger : ((bookOf env start c₀ history).ledger key).getLast? = some (id, entry') := by
          simp [Book.ledger, hlive, hlast]
        refine ⟨id, history ++ [_],
          ht.write (l := { l with ledger := l.ledger.dropLast })
            ⟨hd, by rw [hds]; rfl, id, hledger⟩ (Book.live_updateLive hlive _) rfl
            (by simp [Live.inst, List.map_dropLast]) rfl fun _ => trivial, ?_⟩
        rw [bookOf_snoc]
        refine ⟨?_, hds, hn, hes⟩
        change ((bookOf env start c₀ history).ids key).getLast?.elim _ _ = _
        rw [Book.ids, List.getLast?_map, hledger]
        rfl
      · rintro d ⟨⟩
    · rename_i hnone
      refine ⟨?_, ?_⟩
      · rintro popped d ⟨⟩
        refine ⟨⟨history, ht, hd, hds, hn, hes⟩, fun inst' hinst' => ?_⟩
        obtain rfl : inst = inst' := Option.some.inj (hinst.symm.trans hinst')
        exact List.getLast?_eq_none_iff.mp hnone
      · rintro d ⟨⟩
  · rename_i hnone
    refine ⟨?_, ?_⟩
    · rintro popped d ⟨⟩
      refine ⟨⟨history, ht, hd, hds, hn, hes⟩, fun inst hinst => ?_⟩
      rw [hnone] at hinst
      cases hinst
    · rintro d ⟨⟩

theorem Tracks.ledger_nil {history : List Mark} {c : Cascade S H}
    (ht : Tracks env start c₀ history c) {key : SagaKey}
    (h : ∀ inst, c.sagas.lookup key = some inst → inst.completedCompensations = []) :
    (bookOf env start c₀ history).ledger key = [] := by
  cases hl : (bookOf env start c₀ history).live key with
  | none => simp [Book.ledger, hl]
  | some l =>
      have hempty := h l.inst (by rw [ht.sagas key, hl]; rfl)
      simpa [Book.ledger, hl, Live.inst] using hempty

/-- The drain of one ledger, for as long as its fuel lasts. -/
theorem triple_drainLedger (hself : KeepsBook env start c₀ self) (leg : SagaLeg) {depth : Nat} (hnest : env.tables.Rootless → depth + 1 = nest)
    (fuel : Nat) :
    Act.Triple (At env start c₀ .idle (leg.key :: drains) nest events) (drainLedger self leg depth fuel)
      (fun _ => At env start c₀ .idle drains nest events) (Kept env start c₀) := by
  induction fuel with
  | zero => exact .stop fun _ ⟨history, ht, _⟩ => ⟨history, ht⟩
  | succ fuel ih =>
      refine .bind (triple_popLedger leg.key) fun popped => ?_
      cases popped with
      | none =>
          refine triple_note ?_ (fun _ => rfl) (fun _ => rfl) (fun _ h => h) ?_ (fun _ h => h)
            fun _ _ => trivial
          · intro history c ht hempty hd hds _ _
            exact ⟨hd, by rw [hds]; rfl, ht.ledger_nil hempty⟩
          · intro b hds
            change b.drains.tail = drains
            rw [hds]
            rfl
      | some entry =>
          exact .of_exists fun id => .bind
            (triple_deliverDerivedCompensation hself leg id entry hnest) fun _ => ih

theorem triple_draining (key : SagaKey) :
    Act.Triple (At env start c₀ .idle drains nest events) (note (.draining key))
      (fun _ => At env start c₀ .idle (key :: drains) nest events) (Kept env start c₀) := by
  refine triple_noteIdle (fun _ hd _ _ => hd) (fun _ => rfl) (fun _ => rfl) (fun _ h => h) ?_
    (fun _ h => h) fun _ => trivial
  intro b hds
  change key :: b.drains = key :: drains
  rw [hds]

theorem triple_drain (hself : KeepsBook env start c₀ self) (leg : SagaLeg) {depth : Nat}
    (hnest : env.tables.Rootless → depth + 1 = nest) (fuel : Nat) :
    Act.Triple (At env start c₀ .idle drains nest events) (drain self fuel leg depth)
      (fun _ => At env start c₀ .idle drains nest events) (Kept env start c₀) :=
  .bind (triple_draining leg.key) fun _ => triple_drainLedger hself leg hnest fuel

theorem triple_compensate (hself : KeepsBook env start c₀ self)
    (leg : SagaLeg) (hpm : leg.pm ∈ env.tables.processManagers) {event : Event}
    (hevent : event ∈ events)
    (hcorr : leg.pm.correlationOf event env.tables.referenceKeyFn = some leg.correlation)
    (memory : Json) {depth : Nat} (hnest : env.tables.Rootless → depth + 1 = nest) (fuel : Nat) :
    Act.Triple (At env start c₀ .idle drains nest events)
      (compensate env self fuel leg event memory depth)
      (fun _ => At env start c₀ .idle drains nest events) (Kept env start c₀) := by
  refine .bind (triple_read _) fun sagas => ?_
  split
  · exact .pure fun _ h => h.1
  · rename_i inst hinst
    split
    · exact .pure fun _ h => h.1
    · split
      · exact (triple_lastLogSaga _).weaken (fun _ h => h.1) fun _ _ h => h
      · rename_i compensation hleg
        refine .bind (triple_moved hevent hpm hcorr (.inr rfl) hleg hinst) fun _ => ?_
        refine .bind (triple_lastLogSaga _) fun _ => ?_
        refine .bind (triple_drain hself leg hnest fuel) fun _ => ?_
        exact .forEach fun spec _ => .bind
          (triple_deliverSagaDispatch hself leg spec _ hnest _) fun _ => .pure fun _ h => h

theorem triple_deliverAll (hself : KeepsBook env start c₀ self)
    (leg : SagaLeg) (event : Event) (memory : Json) {depth : Nat} (hnest : env.tables.Rootless → depth + 1 = nest)
    (specs : List DispatchSpec) (refused : Bool) :
    Act.Triple (At env start c₀ .idle drains nest events)
      (deliverAll env self leg event memory depth specs refused)
      (fun _ => At env start c₀ .idle drains nest events) (Kept env start c₀) := by
  induction specs generalizing refused with
  | nil => exact .pure fun _ h => h
  | cons spec specs ih =>
      exact .bind (triple_deliverSagaDispatch hself leg spec _ hnest _) fun _ => ih _

theorem triple_advanceOne (hself : KeepsBook env start c₀ self)
    {event : Event} (hevent : event ∈ events) {depth : Nat} (hnest : env.tables.Rootless → depth + 1 = nest)
    {pm : ProcessManagerDef} (hpm : pm ∈ env.tables.processManagers) (fuel : Nat) :
    Act.Triple (At env start c₀ .idle drains nest events) (advanceOne env self fuel event depth pm)
      (fun _ => At env start c₀ .idle drains nest events) (Kept env start c₀) := by
  unfold advanceOne
  split
  · exact .pure fun _ h => h
  · split
    · exact .pure fun _ h => h
    · rename_i correlation hcorr
      refine .bind (triple_read _) fun sagas => ?_
      split
      · exact (triple_lastLogSaga _).weaken (fun _ h => h.1) fun _ _ h => h
      · rename_i inst hinst
        split
        · exact (triple_lastLogSaga _).weaken (fun _ h => h.1) fun _ _ h => h
        · rename_i handler hleg
          refine .bind (triple_moved hevent hpm hcorr (.inl rfl) hleg hinst) fun _ => ?_
          refine .bind (triple_lastLogSaga _) fun _ => ?_
          refine .bind ((triple_read _).weaken (fun _ h => h) fun _ _ h => h.1) fun sagas => ?_
          refine .bind (triple_deliverAll hself _ event _ hnest handler.dispatches false)
            fun refused => ?_
          split
          · exact triple_compensate hself ⟨pm, correlation, _⟩ hpm hevent hcorr _ hnest fuel
          · exact .pure fun _ h => h

/-- A line about the event being settled. -/
theorem triple_bracket {m : Mark} {nest' : Nat}
    (hm : ∀ b : Book, b.due = .idle → (∀ e ∈ events, e ∈ b.emitted) → Legal env.tables start b m)
    (hnext : ∀ b : Book, b.next m = { b with nesting := (b.next m).nesting })
    (hnest : ∀ b : Book, b.nesting = nest → (b.next m).nesting = nest')
    (hl : ∀ c : Cascade S H, Logged c m) :
    Act.Triple (At env start c₀ .idle drains nest events) (note m)
      (fun _ => At env start c₀ .idle drains nest' events) (Kept env start c₀) :=
  triple_noteIdle (fun b hd _ hes => hm b hd hes) (fun b => by rw [hnext]) (fun b => by rw [hnext])
    (fun b h => by rw [hnext]; exact h) (fun b h => by rw [hnext]; exact h) hnest hl

theorem triple_settleEvent (hself : KeepsBook env start c₀ self) {event : Event}
    (hevent : event ∈ events) {depth : Nat} (hnest : env.tables.Rootless → depth = nest)
    (fuel : Nat) :
    Act.Triple (At env start c₀ .idle drains nest events) (settleEvent env self fuel depth event)
      (fun _ => At env start c₀ .idle drains nest events) (Kept env start c₀) := by
  have hbracket : ∀ b : Book, b.due = .idle → (∀ e ∈ events, e ∈ b.emitted) →
      b.due = .idle ∧ event ∈ b.emitted := fun b hd hes => ⟨hd, hes event hevent⟩
  have hnest' : env.tables.Rootless → depth + 1 = nest + 1 := fun hroot => by rw [hnest hroot]
  refine .bind (triple_bracket (m := .policiesOf event) hbracket (fun _ => rfl)
    (fun _ h => congrArg Nat.succ h) fun _ => trivial) fun _ => ?_
  refine .bind (triple_reactPolicies hself event hnest') fun _ => ?_
  refine .bind (triple_bracket (m := .sagasOf event) hbracket (fun _ => rfl) (fun _ h => h)
    fun _ => trivial) fun _ => ?_
  refine .bind (.forEach fun pm hpm => triple_beginOne hevent hpm) fun _ => ?_
  refine .bind (.forEach fun pm hpm => triple_advanceOne hself hevent hnest' hpm fuel) fun _ => ?_
  refine .bind (.forEach fun pm hpm => triple_endOne hevent hpm) fun _ => ?_
  exact triple_bracket (m := .settled event) hbracket (fun _ => rfl)
    (fun _ h => congrArg Nat.pred h) fun _ => trivial

theorem At.mono {due : Due} {events' : List Event} {c : Cascade S H}
    (h : At env start c₀ due drains nest events' c) (hsub : ∀ e ∈ events, e ∈ events') :
    At env start c₀ due drains nest events c := by
  obtain ⟨history, ht, hd, hds, hn, hes⟩ := h
  exact ⟨history, ht, hd, hds, hn, fun e he => hes e (hsub e he)⟩

theorem keepsBook_runBody (hself : KeepsBook env start c₀ self)
    (fuel : Nat) : KeepsBook env start c₀ (runBody env self fuel) := by
  intro verb args role actor stamp depth hdepth nest hnest due drains events hdue
  refine .bind (triple_callDispatch verb args role actor stamp hdepth hnest hdue) fun answer => ?_
  cases answer with
  | error refusal => exact .pure fun _ h => h
  | ok batch =>
      have hok : due.afterAnswer (Except.ok (ε := Refusal) ()).isOk = .idle := hdue.afterAnswer_ok
      refine .bind (Q := fun _ => At env start c₀ .idle drains nest (batch ++ events)) ?_ fun _ =>
        .pure fun c h => ?_
      · refine (Act.Triple.forEach fun event hevent => triple_settleEvent hself
          (List.mem_append_left events hevent) hnest fuel).weaken (fun c h => ?_) fun _ _ h => h
        change At env start c₀ (due.afterAnswer true) drains nest (batch ++ events) c at h
        rwa [hdue.afterAnswer_ok] at h
      · rw [hok]
        exact h.mono fun e he => List.mem_append_right _ he

end Functions

/-- Every run keeps its book, for every fuel. -/
theorem keepsBook_run (env : Env S H) {start : Nat} (c₀ : Cascade S H) (fuel : Nat) :
    KeepsBook env start c₀ (run env fuel) := by
  induction fuel with
  | zero =>
      intro verb args role actor stamp depth _ nest _ due drains events _
      exact .stop fun _ ⟨history, ht, _⟩ => ⟨history, ht⟩
  | succ fuel ih => exact keepsBook_runBody ih fuel

section Run

variable (env : Env S H) (fuel : Nat) (verb : String) (args : Json) (role actor : Option String)
  (stamp : Option (List (String × String))) (depth : Nat) (c : Cascade S H)

theorem run_triple :
    (∀ r d, run env fuel verb args role actor stamp depth c = (some r, d) →
      At env depth c (Due.idle.afterAnswer r.isOk) [] depth [] d) ∧
    ∀ d, run env fuel verb args role actor stamp depth c = (none, d) → Kept env depth c d :=
  keepsBook_run env c fuel verb args role actor stamp depth (Nat.le_max_left _ _) depth
    (fun _ => rfl) .idle [] [] trivial c
    ⟨[], tracks_start, rfl, rfl, rfl, fun _ he => nomatch he⟩

/-- The history of a run, wherever its fuel ended, is a legal history of its book. -/
theorem run_kept :
    ∃ history, Tracks env depth c history (run env fuel verb args role actor stamp depth c).2 := by
  obtain ⟨hret, hcut⟩ := run_triple env fuel verb args role actor stamp depth c
  cases hrun : run env fuel verb args role actor stamp depth c with
  | mk o d =>
      cases o with
      | none => exact hcut d hrun
      | some r =>
          obtain ⟨history, ht, -⟩ := hret r d hrun
          exact ⟨history, ht⟩

variable {env fuel verb args role actor stamp depth c}

/-- A returned run left nothing due and no drain open. -/
theorem run_settled {r : Except Refusal Unit} {d : Cascade S H}
    (h : run env fuel verb args role actor stamp depth c = (some r, d)) :
    ∃ history, Tracks env depth c history d ∧ (bookOf env depth c history).due = .idle ∧
      (bookOf env depth c history).drains = [] := by
  obtain ⟨hret, -⟩ := run_triple env fuel verb args role actor stamp depth c
  obtain ⟨history, ht, hdue, hdrains, -⟩ := hret r d h
  exact ⟨history, ht, hdue, hdrains⟩

end Run

end Hecks
