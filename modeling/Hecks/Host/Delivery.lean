import Hecks.Host.Memory

/-! The cross-domain reactions of a committed step: each is delivered with retries, and one that
exhausts them is logged and kept as a dead letter. -/
namespace Hecks.Host

/-- What a target domain answered, or that its function failed. -/
structure InvokeOutcome where
  body : Serde
  functionError : Bool

structure DeliveryRecord where
  policy : String
  targetDomain : String
  targetVerb : String
  delivered : Bool
  reason : Option String

structure DeliveryFailure where
  policy : String
  targetDomain : String
  targetVerb : String
  payload : Serde
  error : String
  attempts : Nat

/-- A text field of a reaction, empty where it has none. -/
def Serde.text (json : Serde) (key : String) : String := ((json.get key).bind Serde.asStr).getD ""

def payloadOf (reaction : Serde) : Serde := (reaction.get "payload").getD (.object [])

/-- What the world outside does: each attempt to invoke a function for the reaction at an index,
and the write of that reaction's dead letter. -/
structure Outside where
  invoke : Nat → Nat → (functionName payload : String) → Except String InvokeOutcome
  deadLetter : Nat → DeadLetter → Except StoreError Unit

section

-- `display` is the text `serde_json` writes a value with, `downcase` Ruby's lowercasing
variable (display : Serde → String) (downcase : String → String) (outside : Outside)

def functionNameFor (domain : String) : String := "hecks-" ++ downcase domain

/-- The refusal of the verb itself among those the target lists. -/
def targetSideRefusal (body : Serde) (targetVerb : String) : Option Serde :=
  ((body.get "refusals").bind Serde.asArray).bind fun refusals =>
    refusals.find? fun r => (r.get "verb").bind Serde.asStr = some targetVerb

/-- One attempt: a refusal by the target is an answer, a fault of the invocation is not. -/
def deliver (index attempt : Nat) (reaction : Serde) : Except String DeliveryRecord := do
  let targetDomain := reaction.text "target_domain"
  let targetVerb := reaction.text "target_verb"
  let functionName := functionNameFor downcase targetDomain
  let request := display (.object [("verb", .string targetVerb), ("args", payloadOf reaction)])
  let outcome ← outside.invoke index attempt functionName request
  if outcome.functionError then
    let message := (((outcome.body.get "errorMessage").bind Serde.asStr).getD
      (display outcome.body))
    .error ("Lambda " ++ functionName ++ " (" ++ targetVerb ++ "): " ++ message)
  else
    match targetSideRefusal outcome.body targetVerb with
    | none => return ⟨reaction.text "policy", targetDomain, targetVerb, true, none⟩
    | some refusal =>
        return ⟨reaction.text "policy", targetDomain, targetVerb, false,
          (refusal.get "error").bind Serde.asStr⟩

def maxDeliveryAttempts : Nat := 3

/-- The attempts left, from `attempt` on; only a fault of the invocation is retried. -/
def retry (index : Nat) (reaction : Serde) : (left attempt : Nat) → (lastError : String) →
    Except String DeliveryRecord
  | 0, _, lastError => .error lastError
  | left + 1, attempt, _ =>
      match deliver display downcase outside index attempt reaction with
      | .ok record => .ok record
      | .error e => retry index reaction left (attempt + 1) e

def deliverWithRetry (index : Nat) (reaction : Serde) : Except DeliveryFailure DeliveryRecord :=
  match retry display downcase outside index reaction maxDeliveryAttempts 1
      "no delivery attempt ran" with
  | .ok record => .ok record
  | .error e =>
      .error ⟨reaction.text "policy", reaction.text "target_domain", reaction.text "target_verb",
        payloadOf reaction, e, maxDeliveryAttempts⟩

/-- What the loop over a step's reactions has done: which it attempted, which failures it logged,
which dead letters it wrote, what it will answer. -/
structure Deliveries where
  attempted : List Serde
  logged : List DeliveryFailure
  deadLetters : List DeadLetter
  reactions : List Serde
  records : List DeliveryRecord
  firstFailure : Option String

def DeliveryFailure.deadLetter (failure : DeliveryFailure) : DeadLetter :=
  ⟨failure.policy, failure.targetDomain, failure.targetVerb, failure.payload, failure.error,
    failure.attempts⟩

/-- The row a delivery adds to the answer's reactions. -/
def DeliveryRecord.row (record : DeliveryRecord) (reaction : Serde) : Serde :=
  .object [("policy", .string record.policy), ("on", .string (reaction.text "on")),
    ("trigger", .string record.targetVerb), ("delivered", .bool record.delivered),
    ("reason", record.reason.elim .null .string)]

/-- One turn of the loop; a dead letter that cannot be written ends the loop. -/
def handleReaction (index : Nat) (reaction : Serde) : EStateM StoreError Deliveries Unit := do
  modify fun d => { d with attempted := d.attempted ++ [reaction] }
  match deliverWithRetry display downcase outside index reaction with
  | .ok record =>
      modify fun d =>
        { d with reactions := d.reactions ++ [record.row reaction]
                 records := d.records ++ [record] }
  | .error failure =>
      modify fun d => { d with logged := d.logged ++ [failure] }
      match outside.deadLetter index failure.deadLetter with
      | .error e => throw e
      | .ok _ =>
          modify fun d =>
            { d with deadLetters := d.deadLetters ++ [failure.deadLetter]
                     firstFailure := d.firstFailure.or (some failure.error) }

/-- The reactions of a step, in order, from an index on. -/
def deliverReactions : Nat → List Serde → EStateM StoreError Deliveries Unit
  | _, [] => pure ()
  | index, reaction :: reactions => do
      handleReaction display downcase outside index reaction
      deliverReactions (index + 1) reactions

def nothingYet : Deliveries := ⟨[], [], [], [], [], none⟩

/-- What the loop has done by the time it ends, however it ends. -/
def Deliveries.after (result : EStateM.Result StoreError Deliveries Unit) : Deliveries :=
  match result with
  | .ok _ d | .error _ d => d

def deliveriesOf (reactions : List Serde) : Deliveries :=
  .after (deliverReactions display downcase outside 0 reactions nothingYet)

/-- Every reaction is attempted once and in order, and each failed one is recorded or logged. -/
structure EachHandled (reactions : List Serde) : Prop where
  attempted : (deliveriesOf display downcase outside reactions).attempted = reactions
  told : ∀ index reaction failure, reactions[index]? = some reaction →
    deliverWithRetry display downcase outside index reaction = .error failure →
      failure.deadLetter ∈ (deliveriesOf display downcase outside reactions).deadLetters ∨
        failure ∈ (deliveriesOf display downcase outside reactions).logged

end

section

variable {display : Serde → String} {downcase : String → String} {outside : Outside}

/-- What the loop logs stays logged. -/
structure Grows (before after : Deliveries) : Prop where
  attempted : before.attempted <+: after.attempted
  logged : before.logged <+: after.logged

theorem Grows.refl (d : Deliveries) : Grows d d := ⟨List.prefix_rfl, List.prefix_rfl⟩

theorem Grows.trans {a b c : Deliveries} (h : Grows a b) (h' : Grows b c) : Grows a c :=
  ⟨h.attempted.trans h'.attempted, h.logged.trans h'.logged⟩

/-- One turn attempts its reaction and logs a failure, and ends the loop only where the failure's
dead letter cannot be written. -/
theorem handleReaction_spec (index : Nat) (reaction : Serde) (d : Deliveries) :
    ∃ d', d'.attempted = d.attempted ++ [reaction] ∧ d.logged <+: d'.logged ∧
      (∀ failure, deliverWithRetry display downcase outside index reaction = .error failure →
        failure ∈ d'.logged) ∧
      ((handleReaction display downcase outside index reaction d = .ok () d' ∧
          ∀ failure, deliverWithRetry display downcase outside index reaction = .error failure →
            outside.deadLetter index failure.deadLetter = .ok ()) ∨
        ∃ e failure, handleReaction display downcase outside index reaction d = .error e d' ∧
          deliverWithRetry display downcase outside index reaction = .error failure ∧
          outside.deadLetter index failure.deadLetter = .error e) := by
  cases delivered : deliverWithRetry display downcase outside index reaction with
  | ok record =>
    refine ⟨{ d with attempted := d.attempted ++ [reaction]
                     reactions := d.reactions ++ [record.row reaction]
                     records := d.records ++ [record] }, rfl, List.prefix_rfl, ?_, .inl ⟨?_, ?_⟩⟩
    · intro failure failed
      cases failed
    · simp only [handleReaction, delivered]
      rfl
    · intro failure failed
      cases failed
  | error failure =>
    cases letter : outside.deadLetter index failure.deadLetter with
    | ok written =>
      refine ⟨{ d with attempted := d.attempted ++ [reaction]
                       logged := d.logged ++ [failure]
                       deadLetters := d.deadLetters ++ [failure.deadLetter]
                       firstFailure := d.firstFailure.or (some failure.error) }, rfl,
        List.prefix_append _ _, ?_, .inl ⟨?_, ?_⟩⟩
      · rintro _ ⟨⟩
        simp
      · simp only [handleReaction, delivered, letter]
        rfl
      · rintro _ ⟨⟩
        exact letter
    | error e =>
      refine ⟨{ d with attempted := d.attempted ++ [reaction]
                       logged := d.logged ++ [failure] }, rfl, List.prefix_append _ _, ?_,
        .inr ⟨e, failure, ?_, rfl, letter⟩⟩
      · rintro _ ⟨⟩
        simp
      · simp only [handleReaction, delivered, letter]
        rfl

theorem deliverReactions_ok {index : Nat} {reaction : Serde} {reactions : List Serde}
    {d d' : Deliveries}
    (turn : handleReaction display downcase outside index reaction d = .ok () d') :
    deliverReactions display downcase outside index (reaction :: reactions) d =
      deliverReactions display downcase outside (index + 1) reactions d' := by
  show EStateM.bind _ _ d = _
  rw [EStateM.bind, turn]

theorem deliverReactions_error {index : Nat} {reaction : Serde} {reactions : List Serde}
    {d d' : Deliveries} {e : StoreError}
    (turn : handleReaction display downcase outside index reaction d = .error e d') :
    deliverReactions display downcase outside index (reaction :: reactions) d = .error e d' := by
  show EStateM.bind _ _ d = _
  rw [EStateM.bind, turn]

/-- Of the reactions of a step, from an index on, none but the last both exhausts its retries and
fails to be written as a dead letter. -/
def LettersKept (display : Serde → String) (downcase : String → String) (outside : Outside)
    (index : Nat) (reactions : List Serde) : Prop :=
  ∀ i reaction failure, i + 1 < reactions.length → reactions[i]? = some reaction →
    deliverWithRetry display downcase outside (index + i) reaction = .error failure →
      outside.deadLetter (index + i) failure.deadLetter = .ok ()

theorem LettersKept.tail {index : Nat} {reaction : Serde} {reactions : List Serde}
    (kept : LettersKept display downcase outside index (reaction :: reactions)) :
    LettersKept display downcase outside (index + 1) reactions := by
  intro i r failure inside here failed
  have next := kept (i + 1) r failure (by simpa using inside) (by simpa using here)
  rw [show index + (i + 1) = index + 1 + i by omega] at next
  exact next failed

/-- Whatever happens, what the loop attempts is a beginning of the step's reactions, and each
failed attempt is logged. -/
theorem deliverReactions_logs (reactions : List Serde) (index : Nat) (d : Deliveries) :
    Grows d (.after (deliverReactions display downcase outside index reactions d)) ∧
      ∀ i reaction failure, reactions[i]? = some reaction →
        d.attempted.length + i <
          (Deliveries.after (deliverReactions display downcase outside index reactions
            d)).attempted.length →
        deliverWithRetry display downcase outside (index + i) reaction = .error failure →
        failure ∈
          (Deliveries.after (deliverReactions display downcase outside index reactions d)).logged := by
  induction reactions generalizing index d with
  | nil =>
    refine ⟨Grows.refl d, ?_⟩
    intro i reaction failure here
    simp at here
  | cons r reactions ih =>
    obtain ⟨d', attempted, logged, told, turn⟩ :=
      @handleReaction_spec display downcase outside index r d
    have first : Grows d d' := ⟨attempted ▸ List.prefix_append _ _, logged⟩
    rcases turn with ⟨turn, -⟩ | ⟨e, failure, turn, failed, -⟩
    · rw [deliverReactions_ok turn]
      obtain ⟨rest, later⟩ := ih (index + 1) d'
      refine ⟨first.trans rest, ?_⟩
      intro i reaction failure here reached failed
      cases i with
      | zero =>
        cases here
        exact rest.logged.subset (told failure failed)
      | succ i =>
        apply later i reaction failure (by simpa using here)
        · rw [attempted, List.length_append, List.length_singleton]
          omega
        · rw [show index + 1 + i = index + (i + 1) by omega]
          exact failed
    · rw [deliverReactions_error turn]
      refine ⟨first, ?_⟩
      intro i reaction failure' here reached failed'
      cases i with
      | zero =>
        cases here
        exact told failure' failed'
      | succ i =>
        rw [Deliveries.after, attempted, List.length_append, List.length_singleton] at reached
        omega

theorem deliverReactions_attempts (reactions : List Serde) (index : Nat) (d : Deliveries) :
    (Deliveries.after (deliverReactions display downcase outside index reactions d)).attempted =
        d.attempted ++ reactions ↔
      LettersKept display downcase outside index reactions := by
  induction reactions generalizing index d with
  | nil =>
    refine ⟨fun _ i _ _ inside => absurd inside (by simp), fun _ => ?_⟩
    exact (List.append_nil _).symm
  | cons r reactions ih =>
    obtain ⟨d', attempted, logged, told, turn⟩ :=
      @handleReaction_spec display downcase outside index r d
    rcases turn with ⟨turn, kept⟩ | ⟨e, failure, turn, failed, letter⟩
    · rw [deliverReactions_ok turn]
      have rest := ih (index + 1) d'
      rw [attempted, List.append_assoc, List.singleton_append] at rest
      rw [rest]
      refine ⟨?_, LettersKept.tail⟩
      intro later i reaction failure inside here failed
      cases i with
      | zero =>
        cases here
        exact kept failure failed
      | succ i =>
        have next := later i reaction failure (by simpa using inside) (by simpa using here)
        rw [show index + 1 + i = index + (i + 1) by omega] at next
        exact next failed
    · rw [deliverReactions_error turn, Deliveries.after, attempted]
      constructor
      · intro all i reaction failure' inside
        have last : reactions = [] := by simpa using all
        subst last
        simp at inside
      · intro kept
        cases reactions with
        | nil => rfl
        | cons next reactions =>
          have written := kept 0 r failure (by simp) rfl failed
          rw [Nat.add_zero, letter] at written
          cases written

/-- Every reaction of a step is attempted, once and in order, exactly when no reaction but the
last both exhausts its retries and fails to be written as a dead letter. -/
theorem reactions_attempted_iff (reactions : List Serde) :
    EachHandled display downcase outside reactions ↔
      LettersKept display downcase outside 0 reactions := by
  have attempts := @deliverReactions_attempts display downcase outside reactions 0 nothingYet
  rw [show nothingYet.attempted ++ reactions = reactions from rfl] at attempts
  constructor
  · intro handled
    exact attempts.mp handled.attempted
  · intro kept
    have all := attempts.mpr kept
    refine ⟨all, ?_⟩
    intro index reaction failure here failed
    right
    apply (@deliverReactions_logs display downcase outside reactions 0 nothingYet).2 index reaction
      failure here
    · rw [all]
      have inside := (List.getElem?_eq_some_iff.mp here).1
      simpa [nothingYet] using inside
    · rw [Nat.zero_add]
      exact failed

end

/-- No function can be invoked, and no dead letter can be written. -/
def allDown : Outside where
  invoke _ _ _ _ := .error "connection refused"
  deadLetter _ _ := .error (.backend "connection refused")

/-- The reactions of a surrender: the second is dropped. -/
theorem sibling_reaction_dropped :
    ¬ EachHandled (fun _ => "") id allDown
      [.object [("policy", .string "NotifyHolder"), ("target_domain", .string "Notifications")],
        .object [("policy", .string "CloseFile"), ("target_domain", .string "Compliance")]] := by
  intro handled
  have one : (deliveriesOf (fun _ => "") id allDown
      [.object [("policy", .string "NotifyHolder"), ("target_domain", .string "Notifications")],
        .object [("policy", .string "CloseFile"), ("target_domain", .string "Compliance")]]).attempted =
      [.object [("policy", .string "NotifyHolder"),
        ("target_domain", .string "Notifications")]] := rfl
  have both := congrArg List.length (one.symm.trans handled.attempted)
  cases both

end Hecks.Host
