import Hecks.Host.PaymentKeys

/-! What a failed save of the payment keys leaves of the keys and the webhook that were there. -/
namespace Hecks.Host.Payments

variable {raw : Raw} {hasStore : Bool} {body : Serde} {now : String} {answers : Answers raw}

/-! ### The store -/

theorem refresh_toJson (d : StoredDocument) : refresh true (.json d.toJson) = some d := by
  show some (StoredDocument.fromJson d.toJson) = some d
  rw [StoredDocument.fromJson_toJson]

theorem held_toJson (d : StoredDocument) (mode : String) :
    held (.json d.toJson) mode = d.mode mode := by
  rw [held, refresh_toJson]
  rfl

/-- What an update comes to: it is written, or nothing is changed. -/
theorem update_cases (access : Access) (change : StoredDocument → StoredDocument) (raw : Raw) :
    (∃ d, refresh true raw = some d ∧ access.reads = true ∧ access.writes = true ∧
      update access change raw = (true, .json (change d).toJson)) ∨
    ((access.reads = true → access.writes = true → refresh true raw = none) ∧
      update access change raw = (false, raw)) := by
  obtain ⟨reads, writes⟩ := access
  cases reads with
  | false => exact Or.inr ⟨nofun, rfl⟩
  | true =>
    unfold update
    dsimp only
    cases found : refresh true raw with
    | none => exact Or.inr ⟨fun _ _ => rfl, rfl⟩
    | some d =>
      cases writes with
      | false => exact Or.inr ⟨fun _ => nofun, rfl⟩
      | true => exact Or.inl ⟨d, rfl, rfl, rfl, rfl⟩

/-! ### What is asked of a failed save -/

/-- The mode of the keys in the request. -/
def requestMode (body : Serde) : Option String :=
  match bodyKeys body with
  | .ok (secretKey, publishableKey) => (keysMode secretKey publishableKey).toOption
  | .error _ => none

/-- The store holds the keys it held, and the endpoint they name was not removed. -/
def Keeps (raw : Raw) (mode : String) (w : World) : Prop :=
  held w.raw mode = held raw mode ∧
    ∀ keys, held raw mode = some keys → keys.webhookEndpointId ≠ "" →
      keys.webhookEndpointId ∉ w.deleted

/-- A save that answers anything but success keeps the keys of its mode and their webhook. -/
def FailureKeeps (hasStore : Bool) (body : Serde) (now : String) (answers : Answers raw) : Prop :=
  (saveKeysRoute hasStore body now answers).1.status ≠ 200 →
    ∀ mode, requestMode body = some mode →
      Keeps raw mode (saveKeysRoute hasStore body now answers).2

/-- The domain takes the command that the connection it holds asks for. -/
def Accepts (answers : Answers raw) (facts : Serde) (existing : Option Connection)
    (outcome : Outcome) : Prop :=
  (existing = none ∧ answers.dispatch .connect (withSlug facts) = .ok outcome) ∨
  ∃ c, existing = some c ∧
    ((c.status = "disconnected" ∧ answers.dispatch .reconnect facts = .ok outcome) ∨
      (c.status = "paused" ∧ answers.dispatch .resume facts = .ok outcome))

/-- The connection is read, recorded and read again. -/
def Recorded (answers : Answers raw) (facts : Serde) : Prop :=
  ∃ existing outcome shown, answers.secondRead = .ok existing ∧
    Accepts answers facts existing outcome ∧ outcome.accepted = true ∧
    answers.thirdRead = .ok shown

/-- Whenever the new keys come to be stored, what is left to do works: in place, the connection is
read again; otherwise it is recorded, or nothing was held before and the undo is written. -/
def Finishes (hasStore : Bool) (body : Serde) (answers : Answers raw) : Prop :=
  ∀ checked, checkSave hasStore body answers = .ok checked →
    ∀ endpoint, createWebhook answers.webhook = .ok endpoint →
    answers.save.reads = true → answers.save.writes = true → (∃ d, refresh true raw = some d) →
      (checked.inPlace = true → ∃ shown, answers.secondRead = .ok shown) ∧
      (checked.inPlace = false → Recorded answers (connectionFacts checked) ∨
        held raw checked.mode = none ∧ answers.undo.reads = true ∧ answers.undo.writes = true)

/-! ### The steps -/

theorem keeps_untouched (raw : Raw) (mode : String) : Keeps raw mode ⟨raw, []⟩ :=
  ⟨rfl, fun _ _ _ => List.not_mem_nil⟩

theorem requestMode_of_checked {checked : Checked}
    (h : checkSave hasStore body answers = .ok checked) :
    requestMode body = some checked.mode := by
  unfold checkSave at h
  unfold requestMode
  split at h
  · cases h
  · cases keys : bodyKeys body with
    | error response =>
      rw [keys] at h
      cases h
    | ok pair =>
      obtain ⟨secretKey, publishableKey⟩ := pair
      rw [keys] at h
      dsimp only at h ⊢
      cases modes : keysMode secretKey publishableKey with
      | error message =>
        rw [modes] at h
        cases h
      | ok mode =>
        rw [modes] at h
        dsimp only at h
        split at h
        · cases h
        · split at h
          · cases h
          · split at h
            · cases h
            · cases h
              rfl

theorem status_connectionResponse (read : Except String (Option Connection)) :
    (connectionResponse read).status = 200 ↔ ∃ shown, read = .ok shown := by
  unfold connectionResponse currentConnection
  cases read with
  | error e =>
    constructor
    · intro ok
      cases ok
    · rintro ⟨shown, none⟩
      cases none
  | ok shown => exact ⟨fun _ => ⟨shown, rfl⟩, fun _ => rfl⟩

theorem recording_iff {facts : Serde} {existing : Option Connection} {outcome : Outcome} :
    recording answers facts existing = some (.ok outcome) ↔
      Accepts answers facts existing outcome := by
  unfold recording Accepts
  cases existing with
  | none =>
    constructor
    · intro same
      exact Or.inl ⟨rfl, Option.some.inj same⟩
    · rintro (⟨-, same⟩ | ⟨c, none, -⟩)
      · exact congrArg some same
      · cases none
  | some c =>
    dsimp only
    constructor
    · intro same
      refine Or.inr ⟨c, rfl, ?_⟩
      split at same
      · rename_i disconnected
        exact Or.inl ⟨disconnected, Option.some.inj same⟩
      · split at same
        · rename_i paused
          exact Or.inr ⟨paused, Option.some.inj same⟩
        · cases same
    · rintro (⟨none, -⟩ | ⟨d, same, taken⟩)
      · cases none
      · cases same
        obtain ⟨disconnected, accepted⟩ | ⟨paused, accepted⟩ := taken
        · rw [if_pos disconnected, accepted]
        · rw [if_neg (by rw [paused]; decide), if_pos paused, accepted]

theorem status_recordConnection (facts : Serde) :
    (recordConnection answers facts).status = 200 ↔ Recorded answers facts := by
  unfold recordConnection Recorded currentConnection
  cases read : answers.secondRead with
  | error e =>
    constructor
    · intro ok
      cases ok
    · rintro ⟨existing, -, -, none, -⟩
      cases none
  | ok existing =>
    dsimp only
    split
    · rename_i none
      constructor
      · intro ok
        cases ok
      · rintro ⟨existing', outcome, shown, same, accepts, -⟩
        cases same
        rw [recording_iff.mpr accepts] at none
        cases none
    · rename_i e refused
      constructor
      · intro ok
        cases ok
      · rintro ⟨existing', outcome, shown, same, accepts, -⟩
        cases same
        rw [recording_iff.mpr accepts] at refused
        cases refused
    · rename_i outcome taken
      constructor
      · intro ok
        split at ok
        · rename_i accepted
          obtain ⟨shown, third⟩ := (status_connectionResponse _).mp ok
          exact ⟨existing, outcome, shown, rfl, recording_iff.mp taken, accepted, third⟩
        · cases ok
      · rintro ⟨existing', outcome', shown, same, accepts, accepted, third⟩
        cases same
        cases taken.symm.trans (recording_iff.mpr accepts)
        rw [if_pos accepted]
        exact (status_connectionResponse _).mpr ⟨shown, third⟩

/-- What was put in place of an endpoint that is not named is not named either. -/
theorem not_mem_removed {reply : Reply} {endpointId id : String} {w : World} (ne : id ≠ endpointId)
    (absent : id ∉ w.deleted) : id ∉ (removed reply endpointId w).deleted := by
  unfold removed
  split
  · rw [List.mem_append, List.mem_singleton]
    exact fun there => there.elim absent ne
  · exact absent

theorem raw_removed (reply : Reply) (endpointId : String) (w : World) :
    (removed reply endpointId w).raw = w.raw := by
  unfold removed
  split
  · rfl
  · rfl

theorem raw_previousRemoved (mode : String) (stored : Raw) :
    (previousRemoved answers mode stored).raw = stored := by
  unfold previousRemoved
  split
  · exact raw_removed _ _ _
  · rfl

/-- A save that could not be stored keeps what was there. -/
theorem keeps_unstored {endpointId webhookSecret mode : String}
    (created : createWebhook answers.webhook = .ok (endpointId, webhookSecret)) :
    Keeps raw mode (removed answers.newRemoval endpointId ⟨raw, []⟩) := by
  refine ⟨by rw [raw_removed], ?_⟩
  intro keys there _
  exact not_mem_removed (answers.fresh mode keys there _ _ created) List.not_mem_nil

section

variable {checked : Checked} {endpointId webhookSecret : String} {d : StoredDocument}

/-- Once the new keys are stored, the old ones are kept only where they are put back, which is
where there were none. -/
theorem keeps_stored_iff
    (created : createWebhook answers.webhook = .ok (endpointId, webhookSecret))
    (saved : ∃ keys, d.mode checked.mode = some keys ∧ keys.webhookEndpointId = endpointId) :
    ((afterStored answers checked endpointId (.json d.toJson)).1.status ≠ 200 →
      Keeps raw checked.mode (afterStored answers checked endpointId (.json d.toJson)).2) ↔
    (checked.inPlace = true → ∃ shown, answers.secondRead = .ok shown) ∧
    (checked.inPlace = false → Recorded answers (connectionFacts checked) ∨
      held raw checked.mode = none ∧ answers.undo.reads = true ∧ answers.undo.writes = true) := by
  have replaced : d.mode checked.mode ≠ held raw checked.mode := by
    obtain ⟨keys, there, id⟩ := saved
    intro same
    exact answers.fresh checked.mode keys (same.symm.trans there) _ _ created id
  have rawStored : (previousRemoved answers checked.mode (.json d.toJson)).raw = _ :=
    raw_previousRemoved _ _
  unfold afterStored
  dsimp only
  by_cases inPlace : checked.inPlace = true
  · rw [if_pos inPlace]
    constructor
    · intro keeps
      refine ⟨fun _ => ?_, fun other => absurd (inPlace.symm.trans other) (by decide)⟩
      by_contra unread
      have kept := keeps fun ok => unread ((status_connectionResponse _).mp ok)
      apply replaced
      rw [← kept.1, rawStored, held_toJson]
    · rintro ⟨read, -⟩ failed
      exact absurd ((status_connectionResponse _).mpr (read inPlace)) failed
  · have other : checked.inPlace = false := by simpa using inPlace
    rw [if_neg inPlace]
    by_cases ok : (recordConnection answers (connectionFacts checked)).status = 200
    · rw [if_neg (not_not_intro ok)]
      have recorded := (status_recordConnection _).mp ok
      constructor
      · exact fun _ => ⟨fun same => absurd same inPlace, fun _ => Or.inl recorded⟩
      · exact fun _ failed => absurd ok failed
    · rw [if_pos ok]
      have unrecorded : ¬Recorded answers (connectionFacts checked) :=
        fun recorded => ok ((status_recordConnection _).mpr recorded)
      dsimp only
      rw [raw_removed, rawStored]
      obtain ⟨e, found, reads, writes, undone⟩ | ⟨fails, left⟩ :=
        update_cases answers.undo (.set checked.mode none) (.json d.toJson)
      · rw [undone]
        constructor
        · intro keeps
          refine ⟨fun same => absurd same inPlace, fun _ => Or.inr ⟨?_, reads, writes⟩⟩
          rw [← (keeps ok).1, held_toJson, StoredDocument.mode_set_self]
        · rintro ⟨-, finishes⟩ -
          obtain recorded | ⟨none, -, -⟩ := finishes other
          · exact absurd recorded unrecorded
          · refine ⟨?_, fun keys there => ?_⟩
            · rw [held_toJson, StoredDocument.mode_set_self, none]
            · rw [none] at there
              cases there
      · rw [left]
        constructor
        · intro keeps
          exact absurd ((held_toJson d checked.mode).symm.trans (keeps ok).1) replaced
        · rintro ⟨-, finishes⟩ -
          obtain recorded | ⟨-, reads, writes⟩ := finishes other
          · exact absurd recorded unrecorded
          · have none := fails reads writes
            rw [refresh_toJson] at none
            cases none

end

/-- A failed save keeps the keys and their webhook exactly where, once the new keys are stored,
nothing that is left to do fails, or only the recording does, with no keys held before and an undo
that is written. -/
theorem failureKeeps_iff (hasStore : Bool) (body : Serde) (now : String) (answers : Answers raw) :
    FailureKeeps hasStore body now answers ↔ Finishes hasStore body answers := by
  unfold FailureKeeps saveKeysRoute
  cases passed : checkSave hasStore body answers with
  | error response =>
    constructor
    · intro _ checked none
      cases passed.symm.trans none
    · exact fun _ _ mode _ => keeps_untouched raw mode
  | ok checked =>
    have mode := requestMode_of_checked passed
    dsimp only
    cases created : createWebhook answers.webhook with
    | error e =>
      constructor
      · intro _ _ _ endpoint none
        cases created.symm.trans none
      · intro _ _ mode _
        cases e with
        | permission => exact keeps_untouched raw mode
        | other => exact keeps_untouched raw mode
    | ok endpoint =>
      obtain ⟨endpointId, webhookSecret⟩ := endpoint
      dsimp only
      obtain ⟨d, found, reads, writes, stored⟩ | ⟨fails, unstored⟩ := update_cases answers.save
        (.set checked.mode (some ⟨checked.secretKey, checked.publishableKey, webhookSecret,
          endpointId, now⟩)) raw
      · rw [stored]
        dsimp only
        have kept := keeps_stored_iff created ⟨_,
          StoredDocument.mode_set_self d checked.mode (some ⟨checked.secretKey,
            checked.publishableKey, webhookSecret, endpointId, now⟩), rfl⟩
        constructor
        · intro keeps checked' same endpoint _ _ _ _
          cases passed.symm.trans same
          exact kept.mp fun failed => keeps failed checked.mode mode
        · intro finishes failed other asked
          cases mode.symm.trans asked
          exact kept.mpr (finishes checked passed _ created reads writes ⟨d, found⟩) failed
      · rw [unstored]
        dsimp only
        constructor
        · intro _ _ _ _ _ reads writes readable
          obtain ⟨d, found⟩ := readable
          rw [fails reads writes] at found
          cases found
        · exact fun _ _ mode _ => keeps_unstored created

/-- The test keys that are there, with their webhook. -/
def oldKeys : StoredKeys :=
  ⟨"rk_test_old", "pk_test_old", "whsec_old", "we_old", "2026-01-01T00:00:00Z"⟩

def oldDocument : Raw := .json (StoredDocument.toJson ⟨some oldKeys, none⟩)

def paused : Connection := ⟨"paused", "stripe", "self", "test", "Cafe"⟩

/-- Stripe and the store do all they are asked, and the domain refuses to resume. -/
def refusedResume : Answers oldDocument where
  firstRead := .ok (some paused)
  account := some (200, some (.object []))
  previousReads := true
  webhook := some (200, some (.object [("id", .string "we_new"), ("secret", .string "whsec_new")]))
  save := ⟨true, true⟩
  previousRemoval := some (200, none)
  secondRead := .ok (some paused)
  dispatch := fun _ _ => .ok ⟨false, .object [("error", .string "Refused")]⟩
  thirdRead := .ok (some paused)
  newRemoval := some (200, none)
  undo := ⟨true, true⟩
  fresh := by
    intro mode keys there id secret created
    rw [oldDocument, held_toJson] at there
    unfold StoredDocument.mode at there
    split at there
    · cases there
    · cases there
      cases created
      decide

def newKeys : Serde :=
  .object [("secret_key", .string "rk_test_new"), ("publishable_key", .string "pk_test_new")]

/-- The paused connection is left without keys, and the webhook it had is gone. -/
theorem refused_resume_loses_keys :
    ¬FailureKeeps true newKeys "2026-09-26T05:00:00Z" refusedResume := by
  intro keeps
  have kept := (keeps (by decide) "test" (by decide)).1
  have there : held oldDocument "test" = some oldKeys := held_toJson _ _
  have gone : held (saveKeysRoute true newKeys "2026-09-26T05:00:00Z" refusedResume).2.raw "test" =
      none := by decide
  rw [gone, there] at kept
  cases kept

end Hecks.Host.Payments
