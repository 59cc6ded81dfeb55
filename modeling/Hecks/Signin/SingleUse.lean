import Mathlib
import Hecks.Lib.Reading
import Hecks.Lib.Slices
import Hecks.Signin.Accepts
import Hecks.Signin.Verify

/-! Tokens are used once: what a run of the verifier does to the single-use record. -/

namespace Hecks.Signin

open StrictJson (JsonObject)
open Reading (bind_eq_ok)

theorem toInt_clamp (value : Int) :
    (clamp value).toInt = max (-2 ^ 63) (min value (2 ^ 63 - 1)) := by
  have least : Int64.minValue.toInt = -2 ^ 63 := by decide
  have greatest : Int64.maxValue.toInt = 2 ^ 63 - 1 := by decide
  unfold clamp Int64.ofIntClamp
  split
  next low =>
    rw [least] at low
    split
    next high =>
      rw [greatest] at high
      rw [Int64.toInt_ofIntLE]
      omega
    next high =>
      rw [greatest] at high
      omega
  next low =>
    rw [least] at low
    omega

/-! ### The record -/

namespace JtiStore

variable {store : JtiStore} {jti : String} {expiry now : Int64}

theorem lookup_fresh : (store.fresh now).lookup jti = some expiry ↔
    store.seen.lookup jti = some expiry ∧ now < expiry := by
  rw [fresh, Maps.lookup_retain, decide_eq_true_eq]

end JtiStore


/-! ### What one call does -/

/-- One call of a run, with the record before and after it. -/
structure Step (κ : Type) where
  call : Call κ
  before : JtiStore
  verdict : Except Reason VerifiedClaims
  after : JtiStore

/-- The call accepts this token. -/
def Step.Accepts {κ : Type} (step : Step κ) (token : List Char) : Prop :=
  step.call.request.token = some token ∧ step.verdict.isOk = true

namespace Verifier

variable {κ : Type} (verifier : Verifier κ)

/-- The calls of a run, one after the other. -/
def trace : JtiStore → List (Call κ) → List (Step κ)
  | _, [] => []
  | store, call :: calls =>
      let result := verifier.runChecks call store
      ⟨call, store, result.1, result.2⟩ :: trace result.2 calls

/-- The call passes every check before the record, with this identifier. -/
def Reaches (call : Call κ) (claims : JsonObject) (jti : String) : Prop :=
  (∃ jws, verifier.checksBeforeSpending call = .ok jws ∧ jws.claims = claims) ∧
    claims.getStr "jti" = some jti ∧ jti ≠ ""

/-- The call's identifier is not remembered, and there is room for it: the call records it. -/
def Records (step : Step κ) (claims : JsonObject) (jti : String) : Prop :=
  verifier.Reaches step.call claims jti ∧
    (step.before.fresh step.call.now).lookup jti = none ∧
    (step.before.fresh step.call.now).entries.length < step.before.maxEntries

/-- The identifier is remembered before the call, and after it no more or anew. -/
def Drops (step : Step κ) (jti : String) : Prop :=
  jti ∈ step.before.seen ∧ (jti ∉ step.after.seen ∨ ∃ claims, verifier.Records step claims jti)

variable {verifier}

theorem Reaches.unique {call : Call κ} {claims claims' : JsonObject} {jti jti' : String}
    (h : verifier.Reaches call claims jti) (h' : verifier.Reaches call claims' jti') :
    claims = claims' ∧ jti = jti' := by
  obtain ⟨⟨jws, passed, rfl⟩, name, -⟩ := h
  obtain ⟨⟨jws', passed', rfl⟩, name', -⟩ := h'
  rw [passed] at passed'
  cases passed'
  rw [name] at name'
  exact ⟨rfl, Option.some.inj name'⟩

/-- What a call does to the record: nothing, if it does not reach it; else it drops what is no
longer remembered, and records its identifier if it can. -/
theorem runChecks_cases (verifier : Verifier κ) (call : Call κ) (store : JtiStore) :
    ((∀ claims jti, ¬ verifier.Reaches call claims jti) ∧
        (verifier.runChecks call store).2 = store ∧
        (verifier.runChecks call store).1.isOk = false) ∨
      ∃ claims jti, verifier.Reaches call claims jti ∧
        ((¬ ((store.fresh call.now).lookup jti = none ∧
              (store.fresh call.now).entries.length < store.maxEntries) ∧
            (verifier.runChecks call store).2 = { store with seen := store.fresh call.now } ∧
            (verifier.runChecks call store).1.isOk = false) ∨
          (((store.fresh call.now).lookup jti = none ∧
              (store.fresh call.now).entries.length < store.maxEntries) ∧
            (verifier.runChecks call store).2 = { store with
              seen := (store.fresh call.now).insert jti (verifier.rememberedUntil claims) })) := by
  cases checks : verifier.checksBeforeSpending call with
  | error reason =>
    left
    have done : verifier.runChecks call store = (.error reason, store) := by
      rw [runChecks, checks]
    refine ⟨?_, by rw [done], by rw [done]; rfl⟩
    rintro claims jti ⟨⟨jws, passed, -⟩, -⟩
    rw [checks] at passed
    cases passed
  | ok jws =>
    cases name : (jws.claims.getStr "jti").filter fun jti => decide (jti ≠ "") with
    | none =>
      left
      have done : verifier.runChecks call store = (.error .replay, store) := by
        simp only [runChecks, checks, spendJti, name]
      refine ⟨?_, by rw [done], by rw [done]; rfl⟩
      rintro claims jti ⟨⟨jws', passed, rfl⟩, found, nonempty⟩
      rw [checks] at passed
      cases passed
      simp [found, nonempty] at name
    | some jti =>
      right
      obtain ⟨found, nonempty⟩ := Option.filter_eq_some_iff.mp name
      refine ⟨jws.claims, jti, ⟨⟨jws, checks, rfl⟩, found, by simpa using nonempty⟩, ?_⟩
      by_cases room : (store.fresh call.now).lookup jti = none ∧
          (store.fresh call.now).entries.length < store.maxEntries
      · right
        have claimed : store.claim jti (verifier.rememberedUntil jws.claims) call.now =
            (true, { store with seen :=
              (store.fresh call.now).insert jti (verifier.rememberedUntil jws.claims) }) := by
          simp [JtiStore.claim, room.1, room.2]
        refine ⟨room, ?_⟩
        simp only [runChecks, checks, spendJti, name, claimed]
        cases verifier.checkIdentity jws.claims <;> rfl
      · left
        have claimed : store.claim jti (verifier.rememberedUntil jws.claims) call.now =
            (false, { store with seen := store.fresh call.now }) := by
          rw [not_and_or, ← ne_eq, Option.ne_none_iff_isSome, Nat.not_lt] at room
          simp only [JtiStore.claim]
          rw [if_pos (by simpa using room)]
        refine ⟨room, ?_⟩
        simp only [runChecks, checks, spendJti, name, claimed]
        exact ⟨trivial, rfl⟩

end Verifier

/-! ### A run -/

namespace Verifier

variable {κ : Type} {verifier : Verifier κ} {calls : List (Call κ)} {store : JtiStore}
  {claims : JsonObject} {jti : String}

/-- The step of a call in a given state of the record. -/
def stepOf (verifier : Verifier κ) (call : Call κ) (store : JtiStore) : Step κ :=
  ⟨call, store, (verifier.runChecks call store).1, (verifier.runChecks call store).2⟩

theorem trace_cons (call : Call κ) : verifier.trace store (call :: calls) =
    verifier.stepOf call store :: verifier.trace (verifier.runChecks call store).2 calls := rfl

theorem mem_trace {step : Step κ} (mem : step ∈ verifier.trace store calls) :
    step.call ∈ calls ∧ step = verifier.stepOf step.call step.before := by
  induction calls generalizing store with
  | nil => cases mem
  | cons call calls ih =>
    rw [trace_cons] at mem
    rcases List.mem_cons.mp mem with rfl | later
    · exact ⟨List.mem_cons_self, rfl⟩
    · obtain ⟨inside, same⟩ := ih later
      exact ⟨List.mem_cons_of_mem call inside, same⟩

/-- A call that records its identifier remembers it until its token's window has closed. -/
theorem Records.lookup_after {call : Call κ}
    (h : verifier.Records (verifier.stepOf call store) claims jti) :
    (verifier.runChecks call store).2.seen.lookup jti = some (verifier.rememberedUntil claims) := by
  obtain ⟨reaches, room⟩ := h
  rcases runChecks_cases verifier call store with
    ⟨none, -⟩ | ⟨claims', jti', reaches', ⟨full, -⟩ | ⟨-, after⟩⟩
  · exact absurd reaches (none claims jti)
  · obtain ⟨rfl, rfl⟩ := Reaches.unique reaches reaches'
    exact absurd room full
  · obtain ⟨rfl, rfl⟩ := Reaches.unique reaches reaches'
    rw [after]
    exact AList.lookup_insert _

/-- An identifier stays remembered through a call, until its time has come. -/
theorem lookup_after (verifier : Verifier κ) {call : Call κ} {expiry : Int64}
    (held : store.seen.lookup jti = some expiry)
    (early : call.now < expiry ∨ ∀ claims' jti', ¬ verifier.Reaches call claims' jti') :
    (verifier.runChecks call store).2.seen.lookup jti = some expiry := by
  rcases runChecks_cases verifier call store with
    ⟨-, after, -⟩ | ⟨claims', jti', reaches, others⟩
  · rw [after]
    exact held
  · rcases early with early | none
    · have fresh : (store.fresh call.now).lookup jti = some expiry :=
        JtiStore.lookup_fresh.mpr ⟨held, early⟩
      rcases others with ⟨-, after, -⟩ | ⟨⟨absent, -⟩, after⟩
      · rw [after]
        exact fresh
      · rw [after]
        have other : jti ≠ jti' := by
          rintro rfl
          rw [fresh] at absent
          cases absent
        exact (AList.lookup_insert_ne other).trans fresh
    · exact absurd reaches (none claims' jti')

/-- The clock readings of a run do not go back. -/
def Monotone (calls : List (Call κ)) : Prop := calls.Pairwise fun a b => a.now ≤ b.now

/-- Along a run an identifier is remembered until its time has come. -/
theorem held_along {expiry : Int64} (clock : Monotone calls)
    (held : store.seen.lookup jti = some expiry) {step : Step κ}
    (mem : step ∈ verifier.trace store calls) :
    step.before.seen.lookup jti = some expiry ∨ expiry ≤ step.call.now := by
  induction calls generalizing store with
  | nil => cases mem
  | cons call calls ih =>
    rw [trace_cons] at mem
    obtain ⟨first, clock⟩ := List.pairwise_cons.mp clock
    rcases List.mem_cons.mp mem with rfl | later
    · exact .inl held
    · by_cases early : call.now < expiry
      · exact ih clock (lookup_after _ held (.inl early)) later
      · right
        have after := first step.call (mem_trace later).1
        rw [Int64.lt_iff_toInt_lt] at early
        rw [Int64.le_iff_toInt_le] at after ⊢
        omega

/-- A call that drops an identifier, or records one that was recorded before, comes when its time
has come. -/
theorem expiry_le {expiry : Int64} {step : Step κ}
    (same : step = verifier.stepOf step.call step.before)
    (held : step.before.seen.lookup jti = some expiry ∨ expiry ≤ step.call.now)
    (gone : verifier.Drops step jti ∨ ∃ claims', verifier.Records step claims' jti) :
    expiry ≤ step.call.now := by
  rcases held with held | past
  · by_contra early
    rw [Int64.le_iff_toInt_le, not_le, ← Int64.lt_iff_toInt_lt] at early
    have stays := lookup_after verifier held (.inl early)
    have after : step.after.seen.lookup jti = some expiry := by
      rw [same]
      exact stays
    have unrecorded : ∀ claims', ¬ verifier.Records step claims' jti := by
      rintro claims' ⟨-, absent, -⟩
      rw [JtiStore.lookup_fresh.mpr ⟨held, early⟩] at absent
      cases absent
    rcases gone with ⟨-, forgotten | ⟨claims', anew⟩⟩ | ⟨claims', anew⟩
    · exact forgotten (AList.lookup_isSome.mp (by rw [after]; rfl))
    · exact unrecorded claims' anew
    · exact unrecorded claims' anew
  · exact past

/-- The token's window closes only after the last reading of the clock. -/
def Outlasts (verifier : Verifier κ) (claims : JsonObject) : Prop :=
  ∃ exp, integer claims "exp" = some exp ∧ 2 ^ 63 ≤ exp + verifier.config.skewSeconds.toInt

/-- What `check_times` asks of a token. -/
theorem checkTimes_eq_ok {now : Int64} (h : verifier.checkTimes claims now = .ok ()) :
    ∃ iat nbf exp, integer claims "iat" = some iat ∧ integer claims "nbf" = some nbf ∧
      integer claims "exp" = some exp ∧ nbf ≤ now.toInt + verifier.config.skewSeconds.toInt ∧
      now.toInt < exp + verifier.config.skewSeconds.toInt := by
  have := now.toInt_lt
  have := now.le_toInt
  have := verifier.config.skewSeconds.toInt_lt
  have := verifier.config.skewSeconds.le_toInt
  unfold checkTimes at h
  split at h
  next iat nbf exp isIat isNbf isExp =>
    split at h
    next => cases h
    next valid =>
      split at h
      next => cases h
      next open_ =>
        refine ⟨iat, nbf, exp, isIat, isNbf, isExp, ?_, ?_⟩
        · unfold saturate at valid
          omega
        · unfold saturate at open_
          omega
  next => cases h

/-- A token that was in its window, and whose window is over, is refused as expired. -/
theorem checkTimes_expired {now later : Int64} (h : verifier.checkTimes claims now = .ok ())
    (clock : now ≤ later) : verifier.checkTimes claims later = .error .expired ↔
      ∀ exp, integer claims "exp" = some exp →
        exp + verifier.config.skewSeconds.toInt ≤ later.toInt := by
  obtain ⟨iat, nbf, exp, isIat, isNbf, isExp, valid, -⟩ := checkTimes_eq_ok h
  have := later.toInt_lt
  have := later.le_toInt
  have := verifier.config.skewSeconds.toInt_lt
  have := verifier.config.skewSeconds.le_toInt
  rw [Int64.le_iff_toInt_le] at clock
  have valid' : ¬ saturate (later.toInt + verifier.config.skewSeconds.toInt) < nbf := by
    unfold saturate
    omega
  simp only [checkTimes, isIat, isNbf, isExp, if_neg valid']
  by_cases ended : exp + verifier.config.skewSeconds.toInt ≤ later.toInt
  · have closed : exp ≤ saturate (later.toInt - verifier.config.skewSeconds.toInt) := by
      unfold saturate
      omega
    rw [if_pos closed]
    simp [ended]
  · have closed : ¬ exp ≤ saturate (later.toInt - verifier.config.skewSeconds.toInt) := by
      unfold saturate
      omega
    rw [if_neg closed]
    constructor
    · intro refused
      split at refused
      · cases refused
      · cases refused
    · intro all
      exact absurd (all exp rfl) ended

/-! ### Single use -/

/-- No token is accepted twice, a call that fails a check before the record leaves it as it was,
and an identifier is dropped only when the token that recorded it is refused as expired. -/
structure SingleUse (verifier : Verifier κ) (steps : List (Step κ)) : Prop where
  once : steps.Pairwise fun a b => ∀ token, ¬ (a.Accepts token ∧ b.Accepts token)
  untouched : ∀ step ∈ steps, ∀ reason,
    verifier.checksBeforeSpending step.call = .error reason → step.after = step.before
  expired : steps.Pairwise fun a b => ∀ claims jti, verifier.Records a claims jti →
    verifier.Drops b jti → verifier.checkTimes claims b.call.now = .error .expired

/-- No call that reads the last second of the clock reaches the record after a call that recorded
a token whose window closes only after that second. -/
def InClock (verifier : Verifier κ) (steps : List (Step κ)) : Prop :=
  steps.Pairwise fun a b => ∀ claims jti, verifier.Records a claims jti →
    verifier.Outlasts claims →
      ¬ (b.call.now = Int64.maxValue ∧ ∃ claims' jti', verifier.Reaches b.call claims' jti')

/-- What passed before the record: the token's text, and the times it carries. -/
theorem checksBeforeSpending_eq_ok {call : Call κ} {jws : CompactJws}
    (h : verifier.checksBeforeSpending call = .ok jws) :
    verifier.parseToken call.request.token = .ok jws ∧
      verifier.checkTimes jws.claims call.now = .ok () := by
  obtain ⟨cookie, -, h⟩ := bind_eq_ok.mp h
  obtain ⟨parsed, token, h⟩ := bind_eq_ok.mp h
  obtain ⟨_, -, h⟩ := bind_eq_ok.mp h
  obtain ⟨_, -, h⟩ := bind_eq_ok.mp h
  obtain ⟨_, times, h⟩ := bind_eq_ok.mp h
  obtain ⟨_, -, h⟩ := bind_eq_ok.mp h
  cases h
  exact ⟨token, times⟩

/-- A call that accepts a token recorded its identifier. -/
theorem records_of_accepts {call : Call κ} {token : List Char}
    (h : (verifier.stepOf call store).Accepts token) :
    ∃ jws jti, verifier.parseToken (some token) = .ok jws ∧
      verifier.Records (verifier.stepOf call store) jws.claims jti := by
  obtain ⟨text, accepted⟩ := h
  rcases runChecks_cases verifier call store with
    ⟨-, -, refused⟩ | ⟨claims, jti, reaches, ⟨-, -, refused⟩ | ⟨room, -⟩⟩
  · exact absurd accepted (by rw [stepOf, refused]; decide)
  · exact absurd accepted (by rw [stepOf, refused]; decide)
  · obtain ⟨⟨jws, passed, rfl⟩, name⟩ := reaches
    have parsed := (checksBeforeSpending_eq_ok passed).1
    rw [show call.request.token = some token from text] at parsed
    exact ⟨jws, jti, parsed, ⟨⟨jws, passed, rfl⟩, name⟩, room⟩

/-- The time an identifier is remembered until covers its token's window, unless that outlasts
the clock. -/
theorem window_le {exp : Int} {now : Int64} (isExp : integer claims "exp" = some exp)
    (past : verifier.rememberedUntil claims ≤ now)
    (bound : verifier.Outlasts claims → now ≠ Int64.maxValue) :
    exp + verifier.config.skewSeconds.toInt ≤ now.toInt := by
  rw [rememberedUntil, isExp, Option.getD_some, Int64.le_iff_toInt_le, toInt_clamp] at past
  have greatest : Int64.maxValue.toInt = 2 ^ 63 - 1 := by decide
  have := now.toInt_lt
  by_cases outlasts : 2 ^ 63 ≤ exp + verifier.config.skewSeconds.toInt
  · have notLast := bound ⟨exp, isExp, outlasts⟩
    exfalso
    apply notLast
    apply Int64.toInt_inj.mp
    rw [greatest]
    unfold saturate at past
    omega
  · unfold saturate at past
    omega

/-- After a call that recorded its identifier, until its time has come, the identifier is
remembered. -/
theorem held_after_recording (verifier : Verifier κ) (store : JtiStore) (clock : Monotone calls) :
    (verifier.trace store calls).Pairwise fun a b => a.call.now ≤ b.call.now ∧
      ∀ claims jti, verifier.Records a claims jti →
        b.before.seen.lookup jti = some (verifier.rememberedUntil claims) ∨
          verifier.rememberedUntil claims ≤ b.call.now := by
  induction calls generalizing store with
  | nil => exact .nil
  | cons call calls ih =>
    obtain ⟨first, clock⟩ := List.pairwise_cons.mp clock
    rw [trace_cons, List.pairwise_cons]
    refine ⟨?_, ih _ clock⟩
    intro step mem
    refine ⟨first step.call (mem_trace mem).1, ?_⟩
    intro claims jti recorded
    exact held_along clock recorded.lookup_after mem

/-- Once an identifier is recorded, a later call that drops it, or records it again, comes when its
token is refused as expired. -/
theorem expired_when_gone {a b : Step κ} (sameB : b = verifier.stepOf b.call b.before)
    (clock : a.call.now ≤ b.call.now)
    (recorded : verifier.Records a claims jti)
    (held : b.before.seen.lookup jti = some (verifier.rememberedUntil claims) ∨
      verifier.rememberedUntil claims ≤ b.call.now)
    (gone : verifier.Drops b jti ∨ ∃ claims', verifier.Records b claims' jti)
    (bound : verifier.Outlasts claims → b.call.now ≠ Int64.maxValue) :
    verifier.checkTimes claims b.call.now = .error .expired := by
  obtain ⟨jws, passed, rfl⟩ := recorded.1.1
  have valid := (checksBeforeSpending_eq_ok passed).2
  apply (checkTimes_expired valid clock).mpr
  intro exp isExp
  exact window_le isExp (expiry_le sameB held gone) bound

/-- A call that drops an identifier reaches the record. -/
theorem Drops.reaches {b : Step κ} (same : b = verifier.stepOf b.call b.before)
    (gone : verifier.Drops b jti) : ∃ claims jti', verifier.Reaches b.call claims jti' := by
  obtain ⟨before, forgotten | ⟨claims, reaches, -⟩⟩ := gone
  · rcases runChecks_cases verifier b.call b.before with
      ⟨-, after, -⟩ | ⟨claims, jti', reaches, -⟩
    · rw [same] at forgotten
      exact absurd before (by rw [← after]; exact forgotten)
    · exact ⟨claims, jti', reaches⟩
  · exact ⟨claims, jti, reaches⟩

theorem singleUse_of_inClock (clock : Monotone calls)
    (bound : verifier.InClock (verifier.trace store calls)) :
    verifier.SingleUse (verifier.trace store calls) := by
  have held := held_after_recording verifier store clock
  refine ⟨?_, ?_, ?_⟩
  · apply (held.and bound).imp_of_mem
    rintro a b memA memB ⟨⟨order, held⟩, bound⟩ token ⟨acceptsA, acceptsB⟩
    have sameA := (mem_trace memA).2
    have sameB := (mem_trace memB).2
    rw [sameA] at acceptsA
    rw [sameB] at acceptsB
    obtain ⟨jws, jti, parsed, recordedA⟩ := records_of_accepts acceptsA
    obtain ⟨jws', jti', parsed', recordedB⟩ := records_of_accepts acceptsB
    rw [parsed] at parsed'
    cases parsed'
    have same : jti = jti' := Option.some.inj (recordedA.1.2.1.symm.trans recordedB.1.2.1)
    subst same
    rw [← sameA] at recordedA
    rw [← sameB] at recordedB
    have expired := expired_when_gone sameB order recordedA (held _ _ recordedA)
      (.inr ⟨_, recordedB⟩)
      fun outlasts last => bound _ _ recordedA outlasts ⟨last, _, _, recordedB.1⟩
    obtain ⟨jws', passed, same⟩ := recordedB.1.1
    have valid := (checksBeforeSpending_eq_ok passed).2
    rw [same, expired] at valid
    cases valid
  · intro step mem reason failed
    rw [(mem_trace mem).2]
    simp only [stepOf, runChecks, failed]
  · apply (held.and bound).imp_of_mem
    rintro a b memA memB ⟨⟨order, held⟩, bound⟩ claims jti recorded gone
    have sameB := (mem_trace memB).2
    apply expired_when_gone sameB order recorded (held _ _ recorded) (.inl gone)
    intro outlasts last
    exact bound _ _ recorded outlasts ⟨last, gone.reaches sameB⟩

/-- A call in the last second of the clock that reaches the record drops what is remembered until
then. -/
theorem drops_of_reaches {call : Call κ} (held : store.seen.lookup jti = some Int64.maxValue)
    (last : call.now = Int64.maxValue) {claims' : JsonObject} {jti' : String}
    (reaches : verifier.Reaches call claims' jti') :
    verifier.Drops (verifier.stepOf call store) jti := by
  have gone : (store.fresh call.now).lookup jti = none := by
    by_contra found
    obtain ⟨expiry, found⟩ := Option.ne_none_iff_exists'.mp found
    obtain ⟨same, later⟩ := JtiStore.lookup_fresh.mp found
    rw [held] at same
    cases same
    rw [last] at later
    exact Int64.lt_irrefl later
  refine ⟨AList.lookup_isSome.mp (by rw [stepOf, held]; rfl), ?_⟩
  rcases runChecks_cases verifier call store with
    ⟨none, -⟩ | ⟨claims, jti₁, reaches₁, ⟨-, after, -⟩ | ⟨room, after⟩⟩
  · exact absurd reaches (none claims' jti')
  · left
    rw [stepOf, after]
    exact AList.lookup_eq_none.mp gone
  · by_cases same : jti = jti₁
    · subst same
      exact .inr ⟨claims, reaches₁, room⟩
    · left
      rw [stepOf, after]
      apply AList.lookup_eq_none.mp
      exact (AList.lookup_insert_ne same).trans gone

/-- The first call that reaches the record in the last second of the clock drops an identifier
that would be remembered until then. -/
theorem exists_drop (held : store.seen.lookup jti = some Int64.maxValue)
    (reach : ∃ step ∈ verifier.trace store calls, step.call.now = Int64.maxValue ∧
      ∃ claims' jti', verifier.Reaches step.call claims' jti') :
    ∃ step ∈ verifier.trace store calls, step.call.now = Int64.maxValue ∧
      verifier.Drops step jti := by
  induction calls generalizing store with
  | nil =>
    obtain ⟨step, mem, -⟩ := reach
    cases mem
  | cons call calls ih =>
    by_cases now : call.now = Int64.maxValue ∧ ∃ claims' jti', verifier.Reaches call claims' jti'
    · obtain ⟨last, claims', jti', reaches⟩ := now
      exact ⟨verifier.stepOf call store, List.mem_cons_self, last,
        drops_of_reaches held last reaches⟩
    · have early : call.now < Int64.maxValue ∨
          ∀ claims' jti', ¬ verifier.Reaches call claims' jti' := by
        by_cases last : call.now = Int64.maxValue
        · right
          intro claims' jti' reaches
          exact now ⟨last, claims', jti', reaches⟩
        · left
          rw [Int64.lt_iff_toInt_lt]
          have := call.now.toInt_le
          have differ : call.now.toInt ≠ Int64.maxValue.toInt := fun same =>
            last (Int64.toInt_inj.mp same)
          omega
      have later : ∃ step ∈ verifier.trace (verifier.runChecks call store).2 calls,
          step.call.now = Int64.maxValue ∧
            ∃ claims' jti', verifier.Reaches step.call claims' jti' := by
        obtain ⟨step, mem, last, reaches⟩ := reach
        rw [trace_cons] at mem
        rcases List.mem_cons.mp mem with rfl | mem
        · exact absurd ⟨last, reaches⟩ now
        · exact ⟨step, mem, last, reaches⟩
      obtain ⟨step, mem, last, drops⟩ := ih (lookup_after _ held early) later
      exact ⟨step, List.mem_cons_of_mem _ mem, last, drops⟩

theorem rememberedUntil_of_outlasts (outlasts : verifier.Outlasts claims) :
    verifier.rememberedUntil claims = Int64.maxValue := by
  obtain ⟨exp, isExp, beyond⟩ := outlasts
  have greatest : Int64.maxValue.toInt = 2 ^ 63 - 1 := by decide
  apply Int64.toInt_inj.mp
  rw [rememberedUntil, isExp, Option.getD_some, toInt_clamp, greatest]
  unfold saturate
  omega

theorem inClock_of_expired (clock : Monotone calls)
    (expired : (verifier.trace store calls).Pairwise fun a b => ∀ claims jti,
      verifier.Records a claims jti → verifier.Drops b jti →
        verifier.checkTimes claims b.call.now = .error .expired) :
    verifier.InClock (verifier.trace store calls) := by
  induction calls generalizing store with
  | nil => exact .nil
  | cons call calls ih =>
    obtain ⟨first, clock⟩ := List.pairwise_cons.mp clock
    unfold InClock
    rw [trace_cons, List.pairwise_cons] at expired ⊢
    refine ⟨?_, ih clock expired.2⟩
    rintro step mem claims jti recorded outlasts ⟨last, reaches⟩
    have held := recorded.lookup_after
    rw [rememberedUntil_of_outlasts outlasts] at held
    obtain ⟨other, mem', last', drops⟩ := exists_drop held ⟨step, mem, last, reaches⟩
    have refused := expired.1 other mem' claims jti recorded drops
    obtain ⟨jws, passed, rfl⟩ := recorded.1.1
    have order : call.now ≤ other.call.now := first other.call (mem_trace mem').1
    have ended := (checkTimes_expired (checksBeforeSpending_eq_ok passed).2 order).mp refused
    obtain ⟨exp, isExp, beyond⟩ := outlasts
    have within := ended exp isExp
    have := other.call.now.toInt_lt
    omega

/-- Tokens are used once in exactly the runs in which no call in the last second of the clock
follows the record of a token that outlasts it. -/
theorem singleUse_iff (verifier : Verifier κ) (store : JtiStore) (calls : List (Call κ))
    (clock : Monotone calls) :
    verifier.SingleUse (verifier.trace store calls) ↔
      verifier.InClock (verifier.trace store calls) := by
  constructor
  · intro single
    exact inClock_of_expired clock single.expired
  · exact singleUse_of_inClock clock

/-! ### A token that outlasts the clock -/

def headerText : List Char :=
  "\x7b\"alg\":\"EdDSA\",\"typ\":\"JWT\",\"kid\":\"k\"\x7d".toList

def headerSegment : List Char :=
  "eyJhbGciOiJFZERTQSIsInR5cCI6IkpXVCIsImtp".toList ++
    "ZCI6ImsifQ".toList

/-- A token that expires one second after the last one of the clock. -/
def claimsText : List Char :=
  "\x7b\"iss\":\"i\",\"aud\":\"a\",\"env\":\"e\",\"sub\":\"s\"".toList ++
    ",\"email\":\"s\",\"email_verified\":true,\"nonc".toList ++
    "e\":\"n\",\"iat\":9223372036854775807,\"nbf\":0".toList ++
    ",\"exp\":9223372036854775808,\"jti\":\"j\"\x7d".toList

def claimsSegment : List Char :=
  "eyJpc3MiOiJpIiwiYXVkIjoiYSIsImVudiI6ImUi".toList ++
    "LCJzdWIiOiJzIiwiZW1haWwiOiJzIiwiZW1haWxf".toList ++
    "dmVyaWZpZWQiOnRydWUsIm5vbmNlIjoibiIsImlh".toList ++
    "dCI6OTIyMzM3MjAzNjg1NDc3NTgwNywibmJmIjow".toList ++
    "LCJleHAiOjkyMjMzNzIwMzY4NTQ3NzU4MDgsImp0".toList ++
    "aSI6ImoifQ".toList

def lastingToken : List Char := headerSegment ++ '.' :: claimsSegment ++ ".c2ln".toList

/-- The base64url decoder, on the segments of the token. -/
def decodeSegment (segment : List Char) : Option (List UInt8) :=
  if segment = headerSegment then some (Slices.bytes headerText)
  else if segment = claimsSegment then some (Slices.bytes claimsText)
  else if segment = "c2ln".toList then some (Slices.bytes "sig".toList)
  else none

def siteVerifier : Verifier Unit :=
  { config := ⟨"i", "a", "e", 30, 60, 4096⟩
    compare := fun a b => a == b
    signatureVerifies := fun _ _ => true
    urlDecode := decodeSegment
    toLowercase := String.toLower }

/-- The token, redeemed in a given second. -/
def redemption (now : Int64) : Call Unit :=
  ⟨⟨some lastingToken, some "s", some ⟨"n", "s"⟩⟩, now, fun _ => some ()⟩

def emptyStore : JtiStore := ⟨100000, ∅⟩

theorem redemption_token (now : Int64) (store : JtiStore) :
    (siteVerifier.stepOf (redemption now) store).call.request.token = some lastingToken := by
  simp only [stepOf, redemption]

/-- The claims pass every check in the last second of the clock, twice in a row. -/
def passesTwice (claims : JsonObject) : Bool :=
  let spent := siteVerifier.spendJti claims Int64.maxValue emptyStore
  (siteVerifier.checkPinnedClaims claims).isOk &&
    (siteVerifier.checkTimes claims Int64.maxValue).isOk &&
    (siteVerifier.checkNonce claims ⟨"n", "s"⟩).isOk &&
    (siteVerifier.checkIdentity claims).isOk && spent.1.isOk &&
    (siteVerifier.spendJti claims Int64.maxValue spent.2).1.isOk

def namesKey (header : JsonObject) : Bool :=
  decide (header.getStr "alg" = some algorithm) && decide (header.getStr "typ" = some tokenType) &&
    (header.getStr "kid").isSome

-- Parsing is evaluated without the UTF-8 decoder, and once for all the checks.
theorem jsonSegment_of_any {segment text : List Char} {p : JsonObject → Bool}
    (decoded : decodeSegment segment = some (Slices.bytes text))
    (read : ((StrictJson.object 0 (StrictJson.skipWhitespace (Slices.bytes text))).any fun r =>
      decide (StrictJson.skipWhitespace r.rest = []) && p r.value) = true) :
    ∃ object, jsonSegment decodeSegment segment = .ok object ∧ p object = true := by
  obtain ⟨r, found, whole⟩ := Option.any_eq_true _ _ |>.mp read
  rw [Bool.and_eq_true, decide_eq_true_eq] at whole
  have parsed : StrictJson.parseObject (Slices.bytes text) = some r.value :=
    Option.bind_eq_some_iff.mpr ⟨text, StrictJson.fromUtf8_eq_some.mpr rfl,
      Option.bind_eq_some_iff.mpr ⟨r, found, if_pos whole.1⟩⟩
  exact ⟨r.value, by rw [jsonSegment, decoded, Option.bind_some, parsed], whole.2⟩

theorem lasting_checked : ∃ jws,
    siteVerifier.checksBeforeSpending (redemption Int64.maxValue) = .ok jws ∧
      passesTwice jws.claims = true := by
  obtain ⟨claims, claimsRead, passes⟩ := jsonSegment_of_any (p := passesTwice)
    (show decodeSegment claimsSegment = some (Slices.bytes claimsText) by
      rw [decodeSegment, if_neg (by decide), if_pos rfl]) (by decide +kernel)
  obtain ⟨header, headerRead, named⟩ := jsonSegment_of_any (p := namesKey)
    (show decodeSegment headerSegment = some (Slices.bytes headerText) from if_pos rfl)
    (by decide +kernel)
  have split : ¬ 4096 < Slices.size lastingToken ∧
      lastingToken.splitOn '.' = [headerSegment, claimsSegment, "c2ln".toList] := by
    decide +kernel
  let jws : CompactJws := ⟨header, claims, headerSegment ++ '.' :: claimsSegment, "c2ln".toList⟩
  refine ⟨jws, ?_, passes⟩
  simp only [passesTwice, Bool.and_eq_true] at passes
  obtain ⟨⟨⟨⟨⟨pinned, times⟩, nonce⟩, -⟩, -⟩, -⟩ := passes
  simp only [namesKey, Bool.and_eq_true, decide_eq_true_eq] at named
  obtain ⟨⟨alg, typ⟩, kid⟩ := named
  obtain ⟨key, kid⟩ := Option.isSome_iff_exists.mp kid
  have read : CompactJws.parse decodeSegment lastingToken 4096 = .ok jws := by
    rw [CompactJws.parse, if_neg split.1, split.2]
    dsimp only
    rw [headerRead, claimsRead]
    rfl
  have parsed : siteVerifier.parseToken (some lastingToken) = .ok jws := by
    rw [parseToken, show CompactJws.parse siteVerifier.urlDecode lastingToken
      siteVerifier.config.maxTokenBytes = _ from read]
  have signature : siteVerifier.checkSignature (fun _ => some ()) jws = .ok () := by
    rw [checkSignature]
    dsimp only [jws]
    rw [if_neg (not_not.mpr alg), if_neg (not_not.mpr typ), if_neg (by decide), kid]
    rfl
  have ok : ∀ {answer : Except Reason Unit}, answer.isOk = true → answer = .ok () := by
    rintro (_ | _) ⟨⟩
    rfl
  exact bind_eq_ok.mpr ⟨⟨"n", "s"⟩, rfl, bind_eq_ok.mpr ⟨_, parsed, bind_eq_ok.mpr ⟨(), signature,
    bind_eq_ok.mpr ⟨(), ok pinned, bind_eq_ok.mpr ⟨(), ok times,
      bind_eq_ok.mpr ⟨(), ok nonce, rfl⟩⟩⟩⟩⟩⟩

theorem runChecks_accepts {verifier : Verifier κ} {call : Call κ} {s : JtiStore}
    {jws : CompactJws} (checks : verifier.checksBeforeSpending call = .ok jws)
    (spent : (verifier.spendJti jws.claims call.now s).1.isOk = true)
    (identity : (verifier.checkIdentity jws.claims).isOk = true) :
    (verifier.stepOf call s).verdict.isOk = true ∧
      (verifier.runChecks call s).2 = (verifier.spendJti jws.claims call.now s).2 := by
  rw [stepOf, runChecks, checks]
  dsimp only
  generalize verifier.spendJti jws.claims call.now s = spending at spent
  obtain ⟨answer, after⟩ := spending
  cases answer with
  | error reason => cases spent
  | ok =>
    dsimp only
    cases known : verifier.checkIdentity jws.claims with
    | error reason => rw [known] at identity; cases identity
    | ok => exact ⟨rfl, rfl⟩

theorem redemption_now (now : Int64) : (redemption now).now = now := rfl

theorem accepted_twice :
    (siteVerifier.stepOf (redemption Int64.maxValue) emptyStore).verdict.isOk = true ∧
      (siteVerifier.stepOf (redemption Int64.maxValue)
        (siteVerifier.runChecks (redemption Int64.maxValue) emptyStore).2).verdict.isOk = true := by
  obtain ⟨jws, checks, passes⟩ := lasting_checked
  simp only [passesTwice, Bool.and_eq_true] at passes
  obtain ⟨⟨⟨-, identity⟩, spent⟩, again⟩ := passes
  obtain ⟨first, after⟩ := runChecks_accepts (s := emptyStore) checks spent identity
  rw [redemption_now] at after
  rw [← after] at again
  exact ⟨first, (runChecks_accepts checks again identity).1⟩

/-- In the last second of the clock a token that outlasts it is accepted twice. -/
theorem lasting_token_replayed : ¬ siteVerifier.SingleUse
    (siteVerifier.trace emptyStore [redemption Int64.maxValue, redemption Int64.maxValue]) := by
  intro single
  have accepted := accepted_twice
  have first : (siteVerifier.stepOf (redemption Int64.maxValue) emptyStore).Accepts lastingToken :=
    ⟨redemption_token _ _, accepted.1⟩
  have second : (siteVerifier.stepOf (redemption Int64.maxValue)
      (siteVerifier.runChecks (redemption Int64.maxValue) emptyStore).2).Accepts lastingToken :=
    ⟨redemption_token _ _, accepted.2⟩
  have once := single.once
  rw [trace_cons, trace_cons, List.pairwise_cons] at once
  exact once.1 _ List.mem_cons_self lastingToken ⟨first, second⟩

/-- Before the last second of the clock the same token is accepted once. -/
theorem lasting_token_once : siteVerifier.SingleUse
    (siteVerifier.trace emptyStore [redemption 9223372036854775806,
      redemption 9223372036854775806]) := by
  refine (singleUse_iff siteVerifier emptyStore _ ?_).mpr ?_
  · simp [Monotone, redemption]
  · unfold InClock
    rw [trace_cons, trace_cons, List.pairwise_cons]
    refine ⟨?_, by simp [trace]⟩
    rintro step mem claims jti - - ⟨last, -⟩
    rw [trace, List.mem_singleton] at mem
    subst mem
    exact absurd last (by decide)

end Verifier
end Hecks.Signin
