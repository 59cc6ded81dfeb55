import Mathlib
import Hecks.Lib.Maps
import Hecks.Signin.SingleUse

/-! The issuer's public keys: parsing its key set, and a cache that fetches it politely. -/

namespace Hecks.Signin.Jwks

open StrictJson (JsonObject)
open Slices (bytes)

def defaultTtlSeconds : Int64 := 300

def defaultMinRefetchSeconds : Int64 := 30

/-- The longest time to live a fetcher's hint can stretch the cache to. -/
def maxTtlSeconds : Int64 := 3600

def ed25519PublicKeyBytes : Nat := 32

/-- The code a key's identifier rests on: canonical unpadded base64url, and SHA-256. -/
structure Codec where
  urlDecode : List Char → Option (List UInt8)
  urlEncode : List UInt8 → String
  sha256 : List UInt8 → List UInt8

/-! ### Keys -/

/-- An Ed25519 public key the issuer publishes, kept as its canonical `x` member. -/
structure VerifyingKey (codec : Codec) where
  x : String
  canonical : ∃ raw, codec.urlDecode x.toList = some raw ∧ raw.length = ed25519PublicKeyBytes

/-- Why one entry of a key set was not kept. -/
inductive KeyRefusal where
  | notAnObject
  | notOkp
  | notEd25519
  | badX
  | carriesPrivateKey
  deriving DecidableEq

section

variable (codec : Codec)

def VerifyingKey.fromX (x : String) : Option (VerifyingKey codec) :=
  match h : codec.urlDecode x.toList with
  | none => none
  | some raw => if size : raw.length = ed25519PublicKeyBytes then some ⟨x, raw, h, size⟩ else none

/-- The RFC 7638 thumbprint of an Ed25519 key, from its `x` member. -/
def thumbprint (x : String) : String :=
  codec.urlEncode (codec.sha256
    (bytes ("\x7b\"crv\":\"Ed25519\",\"kty\":\"OKP\",\"x\":\"" ++ x ++ "\"\x7d").toList))

/-- What a key set document held: the usable keys by computed thumbprint, and why the others were
dropped. -/
structure ParsedKeys where
  keys : AList fun _ : String => VerifyingKey codec
  refused : List KeyRefusal

end

variable {codec : Codec}

def VerifyingKey.thumbprint (key : VerifyingKey codec) : String := Jwks.thumbprint codec key.x

variable (codec) in
/-- A private member means the issuer published a secret; the entry is never trusted. -/
def keyFromEntry : StrictJson.Json → Except KeyRefusal (VerifyingKey codec)
  | .object jwk =>
      if (JsonObject.get jwk "d").isSome then .error .carriesPrivateKey
      else if JsonObject.getStr jwk "kty" ≠ some "OKP" then .error .notOkp
      else if JsonObject.getStr jwk "crv" ≠ some "Ed25519" then .error .notEd25519
      else
        match (JsonObject.getStr jwk "x").bind (VerifyingKey.fromX codec) with
        | some key => .ok key
        | none => .error .badX
  | _ => .error .notAnObject

def ParsedKeys.add (parsed : ParsedKeys codec) (entry : StrictJson.Json) : ParsedKeys codec :=
  match keyFromEntry codec entry with
  | .ok key => { parsed with keys := parsed.keys.insert key.thumbprint key }
  | .error refusal => { parsed with refused := parsed.refused ++ [refusal] }

variable (codec) in
/-- Nothing for `JwksMalformed`: no strict JSON object, or no `keys` array in it. -/
def parseJwks (body : String) : Option (ParsedKeys codec) :=
  (StrictJson.parseObject (bytes body.toList)).bind fun document =>
    match document.get "keys" with
    | some (.array entries) => some (entries.foldl ParsedKeys.add ⟨∅, []⟩)
    | _ => none

/-! ### The cache -/

/-- What the fetcher answers while one call runs: the document's body unless the fetch fails, and
how long the issuer allows it to be cached, if it tells. -/
structure Fetcher where
  fetch : Option String
  ttlHint : Option Int64

variable (codec) in
structure CacheState where
  keys : AList fun _ : String => VerifyingKey codec
  fetchedAt : Option Int64
  attemptedAt : Option Int64
  /-- The time to live the last successful fetch earned, when the issuer named one. -/
  hintedTtl : Option Int64

def CacheState.empty : CacheState codec := ⟨∅, none, none, none⟩

/-- The timing of a key set cache, in seconds. -/
structure JwksCache where
  ttlSeconds : Int64
  minRefetchSeconds : Int64

def saturatingSub (a b : Int64) : Int64 := clamp (a.toInt - b.toInt)

/-- `Ord::clamp`; nothing where its assertion `lo <= hi` panics. -/
def clampTo (value lo hi : Int64) : Option Int64 :=
  if hi < lo then none
  else if value < lo then some lo
  else if hi < value then some hi
  else some value

namespace JwksCache

variable (cache : JwksCache)

def isStale (state : CacheState codec) (now : Int64) : Bool :=
  let ttl := state.hintedTtl.getD cache.ttlSeconds
  state.fetchedAt.all fun fetched => decide (ttl ≤ saturatingSub now fetched)

/-- The issuer's hint, kept between the refetch interval and the cap. -/
def boundedHint (fetcher : Fetcher) : Option (Option Int64) :=
  match fetcher.ttlHint with
  | none => some none
  | some hint => (clampTo hint cache.minRefetchSeconds maxTtlSeconds).map some

def refreshDue (state : CacheState codec) (kid : String) (now : Int64) : Bool :=
  match state.attemptedAt with
  | none => true
  | some attempted =>
      (cache.isStale state now || (state.keys.lookup kid).isNone) &&
        decide (cache.minRefetchSeconds ≤ saturatingSub now attempted)

/-- Whether it returned, and the state it left: a failed fetch still counts as an attempt and
leaves the old keys to age out. -/
def refresh (state : CacheState codec) (fetcher : Fetcher) (now : Int64) :
    Bool × CacheState codec :=
  let attempted := { state with attemptedAt := some now }
  match fetcher.fetch.bind (parseJwks codec) with
  | none => (true, attempted)
  | some parsed =>
      let replaced := { attempted with keys := parsed.keys, fetchedAt := some now }
      match cache.boundedHint fetcher with
      | none => (false, replaced)
      | some hinted => (true, { replaced with hintedTtl := hinted })

/-- The answer, nothing when the call panicked, and the state after it. The lock outlives a panic:
the next call takes the state as it was left. -/
def keyFor (state : CacheState codec) (kid : String) (now : Int64) (fetcher : Fetcher) :
    Option (Option (VerifyingKey codec)) × CacheState codec :=
  let refreshed :=
    if cache.refreshDue state kid now then cache.refresh state fetcher now else (true, state)
  if refreshed.1 then
    (some (if cache.isStale refreshed.2 now then none else refreshed.2.keys.lookup kid),
      refreshed.2)
  else (none, refreshed.2)

end JwksCache

/-! ### A parsed document -/

/-- The entry is this key as the issuer publishes it: an Ed25519 key with no private member. -/
def Usable (entry : StrictJson.Json) (key : VerifyingKey codec) : Prop :=
  ∃ jwk, entry = .object jwk ∧ JsonObject.get jwk "d" = none ∧
    JsonObject.getStr jwk "kty" = some "OKP" ∧ JsonObject.getStr jwk "crv" = some "Ed25519" ∧
      JsonObject.getStr jwk "x" = some key.x

/-- The document reads, and lists this entry. -/
def Lists (body : String) (entry : StrictJson.Json) : Prop :=
  ∃ document entries, StrictJson.parseObject (bytes body.toList) = some document ∧
    document.get "keys" = some (.array entries) ∧ entry ∈ entries

theorem fromX_x {x : String} {key : VerifyingKey codec}
    (made : VerifyingKey.fromX codec x = some key) : key.x = x := by
  unfold VerifyingKey.fromX at made
  split at made
  · cases made
  · split at made
    · cases made
      rfl
    · cases made

theorem usable_of_keyFromEntry {entry : StrictJson.Json} {key : VerifyingKey codec}
    (kept : keyFromEntry codec entry = .ok key) : Usable entry key := by
  cases entry with
  | object jwk =>
    rw [keyFromEntry] at kept
    split at kept
    · cases kept
    rename_i noSecret
    split at kept
    · cases kept
    rename_i okp
    split at kept
    · cases kept
    rename_i ed25519
    split at kept
    · rename_i made
      cases kept
      obtain ⟨x, member, fromX⟩ := Option.bind_eq_some_iff.mp made
      refine ⟨jwk, rfl, ?_, not_not.mp okp, not_not.mp ed25519, ?_⟩
      · simpa using noSecret
      · rw [member, fromX_x fromX]
    · cases kept
  | _ =>
    rw [keyFromEntry] at kept
    · cases kept
    · intro jwk same
      cases same

/-- Every key of the table is under its own thumbprint and comes from one of the entries. -/
def Indexed (keys : AList fun _ : String => VerifyingKey codec) (entries : List StrictJson.Json) : Prop :=
  ∀ kid key, keys.lookup kid = some key →
    key.thumbprint = kid ∧ ∃ entry ∈ entries, keyFromEntry codec entry = .ok key

theorem Indexed.add {parsed : ParsedKeys codec} {entries : List StrictJson.Json}
    (indexed : Indexed parsed.keys entries) (entry : StrictJson.Json) :
    Indexed (parsed.add entry).keys (entries ++ [entry]) := by
  have earlier : ∀ kid key, parsed.keys.lookup kid = some key →
      key.thumbprint = kid ∧ ∃ e ∈ entries ++ [entry], keyFromEntry codec e = .ok key := by
    intro kid key found
    obtain ⟨own, e, mem, kept⟩ := indexed kid key found
    exact ⟨own, e, List.mem_append_left _ mem, kept⟩
  intro kid key found
  unfold ParsedKeys.add at found
  cases kept : keyFromEntry codec entry with
  | error refusal =>
    simp only [kept] at found
    exact earlier kid key found
  | ok added =>
    simp only [kept] at found
    by_cases same : kid = added.thumbprint
    · subst same
      rw [AList.lookup_insert, Option.some.injEq] at found
      subst found
      exact ⟨rfl, entry, List.mem_append_right _ (List.mem_singleton_self _), kept⟩
    · rw [AList.lookup_insert_ne same] at found
      exact earlier kid key found

theorem indexed_foldl (entries : List StrictJson.Json) : ∀ {parsed : ParsedKeys codec} {before : List StrictJson.Json},
    Indexed parsed.keys before →
      Indexed (entries.foldl ParsedKeys.add parsed).keys (before ++ entries) := by
  induction entries with
  | nil =>
    intro parsed before indexed
    rwa [List.append_nil]
  | cons entry entries ih =>
    intro parsed before indexed
    rw [List.append_cons]
    exact ih (indexed.add entry)

/-- A key of a parsed document is usable, listed there, and found under its thumbprint only. -/
theorem parseJwks_lists {body kid : String} {parsed : ParsedKeys codec} {key : VerifyingKey codec}
    (read : parseJwks codec body = some parsed) (found : parsed.keys.lookup kid = some key) :
    key.thumbprint = kid ∧ ∃ entry, Lists body entry ∧ Usable entry key := by
  obtain ⟨document, object, read⟩ := Option.bind_eq_some_iff.mp read
  split at read
  · rename_i entries array
    cases read
    have none : Indexed (∅ : AList fun _ : String => VerifyingKey codec) [] := by
      intro kid key found
      rw [AList.lookup_empty] at found
      cases found
    obtain ⟨own, entry, mem, kept⟩ := indexed_foldl entries none kid key found
    exact ⟨own, entry, ⟨document, entries, object, array, mem⟩, usable_of_keyFromEntry kept⟩
  · cases read

/-! ### Runs -/

/-- One call of `key_for`. -/
structure Call where
  kid : String
  now : Int64
  fetcher : Fetcher

variable (codec) in
/-- One call of a run, with the state before and after it. -/
structure Step where
  call : Call
  before : CacheState codec
  answer : Option (Option (VerifyingKey codec))
  after : CacheState codec

namespace JwksCache

variable (cache : JwksCache)

def stepOf (call : Call) (state : CacheState codec) : Step codec :=
  let result := cache.keyFor state call.kid call.now call.fetcher
  ⟨call, state, result.1, result.2⟩

/-- The calls of a run, one after the other. -/
def trace : CacheState codec → List Call → List (Step codec)
  | _, [] => []
  | state, call :: calls => cache.stepOf call state :: trace (cache.stepOf call state).after calls

/-- The state a run leads to. -/
def stateAfter (state : CacheState codec) (calls : List Call) : CacheState codec :=
  calls.foldl (fun state call => (cache.stepOf call state).after) state

/-- The call asks the fetcher. -/
def Fetches (step : Step codec) : Prop :=
  cache.refreshDue step.before step.call.kid step.call.now = true

/-- The call fetches a document that reads as a key set. -/
def Succeeds (step : Step codec) : Prop :=
  cache.Fetches step ∧ (step.call.fetcher.fetch.bind (parseJwks codec)).isSome

/-- How long the keys this call fetched are served: the hint between the refetch interval and the
cap, else the cache's own time. -/
def lifetime (step : Step codec) : Int :=
  match step.call.fetcher.ttlHint with
  | none => cache.ttlSeconds.toInt
  | some hint => max cache.minRefetchSeconds.toInt (min hint.toInt maxTtlSeconds.toInt)

theorem trace_snoc (state : CacheState codec) (calls : List Call) (call : Call) :
    cache.trace state (calls ++ [call]) =
      cache.trace state calls ++ [cache.stepOf call (cache.stateAfter state calls)] := by
  induction calls generalizing state with
  | nil => rfl
  | cons c calls ih => exact congrArg (cache.stepOf c state :: ·) (ih _)

theorem stateAfter_snoc (state : CacheState codec) (calls : List Call) (call : Call) :
    cache.stateAfter state (calls ++ [call]) =
      (cache.stepOf call (cache.stateAfter state calls)).after :=
  List.foldl_concat _ _ _ _

theorem trace_calls (calls : List Call) : ∀ state : CacheState codec,
    (cache.trace state calls).map Step.call = calls := by
  induction calls with
  | nil => exact fun _ => rfl
  | cons c calls ih => exact fun _ => congrArg (c :: ·) (ih _)

/-- A call of a run comes after a run of the calls before it. -/
theorem trace_split {calls : List Call} : ∀ {state : CacheState codec} {before : List (Step codec)}
    {step : Step codec} {later : List (Step codec)},
    cache.trace state calls = before ++ step :: later →
      ∃ cs c, cache.trace state cs = before ∧ step = cache.stepOf c (cache.stateAfter state cs) := by
  induction calls with
  | nil =>
    intro state before step later same
    cases before <;> cases same
  | cons c calls ih =>
    intro state before step later same
    cases before with
    | nil =>
      cases same
      exact ⟨[], c, rfl, rfl⟩
    | cons first before =>
      obtain ⟨rfl, rest⟩ := List.cons.inj same
      obtain ⟨cs, d, traced, rfl⟩ := ih rest
      exact ⟨c :: cs, d, congrArg (cache.stepOf c state :: ·) traced, rfl⟩

/-! What one call does. -/

variable {cache} {state : CacheState codec} {call : Call}

theorem clampTo_of_le (value : Int64) {lo hi : Int64} (le : lo ≤ hi) :
    ∃ v, clampTo value lo hi = some v ∧ v.toInt = max lo.toInt (min value.toInt hi.toInt) := by
  rw [Int64.le_iff_toInt_le] at le
  unfold clampTo
  rw [if_neg (by rw [Int64.lt_iff_toInt_lt]; omega)]
  split
  · rename_i low
    rw [Int64.lt_iff_toInt_lt] at low
    exact ⟨lo, rfl, by omega⟩
  · rename_i low
    rw [Int64.lt_iff_toInt_lt] at low
    split
    · rename_i high
      rw [Int64.lt_iff_toInt_lt] at high
      exact ⟨hi, rfl, by omega⟩
    · rename_i high
      rw [Int64.lt_iff_toInt_lt] at high
      exact ⟨value, rfl, by omega⟩

theorem boundedHint_of_le (capped : cache.minRefetchSeconds ≤ maxTtlSeconds) (step : Step codec) :
    ∃ hinted, cache.boundedHint step.call.fetcher = some hinted ∧
      (hinted.getD cache.ttlSeconds).toInt = cache.lifetime step := by
  unfold boundedHint lifetime
  cases step.call.fetcher.ttlHint with
  | none => exact ⟨none, rfl, rfl⟩
  | some hint =>
    obtain ⟨v, clamped, bounds⟩ := clampTo_of_le hint capped
    exact ⟨some v, congrArg (Option.map some) clamped, bounds⟩

theorem refresh_unread {fetcher : Fetcher} {now : Int64}
    (unread : fetcher.fetch.bind (parseJwks codec) = none) :
    cache.refresh state fetcher now = (true, { state with attemptedAt := some now }) := by
  unfold refresh
  rw [unread]

theorem refresh_read {fetcher : Fetcher} {now : Int64} {parsed : ParsedKeys codec}
    {hinted : Option Int64} (read : fetcher.fetch.bind (parseJwks codec) = some parsed)
    (bounded : cache.boundedHint fetcher = some hinted) :
    cache.refresh state fetcher now = (true, ⟨parsed.keys, some now, some now, hinted⟩) := by
  unfold refresh
  rw [read]
  dsimp only
  rw [bounded]

theorem stepOf_idle (idle : ¬ cache.Fetches (cache.stepOf call state)) :
    (cache.stepOf call state).after = state ∧
      (cache.stepOf call state).answer = some
        (if cache.isStale state call.now then none else state.keys.lookup call.kid) := by
  have quiet : cache.refreshDue state call.kid call.now = false := Bool.eq_false_iff.mpr idle
  unfold stepOf keyFor
  rw [quiet]
  exact ⟨rfl, rfl⟩

theorem stepOf_fetch {after : CacheState codec} (fetches : cache.Fetches (cache.stepOf call state))
    (refreshed : cache.refresh state call.fetcher call.now = (true, after)) :
    (cache.stepOf call state).after = after ∧
      (cache.stepOf call state).answer = some
        (if cache.isStale after call.now then none else after.keys.lookup call.kid) := by
  have due : cache.refreshDue state call.kid call.now = true := fetches
  unfold stepOf keyFor
  rw [due, if_pos rfl, refreshed]
  exact ⟨rfl, rfl⟩

/-- A call that asks and reads no document keeps the keys and their age. -/
theorem stepOf_unread (fetches : cache.Fetches (cache.stepOf call state))
    (unread : ¬ cache.Succeeds (cache.stepOf call state)) :
    (cache.stepOf call state).after = { state with attemptedAt := some call.now } := by
  apply (stepOf_fetch fetches (refresh_unread _)).1
  by_contra some
  exact unread ⟨fetches, Option.isSome_iff_ne_none.mpr some⟩

theorem stepOf_read (capped : cache.minRefetchSeconds ≤ maxTtlSeconds)
    (read : cache.Succeeds (cache.stepOf call state)) :
    ∃ body parsed hinted, call.fetcher.fetch = some body ∧ parseJwks codec body = some parsed ∧
      (hinted.getD cache.ttlSeconds).toInt = cache.lifetime (cache.stepOf call state) ∧
        (cache.stepOf call state).after = ⟨parsed.keys, some call.now, some call.now, hinted⟩ := by
  obtain ⟨fetches, parses⟩ := read
  obtain ⟨parsed, read⟩ := Option.isSome_iff_exists.mp parses
  obtain ⟨body, fetched, document⟩ := Option.bind_eq_some_iff.mp read
  obtain ⟨hinted, bounded, lasts⟩ := boundedHint_of_le capped (cache.stepOf call state)
  exact ⟨body, parsed, hinted, fetched, document, lasts,
    (stepOf_fetch fetches (refresh_read read bounded)).1⟩

/-- A call returns, and what it answers is read off the state it leaves. -/
theorem stepOf_answer (capped : cache.minRefetchSeconds ≤ maxTtlSeconds) :
    (cache.stepOf call state).answer = some
      (if cache.isStale (cache.stepOf call state).after call.now then none
        else (cache.stepOf call state).after.keys.lookup call.kid) := by
  by_cases fetches : cache.Fetches (cache.stepOf call state)
  · have returns : ∃ after, cache.refresh state call.fetcher call.now = (true, after) := by
      cases read : call.fetcher.fetch.bind (parseJwks codec) with
      | none => exact ⟨_, refresh_unread read⟩
      | some parsed =>
        obtain ⟨hinted, bounded, -⟩ := boundedHint_of_le capped (cache.stepOf call state)
        exact ⟨_, refresh_read read bounded⟩
    obtain ⟨after, refreshed⟩ := returns
    obtain ⟨left, answers⟩ := stepOf_fetch fetches refreshed
    rw [answers, left]
  · obtain ⟨left, answers⟩ := stepOf_idle fetches
    rw [answers, left]

/-! What a run keeps. -/

theorem le_saturatingSub {a b least : Int64} (positive : 0 ≤ least)
    (apart : least ≤ saturatingSub a b) : b.toInt + least.toInt ≤ a.toInt := by
  rw [Int64.le_iff_toInt_le] at positive apart
  rw [saturatingSub, toInt_clamp] at apart
  rw [show (0 : Int64).toInt = 0 from rfl] at positive
  omega

theorem saturatingSub_lt {a b most : Int64} (near : saturatingSub a b < most) :
    a.toInt - b.toInt < most.toInt := by
  have least := most.toInt_lt
  rw [Int64.lt_iff_toInt_lt, saturatingSub, toInt_clamp] at near
  omega

variable (cache) in
/-- The call read a document, and none of those behind it did. -/
def LastRead (done : List (Step codec)) (good : Step codec) : Prop :=
  ∃ before later, done = before ++ good :: later ∧ cache.Succeeds good ∧
    ∀ step ∈ later, ¬ cache.Succeeds step

variable (cache) in
/-- The state holds what the last document read had, since it was read, and knows when the fetcher
was last asked. -/
structure Holds (done : List (Step codec)) (state : CacheState codec) : Prop where
  asked : ∀ step ∈ done, cache.Fetches step →
    ∃ attempted, state.attemptedAt = some attempted ∧ step.call.now.toInt ≤ attempted.toInt
  spaced : done.Pairwise fun earlier later => cache.Fetches earlier → cache.Fetches later →
    earlier.call.now.toInt + cache.minRefetchSeconds.toInt ≤ later.call.now.toInt
  read : ∀ fetched, state.fetchedAt = some fetched →
    ∃ good body parsed, cache.LastRead done good ∧ good.call.now = fetched ∧
      good.call.fetcher.fetch = some body ∧ parseJwks codec body = some parsed ∧
        state.keys = parsed.keys ∧
          (state.hintedTtl.getD cache.ttlSeconds).toInt = cache.lifetime good

theorem LastRead.snoc {done : List (Step codec)} {good step : Step codec}
    (last : cache.LastRead done good) (unread : ¬ cache.Succeeds step) :
    cache.LastRead (done ++ [step]) good := by
  obtain ⟨before, later, rfl, read, none⟩ := last
  refine ⟨before, later ++ [step], by simp, read, ?_⟩
  intro other mem
  rcases List.mem_append.mp mem with mem | mem
  · exact none other mem
  · rwa [List.mem_singleton.mp mem]

/-- An asking call comes the interval after the attempt before it. -/
theorem apart_of_fetches (positive : 0 ≤ cache.minRefetchSeconds)
    (fetches : cache.Fetches (cache.stepOf call state)) {attempted : Int64}
    (asked : state.attemptedAt = some attempted) :
    attempted.toInt + cache.minRefetchSeconds.toInt ≤ call.now.toInt := by
  have due : cache.refreshDue state call.kid call.now = true := fetches
  unfold refreshDue at due
  rw [asked] at due
  rw [Bool.and_eq_true, decide_eq_true_eq] at due
  exact le_saturatingSub positive due.2

theorem Holds.step {done : List (Step codec)} (holds : cache.Holds done state)
    (positive : 0 ≤ cache.minRefetchSeconds) (capped : cache.minRefetchSeconds ≤ maxTtlSeconds)
    (call : Call) :
    cache.Holds (done ++ [cache.stepOf call state]) (cache.stepOf call state).after := by
  have positive' : 0 ≤ cache.minRefetchSeconds.toInt := by
    rwa [Int64.le_iff_toInt_le] at positive
  have spaced : (done ++ [cache.stepOf call state]).Pairwise fun earlier later =>
      cache.Fetches earlier → cache.Fetches later →
        earlier.call.now.toInt + cache.minRefetchSeconds.toInt ≤ later.call.now.toInt := by
    rw [List.pairwise_append]
    refine ⟨holds.spaced, List.pairwise_singleton _ _, ?_⟩
    intro earlier mem later last asked fetches
    rw [List.mem_singleton.mp last] at fetches ⊢
    obtain ⟨attempted, known, upTo⟩ := holds.asked earlier mem asked
    have apart := apart_of_fetches positive fetches known
    show _ ≤ call.now.toInt
    omega
  by_cases fetches : cache.Fetches (cache.stepOf call state)
  · have asked : ∀ step ∈ done ++ [cache.stepOf call state], cache.Fetches step →
        step.call.now.toInt ≤ call.now.toInt := by
      intro step mem asks
      rcases List.mem_append.mp mem with mem | mem
      · obtain ⟨attempted, known, upTo⟩ := holds.asked step mem asks
        have apart := apart_of_fetches positive fetches known
        omega
      · rw [List.mem_singleton.mp mem]
        exact le_rfl
    by_cases read : cache.Succeeds (cache.stepOf call state)
    · obtain ⟨body, parsed, hinted, fetched, document, lasts, left⟩ := stepOf_read capped read
      refine ⟨fun step mem asks => ⟨call.now, by rw [left], asked step mem asks⟩, spaced, ?_⟩
      intro now known
      rw [left] at known
      cases known
      refine ⟨cache.stepOf call state, body, parsed, ⟨done, [], rfl, read, ?_⟩, rfl, fetched,
        document, by rw [left], by rw [left]; exact lasts⟩
      intro step none
      cases none
    · have left := stepOf_unread fetches read
      refine ⟨fun step mem asks => ⟨call.now, by rw [left], asked step mem asks⟩, spaced, ?_⟩
      intro now known
      rw [left] at known ⊢
      obtain ⟨good, body, parsed, last, rest⟩ := holds.read now known
      exact ⟨good, body, parsed, last.snoc read, rest⟩
  · obtain ⟨left, -⟩ := stepOf_idle fetches
    refine ⟨?_, spaced, ?_⟩
    · intro step mem asks
      rw [left]
      rcases List.mem_append.mp mem with mem | mem
      · exact holds.asked step mem asks
      · rw [List.mem_singleton.mp mem] at asks
        exact absurd asks fetches
    · intro now known
      rw [left] at known ⊢
      obtain ⟨good, body, parsed, last, rest⟩ := holds.read now known
      exact ⟨good, body, parsed, last.snoc fun read => fetches read.1, rest⟩

theorem holds_run (positive : 0 ≤ cache.minRefetchSeconds)
    (capped : cache.minRefetchSeconds ≤ maxTtlSeconds) (calls : List Call) :
    cache.Holds (cache.trace (CacheState.empty : CacheState codec) calls)
      (cache.stateAfter .empty calls) := by
  induction calls using List.reverseRecOn with
  | nil =>
    refine ⟨?_, .nil, ?_⟩
    · intro step none
      cases none
    · intro now none
      cases none
  | append_singleton calls call ih =>
    rw [trace_snoc, stateAfter_snoc]
    exact ih.step positive capped call

variable (cache) in
/-- A run of the cache fetches politely and answers only with what the issuer published lately. -/
structure Polite (steps : List (Step codec)) : Prop where
  returns : ∀ step ∈ steps, step.answer.isSome
  spaced : steps.Pairwise fun earlier later => cache.Fetches earlier → cache.Fetches later →
    earlier.call.now.toInt + cache.minRefetchSeconds.toInt ≤ later.call.now.toInt
  served : ∀ before step later key, steps = before ++ step :: later →
    step.answer = some (some key) →
      ∃ good body entry, cache.LastRead (before ++ [step]) good ∧
        good.call.fetcher.fetch = some body ∧ Lists body entry ∧ Usable entry key ∧
          key.thumbprint = step.call.kid ∧ good.call.now ≤ step.call.now ∧
            step.call.now.toInt - good.call.now.toInt < cache.lifetime good
  kept : ∀ step ∈ steps, ¬ cache.Succeeds step → step.after.keys = step.before.keys ∧
    step.after.fetchedAt = step.before.fetchedAt ∧ step.after.hintedTtl = step.before.hintedTtl

theorem mem_trace {calls : List Call} {step : Step codec}
    (mem : step ∈ cache.trace .empty calls) :
    ∃ cs c, step = cache.stepOf c (cache.stateAfter .empty cs) := by
  obtain ⟨before, later, same⟩ := List.append_of_mem mem
  obtain ⟨cs, c, -, stepOf⟩ := trace_split cache same
  exact ⟨cs, c, stepOf⟩

theorem keys_kept (step : Step codec) (unread : ¬ cache.Succeeds (cache.stepOf call state))
    (same : step = cache.stepOf call state) : step.after.keys = step.before.keys ∧
      step.after.fetchedAt = step.before.fetchedAt ∧
        step.after.hintedTtl = step.before.hintedTtl := by
  subst same
  by_cases fetches : cache.Fetches (cache.stepOf call state)
  · rw [stepOf_unread fetches unread]
    exact ⟨rfl, rfl, rfl⟩
  · rw [(stepOf_idle fetches).1]
    exact ⟨rfl, rfl, rfl⟩

/-- What an answered call leaves: keys that are not stale, the answer among them. -/
theorem of_answer (capped : cache.minRefetchSeconds ≤ maxTtlSeconds) {key : VerifyingKey codec}
    (answered : (cache.stepOf call state).answer = some (some key)) :
    cache.isStale (cache.stepOf call state).after call.now = false ∧
      (cache.stepOf call state).after.keys.lookup call.kid = some key := by
  rw [stepOf_answer capped, Option.some.injEq] at answered
  split at answered
  · cases answered
  · rename_i fresh
    exact ⟨Bool.eq_false_iff.mpr fresh, answered⟩

theorem fetched_of_fresh {now : Int64} (fresh : cache.isStale state now = false) :
    ∃ fetched, state.fetchedAt = some fetched ∧
      now.toInt - fetched.toInt < (state.hintedTtl.getD cache.ttlSeconds).toInt := by
  unfold isStale at fresh
  cases known : state.fetchedAt with
  | none =>
    rw [known] at fresh
    cases fresh
  | some fetched =>
    rw [known] at fresh
    refine ⟨fetched, rfl, saturatingSub_lt ?_⟩
    have young := decide_eq_false_iff_not.mp fresh
    exact Int64.not_le.mp young

/-- The calls of a run whose clock does not go back: each call comes no earlier than those before
it. -/
theorem clock_step {calls : List Call} {before later : List (Step codec)} {step good : Step codec}
    (clock : calls.Pairwise fun a b => a.now ≤ b.now)
    (split : cache.trace .empty calls = before ++ step :: later)
    (mem : good ∈ before ++ [step]) : good.call.now ≤ step.call.now := by
  have ordered : (cache.trace (CacheState.empty : CacheState codec) calls).Pairwise
      fun a b => a.call.now ≤ b.call.now := by
    rw [← trace_calls cache calls (CacheState.empty : CacheState codec), List.pairwise_map] at clock
    exact clock
  rw [split, List.pairwise_append] at ordered
  rcases List.mem_append.mp mem with earlier | last
  · exact ordered.2.2 good earlier step List.mem_cons_self
  · rw [List.mem_singleton.mp last]
    exact Int64.le_refl _

end JwksCache

open JwksCache

/-- Whatever is asked and whatever the fetcher answers, the cache asks the issuer no more often
than its interval, and answers with nothing but fresh keys of the last document read. -/
theorem keyFor_polite (codec : Codec) (cache : JwksCache)
    (positive : 0 ≤ cache.minRefetchSeconds) (capped : cache.minRefetchSeconds ≤ maxTtlSeconds)
    (calls : List Call) (clock : calls.Pairwise fun a b => a.now ≤ b.now) :
    cache.Polite (cache.trace (CacheState.empty : CacheState codec) calls) := by
  refine ⟨?_, (holds_run positive capped calls).spaced, ?_, ?_⟩
  · intro step mem
    obtain ⟨cs, c, rfl⟩ := mem_trace mem
    rw [stepOf_answer capped]
    rfl
  · intro before step later key split answered
    obtain ⟨cs, c, traced, same⟩ := trace_split cache split
    have holds : cache.Holds (before ++ [step]) step.after := by
      rw [← traced, same]
      exact (holds_run positive capped cs).step positive capped c
    rw [same] at answered
    obtain ⟨fresh, found⟩ := of_answer capped answered
    rw [← same] at fresh found
    obtain ⟨now, fetched, young⟩ := fetched_of_fresh fresh
    obtain ⟨good, body, parsed, last, rfl, got, document, keys, lasts⟩ := holds.read now fetched
    rw [keys] at found
    obtain ⟨own, entry, lists, usable⟩ := parseJwks_lists document found
    rw [lasts] at young
    have mem : good ∈ before ++ [step] := by
      obtain ⟨front, back, whole, -⟩ := last
      rw [whole]
      exact List.mem_append_right _ List.mem_cons_self
    have asked : step.call = c := by rw [same]; rfl
    rw [← asked] at own young
    exact ⟨good, body, entry, last, got, lists, usable, own, clock_step clock split mem, young⟩
  · intro step mem unread
    obtain ⟨cs, c, same⟩ := mem_trace mem
    rw [same] at unread
    exact keys_kept step unread same

/-! ### A key served, asked for again, and not to be had -/

def keyX : String := "BrQXFhWGK4Fmi8rRsnn1KzomYanZaWCsFWaS0Dgv62k"

def keyId : String := "SwpkMw_CknhH156gpWgzPJOQNEGnS25LhD1OqeNsQko"

def keyBytes : List UInt8 :=
  [6, 180, 23, 22, 21, 134, 43, 129, 102, 139, 202, 209, 178, 121, 245, 43, 58, 38, 97, 169,
    217, 105, 96, 172, 21, 102, 146, 208, 56, 47, 235, 105]

def keyDigest : List UInt8 :=
  [75, 10, 100, 51, 15, 194, 146, 120, 71, 215, 158, 160, 165, 104, 51, 60, 147, 144, 52, 65,
    167, 75, 110, 75, 132, 61, 78, 169, 227, 108, 66, 74]

/-- The codec, on this key. -/
def keyCodec : Codec where
  urlDecode text := if text = keyX.toList then some keyBytes else none
  urlEncode raw := if raw = keyDigest then keyId else ""
  sha256 _ := keyDigest

def keyDocument : String :=
  "\x7b\"keys\":[\x7b\"kty\":\"OKP\",\"crv\":\"Ed25519\",\"x\":\"" ++ keyX ++ "\"\x7d]\x7d"

theorem keyFor_polite_day :
    Polite ⟨defaultTtlSeconds, defaultMinRefetchSeconds⟩
      (trace ⟨defaultTtlSeconds, defaultMinRefetchSeconds⟩ (CacheState.empty : CacheState keyCodec)
        [⟨keyId, 1000, ⟨some keyDocument, some 60⟩⟩, ⟨"unknown", 1001, ⟨none, none⟩⟩,
          ⟨keyId, 1059, ⟨none, none⟩⟩, ⟨keyId, 1060, ⟨none, none⟩⟩]) :=
  keyFor_polite keyCodec _ (by decide) (by decide) _ (by decide)

end Hecks.Signin.Jwks
