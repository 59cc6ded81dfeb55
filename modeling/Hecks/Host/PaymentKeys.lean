import Hecks.Host.Serde

/-! The business's own payment keys, as they are saved from the payments page. -/
namespace Hecks.Host.Payments

/-! ### The key store -/

/-- What is saved for one mode. -/
structure StoredKeys where
  secretKey : String
  publishableKey : String
  webhookSecret : String
  webhookEndpointId : String
  savedAt : String
deriving DecidableEq

def StoredKeys.fromJson (value : Serde) : StoredKeys where
  secretKey := value.textAt "secret_key"
  publishableKey := value.textAt "publishable_key"
  webhookSecret := value.textAt "webhook_secret"
  webhookEndpointId := value.textAt "webhook_endpoint_id"
  savedAt := value.textAt "saved_at"

def StoredKeys.toJson (k : StoredKeys) : Serde :=
  .object [("secret_key", .string k.secretKey), ("publishable_key", .string k.publishableKey),
    ("webhook_secret", .string k.webhookSecret),
    ("webhook_endpoint_id", .string k.webhookEndpointId), ("saved_at", .string k.savedAt)]

/-- Everything saved, one entry per mode. -/
structure StoredDocument where
  test : Option StoredKeys
  live : Option StoredKeys

namespace StoredDocument

def entry (value : Serde) (mode : String) : Option StoredKeys :=
  ((value.get mode).filter fun v => v.asObject.isSome).map StoredKeys.fromJson

def fromJson (value : Serde) : StoredDocument := ⟨entry value "test", entry value "live"⟩

def toJson (d : StoredDocument) : Serde :=
  .object (((d.test.map fun k => ("test", k.toJson)).toList) ++
    (d.live.map fun k => ("live", k.toJson)).toList)

/-- The entry saved for a mode. -/
def mode (d : StoredDocument) (mode : String) : Option StoredKeys :=
  if mode = "live" then d.live else d.test

/-- Replaces, or with `none` removes, the entry for a mode. -/
def set (mode : String) (keys : Option StoredKeys) (d : StoredDocument) : StoredDocument :=
  if mode = "live" then { d with live := keys } else { d with test := keys }

@[simp] theorem mode_set_self (d : StoredDocument) (mode : String) (keys : Option StoredKeys) :
    (d.set mode keys).mode mode = keys := by
  unfold set StoredDocument.mode
  split
  · rfl
  · rfl

theorem fromJson_toJson (d : StoredDocument) : fromJson d.toJson = d := by
  obtain ⟨test, live⟩ := d
  cases test with
  | none =>
    cases live with
    | none => rfl
    | some k => rfl
  | some j =>
    cases live with
    | none => rfl
    | some k => rfl

end StoredDocument

/-- The text of the document: none yet, one that is not JSON, or a JSON value. -/
inductive Raw where
  | absent
  | invalid
  | json (value : Serde)

/-- Whether the next read and the next write go through; one that fails changes nothing. -/
structure Access where
  reads : Bool
  writes : Bool

def refresh (reads : Bool) (raw : Raw) : Option StoredDocument :=
  if reads then
    match raw with
    | .absent => some ⟨none, none⟩
    | .invalid => none
    | .json value => some (.fromJson value)
  else none

/-- Reads the current document, applies the change and writes it back. -/
def update (access : Access) (change : StoredDocument → StoredDocument) (raw : Raw) :
    Bool × Raw :=
  match refresh access.reads raw with
  | none => (false, raw)
  | some document =>
      if access.writes then (true, .json (change document).toJson) else (false, raw)

/-- The keys held for a mode. -/
def held (raw : Raw) (mode : String) : Option StoredKeys :=
  (refresh true raw).bind fun document => document.mode mode

/-! ### Answers -/

/-- This tenant's connection. -/
structure Connection where
  status : String
  processor : String
  accountRef : String
  mode : String
  displayName : String

def selfAccount : String := "self"

/-- Whether the connection uses the business's own account. -/
def Connection.isDirect (c : Connection) : Bool := c.accountRef == selfAccount

/-- What a route answers: an error, or the connection as it is. -/
inductive Response where
  | error (status : Nat) (message : String)
  | connection (connection : Option Connection)

def Response.status : Response → Nat
  | error status _ => status
  | connection _ => 200

/-- A status and a body, where that is JSON; `none` where Stripe was not reached. -/
abbrev Reply := Option (Nat × Option Serde)

def isSuccess (status : Nat) : Bool := 200 ≤ status && status < 300

inductive Verb where
  | connect
  | reconnect
  | resume
deriving DecidableEq

/-- Whether the domain accepted a command, and its last refusal. -/
structure Outcome where
  accepted : Bool
  lastRefusal : Serde

def refusalMessage (refusal : Serde) : String :=
  (((refusal.get "message").bind Serde.asStr).or
    ((refusal.get "error").bind Serde.asStr)).getD "Refused"

/-! ### Stripe -/

def keyRefused : String := "Stripe did not accept that key."
def stripeUnreachable : String := "Could not reach Stripe. Please try again in a moment."
def displayFallback : String := "Your Stripe account"

/-- The business name Stripe has for an account, when it has one. -/
def businessName (account : Serde) : Option String :=
  let candidates := [(account.get "business_profile").bind (·.get "name"),
    ((account.get "settings").bind (·.get "dashboard")).bind (·.get "display_name"),
    account.get "email"]
  (candidates.filterMap fun c => (c.bind Serde.asStr).filter (· ≠ "")).head?

/-- Asks whether the key works and what the business is called. -/
def verifyKey (reply : Reply) : Except String String :=
  match reply with
  | none => .error stripeUnreachable
  | some (status, body) =>
      if status = 401 then .error keyRefused
      else if !isSuccess status then .ok displayFallback
      else .ok ((businessName (body.getD .null)).getD displayFallback)

inductive WebhookError where
  | permission
  | other

/-- The id and the signing secret of the endpoint Stripe created. -/
def createWebhook (reply : Reply) : Except WebhookError (String × String) :=
  match reply with
  | none => .error .other
  | some (status, body) =>
      if status = 401 ∨ status = 403 then .error .permission
      else if !isSuccess status then .error .other
      else
        match body with
        | none => .error .other
        | some body =>
            let text := fun field => ((body.get field).bind Serde.asStr).filter (· ≠ "")
            match text "id", text "secret" with
            | some id, some secret => .ok (id, secret)
            | _, _ => .error .other

/-- Whether Stripe confirmed that the endpoint is gone. -/
def deleteWebhook (reply : Reply) : Bool :=
  match reply with
  | none => false
  | some (status, _) => isSuccess status

/-! ### The request -/

def keysNotEnabled : String := "saving keys is not set up on this site"
def webhookPermission : String :=
  "That key can't create the webhook. In Stripe, give it Webhook Endpoints → Write as well " ++
    "and try again."
def webhookFailed : String := "Stripe could not set up the payment webhook. Please try again."
def storeFailed : String :=
  "The keys could not be stored, so nothing was saved. Please try again."
def alreadyConnected : String := "an account is already connected — disconnect it first"

def bodyField (body : Serde) (key : String) : Except Response String :=
  match (body.get key).bind Serde.asStr with
  | some text => .ok text
  | none => .error (.error 400 s!"missing {key}")

/-- The mode both keys belong to. -/
def keysMode (secretKey publishableKey : String) : Except String String :=
  let startsWith := fun text start => Text.startsWith start text
  let secretMode :=
    if ["rk_test_", "sk_test_"].any (startsWith secretKey) then some "test"
    else if ["rk_live_", "sk_live_"].any (startsWith secretKey) then some "live"
    else none
  let publishableMode :=
    if startsWith publishableKey "pk_test_" then some "test"
    else if startsWith publishableKey "pk_live_" then some "live"
    else none
  match secretMode, publishableMode with
  | none, _ =>
      .error ("That does not look like a Stripe restricted key. It should start with " ++
        "rk_test_ or rk_live_.")
  | some _, none =>
      .error ("That does not look like a Stripe publishable key. It should start with " ++
        "pk_test_ or pk_live_.")
  | some secretMode, some publishableMode =>
      if secretMode = publishableMode then .ok secretMode
      else
        .error ("One key is for test mode and the other is for live mode. Use two keys from " ++
          "the same mode.")

/-- The two keys of the body. -/
def bodyKeys (body : Serde) : Except Response (String × String) :=
  match bodyField body "secret_key", bodyField body "publishable_key" with
  | .ok secret, .ok publishable => .ok (Text.trim secret, Text.trim publishable)
  | .error response, _ => .error response
  | _, .error response => .error response

/-! ### The route -/

/-- How each call outside answers, in the order they are made. Stripe gives every endpoint an id
of its own. -/
structure Answers (raw : Raw) where
  firstRead : Except String (Option Connection)
  account : Reply
  previousReads : Bool
  webhook : Reply
  save : Access
  previousRemoval : Reply
  secondRead : Except String (Option Connection)
  dispatch : Verb → Serde → Except String Outcome
  thirdRead : Except String (Option Connection)
  newRemoval : Reply
  undo : Access
  fresh : ∀ mode keys, held raw mode = some keys → ∀ id secret,
    createWebhook webhook = .ok (id, secret) → keys.webhookEndpointId ≠ id

/-- What the call leaves: the document, and the endpoints it removed. -/
structure World where
  raw : Raw
  deleted : List String

def currentConnection (read : Except String (Option Connection)) :
    Except Response (Option Connection) :=
  match read with
  | .ok connection => .ok connection
  | .error e => .error (.error 500 s!"payment connection lookup failed: {e}")

def connectionResponse (read : Except String (Option Connection)) : Response :=
  match currentConnection read with
  | .ok connection => .connection connection
  | .error response => response

/-- The facts with the slug a first connection is created under. -/
def withSlug : Serde → Serde
  | .object fields => .object (Serde.insert "slug" (.object [("value", .string "payments")]) fields)
  | other => other

/-- A first connection is created, a disconnected one reconnects, a paused one resumes, and
anything else already has an account linked. -/
def recording {raw : Raw} (answers : Answers raw) (facts : Serde) (existing : Option Connection) :
    Option (Except String Outcome) :=
  match existing with
  | none => some (answers.dispatch .connect (withSlug facts))
  | some c =>
      if c.status = "disconnected" then some (answers.dispatch .reconnect facts)
      else if c.status = "paused" then some (answers.dispatch .resume facts)
      else none

def recordConnection {raw : Raw} (answers : Answers raw) (facts : Serde) : Response :=
  match currentConnection answers.secondRead with
  | .error response => response
  | .ok existing =>
      match recording answers facts existing with
      | none => .error 409 alreadyConnected
      | some (.error e) => .error 500 e
      | some (.ok outcome) =>
          if outcome.accepted then connectionResponse answers.thirdRead
          else .error 422 (refusalMessage outcome.lastRefusal)

/-- A request that passed every check made before anything is changed. -/
structure Checked where
  secretKey : String
  publishableKey : String
  mode : String
  inPlace : Bool
  displayName : String

/-- Whether a connection's keys are replaced in place; `none` where another account is linked. -/
def replacesInPlace (existing : Option Connection) (mode : String) : Option Bool :=
  match existing with
  | some c =>
      if c.status = "connected" ∨ c.status = "enabled" then
        if c.isDirect && c.mode == mode then some true else none
      else some false
  | none => some false

def checkSave {raw : Raw} (hasStore : Bool) (body : Serde) (answers : Answers raw) :
    Except Response Checked :=
  if !hasStore then .error (.error 422 keysNotEnabled)
  else
    match bodyKeys body with
    | .error response => .error response
    | .ok (secretKey, publishableKey) =>
        match keysMode secretKey publishableKey with
        | .error message => .error (.error 422 message)
        | .ok mode =>
            match currentConnection answers.firstRead with
            | .error response => .error response
            | .ok existing =>
                match replacesInPlace existing mode with
                | none => .error (.error 409 alreadyConnected)
                | some inPlace =>
                    match verifyKey answers.account with
                    | .error message => .error (.error 422 message)
                    | .ok displayName =>
                        .ok ⟨secretKey, publishableKey, mode, inPlace, displayName⟩

def connectionFacts (checked : Checked) : Serde :=
  .object [("processor", .object [("value", .string "stripe")]),
    ("account_ref", .object [("value", .string selfAccount)]),
    ("mode", .object [("value", .string checked.mode)]),
    ("display_name", .object [("value", .string checked.displayName)])]

/-- What the last save made, to be replaced once the new webhook is stored. -/
def previousKeys {raw : Raw} (answers : Answers raw) (mode : String) : Option StoredKeys :=
  ((refresh answers.previousReads raw).bind fun document => document.mode mode).filter
    fun old => old.webhookEndpointId ≠ ""

/-- The endpoint is gone where Stripe confirms it. -/
def removed (reply : Reply) (endpointId : String) (w : World) : World :=
  if deleteWebhook reply then { w with deleted := w.deleted ++ [endpointId] } else w

/-- The new webhook and keys are stored, so the old webhook can go. -/
def previousRemoved {raw : Raw} (answers : Answers raw) (mode : String) (stored : Raw) : World :=
  match previousKeys answers mode with
  | some old => removed answers.previousRemoval old.webhookEndpointId ⟨stored, []⟩
  | none => ⟨stored, []⟩

/-- What follows once the new keys are stored. -/
def afterStored {raw : Raw} (answers : Answers raw) (checked : Checked) (endpointId : String)
    (stored : Raw) : Response × World :=
  let w := previousRemoved answers checked.mode stored
  if checked.inPlace then (connectionResponse answers.secondRead, w)
  else
    let response := recordConnection answers (connectionFacts checked)
    if response.status ≠ 200 then
      -- the domain would not record the connection, so nothing is left behind
      let w := removed answers.newRemoval endpointId w
      (response, { w with raw := (update answers.undo (.set checked.mode none) w.raw).2 })
    else (response, w)

def saveKeysRoute {raw : Raw} (hasStore : Bool) (body : Serde) (now : String)
    (answers : Answers raw) : Response × World :=
  match checkSave hasStore body answers with
  | .error response => (response, ⟨raw, []⟩)
  | .ok checked =>
      match createWebhook answers.webhook with
      | .error .permission => (.error 422 webhookPermission, ⟨raw, []⟩)
      | .error .other => (.error 422 webhookFailed, ⟨raw, []⟩)
      | .ok (endpointId, webhookSecret) =>
          let saved : StoredKeys :=
            ⟨checked.secretKey, checked.publishableKey, webhookSecret, endpointId, now⟩
          match update answers.save (.set checked.mode (some saved)) raw with
          | (false, raw) =>
              (.error 500 storeFailed, removed answers.newRemoval endpointId ⟨raw, []⟩)
          | (true, stored) => afterStored answers checked endpointId stored

end Hecks.Host.Payments
