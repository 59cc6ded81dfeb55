import Mathlib
import Hecks.Lib.Maps
import Hecks.Lib.Slices
import Hecks.Signin.StrictJson

/-! The ordered checks that decide whether a platform sign-in token may be used, and the
single-use record of the token identifiers spent. -/

namespace Hecks.Signin

open StrictJson (JsonObject)

/-! ### The compact JWS -/

/-- Why a token text was refused before any claim was read. -/
inductive JwsFault where
  | tooLarge
  | malformed

/-- A structurally valid compact JWS: the two JSON parts and the signed text. -/
structure CompactJws where
  header : JsonObject
  claims : JsonObject
  signingInput : List Char
  signatureSegment : List Char

section

-- Decodes canonical unpadded base64url.
variable (urlDecode : List Char → Option (List UInt8))

def jsonSegment (segment : List Char) : Except JwsFault JsonObject :=
  match (urlDecode segment).bind StrictJson.parseObject with
  | some object => .ok object
  | none => .error .malformed

def CompactJws.parse (text : List Char) (maxBytes : Nat) : Except JwsFault CompactJws :=
  if maxBytes < Slices.size text then .error .tooLarge
  else
    match text.splitOn '.' with
    | [header, claims, signature] => do
        let headerObject ← jsonSegment urlDecode header
        let claimsObject ← jsonSegment urlDecode claims
        return ⟨headerObject, claimsObject, header ++ '.' :: claims, signature⟩
    | _ => .error .malformed

end

/-! ### The single-use record -/

/-- A bounded set of spent token identifiers, each with the time it is remembered until. -/
structure JtiStore where
  maxEntries : Nat
  seen : AList fun _ : String => Int64

namespace JtiStore

/-- What is still remembered at `now`. -/
def fresh (store : JtiStore) (now : Int64) : AList fun _ : String => Int64 :=
  Maps.retain (fun _ expiry => decide (now < expiry)) store.seen

/-- Records `jti` as spent until `expiresAt` unless it is already remembered. -/
def claim (store : JtiStore) (jti : String) (expiresAt now : Int64) : Bool × JtiStore :=
  let seen := store.fresh now
  if (seen.lookup jti).isSome || decide (store.maxEntries ≤ seen.entries.length) then
    (false, { store with seen })
  else (true, { store with seen := seen.insert jti expiresAt })

end JtiStore

/-! ### The checks -/

/-- Why a token was refused. -/
inductive Reason where
  | missingCookie
  | stateMismatch
  | tooLarge
  | malformed
  | badAlg
  | unknownKid
  | badSignature
  | badIss
  | badAud
  | badEnv
  | missingClaim
  | notYetValid
  | expired
  | lifetime
  | nonceMismatch
  | replay
  | emailUnverified
  | subjectMismatch

/-- The two values the site stored in the browser when it started the sign-in. -/
structure SigninCookie where
  nonce : String
  state : String

/-- What arrived on the callback and what the browser's cookie held. -/
structure SigninRequest where
  token : Option (List Char)
  state : Option String
  cookie : Option SigninCookie

/-- The claims of a token that passed every check. -/
structure VerifiedClaims where
  issuer : String
  audience : String
  environment : String
  subject : String
  email : String
  idpIssuer : Option String
  idpSubject : Option String
  roles : List String
  nonce : String
  issuedAt : Int64
  notBefore : Int64
  expiresAt : Int64
  all : JsonObject

/-- The pinned facts a verifier checks every token against. -/
structure PlatformSigninConfig where
  issuerUrl : String
  siteId : String
  environment : String
  skewSeconds : Int64
  maxLifetimeSeconds : Int64
  maxTokenBytes : Nat

def algorithm : String := "EdDSA"

def tokenType : String := "JWT"

/-- The claims every token must carry, present and not `null`. -/
def requiredClaims : List String :=
  ["iss", "aud", "env", "sub", "email", "email_verified", "nonce", "iat", "nbf", "exp", "jti"]

/-- The `i128` nearest to an integer: what `saturating_add` and `saturating_sub` answer. -/
def saturate (n : Int) : Int := max (-2 ^ 127) (min n (2 ^ 127 - 1))

/-- The `i64` nearest to an integer. -/
def clamp (value : Int) : Int64 := Int64.ofIntClamp value

def integer (claims : JsonObject) (name : String) : Option Int :=
  match claims.get name with
  | some (.int value) => some value
  | _ => none

def roleNames (claims : JsonObject) : List String :=
  match claims.get "roles" with
  | some (.array items) => items.filterMap fun
      | .str role => some role
      | _ => none
  | _ => []

/-- The configuration, and the code the checks are given: the comparison of secrets, the signature
check under a key, the base64url decoder and the lower case of a text. -/
structure Verifier (κ : Type) where
  config : PlatformSigninConfig
  compare : String → String → Bool
  signatureVerifies : κ → CompactJws → Bool
  urlDecode : List Char → Option (List UInt8)
  toLowercase : String → String

/-- One call: the request, the clock reading, and what the key source answers during it. -/
structure Call (κ : Type) where
  request : SigninRequest
  now : Int64
  keyFor : String → Option κ

namespace Verifier

variable {κ : Type} (verifier : Verifier κ)

/-- The site's own cookie must be present, and its state must equal the query's. -/
def checkCookieAndState (request : SigninRequest) : Except Reason SigninCookie :=
  match request.cookie.filter fun c => c.nonce ≠ "" && c.state ≠ "" with
  | none => .error .missingCookie
  | some cookie =>
      match request.state.filter fun s => s ≠ "" with
      | none => .error .stateMismatch
      | some state =>
          if verifier.compare state cookie.state then .ok cookie else .error .stateMismatch

def parseToken (token : Option (List Char)) : Except Reason CompactJws :=
  match token with
  | none => .error .malformed
  | some token =>
      match CompactJws.parse verifier.urlDecode token verifier.config.maxTokenBytes with
      | .ok jws => .ok jws
      | .error .tooLarge => .error .tooLarge
      | .error .malformed => .error .malformed

/-- The algorithm is pinned before any key is looked up. -/
def checkSignature (keyFor : String → Option κ) (jws : CompactJws) : Except Reason Unit :=
  if jws.header.getStr "alg" ≠ some algorithm then .error .badAlg
  else if jws.header.getStr "typ" ≠ some tokenType then .error .malformed
  else if verifier.urlDecode jws.signatureSegment = none then .error .malformed
  else
    match (jws.header.getStr "kid").bind keyFor with
    | none => .error .unknownKid
    | some key => if verifier.signatureVerifies key jws then .ok () else .error .badSignature

/-- Presence, then the exact issuer, site and environment. -/
def checkPinnedClaims (claims : JsonObject) : Except Reason Unit :=
  if requiredClaims.any fun name => !claims.isPresent name then .error .missingClaim
  else if claims.getStr "iss" ≠ some verifier.config.issuerUrl then .error .badIss
  else if claims.getStr "aud" ≠ some verifier.config.siteId then .error .badAud
  else if claims.getStr "env" ≠ some verifier.config.environment then .error .badEnv
  else .ok ()

/-- Integer times only, then not-yet-valid, expired and lifetime. -/
def checkTimes (claims : JsonObject) (now : Int64) : Except Reason Unit :=
  match integer claims "iat", integer claims "nbf", integer claims "exp" with
  | some iat, some nbf, some exp =>
      if saturate (now.toInt + verifier.config.skewSeconds.toInt) < nbf then .error .notYetValid
      else if exp ≤ saturate (now.toInt - verifier.config.skewSeconds.toInt) then .error .expired
      else if 1 ≤ saturate (exp - iat) ∧
          saturate (exp - iat) ≤ verifier.config.maxLifetimeSeconds.toInt then .ok ()
      else .error .lifetime
  | _, _, _ => .error .malformed

def checkNonce (claims : JsonObject) (cookie : SigninCookie) : Except Reason Unit :=
  match claims.getStr "nonce" with
  | some nonce => if verifier.compare nonce cookie.nonce then .ok () else .error .nonceMismatch
  | none => .error .nonceMismatch

/-- How long a token's identifier is remembered. -/
def rememberedUntil (claims : JsonObject) : Int64 :=
  clamp (saturate ((integer claims "exp").getD 0 + verifier.config.skewSeconds.toInt))

/-- Spends the identifier of a token that passed every check before. -/
def spendJti (claims : JsonObject) (now : Int64) (store : JtiStore) :
    Except Reason Unit × JtiStore :=
  match (claims.getStr "jti").filter fun jti => jti ≠ "" with
  | none => (.error .replay, store)
  | some jti =>
      match store.claim jti (verifier.rememberedUntil claims) now with
      | (true, after) => (.ok (), after)
      | (false, after) => (.error .replay, after)

/-- A verified token must say the provider verified the email, and `sub` must be that email
lowercased. -/
def checkIdentity (claims : JsonObject) : Except Reason Unit :=
  match claims.get "email_verified" with
  | some (.bool true) =>
      match claims.getStr "email", claims.getStr "sub" with
      | some email, some subject =>
          if subject = verifier.toLowercase email then .ok () else .error .subjectMismatch
      | _, _ => .error .malformed
  | _ => .error .emailUnverified

def accepted (all : JsonObject) : VerifiedClaims :=
  let text (name : String) := (all.getStr name).getD ""
  let time (name : String) := clamp ((integer all name).getD 0)
  { issuer := text "iss"
    audience := text "aud"
    environment := text "env"
    subject := text "sub"
    email := verifier.toLowercase (text "email")
    idpIssuer := all.getStr "idp_iss"
    idpSubject := all.getStr "idp_sub"
    roles := roleNames all
    nonce := text "nonce"
    issuedAt := time "iat"
    notBefore := time "nbf"
    expiresAt := time "exp"
    all }

/-- The checks before the identifier is spent; they do not touch the record. -/
def checksBeforeSpending (call : Call κ) : Except Reason CompactJws := do
  let cookie ← verifier.checkCookieAndState call.request
  let jws ← verifier.parseToken call.request.token
  verifier.checkSignature call.keyFor jws
  verifier.checkPinnedClaims jws.claims
  verifier.checkTimes jws.claims call.now
  verifier.checkNonce jws.claims cookie
  return jws

/-- `run_checks`: the answer, and the record after the call. -/
def runChecks (call : Call κ) (store : JtiStore) : Except Reason VerifiedClaims × JtiStore :=
  match verifier.checksBeforeSpending call with
  | .error reason => (.error reason, store)
  | .ok jws =>
      match verifier.spendJti jws.claims call.now store with
      | (.error reason, after) => (.error reason, after)
      | (.ok (), after) =>
          match verifier.checkIdentity jws.claims with
          | .error reason => (.error reason, after)
          | .ok () => (.ok (verifier.accepted jws.claims), after)

end Verifier

end Hecks.Signin
