import Hecks.Json

/-! The invocation of a command: its receiver apart from its facts, read from the shapes a caller
may send. -/
namespace Hecks

def routingRefusal (message : String) : Refusal :=
  .typeMismatch ("invalid routing envelope: " ++ message)

def nonemptyIdentity (value location : String) : Except Refusal String :=
  if value.isEmpty then .error (routingRefusal (location ++ " identity must not be empty"))
  else .ok value

/-- The receiver of a command: an aggregate, or an entity by its path inside one. -/
structure RoutingEnvelope where
  aggregate : String
  entities : List String

namespace RoutingEnvelope

/-- The identities of `to.entities`, from `index` on. -/
def readEntities : Nat → List Json → Except Refusal (List String)
  | _, [] => .ok []
  | index, identity :: rest => do
      let location := "to.entities[" ++ toString index ++ "]"
      let identity ← identity.asStr.elim
        (.error (routingRefusal (location ++ " must be a scalar identity"))) .ok
      let identity ← nonemptyIdentity identity location
      return identity :: (← readEntities (index + 1) rest)

def fromJson : Json → Except Refusal RoutingEnvelope
  | .str aggregate => do return ⟨← nonemptyIdentity aggregate "to", []⟩
  | .object fields => do
      let value : Json := .object fields
      let aggregate ← ((value.get "aggregate").bind Json.asStr).elim
        (.error (routingRefusal "entity route requires a scalar aggregate identity")) .ok
      let aggregate ← nonemptyIdentity aggregate "to.aggregate"
      let entities ← match value.get "entity", value.get "entities" with
        | some _, some _ =>
            .error (routingRefusal "entity route accepts either entity or entities, not both")
        | some (.str identity), none =>
            (nonemptyIdentity identity "to.entity").map fun identity => [identity]
        | some _, none => .error (routingRefusal "to.entity must be a scalar identity")
        | none, some (.array []) =>
            .error (routingRefusal "entity route requires at least one entity identity")
        | none, some (.array identities) => readEntities 0 identities
        | none, some _ =>
            .error (routingRefusal "to.entities must be an ordered identity list")
        | none, none =>
            .error (routingRefusal "entity route requires at least one entity identity")
      return ⟨aggregate, entities⟩
  | _ => .error (routingRefusal "to must be an aggregate identity or an entity route")

def requireDepth (route : RoutingEnvelope) (expected : Nat) : Except Refusal Unit :=
  if route.entities.length = expected then .ok ()
  else
    .error (.typeMismatch ("to: for an entity command needs " ++ toString expected ++
      " entity identit" ++ (if expected = 1 then "y" else "ies") ++ " after the aggregate — got " ++
      toString route.entities.length))

end RoutingEnvelope

/-- Keys of a step that are no facts, so that `with` may stand beside them. -/
def stepEnvelopeKeys : List String :=
  ["verb", "role", "actor_id", "occurred_at", "dry_run", "query"]

/-- `explicit` says that the facts came under `with`. -/
structure CommandInvocation where
  route : Option RoutingEnvelope
  facts : Json
  explicit : Bool

/-- A null reads as absent. -/
def nonNull : Option Json → Option Json
  | some .null => none
  | value => value

def stripRoutingKeys : Json → Json
  | .object fields => .object (fields.filter fun f => f.1 ≠ "to" ∧ f.1 ≠ "with")
  | other => other

/-- A fact beside `with`, outside the envelope of a step. -/
def hasLooseFact (value : Json) : Bool :=
  value.pairs.any fun f => f.1 ≠ "to" ∧ f.1 ≠ "with" ∧ f.1 ∉ stepEnvelopeKeys

def readRoute : Option Json → Except Refusal (Option RoutingEnvelope)
  | none => .ok none
  | some target => (RoutingEnvelope.fromJson target).map some

def CommandInvocation.fromJson (value : Json) : Except Refusal CommandInvocation :=
  let target := nonNull (value.get "to")
  match nonNull (value.get "with") with
  | none => do
      let route ← readRoute target
      return ⟨route, stripRoutingKeys value, false⟩
  | some facts => do
      if (value.get "args").isSome then
        .error (routingRefusal "cannot combine to/with with legacy args")
      else if hasLooseFact value then
        .error (routingRefusal
          "with: takes command facts, not both with: and loose keyword arguments")
      else
        let route ← readRoute target
        match facts with
        | .object _ => return ⟨route, facts, true⟩
        | _ => .error (routingRefusal "with must be an object of command facts")

end Hecks
