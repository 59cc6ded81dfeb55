import Hecks.Json

/-! Facts a command `needs`, answered before the argument gates read the arguments. -/
namespace Hecks

/-- One needed fact of a command and the type of the attribute it fills. -/
structure Need where
  fact : String
  attributeType : String

/-- What the host installed: which command needs what, the declared defaults, and the fixed
clock of the test seam. -/
structure Needs where
  table : List (String × List Need)
  defaults : List (String × List (String × Json))
  fixedClock : Option Int64

/-- The outside world a dispatch can ask: the system clock in epoch seconds and the callback
for a fact the kernel cannot answer, when one is installed. Both may move the world on. -/
structure Host (H : Type) where
  systemSecs : H → Int64 × H
  ask : Option (H → Need → Option Json × H)

namespace Needs

variable {H : Type}

/-- Days since the epoch of a civil date, in the machine arithmetic of the source. -/
def daysFromCivil (y m day : Int64) : Int64 :=
  let y := if m ≤ 2 then y - 1 else y
  let era := (if 0 ≤ y then y else y - 399) / 400
  let yoe := y - era * 400
  let doy := (153 * (if 2 < m then m - 3 else m + 9) + 2) / 5 + day - 1
  let doe := yoe * 365 + yoe / 4 - yoe / 100 + doy
  era * 146097 + doe - 719468

/-- `YYYY-MM-DDTHH:MM:SSZ` to epoch seconds. -/
def parseIso8601Utc (text : String) : Option Int64 := do
  let text ← Text.stripSuffix 'Z' text
  let (date, time) ← Text.splitOnce "T" text
  match Text.segments '-' date, Text.segments ':' time with
  | y :: m :: day :: _, h :: mi :: s :: _ =>
      let days := daysFromCivil (← Text.parseI64 y) (← Text.parseI64 m) (← Text.parseI64 day)
      let s ← Text.parseI64 (Text.firstSegment "." s)
      some (days * 86400 + (← Text.parseI64 h) * 3600 + (← Text.parseI64 mi) * 60 + s)
  | _, _ => none

/-- The clock's answer: the fixed clock, the step's `occurred_at` when it parses, else the
system clock. -/
def nowSecs (needs : Needs) (host : Host H) (occurredAt : Option String) (w : H) : Int64 × H :=
  match needs.fixedClock, occurredAt.bind parseIso8601Utc with
  | some fixed, _ => (fixed, w)
  | none, some secs => (secs, w)
  | none, none => host.systemSecs w

def answer (needs : Needs) (host : Host H) (need : Need) (occurredAt : Option String) (w : H) :
    Option Json × H :=
  if need.fact = "now" ∨ need.fact = "today" then
    let (secs, w) := needs.nowSecs host occurredAt w
    let answer :=
      if need.fact = "today" then Int64.ofInt (secs.toInt / 86400) else secs
    let value :=
      if need.attributeType = "Integer" then Json.int answer
      else .object [("value", Json.int answer)]
    (some value, w)
  else
    match host.ask with
    | some ask => ask w need
    | none => (none, w)

/-- The needed facts the caller left out, appended as they are answered. -/
def fill (needs : Needs) (host : Host H) (occurredAt : Option String)
    (held : List (String × Json)) :
    List Need → List (String × Json) → H → List (String × Json) × H
  | [], filled, w => (filled, w)
  | need :: rest, filled, w =>
      if held.any fun f => f.1 = need.fact then needs.fill host occurredAt held rest filled w
      else
        match needs.answer host need occurredAt w with
        | (some value, w) =>
            needs.fill host occurredAt held rest (filled ++ [(need.fact, value)]) w
        | (none, w) => needs.fill host occurredAt held rest filled w

/-- The declared defaults of the names still missing. -/
def fillDefaults :
    List (String × Json) → List (String × Json) → List (String × Json)
  | [], filled => filled
  | (name, value) :: rest, filled =>
      fillDefaults rest
        (if filled.any fun f => f.1 = name then filled else filled ++ [(name, value)])

/-- `enrich`: the arguments with each needed fact and default filled in, or `none` when
nothing was; a call that carries `with` is filled there. -/
def enrich (needs : Needs) (host : Host H) (verb : String) (args : Json)
    (occurredAt : Option String) (w : H) : Option Json × H :=
  let needed := ((needs.table.find? fun e => e.1 = verb).map (·.2)).getD []
  let defaults := ((needs.defaults.find? fun e => e.1 = verb).map (·.2)).getD []
  if needed.isEmpty ∧ defaults.isEmpty then (none, w)
  else
    let explicit := match args.get "with" with
      | some (.object fields) => some fields
      | _ => none
    let held := match explicit, args with
      | some fields, _ => some fields
      | none, .object fields => some fields
      | none, _ => none
    match held with
    | none => (none, w)
    | some held =>
        let (filled, w) := needs.fill host occurredAt held needed held w
        let filled := fillDefaults defaults filled
        if filled.length = held.length then (none, w)
        else
          match explicit with
          | none => (some (.object filled), w)
          | some _ =>
              (some (.object (args.pairs.map fun (k, v) =>
                if k = "with" then (k, .object filled) else (k, v))), w)

end Needs

end Hecks
