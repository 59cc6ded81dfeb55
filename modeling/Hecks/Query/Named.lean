import Hecks.Query.Cursor
import Hecks.Lib.Reading

/-! Declared queries: the compiled definition, and its run against a store. -/
namespace Hecks.Query

inductive QueryConditionValue where
  | literal (text : String)
  | numericLiteral (n : Float.Model)
  | arg (name : String)
  | null

structure QueryCondition where
  field : String
  comparator : QueryComparator
  value : QueryConditionValue

/-- One further step of a chain of references. -/
structure HopStep where
  viaField : String
  targetAggregate : String

/-- A clause that hops through references; the inner clause is tested on the last target. -/
structure ReferenceHopCondition where
  viaField : String
  targetAggregate : String
  through : List HopStep
  innerField : String
  innerComparator : QueryComparator
  innerValue : QueryConditionValue

structure TenantAuth where
  queryName : String
  tenantField : String
  policy : String

structure QueryDef where
  verb : String
  aggregate : String
  conditions : List QueryCondition
  referenceHopConditions : List ReferenceHopCondition
  orderBy : Option OrderBy
  offset : Option Offset
  limit : Option Limit
  cursor : Bool
  authorization : Option TenantAuth

/-- The operand a condition compares with; a missing argument reads as null. -/
def QueryConditionValue.resolve (value : QueryConditionValue) (args : Json) : Json :=
  match value with
  | literal text => .str text
  | numericLiteral n => .num n none
  | arg name => (args.get name).getD .null
  | null => .null

def tenantRequired (auth : TenantAuth) : String :=
  Text.replaceAll "\x7bfield\x7d" auth.tenantField (Text.replaceAll "\x7bquery\x7d" auth.queryName
    ("\x7bquery\x7d declares authorize with tenant: \x7bfield\x7d — pass \x7bfield\x7d: " ++
      "to name which \x7bfield\x7d this ask is scoped to"))

section

variable (escapes : Char → Bool) (store : Store)

def unknownAggregate (aggregate : String) : Refusal :=
  .typeMismatch ("unknown aggregate " ++ Text.debugStr escapes aggregate)

def scan (aggregate : String) : Except Refusal Rows :=
  match store.scan aggregate with
  | some rows => .ok rows
  | none => .error (unknownAggregate escapes aggregate)

def idsOf (entries : Rows) : List Json := entries.map fun e => .str e.1

/-- The earlier steps of a chain, inside out: each keeps the rows of its source whose next
field points at one of the ids. The sources are given last first. -/
def narrow : List (String × String) → List Json → Except Refusal (List Json)
  | [], ids => .ok ids
  | (viaField, source) :: steps, ids => do
      let entries ← scan escapes store source
      narrow steps (idsOf (filterEntries entries viaField .in (.array ids)))

/-- One clause of `apply_reference_hops`. -/
def applyReferenceHop (rows : Rows) (hop : ReferenceHopCondition) (args : Json) :
    Except Refusal Rows := do
  let chain := (hop.viaField, hop.targetAggregate) ::
    hop.through.map fun step => (step.viaField, step.targetAggregate)
  let lastTarget := (chain.getLast?.map (·.2)).getD hop.targetAggregate
  let entries ← scan escapes store lastTarget
  let innermost := idsOf
    (filterEntries entries hop.innerField hop.innerComparator (hop.innerValue.resolve args))
  -- each step but the first, with the target of the step before it as its source
  let steps := (chain.tail.map (·.1)).zip (chain.map (·.2))
  let ids ← narrow escapes store steps.reverse innermost
  return filterEntries rows hop.viaField .in (.array ids)

def applyReferenceHops (rows : Rows) : List ReferenceHopCondition → Json → Except Refusal Rows
  | [], _ => .ok rows
  | hop :: hops, args => do
      let rows ← applyReferenceHop escapes store rows hop args
      applyReferenceHops rows hops args

/-- The ordered rows after the call's `after`, capped at the page size. -/
def cursorRows (entries : Rows) (definition : QueryDef) (args : Json) : Except Refusal Rows := do
  let ordered := applyOrdering entries definition.orderBy none none args
  let after := (args.get "after").bind Json.asStr
  let rows ← rowsAfter escapes ordered definition.orderBy after
  match definition.limit with
  | some limit => return rows.take (resolveLimit limit args)
  | none => return rows

/-- The entries a query's own conditions keep, in id order. -/
def conditionRows (definition : QueryDef) (args : Json) (crossDomain : List (String × Store))
    (rows : Rows) : Rows :=
  sortById (rows.filter fun e => definition.conditions.all fun c =>
    entryMatches e.2 c.field c.comparator (comparable (c.value.resolve args)) crossDomain)

/-- A query that declares a tenant is refused without one. -/
def authorize (definition : QueryDef) (args : Json) : Except Refusal Unit :=
  match definition.authorization with
  | none => .ok ()
  | some auth =>
      if (args.get auth.tenantField).isNone then .error (.unauthorized (tenantRequired auth))
      else .ok ()

def runCrossDomain (definition : QueryDef) (args : Json) (crossDomain : List (String × Store)) :
    Except Refusal Rows := do
  authorize definition args
  let rows ← scan escapes store definition.aggregate
  let entries := conditionRows definition args crossDomain rows
  let entries ← applyReferenceHops escapes store entries definition.referenceHopConditions args
  if definition.cursor then cursorRows escapes entries definition args
  else
    return applyOrdering entries definition.orderBy definition.offset definition.limit args

def run (definition : QueryDef) (args : Json) : Except Refusal Rows :=
  runCrossDomain escapes store definition args []

/-- One page of a cursor query; no token on the last page. -/
structure Page where
  rows : Rows
  after : Option String

/-- `run`, asked for one row past the page. -/
def runPage (definition : QueryDef) (args : Json) : Except Refusal Page := do
  let size := match definition.limit with
    | none => 0
    | some limit => resolveLimit limit args
  let widened := { definition with limit := some (.literal (Int64.ofNat size + 1)) }
  let rows ← run escapes store widened args
  let (rows, after) := splitPage rows definition.orderBy size
  return ⟨rows, after⟩

end

section

variable {escapes : Char → Bool} {store : Store} {definition : QueryDef} {args : Json}

theorem scan_eq_ok {aggregate : String} {rows : Rows} :
    scan escapes store aggregate = .ok rows ↔ store.scan aggregate = some rows := by
  unfold scan
  cases store.scan aggregate <;> simp

/-- What a run that is not refused went through. -/
theorem run_eq_ok {rows : Rows} :
    run escapes store definition args = .ok rows ↔ authorize definition args = .ok () ∧
      ∃ held kept, store.scan definition.aggregate = some held ∧
        applyReferenceHops escapes store (conditionRows definition args [] held)
          definition.referenceHopConditions args = .ok kept ∧
        (if definition.cursor then cursorRows escapes kept definition args
          else .ok (applyOrdering kept definition.orderBy definition.offset definition.limit args)) =
          .ok rows := by
  unfold run runCrossDomain
  constructor
  · intro h
    obtain ⟨⟨⟩, authorized, h⟩ := Reading.bind_eq_ok.mp h
    obtain ⟨held, scanned, h⟩ := Reading.bind_eq_ok.mp h
    obtain ⟨kept, hopped, h⟩ := Reading.bind_eq_ok.mp h
    exact ⟨authorized, held, kept, scan_eq_ok.mp scanned, hopped, h⟩
  · rintro ⟨authorized, held, kept, scanned, hopped, h⟩
    apply Reading.bind_eq_ok.mpr
    refine ⟨(), authorized, Reading.bind_eq_ok.mpr ⟨held, scan_eq_ok.mpr scanned, ?_⟩⟩
    exact Reading.bind_eq_ok.mpr ⟨kept, hopped, h⟩

end

def find (table : List QueryDef) (verb : String) : Option QueryDef :=
  table.find? fun d => d.verb = verb

end Hecks.Query
