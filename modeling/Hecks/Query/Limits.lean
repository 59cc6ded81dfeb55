import Hecks.Lib.Panics
import Hecks.Query.SortedSlice

/-! The counts a query is cut by, as the machine it is built for holds them: a count is cast to
the machine's `usize`, and a page is asked for with one row more as an `i64`. -/
namespace Hecks.Query

open Panics

inductive Target where
  | host64
  | wasm32

def Target.usizeBits : Target → Nat
  | host64 => 64
  | wasm32 => 32

/-- `as usize` of a count: the bits that fit. -/
def Target.asUsize (target : Target) (n : Nat) : Nat := n % 2 ^ target.usizeBits

/-- What a build decides: the target, and whether arithmetic out of range panics or wraps. -/
structure Build where
  target : Target
  overflowChecks : Bool

/-- The floored count, cast. -/
def resolveLimitOn (target : Target) (limit : Limit) (args : Json) : Nat :=
  target.asUsize (resolveLimit limit args)

def applyOrderingOn (target : Target) (rows : Rows) (orderBy : Option OrderBy)
    (offset : Option Offset) (limit : Option Limit) (args : Json) : Rows :=
  let rows := sortById rows
  let rows := match orderBy with
    | some order => applyDeclaredOrder rows order
    | none => rows
  let rows := match offset with
    | some offset => rows.drop (min (resolveLimitOn target offset args) rows.length)
    | none => rows
  match limit with
  | some limit => rows.take (resolveLimitOn target limit args)
  | none => rows

section

variable (escapes : Char → Bool) (store : Store)

def cursorRowsOn (target : Target) (entries : Rows) (definition : QueryDef) (args : Json) :
    Except Refusal Rows := do
  let ordered := applyOrderingOn target entries definition.orderBy none none args
  let after := (args.get "after").bind Json.asStr
  let rows ← rowsAfter escapes ordered definition.orderBy after
  match definition.limit with
  | some limit => return rows.take (resolveLimitOn target limit args)
  | none => return rows

def runOn (target : Target) (definition : QueryDef) (args : Json) : Except Refusal Rows := do
  authorize definition args
  let rows ← scan escapes store definition.aggregate
  let entries := conditionRows definition args [] rows
  let entries ← applyReferenceHops escapes store entries definition.referenceHopConditions args
  if definition.cursor then cursorRowsOn escapes target entries definition args
  else
    return applyOrderingOn target entries definition.orderBy definition.offset definition.limit args

/-- `size as i64 + 1`. -/
def onePast (build : Build) (size : Nat) : Run Refusal Int64 :=
  if Int64.ofNat size = Int64.maxValue ∧ build.overflowChecks then
    abort "attempt to add with overflow"
  else pure (Int64.ofNat size + 1)

def runPageOn (build : Build) (definition : QueryDef) (args : Json) : Run Refusal Page := do
  let size := match definition.limit with
    | none => 0
    | some limit => resolveLimitOn build.target limit args
  let widened ← onePast build size
  let fetching := { definition with limit := some (.literal widened) }
  let rows ← (runOn escapes store build.target fetching args).mapError .refused
  let (rows, after) := splitPage rows definition.orderBy size
  return ⟨rows, after⟩

end

/-! ### Where the casts do no harm -/

/-- The cast counts cut a list of `n` rows where the counts themselves do. -/
def CutsAlike (target : Target) (n : Nat) (offset limit : Option Nat) : Prop :=
  if offset.getD 0 < 2 ^ target.usizeBits then
    ∀ l ∈ limit, l < 2 ^ target.usizeBits ∨ n - offset.getD 0 ≤ target.asUsize l
  -- an offset past every list has to stay past this one
  else n ≤ target.asUsize (offset.getD 0) ∨ ∃ l ∈ limit, target.asUsize l = 0

/-- A page of `size` rows comes out whole where `n` rows are left. -/
def PageFits (build : Build) (n size : Nat) : Prop :=
  if build.target.asUsize size + 1 = 2 ^ 63 then n = 0 ∧ build.overflowChecks = false
  else if build.target.asUsize size + 1 = 2 ^ build.target.usizeBits then n = 0
  else size < 2 ^ build.target.usizeBits ∨ n ≤ build.target.asUsize size

/-- The rows behind an offset, up to a limit. -/
def window (offset limit : Option Nat) (rows : Rows) : Rows :=
  let rows := rows.drop (offset.getD 0)
  match limit with
  | some l => rows.take l
  | none => rows

section

variable {target : Target} {rows : Rows} {offset limit : Option Nat} {n o l : Nat}

theorem asUsize_of_lt (small : n < 2 ^ target.usizeBits) : target.asUsize n = n :=
  Nat.mod_eq_of_lt small

theorem asUsize_lt (target : Target) (n : Nat) : target.asUsize n < 2 ^ target.usizeBits :=
  Nat.mod_lt _ (by positivity)

/-- A limit cast cuts no more of a list the machine holds where it fits, or leaves the list. -/
theorem take_asUsize_iff (fits : rows.length < 2 ^ target.usizeBits) :
    rows.take (target.asUsize l) = rows.take l ↔
      l < 2 ^ target.usizeBits ∨ rows.length ≤ target.asUsize l := by
  rw [List.take_eq_take_iff]
  by_cases small : l < 2 ^ target.usizeBits
  · simp [asUsize_of_lt small, small]
  · have whole : min l rows.length = rows.length := by omega
    rw [whole, min_eq_right_iff]
    simp [small]

theorem window_past (past : rows.length ≤ offset.getD 0) : window offset limit rows = [] := by
  unfold window
  rw [List.drop_eq_nil_of_le past]
  cases limit with
  | none => rfl
  | some l => exact List.take_nil

theorem window_eq_nil_iff : window offset limit rows = [] ↔
    rows.length ≤ offset.getD 0 ∨ ∃ l ∈ limit, l = 0 := by
  unfold window
  cases limit with
  | none => simp
  | some l => simp [List.take_eq_nil_iff, or_comm]

theorem window_asUsize_iff (fits : rows.length < 2 ^ target.usizeBits) :
    window (offset.map target.asUsize) (limit.map target.asUsize) rows =
      window offset limit rows ↔ CutsAlike target rows.length offset limit := by
  have cast : (offset.map target.asUsize).getD 0 = target.asUsize (offset.getD 0) := by
    cases offset with
    | none => exact (Nat.zero_mod _).symm
    | some o => rfl
  unfold CutsAlike
  by_cases near : offset.getD 0 < 2 ^ target.usizeBits
  · rw [if_pos near]
    unfold window
    rw [cast, asUsize_of_lt near]
    cases limit with
    | none => simp
    | some l =>
      have shorter : (rows.drop (offset.getD 0)).length < 2 ^ target.usizeBits := by
        rw [List.length_drop]
        omega
      simpa using take_asUsize_iff (l := l) shorter
  · rw [if_neg near]
    have past : rows.length ≤ offset.getD 0 := by omega
    rw [window_past past, window_eq_nil_iff, cast]
    simp

theorem applyOrderingOn_eq (target : Target) (rows : Rows) (orderBy : Option OrderBy)
    (offset : Option Offset) (limit : Option Limit) (args : Json) :
    applyOrderingOn target rows orderBy offset limit args =
      window ((offset.map (resolveLimit · args)).map target.asUsize)
        ((limit.map (resolveLimit · args)).map target.asUsize)
        (applyOrdering rows orderBy none none args) := by
  have clipped : ∀ (rows : Rows) (n : Nat), rows.drop (min n rows.length) = rows.drop n :=
    fun rows n => List.drop_eq_drop_min.symm
  unfold applyOrderingOn applyOrdering
  cases offset with
  | none => cases limit <;> rfl
  | some offset =>
    simp only [clipped]
    cases limit <;> rfl

theorem sliced_eq (rows : Rows) (offset : Option Offset) (limit : Option Limit) (args : Json) :
    sliced offset limit args rows =
      window (offset.map (resolveLimit · args)) (limit.map (resolveLimit · args)) rows := by
  cases offset <;> cases limit <;> rfl

section

variable {escapes : Char → Bool} {store : Store} {definition : QueryDef} {args : Json}

theorem cursorRowsOn_limit (entries : Rows) (bound : Limit) :
    cursorRowsOn escapes target entries { definition with limit := some bound } args =
      (·.take (resolveLimitOn target bound args)) <$>
        cursorRowsOn escapes target entries { definition with limit := none } args := by
  unfold cursorRowsOn
  dsimp only
  rw [map_bind]
  rfl

/-- A limit cuts what the query without one answers. -/
theorem runOn_limit (bound : Limit) :
    runOn escapes store target { definition with limit := some bound } args =
      (·.take (resolveLimitOn target bound args)) <$>
        runOn escapes store target { definition with limit := none } args := by
  unfold runOn
  simp only [map_bind]
  congr 1
  funext _
  congr 1
  funext rows
  congr 1
  funext entries
  by_cases cursor : definition.cursor = true
  · rw [if_pos cursor, if_pos cursor]
    exact cursorRowsOn_limit entries bound
  · rw [if_neg cursor, if_neg cursor]
    rfl

end

theorem splitPage_rows (rows : Rows) (orderBy : Option OrderBy) (size : Nat) :
    (splitPage rows orderBy size).1 = rows.take size := by
  unfold splitPage
  split
  · rfl
  · rfl

theorem resolveLimit_lt (limit : Limit) (args : Json) : resolveLimit limit args < 2 ^ 63 := by
  have bound : ∀ raw : Int64, raw.toInt.toNat < 2 ^ 63 := by
    intro raw
    have := raw.toInt_lt
    omega
  exact bound _

theorem ofNat_eq_maxValue {size : Nat} (small : size < 2 ^ 63) :
    Int64.ofNat size = Int64.maxValue ↔ size + 1 = 2 ^ 63 := by
  rw [← Int64.toInt_inj, Int64.toInt_ofNat_of_lt small, Int64.toInt_maxValue]
  omega

/-- What is fetched for a page: one row more, or nothing where that count leaves the `i64` or
the `usize`. -/
theorem fetched_count {size : Nat} (small : size < 2 ^ 63)
    (held : size < 2 ^ target.usizeBits) (args : Json) :
    resolveLimitOn target (.literal (Int64.ofNat size + 1)) args =
      if size + 1 = 2 ^ 63 ∨ size + 1 = 2 ^ target.usizeBits then 0 else size + 1 := by
  have count : resolveLimit (.literal (Int64.ofNat size + 1)) args =
      (Int64.ofNat size + 1).toInt.toNat := rfl
  unfold resolveLimitOn Target.asUsize
  rw [count]
  by_cases top : size + 1 = 2 ^ 63
  · have wrapped : Int64.ofNat size + 1 = Int64.minValue := by
      rw [(ofNat_eq_maxValue small).mpr top]
      decide
    rw [wrapped, if_pos (.inl top)]
    exact Nat.zero_mod _
  · have one : Int64.ofNat size + 1 = Int64.ofNat (size + 1) := (Int64.ofNat_add size 1).symm
    rw [one, Int64.toInt_ofNat_of_lt (by omega), Int.toNat_natCast]
    by_cases full : size + 1 = 2 ^ target.usizeBits
    · rw [if_pos (.inr full), full, Nat.mod_self]
    · rw [if_neg (not_or.mpr ⟨top, full⟩), Nat.mod_eq_of_lt (by omega)]

/-- The rows of a page that is fetched, against those asked for. -/
theorem pageFits_iff {build : Build} {size : Nat} (fits : rows.length < 2 ^ build.target.usizeBits)
    (settles : ¬ (build.target.asUsize size + 1 = 2 ^ 63 ∧ build.overflowChecks = true)) :
    (rows.take (if build.target.asUsize size + 1 = 2 ^ 63 ∨
        build.target.asUsize size + 1 = 2 ^ build.target.usizeBits then 0
      else build.target.asUsize size + 1)).take (build.target.asUsize size) = rows.take size ↔
      PageFits build rows.length size := by
  have empty : build.target.asUsize size ≠ 0 →
      ((([] : Rows) = rows.take size) ↔ rows.length = 0) := by
    intro held
    have positive : size ≠ 0 := by
      rintro rfl
      exact held (Nat.zero_mod _)
    rw [eq_comm, List.take_eq_nil_iff, List.length_eq_zero_iff]
    simp [positive]
  have bits : 1 < 2 ^ build.target.usizeBits := by
    cases build.target <;> decide
  unfold PageFits
  by_cases overflows : build.target.asUsize size + 1 = 2 ^ 63
  · have unchecked : build.overflowChecks = false := by
      rw [← Bool.not_eq_true]
      exact fun checks => settles ⟨overflows, checks⟩
    rw [if_pos (.inl overflows), if_pos overflows, List.take_zero, List.take_nil,
      empty (by omega)]
    simp [unchecked]
  rw [if_neg overflows]
  by_cases full : build.target.asUsize size + 1 = 2 ^ build.target.usizeBits
  · rw [if_pos (.inr full), if_pos full, List.take_zero, List.take_nil, empty (by omega)]
  · rw [if_neg (not_or.mpr ⟨overflows, full⟩), if_neg full, List.take_take,
      min_eq_left (by omega)]
    exact take_asUsize_iff fits

section

variable {escapes : Char → Bool} {store : Store} {definition : QueryDef} {args : Json}
  {build : Build} {bound : Limit} {rest : Rows}

/-- The page over the rows the query without a limit answers. -/
theorem runPageOn_eq {widened : Int64} (limited : definition.limit = some bound)
    (answers : runOn escapes store build.target { definition with limit := none } args = .ok rest)
    (past : onePast build (resolveLimitOn build.target bound args) = .ok widened) :
    ∃ after, runPageOn escapes store build definition args =
      .ok ⟨(rest.take (resolveLimitOn build.target (.literal widened) args)).take
        (resolveLimitOn build.target bound args), after⟩ := by
  have fetched : runOn escapes store build.target
      { definition with limit := some (.literal widened) } args = .ok (rest.take (resolveLimitOn build.target (.literal widened) args)) := by
    rw [runOn_limit, answers]
    rfl
  rw [← splitPage_rows _ definition.orderBy]
  refine ⟨(splitPage (rest.take (resolveLimitOn build.target (.literal widened) args))
    definition.orderBy (resolveLimitOn build.target bound args)).2, ?_⟩
  unfold runPageOn
  rw [limited]
  dsimp only
  rw [past]
  show (Except.mapError Halt.refused (runOn escapes store build.target _ args) >>= _) = _
  rw [fetched]
  rfl

/-- The addition panics, and so does the page. -/
theorem runPageOn_aborts (limited : definition.limit = some bound)
    (overflows : Int64.ofNat (resolveLimitOn build.target bound args) = Int64.maxValue)
    (checks : build.overflowChecks = true) :
    runPageOn escapes store build definition args = abort "attempt to add with overflow" := by
  have aborted : onePast build (resolveLimitOn build.target bound args) =
      abort "attempt to add with overflow" := if_pos ⟨overflows, checks⟩
  unfold runPageOn
  rw [limited]
  dsimp only
  rw [aborted]
  rfl

/-- A page comes out with the rows asked for exactly where neither the cast nor the row more
does harm. -/
theorem runPageOn_iff (limited : definition.limit = some bound)
    (answers : runOn escapes store build.target { definition with limit := none } args = .ok rest)
    (fits : rest.length < 2 ^ build.target.usizeBits) :
    (∃ after, runPageOn escapes store build definition args =
      .ok ⟨rest.take (resolveLimit bound args), after⟩) ↔
        PageFits build rest.length (resolveLimit bound args) := by
  have cast : resolveLimitOn build.target bound args =
    build.target.asUsize (resolveLimit bound args) := rfl
  have within : build.target.asUsize (resolveLimit bound args) < 2 ^ 63 :=
    (Nat.mod_le _ _).trans_lt (resolveLimit_lt bound args)
  by_cases aborts : build.target.asUsize (resolveLimit bound args) + 1 = 2 ^ 63 ∧
      build.overflowChecks = true
  · rw [runPageOn_aborts limited ((ofNat_eq_maxValue within).mpr aborts.1) aborts.2]
    unfold PageFits
    rw [if_pos aborts.1, aborts.2]
    constructor
    · rintro ⟨after, ⟨⟩⟩
    · rintro ⟨-, ⟨⟩⟩
  · have past : onePast build (resolveLimitOn build.target bound args) =
        .ok (Int64.ofNat (resolveLimitOn build.target bound args) + 1) := by
      apply if_neg
      rintro ⟨top, checks⟩
      exact aborts ⟨(ofNat_eq_maxValue within).mp top, checks⟩
    obtain ⟨after, page⟩ := runPageOn_eq limited answers past
    rw [page, cast, fetched_count within (asUsize_lt build.target _) args,
      ← pageFits_iff fits aborts]
    constructor
    · rintro ⟨after', same⟩
      simp only [Except.ok.injEq, Page.mk.injEq] at same
      exact same.1
    · intro same
      rw [same]
      exact ⟨after, rfl⟩

end

end

/-- On either target the offset and the limit cut the ordered rows as they are asked to, and a page
holds the rows asked for, exactly where the casts and the row more do no harm. -/
theorem limits_exact_iff (build : Build) :
    (∀ (rows : Rows) (orderBy : Option OrderBy) (offset : Option Offset) (limit : Option Limit)
      (args : Json), rows.length < 2 ^ build.target.usizeBits →
      (applyOrderingOn build.target rows orderBy offset limit args =
          sliced offset limit args (applyOrdering rows orderBy none none args) ↔
        CutsAlike build.target rows.length (offset.map (resolveLimit · args))
          (limit.map (resolveLimit · args)))) ∧
    ∀ (escapes : Char → Bool) (store : Store) (definition : QueryDef) (limit : Limit) (args : Json)
      (rest : Rows), definition.limit = some limit →
      runOn escapes store build.target { definition with limit := none } args = .ok rest →
      rest.length < 2 ^ build.target.usizeBits →
      ((∃ after, runPageOn escapes store build definition args =
          .ok ⟨rest.take (resolveLimit limit args), after⟩) ↔
        PageFits build rest.length (resolveLimit limit args)) := by
  constructor
  · intro rows orderBy offset limit args fits
    have whole : (applyOrdering rows orderBy none none args).length = rows.length :=
      (applyOrdering_perm rows orderBy args).length_eq
    rw [applyOrderingOn_eq, sliced_eq, window_asUsize_iff (by rwa [whole]), whole]
  · intro escapes store definition limit args rest limited answers fits
    exact runPageOn_iff limited answers fits

/-- The items of the shop, a page of as many as asked for. -/
def itemPage (count : Int64) : QueryDef := { itemQuery with limit := some (.literal count) }

theorem item_answer_on (target : Target) (count : Int64) :
    runOn (fun _ => false) itemStore target { itemPage count with limit := none } (.object []) =
      .ok itemAnswer := by
  with_unfolding_all rfl

theorem one_item_fits : ∃ after, runPageOn (fun _ => false) itemStore ⟨.wasm32, true⟩ (itemPage 1)
    (.object []) = .ok ⟨itemAnswer.take 1, after⟩ :=
  ((limits_exact_iff ⟨.wasm32, true⟩).2 _ _ _ (.literal 1) _ _ rfl (item_answer_on _ _)
    (by decide)).mpr (by unfold PageFits; decide)

/-- A limit of 2 ^ 32 leaves no row on the 32-bit target, and a page of 2 ^ 63 - 1 rows does not
come out with the rows it is asked for on the other. -/
theorem widest_counts_lost :
    applyOrderingOn .wasm32 tiedRows none none (some (.literal 4294967296)) .null ≠
      sliced none (some (.literal 4294967296)) .null
        (applyOrdering tiedRows none none none .null) ∧
    ¬ ∃ after, runPageOn (fun _ => false) itemStore ⟨.host64, false⟩ (itemPage Int64.maxValue)
      (.object []) =
        .ok ⟨itemAnswer.take (resolveLimit (.literal Int64.maxValue) (.object [])), after⟩ := by
  constructor
  · rw [applyOrderingOn_eq, sliced_eq]
    intro same
    have lost := congrArg List.length same
    revert lost
    decide
  · intro page
    have fits : PageFits ⟨.host64, false⟩ itemAnswer.length
        (resolveLimit (.literal Int64.maxValue) (.object [])) :=
      (runPageOn_iff rfl (item_answer_on .host64 Int64.maxValue)
        (show itemAnswer.length < 2 ^ Target.host64.usizeBits by decide)).mp page
    revert fits
    unfold PageFits
    decide

end Hecks.Query
